import CSE130.Lib.Memory
import CSE130.Lib.Traced
import CSE130.Lab3.Arguments
import Mathlib.Data.Int.Notation
import Mathlib.Logic.Function.Basic
import Mathlib.Algebra.Ring.Int.Defs

/-! # The file system calls of a user process

`userprog/syscall.c` with what it reads of `umem.c`, `process.c`, `file.c` and `inode.c`.  Every call is a
computation that logs what the kernel accesses on behalf of the process: the bytes of user
memory, the entries of the descriptor table `oft` and the files taken from there.

The rest of the kernel is what a call finds (`Env`): the memory of the process, the inodes, and
the answers of `malloc`, `inode_reserve`, `filesys_open` and of `process_execute` once it has
copied its command line. -/

namespace CSE130.Lab3.Syscall

open Traced
open Function (update)

/-- `struct file`: its inode and position. -/
structure File where
  inode : ℕ
  pos : ℤ
  deriving DecidableEq

/-- What is read of a `struct inode`. -/
structure Inode where
  length : ℤ
  denyWriteCnt : ℕ

/-- The fields of `struct thread` for its files.  The table `oft` has the entries 0 to 31; the
other indices stand for the memory next to it. -/
structure Process where
  oft : ℤ → Option File
  maxFd : ℤ

/-- What a call finds in memory and in the kernel. -/
structure Env where
  /-- The virtual memory. -/
  mem : Mem
  /-- The page directory of the process. -/
  mapped : ℕ → Bool
  /-- No segment is loaded to page 0 (`validate_segment`). -/
  page0 : ∀ a, a < pgsize → mapped a = false
  inodes : ℕ → Inode
  /-- `malloc (BLOCK_SECTOR_SIZE)` returns a bounce buffer. -/
  bounce : Bool
  /-- `inode_reserve` succeeds. -/
  reserves : Bool
  /-- The result of `filesys_create`. -/
  created : Bool
  /-- The file that `filesys_open` returns. -/
  opened : Option File
  /-- `palloc_get_page` finds a page for the copy of a command line. -/
  page : Bool
  /-- What `process_execute` returns when its child is done loading. -/
  started : ℤ

/-- What the kernel accesses. -/
inductive Access where
  /-- A byte of memory is read. -/
  | load (a : ℕ)
  /-- A byte of memory is written. -/
  | store (a : ℕ)
  /-- The table `oft` is read or written at an index. -/
  | table (i : ℤ)
  /-- A file is passed to `file_read`, `file_write` or `file_length`. -/
  | file (f : Option File)
  deriving DecidableEq

/-- A kernel function on behalf of the process; it may end in `sys_exit`. -/
abbrev Call := Traced ℤ Access

variable (e : Env) (p : Process)

/-- The byte at `a` is the process's own. -/
def Env.valid (a : ℕ) : Bool := a < physBase && e.mapped a

/-! ### umem.c -/

/-- `umem_get`: the byte at `a`, or `none` for -1.  The page fault of an address that is not
mapped is caught, the byte is not read. -/
def umemGet (a : ℕ) : Call (Option UInt8) :=
  if e.valid a then do
    access (.load a)
    pure (some (e.mem a))
  else pure none

/-! ### Copies to and from user memory -/

/-- The bytes of a copy, one after the other. -/
def touch (f : ℕ → Access) : ℕ → ℕ → Call Unit
  | _, 0 => pure ()
  | a, n + 1 => do
      access (f a)
      touch f (a + 1) n

/-- `strlen`, `memcpy` and `strtok_r` on a string: the bytes up to its null byte.  The kernel can
read its own half of the address space. -/
def loadString : ℕ → ℕ → Call Unit
  | 0, _ => pure ()
  | fuel + 1, a => do
      access (.load a)
      if (e.mapped a || physBase ≤ a) && e.mem a != 0 then loadString fuel (a + 1) else pure ()

/-- The loop of `inode_read_at` and of `inode_write_at`, for an inode of `length` bytes: the
number of bytes copied.  The caller's buffer is accessed as `f` says. -/
def copyLoop (length : ℤ) (f : ℕ → Access) : ℕ → ℕ → ℤ → ℤ → Call ℤ
  | 0, _, _, _ => pure 0
  | fuel + 1, buffer, size, offset =>
      let sectorOfs := offset % 512
      let chunkSize := min size (min (length - offset) (512 - sectorOfs))
      if size ≤ 0 ∨ chunkSize ≤ 0 then pure 0
      else if sectorOfs = 0 ∧ chunkSize = 512 ∨ e.bounce then do
        touch f buffer chunkSize.toNat
        let n ← copyLoop length f fuel (buffer + chunkSize.toNat) (size - chunkSize)
          (offset + chunkSize)
        pure (chunkSize + n)
      else pure 0

/-- `inode_read_at`. -/
def inodeReadAt (inode : Inode) (buffer : ℕ) (size offset : ℤ) : Call ℤ :=
  copyLoop e inode.length .store size.toNat buffer size offset

/-- `inode_write_at`: a write that ends past the end of file extends the inode first. -/
def inodeWriteAt (inode : Inode) (buffer : ℕ) (size offset : ℤ) : Call ℤ :=
  if inode.denyWriteCnt ≠ 0 then pure 0
  else if 0 ≤ offset + size - 1 ∧ offset + size - 1 < inode.length then
    copyLoop e inode.length .load size.toNat buffer size offset
  else if e.reserves then copyLoop e (offset + size) .load size.toNat buffer size offset
  else pure 0

/-- An `unsigned` passed as `off_t`. -/
def toOff (size : ℕ) : ℤ := if size < 2 ^ 31 then size else size - 2 ^ 32

/-! ### The descriptor table and file.c -/

/-- `oft[i]` -/
def tableGet (i : ℤ) : Call (Option File) := do
  access (.table i)
  pure (p.oft i)

/-- `oft[i] = f` -/
def tableSet (i : ℤ) (f : Option File) : Call Process := do
  access (.table i)
  pure { p with oft := update p.oft i f }

/-- The file at the index `i` is at a new position. -/
def Process.advance (i : ℤ) (f : File) (n : ℤ) : Process :=
  { p with oft := update p.oft i (some { f with pos := f.pos + n }) }

/-- `file_read (oft[i], buffer, size)`. -/
def fileRead (i : ℤ) (rf : File) (buffer size : ℕ) : Call (ℤ × Process) := do
  access (.file (some rf))
  let n ← inodeReadAt e (e.inodes rf.inode) buffer (toOff size) rf.pos
  pure (n, p.advance i rf n)

/-- `file_write (oft[i], buffer, size)`.  A null pointer is dereferenced: the word at address 0 is
taken for `file->inode`; what comes of it is not modelled. -/
def fileWrite (i : ℤ) (wf : Option File) (buffer size : ℕ) : Call (ℤ × Process) := do
  access (.file wf)
  match wf with
  | none =>
      touch .load 0 4
      pure (0, p)
  | some f =>
      let n ← inodeWriteAt e (e.inodes f.inode) buffer (toOff size) f.pos
      pure (n, p.advance i f n)

/-- `file_length`, which asserts that its argument is not null. -/
def fileLength (f : Option File) : Call ℤ := do
  access (.file f)
  pure ((f.map fun f => (e.inodes f.inode).length).getD 0)

/-! ### syscall.c -/

/-- `sys_write`. -/
def sysWrite (fd : ℤ) (buffer size : ℕ) : Call (ℤ × Process) := do
  match ← umemGet e buffer with
  | none => exit (-1)
  | some _ =>
      if fd = 1 then
        touch .load buffer size
        pure (size, p)
      else if ¬(fd < 3 ∨ fd > 32) then
        let wf ← tableGet p (fd - 3)
        fileWrite e p (fd - 3) wf buffer size
      else exit (-1)

/-- `sys_create`.  The loops over the path stop at the end of the address space at the latest. -/
def sysCreate (file : ℕ) : Call (ℤ × Process) := do
  if file = 0 then exit (-1)
  else
    match ← umemGet e file with
    | none => exit (-1)
    | some _ =>
        loadString e (2 ^ 32 - file) file
        pure (if e.created then 1 else 0, p)

/-- Increment an `int`. -/
def incr (x : ℤ) : ℤ := Int.bmod (x + 1) (2 ^ 32)

/-- `sys_open`: `max_fd` is incremented twice. -/
def sysOpen (file : ℕ) : Call (ℤ × Process) := do
  if file = 0 then exit (-1)
  else
    match ← umemGet e file with
    | none => exit (-1)
    | some _ =>
        loadString e (2 ^ 32 - file) file
        let fd := p.maxFd
        let p := { p with maxFd := incr (incr p.maxFd) }
        match e.opened with
        | none => pure (-1, p)
        | some f =>
            let p ← tableSet p (fd - 3) (some f)
            pure (fd, p)

/-- `process_execute`: `strlen` for the size of an array, then the two copies.  A child that never
ups the lock of its parent leaves the call where it is, after the same accesses. -/
def processExecute (cmdline : ℕ) : Call ℤ := do
  loadString e (2 ^ 32 - cmdline) cmdline
  if e.page then do
    loadString e (2 ^ 32 - cmdline) cmdline
    loadString e (2 ^ 32 - cmdline) cmdline
    pure e.started
  else pure (-1)

/-- `sys_exec`: the file is opened again to see whether there is one. -/
def sysExec (file : ℕ) : Call (ℤ × Process) := do
  match ← umemGet e file with
  | none => exit (-1)
  | some _ =>
      let tid ← processExecute e file
      loadString e (2 ^ 32 - file) file
      match e.opened with
      | none => pure (-1, p)
      | some _ => pure (tid, p)

/-- `sys_read`. -/
def sysRead (fd : ℤ) (buffer size : ℕ) : Call (ℤ × Process) := do
  match ← umemGet e buffer with
  | none => exit (-1)
  | some _ =>
      if fd < 3 ∨ fd > 32 then pure (-1, p)
      else
        match ← tableGet p (fd - 3) with
        | none => pure (-1, p)
        | some rf => fileRead e p (fd - 3) rf buffer size

/-- `sys_filesize`. -/
def sysFilesize (fd : ℤ) : Call (ℤ × Process) := do
  let f ← tableGet p (fd - 3)
  let n ← fileLength e f
  pure (n, p)

/-- `sys_close`. -/
def sysClose (fd : ℤ) : Call Process := do
  if fd < 3 ∨ fd > 32 then exit (-1)
  else tableSet p (fd - 3) none

/-- The calls of a process with their arguments. -/
inductive Request where
  | exit (code : ℤ)
  | create (file : ℕ)
  | open (file : ℕ)
  | exec (file : ℕ)
  | filesize (fd : ℤ)
  | read (fd : ℤ) (buffer size : ℕ)
  | write (fd : ℤ) (buffer size : ℕ)
  | close (fd : ℤ)
  deriving DecidableEq

/-- The handler stores the result in `eax`. -/
def returns (x : Call (ℤ × Process)) : Call (Option ℤ × Process) := do
  let (n, p) ← x
  pure (some n, p)

/-- A call: the value returned, if it has one, and the process after it. -/
def perform : Request → Call (Option ℤ × Process)
  | .exit code => exit code
  | .create file => returns (sysCreate e p file)
  | .open file => returns (sysOpen e p file)
  | .exec file => returns (sysExec e p file)
  | .filesize fd => returns (sysFilesize e p fd)
  | .read fd buffer size => returns (sysRead e p fd buffer size)
  | .write fd buffer size => returns (sysWrite e p fd buffer size)
  | .close fd => do
      let p ← sysClose p fd
      pure (none, p)

/-- The pointer that is passed to a call. -/
def Request.pointer : Request → Option ℕ
  | .exit _ | .filesize _ | .close _ => none
  | .create a | .open a | .exec a | .read _ a _ | .write _ a _ => some a

variable {e : Env} {p : Process} {P : Access → Prop} {f : ℕ → Access} {a : ℕ} {length size offset : ℤ}

@[simp] theorem only_returns {x : Call (ℤ × Process)} : (returns x).Only P ↔ x.Only P := by
  simp [returns, only_bind]

theorem returns_ok {x : Call (ℤ × Process)} {v : ℤ} (h : x.result = .ok (v, p)) :
    (returns x).result = .ok (some v, p) := result_bind_of_ok h _

theorem returns_error {x : Call (ℤ × Process)} {c : ℤ} (h : x.result = .error c) :
    (returns x).result = .error c := by
  unfold returns
  rw [bind_of_error h]

@[simp] theorem returns_exit (c : ℤ) : returns (exit c) = exit c := rfl

/-! ### What the loops access -/

theorem forall_lt_add {Q : ℕ → Prop} : ∀ n k : ℕ,
    (∀ i, i < n + k → Q i) ↔ (∀ i, i < n → Q i) ∧ ∀ i, i < k → Q (n + i) := by
  intro n k
  refine ⟨fun h => ⟨fun i hi => h i (by omega), fun i hi => h _ (by omega)⟩, fun h i hi => ?_⟩
  rcases Nat.lt_or_ge i n with hlt | hge
  · exact h.1 i hlt
  · have := h.2 (i - n) (by omega)
    rwa [Nat.add_sub_cancel' hge] at this

@[simp] theorem touch_result (f : ℕ → Access) : ∀ n a : ℕ, (touch f a n).result = .ok ()
  | 0, _ => rfl
  | n + 1, a => by
      unfold touch
      rw [result_bind_of_ok (access_result _), touch_result f n]

theorem only_touch : ∀ {n a : ℕ}, (touch f a n).Only P ↔ ∀ i, i < n → P (f (a + i))
  | 0, a => by simp [touch]
  | n + 1, a => by
      unfold touch
      rw [only_bind_of_ok (access_result _), only_access, only_touch, Nat.add_comm n 1,
        forall_lt_add (Q := fun i => P (f (a + i)))]
      simp [Nat.add_assoc]

/-- How far a transfer of `n` bytes at `offset` gets: without a bounce buffer it stops before the
first sector that is not copied as a whole. -/
def span (bounce : Bool) (offset : ℤ) (n : ℕ) : ℕ :=
  if bounce then n else if offset % 512 = 0 then n / 512 * 512 else 0

theorem span_zero (bounce : Bool) (offset : ℤ) : span bounce offset 0 = 0 := by
  unfold span
  split
  · rfl
  · split <;> rfl

theorem span_step {bounce : Bool} {c n : ℕ} (hc : c ≤ n)
    (h : offset % 512 = 0 ∧ c = 512 ∨ bounce = true) :
    span bounce offset n = c + span bounce (offset + c) (n - c) := by
  unfold span
  cases bounce with
  | true => simp only [if_true]; omega
  | false =>
      obtain ⟨h0, rfl⟩ : offset % 512 = 0 ∧ c = 512 := by simpa using h
      have h1 : (offset + (512 : ℕ)) % 512 = 0 := by omega
      simp only [Bool.false_eq_true, if_false, if_pos h0, if_pos h1]
      omega

theorem only_copyLoop : ∀ {fuel buffer : ℕ} {size offset : ℤ}, size.toNat ≤ fuel →
    ((copyLoop e length f fuel buffer size offset).Only P ↔
      ∀ i, i < span e.bounce offset (min size (length - offset)).toNat → P (f (buffer + i)))
  | 0, buffer, size, offset, h => by
      have h0 : (min size (length - offset)).toNat = 0 := by omega
      simp [copyLoop, h0, span_zero]
  | fuel + 1, buffer, size, offset, h => by
      unfold copyLoop
      dsimp only
      generalize hc : min size (min (length - offset) (512 - offset % 512)) = c
      split_ifs with hstop hfull
      · have h0 : (min size (length - offset)).toNat = 0 := by omega
        simp [h0, span_zero]
      · -- a chunk is copied and the loop goes on behind it
        obtain ⟨k, rfl⟩ : ∃ k : ℕ, c = k := ⟨c.toNat, by omega⟩
        have hk : k ≤ (min size (length - offset)).toNat := by omega
        have hrest : (min size (length - offset)).toNat - k =
            (min (size - k) (length - (offset + k))).toNat := by omega
        have hfull' : offset % 512 = 0 ∧ k = 512 ∨ e.bounce = true :=
          hfull.imp (fun h => ⟨h.1, by omega⟩) id
        rw [only_bind_of_ok (touch_result _ _ _), only_touch, span_step hk hfull', hrest,
          forall_lt_add (Q := fun i => P (f (buffer + i))), only_bind,
          only_copyLoop (by omega)]
        simp [Nat.add_assoc]
      · have h0 : span e.bounce offset (min size (length - offset)).toNat = 0 := by
          have hb : e.bounce = false := by simpa using fun hb => hfull (.inr hb)
          unfold span
          rw [hb]
          simp only [Bool.false_eq_true, if_false]
          split
          · omega
          · rfl
        simp [h0]

theorem loadString_result : ∀ fuel a : ℕ, (loadString e fuel a).result = .ok ()
  | 0, _ => rfl
  | fuel + 1, a => by
      unfold loadString
      rw [result_bind_of_ok (access_result _)]
      split
      · exact loadString_result fuel (a + 1)
      · rfl

theorem processExecute_result (a : ℕ) :
    (processExecute e a).result = .ok (if e.page then e.started else -1) := by
  unfold processExecute
  rw [result_bind_of_ok (loadString_result _ _)]
  split
  · rw [result_bind_of_ok (loadString_result _ _), result_bind_of_ok (loadString_result _ _)]
    rfl
  · rfl

/-- `process_execute` accesses the string and nothing else. -/
theorem only_processExecute :
    (processExecute e a).Only P ↔ (loadString e (2 ^ 32 - a) a).Only P := by
  unfold processExecute
  rw [only_bind_of_ok (loadString_result _ _)]
  refine ⟨fun h => h.1, fun h => ⟨h, ?_⟩⟩
  split
  · rw [only_bind_of_ok (loadString_result _ _), only_bind_of_ok (loadString_result _ _)]
    exact ⟨h, h, only_pure _⟩
  · exact only_pure _

theorem umemGet_valid (h : e.valid a = true) :
    umemGet e a = ⟨[.load a], .ok (some (e.mem a))⟩ := by
  unfold umemGet
  rw [if_pos h]
  rfl

theorem umemGet_not_valid (h : e.valid a = false) : umemGet e a = pure none := by
  unfold umemGet
  rw [if_neg (by simp [h])]

/-- The first page is not the stack page. -/
theorem page0_not_stack {a : ℕ} (ha : a < pgsize) :
    (decide (physBase - pgsize ≤ a) && decide (a < physBase)) = false := by
  unfold pgsize physBase at *
  simp only [Bool.and_eq_false_iff, decide_eq_false_iff_not]
  omega

/-- A pointer whose first byte is not the caller's own ends the process at once. -/
theorem perform_refused {r : Request} (ha : r.pointer = some a) (h : e.valid a = false) :
    perform e p r = exit (-1) := by
  have hget := umemGet_not_valid h
  cases r with
  | exit code => cases ha
  | filesize fd => cases ha
  | close fd => cases ha
  | create b =>
      cases ha
      by_cases h0 : a = 0 <;> simp [perform, sysCreate, h0, hget]
  | «open» b =>
      cases ha
      by_cases h0 : a = 0 <;> simp [perform, sysOpen, h0, hget]
  | exec b =>
      cases ha
      simp [perform, sysExec, hget]
  | read fd buffer size =>
      cases ha
      simp [perform, sysRead, hget]
  | write fd buffer size =>
      cases ha
      simp [perform, sysWrite, hget]

end CSE130.Lab3.Syscall
