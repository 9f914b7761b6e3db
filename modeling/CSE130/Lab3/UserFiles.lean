import CSE130.Lab3.Names
import CSE130.Lab3.Syscall

/-! # What user programs write

The system calls of the processes that reach the file system, with their paths
(`userprog/syscall.c`, `userprog/elf.c`).  A path that ends in `'/'`, or in `"."` or `".."`, leads
to a directory, and `filesys_open` returns a file for its inode like for any other.  Where no
process opens such a path, user bytes are written to regular files only (`directories_unwritten`).

The calls of the processes interleave in any order; no process has a working directory.  What a
call reads and writes in the memory of its process is not part of the model. -/

namespace CSE130.Lab3.UserFiles

open Files Transition
open Syscall (incr)
open Function (update)

/-- `struct file`, without the denial of writes. -/
structure File where
  inode : Sector
  pos : ℕ

/-- The fields of `struct thread` for the files of a process. -/
structure Process where
  oft : ℤ → Option File
  maxFd : ℤ

/-- The file system and the processes. -/
structure Kernel where
  fs : Files.State
  process : ℕ → Process

namespace Kernel

variable (k : Kernel) (p : ℕ)

def setProcess (P : Process) : Kernel := { k with process := update k.process p P }

/-- `oft[i] = f` -/
def setFile (i : ℤ) (f : Option File) : Kernel :=
  k.setProcess p { k.process p with oft := update (k.process p).oft i f }

/-! ### syscall.c -/

/-- `sys_create`; `e` is what is on the stack of `dir_add`. -/
def sysCreate (path : List UInt8) (size : ℕ) (e : DirEntry) : Option Kernel :=
  (Paths.filesysCreate k.fs none path (offT size) false e).map fun (_, st) => { k with fs := st }

/-- `sys_open`, which gets a `struct file` at the address `a`.  The table has 32 entries, and
`max_fd` comes next in memory; what is written further away is not modelled. -/
def sysOpen (path : List UInt8) (a : ℤ) : Option Kernel := do
  let (r, st) ← Paths.filesysOpen k.fs none path
  let P := k.process p
  let fd := P.maxFd
  let k := { k with fs := st }.setProcess p { P with maxFd := incr (incr P.maxFd) }
  match r with
  | none => some k
  | some s =>
      if 3 ≤ fd ∧ fd < 35 then some (k.setFile p (fd - 3) (some ⟨s, 0⟩))
      else if fd = 35 then some (k.setProcess p { P with maxFd := offT a })
      else none

/-- `sys_read`. -/
def sysRead (fd : ℤ) (size : ℕ) : Option Kernel :=
  if fd < 3 ∨ fd > 32 then some k
  else
    match (k.process p).oft (fd - 3) with
    | none => some k
    | some f => (k.fs.openInodes f.inode).map fun i =>
        k.setFile p (fd - 3)
          (some { f with pos := f.pos + (k.fs.inodeReadAt i (offT size) f.pos).length })

/-- `sys_write`.  What comes of a null pointer in `file_write` is not modelled.  With another
descriptor the process ends. -/
def sysWrite (fd : ℤ) (buffer : ℕ → UInt8) (size : ℕ) : Option Kernel :=
  if fd = 1 then some k
  else if ¬(fd < 3 ∨ fd > 32) then do
    let f ← (k.process p).oft (fd - 3)
    let (n, st) ← k.fs.inodeWriteAt f.inode buffer (offT size) f.pos
    some ({ k with fs := st }.setFile p (fd - 3) (some { f with pos := f.pos + n }))
  else some k

/-- `sys_close`. -/
def sysClose (fd : ℤ) : Option Kernel :=
  if fd < 3 ∨ fd > 32 then some k else some (k.setFile p (fd - 3) none)

/-- The end of `sys_exec`, after `process_execute`: the file is not used. -/
def sysExec (path : List UInt8) : Option Kernel :=
  (Paths.filesysOpen k.fs none path).map fun (_, st) => { k with fs := st }

/-- `elf_load`; its `file_deny_write` comes at the end, if the executable is loaded. -/
def load (path : List UInt8) (loaded : Bool) : Option Kernel := do
  let (r, st) ← Paths.filesysOpen k.fs none path
  match r with
  | none => some { k with fs := st }
  | some s =>
      if loaded then (st.inodeDenyWrite s).map fun st => { k with fs := st }
      else some { k with fs := st }

end Kernel

/-- The system calls, and the loading of a new process. -/
inductive Request where
  | create (path : List UInt8) (size : ℕ) (e : DirEntry)
  | open (p : ℕ) (path : List UInt8) (a : ℤ)
  | read (p : ℕ) (fd : ℤ) (size : ℕ)
  | write (p : ℕ) (fd : ℤ) (buffer : ℕ → UInt8) (size : ℕ)
  | close (p : ℕ) (fd : ℤ)
  | exec (path : List UInt8)
  | load (path : List UInt8) (loaded : Bool)

/-- A request. -/
def perform (k : Kernel) : Request → Option Kernel
  | .create path size e => k.sysCreate path size e
  | .open p path a => k.sysOpen p path a
  | .read p fd size => k.sysRead p fd size
  | .write p fd buffer size => k.sysWrite p fd buffer size
  | .close p fd => k.sysClose p fd
  | .exec path => k.sysExec path
  | .load path loaded => k.load path loaded

/-- The answers of `malloc` to the next request. -/
def Kernel.answer (k : Kernel) (heap : ℕ → Bool) : Kernel := { k with fs := k.fs.call heap }

/-- A request with the answers that `malloc` gives to it. -/
def step (c : Request × (ℕ → Bool)) (k : Kernel) : Option Kernel := perform (k.answer c.2) c.1

/-- No process has opened a file. -/
def boot (st : Files.State) : Kernel := ⟨st, fun _ => ⟨fun _ => none, 3⟩⟩

/-- `sys_open` does not open a directory.  All paths lead to files, and `malloc` does not succeed
again in a call that needs index blocks. -/
def Decent (k : Kernel) (c : Request × (ℕ → Bool)) : Prop :=
  match c.1 with
  | .create path size _ => Covered (offT size) c.2 ∧
      ∀ d, pathDir k.fs none (splitPathFilename path).1 = some d →
        IsFile k.fs d ∧ Covered ((k.fs.dataOf d).length + 20) c.2
  | .open _ path _ => ∀ s, resolve k.fs none path = some s →
      IsFile k.fs s ∧ (k.fs.dataOf s).isDir = false
  | .write p fd _ size => ∀ f, (k.process p).oft (fd - 3) = some f →
      Covered (offT (f.pos + offT size)) c.2
  | .exec path | .load path _ => ∀ s, resolve k.fs none path = some s → IsFile k.fs s
  | .read .. | .close .. => True

variable {k k' : Kernel} {st st' st₁ st₂ : Files.State} {s t d : Sector} {p : ℕ} {ok : Bool}
  {cwd : Option Sector} {path : List UInt8} {r : Option Sector} {S : Set Sector}

/-! ### The counters in the list of open inodes -/

/-- What `filesys_create` leaves alone in the list of open inodes. -/
def counters (st : Files.State) (t : Sector) : Option (ℕ × Bool × ℕ × Bool) :=
  (st.openInodes t).map fun i => (i.openCnt, i.removed, i.denyWriteCnt, i.data.isDir)

theorem counters_congr (h : st'.openInodes = st.openInodes) : counters st' = counters st := by
  unfold counters
  rw [h]

theorem counters_drift (hd : Drift st st') : counters st' = counters st := by
  obtain ⟨heap, f, -, rfl⟩ := hd
  rfl

theorem counters_of_entry {i i' : Inode} (hi : st.openInodes s = some i)
    (ho : st'.openInodes = update st.openInodes s (some i')) (h : SameEntry i i') :
    counters st' = counters st := by
  funext t
  unfold counters
  rw [ho]
  by_cases ht : t = s
  · subst ht
    rw [Function.update_self, hi, Option.map_some, Option.map_some, h.openCnt, h.removed,
      h.denyWriteCnt, h.isDir]
  · rw [Function.update_of_ne ht]

theorem inodeWriteAt_counters {buffer : ℕ → UInt8} {size : ℤ} {offset n : ℕ}
    (h : st.inodeWriteAt s buffer size offset = some (n, st')) : counters st' = counters st := by
  obtain ⟨i, hi⟩ := inodeWriteAt_open h
  obtain ⟨-, i', ho, hsame⟩ := inodeWriteAt_entry hi h
  exact counters_of_entry hi ho hsame

/-- An inode is opened and closed, and its counters are not changed in between. -/
theorem counters_close (hn : Files.Counted st) (h : counters st₁ = counters (st.opened s))
    (hc : st₁.inodeClose s = some st') : counters st' = counters st := by
  have hother : ∀ t o, t ≠ s → counters (st₁.setInode s o) t = counters st t := by
    intro t o ht
    have hset : counters (st₁.setInode s o) t = counters st₁ t := by
      unfold counters State.setInode
      dsimp only
      rw [Function.update_of_ne ht]
    have hopened : counters (st.opened s) t = counters st t := by
      unfold counters State.opened State.setInode
      dsimp only
      rw [Function.update_of_ne ht]
    rw [hset, h, hopened]
  have hself : ∀ o, (st.opened s).openInodes s = some o → ∃ i₁, st₁.openInodes s = some i₁ ∧
      i₁.openCnt = o.openCnt ∧ i₁.removed = o.removed ∧ i₁.denyWriteCnt = o.denyWriteCnt ∧
      i₁.data.isDir = o.data.isDir := by
    intro o ho
    have hs := congrFun h s
    unfold counters at hs
    rw [ho] at hs
    obtain ⟨i₁, hi₁, heq⟩ := Option.map_eq_some_iff.mp hs
    simp only [Prod.mk.injEq] at heq
    exact ⟨i₁, hi₁, heq⟩
  unfold State.opened at hself
  cases hi : st.openInodes s with
  | none =>
      rw [hi] at hself
      obtain ⟨i₁, hi₁, hopen, hrem, -⟩ := hself _ (setInode_self ..)
      unfold State.inodeClose at hc
      rw [hi₁] at hc
      dsimp only at hc hopen hrem
      rw [hopen, hrem] at hc
      cases hc
      funext t
      by_cases ht : t = s
      · subst ht
        unfold counters
        rw [setInode_self, hi]
      · exact hother t _ ht
  | some i =>
      rw [hi] at hself
      obtain ⟨i₁, hi₁, hopen, hrem, hdeny, hdir⟩ := hself _ (setInode_self ..)
      unfold State.inodeClose at hc
      rw [hi₁] at hc
      dsimp only at hc
      rw [if_neg (by rw [hopen]; exact hn s i hi)] at hc
      cases hc
      funext t
      by_cases ht : t = s
      · subst ht
        unfold counters
        rw [setInode_self, hi, Option.map_some, Option.map_some, hopen, hrem, hdeny, hdir]
        rfl
      · exact hother t _ ht

theorem dirAdd_counters {dir : Sector} {name : Name} {e : DirEntry}
    (h : st.dirAdd dir name s false e = some (ok, st')) : counters st' = counters st := by
  unfold State.dirAdd at h
  obtain ⟨i, -, h⟩ := Option.bind_eq_some_iff.mp h
  simp only [Option.bind_eq_bind, Option.bind_some, Bool.false_eq_true, if_false] at h
  split_ifs at h
  · cases h
    rfl
  · cases h
    rfl
  · obtain ⟨j, -, h⟩ := Option.bind_eq_some_iff.mp h
    obtain ⟨⟨n, st₁⟩, hw, heq⟩ := Option.map_eq_some_iff.mp h
    cases heq
    exact inodeWriteAt_counters hw

/-- `filesys_create` closes the directory that it has opened. -/
theorem filesysCreate_counters {size : ℤ} {e : DirEntry} (hn : Files.Counted st)
    (h : Paths.filesysCreate st cwd path size false e = some (ok, st')) :
    counters st' = counters st := by
  unfold Paths.filesysCreate at h
  rcases hsplit : splitPathFilename path with ⟨directory, fileName⟩
  rw [hsplit] at h
  dsimp only at h
  obtain ⟨⟨r, st₁⟩, hp, h⟩ := Option.bind_eq_some_iff.mp h
  rcases dirOpenPath_cases hn hp with ⟨rfl, hd⟩ | ⟨d, rfl, -, hd⟩
  · cases h
    exact counters_drift hd
  · have hopen := counters_drift hd
    have hclose : ∀ {st₂ : Files.State} {b : Bool}, counters st₂ = counters st₁ →
        ((st₂.dirClose (some d)).map fun st => (b, st)) = some (ok, st') →
        counters st' = counters st := by
      intro st₂ b hc h
      obtain ⟨st₃, hclose, heq⟩ := Option.map_eq_some_iff.mp h
      cases heq
      exact counters_close hn (hc.trans hopen) hclose
    dsimp only at h
    have ha := counters_congr (freeMapAllocate_only st₁).openInodes
    rcases hal : st₁.freeMapAllocate with ⟨_ | s, st₂⟩
    · rw [hal] at h ha
      exact hclose ha h
    · rw [hal] at h ha
      obtain ⟨⟨created, st₃⟩, hcreate, h⟩ := Option.bind_eq_some_iff.mp h
      have hcreated := counters_congr (inodeCreate_only hcreate).openInodes
      -- where the file is not created, its sector is released
      have hrelease : ∀ {st₄ : Files.State}, counters st₄ = counters st₁ →
          (((st₄.freeMapRelease s).map fun st => { st with live := update st.live s false }).bind
            fun st => (st.dirClose (some d)).map fun st => (false, st)) = some (ok, st') →
          counters st' = counters st := by
        intro st₄ hc h
        obtain ⟨st₅, hr, h⟩ := Option.bind_eq_some_iff.mp h
        obtain ⟨st₆, hrel, rfl⟩ := Option.map_eq_some_iff.mp hr
        refine hclose ?_ h
        exact (counters_congr (freeMapRelease_only hrel).openInodes).trans hc
      cases created with
      | false => exact hrelease (hcreated.trans ha) h
      | true =>
          obtain ⟨⟨added, st₄⟩, hadd, h⟩ := Option.bind_eq_some_iff.mp h
          have hadded := dirAdd_counters hadd
          cases added with
          | false => exact hrelease (hadded.trans (hcreated.trans ha)) h
          | true => exact hclose (hadded.trans (hcreated.trans ha)) h

theorem counted_of_counters (hn : Files.Counted st) (h : counters st' = counters st) : Files.Counted st' := by
  intro t i' hi'
  have ht := congrFun h t
  unfold counters at ht
  rw [hi'] at ht
  obtain ⟨i, hi, heq⟩ := Option.map_eq_some_iff.mp ht.symm
  obtain ⟨hcnt, -⟩ := Prod.mk.inj heq
  rw [← hcnt]
  exact hn t i hi

/-! ### Regular files -/

/-- An open inode that is not of a directory. -/
def Regular (st : Files.State) (s : Sector) : Prop :=
  s ≠ 0 ∧ ∃ i, st.openInodes s = some i ∧ i.data.isDir = false

theorem Regular.of_counters (hs : Regular st s) (h : counters st' = counters st) :
    Regular st' s := by
  obtain ⟨h0, i, hi, hdir⟩ := hs
  have ht := congrFun h s
  unfold counters at ht
  rw [hi] at ht
  obtain ⟨i', hi', heq⟩ := Option.map_eq_some_iff.mp ht
  simp only [Prod.mk.injEq] at heq
  exact ⟨h0, i', hi', heq.2.2.2.trans hdir⟩

theorem Regular.setInode {i : Inode} (hs : Regular st s)
    (hi : t = s → i.data.isDir = false) : Regular (st.setInode t (some i)) s := by
  obtain ⟨h0, j, hj, hdir⟩ := hs
  refine ⟨h0, ?_⟩
  by_cases ht : t = s
  · exact ⟨i, by rw [ht, setInode_self], hi ht⟩
  · refine ⟨j, ?_, hdir⟩
    change update st.openInodes t (some i) s = some j
    rw [Function.update_of_ne (Ne.symm ht), hj]

theorem Regular.opened (hs : Regular st s) : Regular (st.opened t) s := by
  refine Regular.setInode hs ?_
  rintro rfl
  obtain ⟨-, i, hi, hdir⟩ := hs
  rw [hi]
  exact hdir

/-- A file that has just been opened. -/
theorem regular_opened (h0 : s ≠ 0) (hdir : (st.dataOf s).isDir = false) :
    Regular (st.opened s) s := by
  have hi : ∃ i, (st.opened s).openInodes s = some i := ⟨_, setInode_self ..⟩
  obtain ⟨i, hi⟩ := hi
  have hdata := opened_dataOf st s s
  rw [dataOf_open hi] at hdata
  exact ⟨h0, i, hi, by rw [hdata, hdir]⟩

/-- A call that writes to no directory but those of `D`. -/
structure Spares (D : Set Sector) (st st' : Files.State) : Prop where
  healthy : Healthy st'
  regular : ∀ s, Regular st s → Regular st' s
  directory : ∀ d, d ∉ D → IsFile st d → (st.dataOf d).isDir = true →
    IsFile st' d ∧ st'.dataOf d = st.dataOf d ∧
      contents st'.disk (st'.dataOf d) = contents st.disk (st.dataOf d)

variable {D : Set Sector}

theorem Spares.trans (h : Spares D st st₁) (h' : Spares D st₁ st') : Spares D st st' where
  healthy := h'.healthy
  regular s hs := h'.regular s (h.regular s hs)
  directory d hd hfile hdir := by
    obtain ⟨hfile₁, hdata, hcontents⟩ := h.directory d hd hfile hdir
    obtain ⟨hfile', hdata', hcontents'⟩ := h'.directory d hd hfile₁ (by rw [hdata, hdir])
    exact ⟨hfile', hdata'.trans hdata, hcontents'.trans hcontents⟩

theorem Spares.of_same (h : Healthy st') (hr : ∀ s, Regular st s → Regular st' s)
    (hlive : st'.live = st.live) (hdisk : st'.disk = st.disk)
    (hdata : ∀ t, st'.dataOf t = st.dataOf t) : Spares D st st' :=
  ⟨h, hr, fun d _ hd _ => ⟨⟨by rw [hlive, hd.1], hd.2⟩, hdata d, by rw [hdata, hdisk]⟩⟩

theorem Spares.drift (h : Healthy st) (hd : Drift st st') : Spares D st st' := by
  have h' := h.drift hd
  have hcounters := counters_drift hd
  obtain ⟨heap, f, -, rfl⟩ := hd
  exact .of_same h' (fun s hs => hs.of_counters hcounters) rfl rfl fun _ => rfl

theorem Spares.opened (h : Healthy st) (hs : IsFile st s) (hd : Drift (st.opened s) st') :
    Spares D st st' := by
  have h' := (h.opened hs.1 hs.2).drift hd
  have hcounters := counters_drift hd
  obtain ⟨heap, f, -, rfl⟩ := hd
  exact .of_same h' (fun t ht => ht.opened.of_counters hcounters) rfl rfl (opened_dataOf st s)

theorem filesysOpen_spares (h : Healthy st) (hs : ∀ s, resolve st cwd path = some s → IsFile st s)
    (ho : Paths.filesysOpen st cwd path = some (r, st')) :
    Spares D st st' ∧ ∀ s, r = some s → resolve st cwd path = some s ∧ Drift (st.opened s) st' := by
  rcases filesysOpen_cases h.counted ho with ⟨rfl, hd⟩ | ⟨t, hr, hcase, hd⟩
  · exact ⟨.drift h hd, nofun⟩
  · refine ⟨.opened h (hs t hr) hd, ?_⟩
    rintro s rfl
    rcases hcase with heq | heq
    · cases heq
      exact ⟨hr, hd⟩
    · cases heq

/-- `sys_create` writes to the directory of the path. -/
theorem filesysCreate_spares {size : ℤ} {e : DirEntry} (h : Healthy st)
    (hd : ∀ d, pathDir st cwd (splitPathFilename path).1 = some d →
      IsFile st d ∧ Covered ((st.dataOf d).length + 20) st.heap)
    (hsize : offT size = size) (hcov : Covered size st.heap)
    (hc : Paths.filesysCreate st cwd path size false e = some (ok, st')) :
    Spares {d | pathDir st cwd (splitPathFilename path).1 = some d} st st' := by
  obtain ⟨h', hb⟩ := h.works (filesysCreate_works h hd hsize hcov hc)
  refine ⟨h', fun s hs => hs.of_counters (filesysCreate_counters h.counted hc), fun d hdir hfile _ => ?_⟩
  have hd : d ∉ Creates st cwd path := by
    rintro (hpath | hdead)
    · exact hdir hpath
    · rw [hfile.1] at hdead
      cases hdead
  exact ⟨⟨hb.live d hd hfile.1, hfile.2⟩, hb.data d hd hfile.2 hfile.1⟩

/-- A write to a regular file. -/
theorem inodeWriteAt_spares {buffer : ℕ → UInt8} {size : ℤ} {offset n : ℕ} (h : Healthy st)
    (hs : Regular st s) (hcov : Covered (offT (offset + size)) st.heap)
    (hw : st.inodeWriteAt s buffer size offset = some (n, st')) : Spares D st st' := by
  have hcounters := inodeWriteAt_counters hw
  obtain ⟨h0, i, hi, hdir⟩ := hs
  obtain ⟨hinv, hl⟩ := inodeWriteAt_local h.inv h0 hi hcov hw
  refine ⟨⟨hinv, counted_of_counters h.counted hcounters⟩, fun t ht => ht.of_counters hcounters,
    fun d _ hd hdd => ?_⟩
  have hne : d ≠ s := by
    rintro rfl
    rw [dataOf_open hi, hdir] at hdd
    cases hdd
  exact ⟨⟨(hl.live d hne).trans hd.1, hd.2⟩, hl.dataOf_eq h.inv hne hd.1,
    hl.contents_eq h.inv hne hd.2 hd.1⟩

theorem inodeDenyWrite_spares (h : Healthy st) (h0 : s ≠ 0) (hd : st.inodeDenyWrite s = some st') :
    Spares D st st' := by
  have hact : act (.denyWrite s) st = some st' := by
    unfold act
    dsimp only
    rw [if_pos h0, hd]
  have h' : Healthy st' := h.act (a := .denyWrite s) trivial hact
  unfold State.inodeDenyWrite at hd
  cases hi : st.openInodes s with
  | none =>
      rw [hi] at hd
      cases hd
  | some i =>
      rw [hi] at hd
      dsimp only at hd
      split_ifs at hd
      cases hd
      refine .of_same h' (fun t ht => ht.setInode ?_) rfl rfl fun t => ?_
      · rintro rfl
        obtain ⟨-, j, hj, hdir⟩ := ht
        rw [hi] at hj
        cases hj
        exact hdir
      · by_cases ht : t = s
        · subst ht
          rw [dataOf_setInode, dataOf_open hi]
        · unfold State.dataOf State.setInode
          dsimp only
          rw [Function.update_of_ne ht]

/-! ### Descriptors -/

/-- A property of every file in the tables. -/
def Kernel.All (k : Kernel) (Q : File → Prop) : Prop :=
  ∀ p i f, (k.process p).oft i = some f → Q f

variable {Q : File → Prop} {P : Process}

theorem Kernel.All.setProcess (h : k.All Q) (hP : ∀ i f, P.oft i = some f → Q f) :
    (k.setProcess p P).All Q := by
  intro q i f hf
  unfold Kernel.setProcess at hf
  dsimp only at hf
  by_cases hq : q = p
  · subst hq
    rw [Function.update_self] at hf
    exact hP i f hf
  · rw [Function.update_of_ne hq] at hf
    exact h q i f hf

theorem Kernel.All.setFile {i : ℤ} {o : Option File} (h : k.All Q) (ho : ∀ f, o = some f → Q f) :
    (k.setFile p i o).All Q := by
  refine Kernel.All.setProcess h fun j f hf => ?_
  by_cases hj : j = i
  · subst hj
    dsimp only at hf
    rw [Function.update_self] at hf
    exact ho f hf
  · dsimp only at hf
    rw [Function.update_of_ne hj] at hf
    exact h p j f hf

/-- Every descriptor is for a regular file. -/
structure Sane (k : Kernel) : Prop where
  healthy : Healthy k.fs
  files : k.All fun f => Regular k.fs f.inode

theorem Sane.of_spares (h : Sane k) (hs : Spares D k.fs st) :
    Kernel.All { k with fs := st } fun f => Regular st f.inode :=
  fun p i f hf => hs.regular _ (h.files p i f hf)

/-- The directory that a request is to work on. -/
def Request.directory (k : Kernel) : Request → Option Sector
  | .create path _ _ => pathDir k.fs none (splitPathFilename path).1
  | _ => none

theorem sysCreate_sane {size : ℕ} {e : DirEntry} (h : Sane k) (hcov : Covered (offT size) k.fs.heap)
    (hd : ∀ d, pathDir k.fs none (splitPathFilename path).1 = some d →
      IsFile k.fs d ∧ Covered ((k.fs.dataOf d).length + 20) k.fs.heap)
    (hc : k.sysCreate path size e = some k') :
    Sane k' ∧ Spares {d | pathDir k.fs none (splitPathFilename path).1 = some d} k.fs k'.fs := by
  obtain ⟨⟨ok, st⟩, hcreate, rfl⟩ := Option.map_eq_some_iff.mp hc
  have hs := filesysCreate_spares h.healthy hd (Int.bmod_bmod ..) hcov hcreate
  exact ⟨⟨hs.healthy, h.of_spares hs⟩, hs⟩

theorem sysOpen_sane {a : ℤ} (h : Sane k) (hd : ∀ s, resolve k.fs none path = some s →
      IsFile k.fs s ∧ (k.fs.dataOf s).isDir = false) (ho : k.sysOpen p path a = some k') :
    Sane k' ∧ Spares D k.fs k'.fs := by
  unfold Kernel.sysOpen at ho
  obtain ⟨⟨r, st⟩, hopen, ho⟩ := Option.bind_eq_some_iff.mp ho
  obtain ⟨hs, hr⟩ : Spares D k.fs st ∧ _ :=
    filesysOpen_spares h.healthy (fun s hs => (hd s hs).1) hopen
  have hall := h.of_spares hs
  have hproc : ∀ m, (Kernel.setProcess { k with fs := st } p { k.process p with maxFd := m }).All
      fun f => Regular st f.inode := fun m => hall.setProcess (hall p)
  dsimp only at ho
  cases r with
  | none =>
      cases ho
      exact ⟨⟨hs.healthy, hproc _⟩, hs⟩
  | some s =>
      obtain ⟨hres, hdrift⟩ := hr s rfl
      obtain ⟨hfile, hdir⟩ := hd s hres
      have hnew : Regular st s :=
        (regular_opened hfile.2 hdir).of_counters (counters_drift hdrift)
      dsimp only at ho
      split_ifs at ho
      · cases ho
        refine ⟨⟨hs.healthy, (hproc _).setFile ?_⟩, hs⟩
        rintro f hf
        cases hf
        exact hnew
      · -- the table is full, and `max_fd` is overwritten
        cases ho
        exact ⟨⟨hs.healthy, (hproc _).setProcess (hall p)⟩, hs⟩

theorem sysRead_sane {fd : ℤ} {size : ℕ} (h : Sane k) (hr : k.sysRead p fd size = some k') :
    Sane k' ∧ Spares D k.fs k'.fs := by
  have hs : Spares D k.fs k.fs := .drift h.healthy (.refl _)
  unfold Kernel.sysRead at hr
  split_ifs at hr
  · cases hr
    exact ⟨h, hs⟩
  · split at hr
    · cases hr
      exact ⟨h, hs⟩
    · rename_i f hf
      obtain ⟨i, -, rfl⟩ := Option.map_eq_some_iff.mp hr
      refine ⟨⟨h.healthy, h.files.setFile ?_⟩, hs⟩
      rintro g hg
      cases hg
      exact h.files p _ f hf

theorem sysWrite_sane {fd : ℤ} {buffer : ℕ → UInt8} {size : ℕ} (h : Sane k)
    (hcov : ∀ f, (k.process p).oft (fd - 3) = some f → Covered (offT (f.pos + offT size)) k.fs.heap)
    (hw : k.sysWrite p fd buffer size = some k') : Sane k' ∧ Spares D k.fs k'.fs := by
  have hs : Spares D k.fs k.fs := .drift h.healthy (.refl _)
  unfold Kernel.sysWrite at hw
  split_ifs at hw
  · cases hw
    exact ⟨h, hs⟩
  · cases hw
    exact ⟨h, hs⟩
  · obtain ⟨f, hf, hw⟩ := Option.bind_eq_some_iff.mp hw
    obtain ⟨⟨n, st⟩, hwrite, hw⟩ := Option.bind_eq_some_iff.mp hw
    cases hw
    have hreg := h.files p _ f hf
    have hs : Spares D k.fs st := inodeWriteAt_spares h.healthy hreg (hcov f hf) hwrite
    refine ⟨⟨hs.healthy, (h.of_spares hs).setFile ?_⟩, hs⟩
    rintro g hg
    cases hg
    exact hs.regular _ hreg

theorem sysClose_sane {fd : ℤ} (h : Sane k) (hc : k.sysClose p fd = some k') :
    Sane k' ∧ Spares D k.fs k'.fs := by
  have hs : Spares D k.fs k.fs := .drift h.healthy (.refl _)
  unfold Kernel.sysClose at hc
  split_ifs at hc
  · cases hc
    exact ⟨h, hs⟩
  · cases hc
    exact ⟨⟨h.healthy, h.files.setFile nofun⟩, hs⟩

theorem load_sane {loaded : Bool} (h : Sane k)
    (hd : ∀ s, resolve k.fs none path = some s → IsFile k.fs s) (hl : k.load path loaded = some k') :
    Sane k' ∧ Spares D k.fs k'.fs := by
  unfold Kernel.load at hl
  obtain ⟨⟨r, st⟩, hopen, hl⟩ := Option.bind_eq_some_iff.mp hl
  obtain ⟨hs, hr⟩ : Spares D k.fs st ∧ _ := filesysOpen_spares h.healthy hd hopen
  have hall := h.of_spares hs
  dsimp only at hl
  cases r with
  | none =>
      cases hl
      exact ⟨⟨hs.healthy, hall⟩, hs⟩
  | some s =>
      obtain ⟨hres, hdrift⟩ := hr s rfl
      dsimp only at hl
      split_ifs at hl
      · obtain ⟨st', hdeny, rfl⟩ := Option.map_eq_some_iff.mp hl
        have hs' : Spares D st st' := inodeDenyWrite_spares hs.healthy (hd s hres).2 hdeny
        exact ⟨⟨hs'.healthy, fun p i f hf => hs'.regular _ (hall p i f hf)⟩, hs.trans hs'⟩
      · cases hl
        exact ⟨⟨hs.healthy, hall⟩, hs⟩

/-- A request writes to no directory but that of a creation, and the descriptors stay for regular
files. -/
theorem step_sane {c : Request × (ℕ → Bool)} (h : Sane k) (hg : Decent k c)
    (hs : step c k = some k') : Sane k' ∧ Spares {d | c.1.directory k = some d} k.fs k'.fs := by
  obtain ⟨c, heap⟩ := c
  have h₁ : Sane (k.answer heap) := ⟨⟨h.healthy.inv.call, h.healthy.counted⟩, h.files⟩
  have hanswer : Spares {d | c.directory k = some d} k.fs (k.answer heap).fs :=
    .of_same h₁.healthy (fun _ => id) rfl rfl fun _ => rfl
  suffices hall : Sane k' ∧ Spares {d | c.directory k = some d} (k.answer heap).fs k'.fs from
    ⟨hall.1, hanswer.trans hall.2⟩
  have hpath : ∀ path, pathDir (k.answer heap).fs none path = pathDir k.fs none path :=
    fun path => pathDir_drift k.fs
  have hres : ∀ path, resolve (k.answer heap).fs none path = resolve k.fs none path :=
    fun path => resolve_drift k.fs
  cases c with
  | create path size e =>
      have hdir : ∀ d, pathDir (k.answer heap).fs none (splitPathFilename path).1 = some d →
          IsFile k.fs d ∧ Covered ((k.fs.dataOf d).length + 20) heap := by
        rw [hpath]
        exact hg.2
      have hcreate := sysCreate_sane h₁ hg.1 hdir hs
      rw [hpath] at hcreate
      exact hcreate
  | «open» p path a => exact sysOpen_sane h₁ (fun s hr => hg s (hres path ▸ hr)) hs
  | read p fd size => exact sysRead_sane h₁ hs
  | write p fd buffer size => exact sysWrite_sane h₁ hg hs
  | close p fd => exact sysClose_sane h₁ hs
  | exec path =>
      obtain ⟨⟨r, st⟩, hopen, rfl⟩ := Option.map_eq_some_iff.mp hs
      obtain ⟨hsp, -⟩ := filesysOpen_spares h₁.healthy (fun s hr => hg s (hres path ▸ hr)) hopen
      exact ⟨⟨hsp.healthy, h₁.of_spares hsp⟩, hsp⟩
  | load path loaded => exact load_sane h₁ (fun s hr => hg s (hres path ▸ hr)) hs

/-- **User programs do not write directories** as long as they open none: in every run from a
file system whose files are all closed, each descriptor is for an open inode that is not a
directory, and the bytes of a directory change only in the creation of a file in it. -/
theorem directories_unwritten {disk : Sector → Block} {size : Sector} {heap₀ : ℕ → Bool}
    {e₀ : DirEntry} {st₀ : Files.State} {c : Request × (ℕ → Bool)}
    (hf : Paths.doFormat disk size heap₀ e₀ = some st₀) (hb : Reachable pathStep Orderly st₀ st)
    (hr : Reachable step Decent (boot st) k) :
    (∀ p fd f, (k.process p).oft fd = some f →
      ∃ i, k.fs.openInodes f.inode = some i ∧ i.data.isDir = false) ∧
    (Decent k c → step c k = some k' → ∀ d, IsFile k.fs d → (k.fs.dataOf d).isDir = true →
      c.1.directory k ≠ some d → k'.fs.dataOf d = k.fs.dataOf d ∧
        contents k'.fs.disk (k'.fs.dataOf d) = contents k.fs.disk (k.fs.dataOf d)) := by
  have h : Sane k := hr.invariant (I := Sane) ⟨(healthy_reachable hf hb).1, fun _ _ _ hf => by cases hf⟩
    fun _ _ _ _ h hg hs => (step_sane h hg hs).1
  refine ⟨fun p fd f hfile => (h.files p fd f hfile).2, fun hg hs d hd hdir hne => ?_⟩
  exact ((step_sane h hg hs).2.directory d hne hd hdir).2

/-- A process opens `path`, after other requests, and writes four bytes: what it finds, and the
first byte of the root directory before and after the write. -/
def writeThrough (before : List Request) (path : List UInt8) : Option (List ℕ × List Bool) := do
  let st₀ ← Paths.doFormat (fun _ => zeros) 40 (fun _ => true) ⟨0, List.replicate 15 0, 1⟩
  let k₁ ← execute step (before.map fun r => (r, fun _ => true)) (boot st₀)
  let k₂ ← step (.open 0 path 0, fun _ => true) k₁
  let k₃ ← step (.write 0 3 (fun _ => 255) 4, fun _ => true) k₂
  let s ← resolve k₁.fs none path
  let f ← (k₂.process 0).oft 0
  some ([(st₀.dataOf 1).length, s.toNat, f.pos, (contents k₂.fs.disk (k₂.fs.dataOf 1)).headD 0 |>.toNat,
      (contents k₃.fs.disk (k₃.fs.dataOf 1)).headD 0 |>.toNat],
    [st₀.live 1, k₁.fs.live s, (k₁.fs.dataOf s).isDir, k₂.fs.live 1, (k₂.fs.dataOf 1).isDir])

theorem write_through {before : List Request} {path : List UInt8} {n : ℕ} {first first' : ℕ}
    {isDir : Bool} (hrun : writeThrough before path =
      some ([320, n, 0, first, first'], [true, true, isDir, true, true])) : ∃ st₀ k₁ k₂ k₃ s f,
    Paths.doFormat (fun _ => zeros) 40 (fun _ => true) ⟨0, List.replicate 15 0, 1⟩ = some st₀ ∧
    execute step (before.map fun r => (r, fun _ => true)) (boot st₀) = some k₁ ∧
    step (.open 0 path 0, fun _ => true) k₁ = some k₂ ∧
    step (.write 0 3 (fun _ => 255) 4, fun _ => true) k₂ = some k₃ ∧
    resolve k₁.fs none path = some s ∧ (k₂.process 0).oft 0 = some f ∧
    ((st₀.dataOf 1).length = 320 ∧ st₀.live 1 = true) ∧
    (s.toNat = n ∧ k₁.fs.live s = true ∧ (k₁.fs.dataOf s).isDir = isDir) ∧ f.pos = 0 ∧
    (k₂.fs.live 1 = true ∧ (k₂.fs.dataOf 1).isDir = true) ∧
    ((contents k₂.fs.disk (k₂.fs.dataOf 1)).headD 0).toNat = first ∧
    ((contents k₃.fs.disk (k₃.fs.dataOf 1)).headD 0).toNat = first' := by
  unfold writeThrough at hrun
  simp only [Option.bind_eq_bind, Option.bind_eq_some_iff, Option.some.injEq, Prod.mk.injEq,
    List.cons.injEq, and_true] at hrun
  obtain ⟨st₀, h₀, k₁, h₁, k₂, h₂, k₃, h₃, s, hs, f, hf, ⟨hlen, hn, hpos, hfirst, hfirst'⟩,
    hlive, hlive', hdir, hroot, hroot'⟩ := hrun
  exact ⟨st₀, k₁, k₂, k₃, s, f, h₀, h₁, h₂, h₃, hs, hf, ⟨hlen, hlive⟩, ⟨hn, hlive', hdir⟩, hpos,
    ⟨hroot, hroot'⟩, hfirst, hfirst'⟩

/-- Four bytes are written to the file `"a"`. -/
theorem directories_unwritten_file : ∃ st₀ k k',
    Paths.doFormat (fun _ => zeros) 40 (fun _ => true) ⟨0, List.replicate 15 0, 1⟩ = some st₀ ∧
    Reachable step Decent (boot st₀) k ∧
    step (.write 0 3 (fun _ => 255) 4, fun _ => true) k = some k' ∧
    contents k'.fs.disk (k'.fs.dataOf 1) = contents k.fs.disk (k.fs.dataOf 1) := by
  have hrun : writeThrough [.create [97] 0 default] [97] =
      some ([320, 4, 0, 1, 1], [true, true, false, true, true]) := by
    decide +kernel
  obtain ⟨st₀, k₁, k₂, k₃, s, f, h₀, h₁, h₂, h₃, hs, hf, ⟨hlen, hlive⟩, ⟨hn, hfile, hdir⟩, hpos,
    ⟨hroot, hroot'⟩, -⟩ := write_through hrun
  have hcreate : Decent (boot st₀) (.create [97] 0 default, fun _ => true) := by
    refine ⟨.inl (by decide), fun d hd => ?_⟩
    cases hd
    exact ⟨⟨hlive, by decide⟩, .inl (by
      change (((st₀.dataOf 1).length : ℤ) + 20) ≤ _
      rw [hlen]
      decide)⟩
  have hopen : Decent k₁ (.open 0 [97] 0, fun _ => true) := by
    intro t ht
    rw [hs] at ht
    cases ht
    refine ⟨⟨hfile, ?_⟩, hdir⟩
    rintro rfl
    exact absurd hn (by decide)
  have hwrite : Decent k₂ (.write 0 3 (fun _ => 255) 4, fun _ => true) := by
    intro g hg
    rw [Int.sub_self, hf] at hg
    cases hg
    rw [hpos]
    exact .inl (by decide)
  have hr : Reachable step Decent (boot st₀) k₂ := by
    obtain ⟨k, hk, heq⟩ := Option.bind_eq_some_iff.mp h₁
    cases heq
    exact (Reachable.refl.tail hcreate hk).tail hopen h₂
  exact ⟨st₀, k₂, k₃, h₀, hr, h₃,
    ((directories_unwritten h₀ .refl hr).2 hwrite h₃ 1 ⟨hroot, by decide⟩ hroot' nofun).2⟩

/-- `"/"` is opened and written like any other file. -/
theorem directory_written : ∃ st₀ k k',
    Paths.doFormat (fun _ => zeros) 40 (fun _ => true) ⟨0, List.replicate 15 0, 1⟩ = some st₀ ∧
    step (.open 0 [slash] 0, fun _ => true) (boot st₀) = some k ∧
    step (.write 0 3 (fun _ => 255) 4, fun _ => true) k = some k' ∧
    IsFile k.fs 1 ∧ (k.fs.dataOf 1).isDir = true ∧
    contents k'.fs.disk (k'.fs.dataOf 1) ≠ contents k.fs.disk (k.fs.dataOf 1) := by
  have hrun : writeThrough [] [slash] =
      some ([320, 1, 0, 1, 255], [true, true, true, true, true]) := by
    decide +kernel
  obtain ⟨st₀, k₁, k₂, k₃, s, f, h₀, h₁, h₂, h₃, -, -, -, -, -, ⟨hroot, hroot'⟩, hfirst, hfirst'⟩ :=
    write_through hrun
  obtain rfl := Option.some.inj h₁
  refine ⟨st₀, k₂, k₃, h₀, h₂, h₃, ⟨hroot, by decide⟩, hroot', fun heq => ?_⟩
  rw [heq, hfirst] at hfirst'
  exact absurd hfirst' (by decide)

end CSE130.Lab3.UserFiles
