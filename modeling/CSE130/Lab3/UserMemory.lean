import CSE130.Lab3.Syscall

/-! # The user memory that a call accesses

The calls check the first byte of a buffer or string with `umem_get` and then run over a range
that the caller chose.  `user_memory` says when the range stays in the caller's memory; a pointer
whose first byte does not is refused before any access. -/

namespace CSE130.Lab3.Syscall

open Traced

variable {e : Env} {p : Process} {P : Access → Prop} {a buffer : ℕ} {size offset : ℤ}

/-! ### The caller's memory -/

/-- A byte accessed is the caller's own. -/
def Env.Within (e : Env) : Access → Prop
  | .load a | .store a => e.valid a = true
  | .table _ | .file _ => True

/-- A string at `a` ends before it leaves the caller's memory. -/
def Env.StringInside (e : Env) (a : ℕ) : Prop :=
  ∃ l, e.mem (a + l) = 0 ∧ ∀ i, i ≤ l → e.valid (a + i) = true

theorem Env.lt_of_valid (h : e.valid a = true) : a < physBase := by
  unfold Env.valid at h
  rw [Bool.and_eq_true, decide_eq_true_eq] at h
  exact h.1

theorem Env.mapped_of_valid (h : e.valid a = true) : e.mapped a = true := by
  unfold Env.valid at h
  rw [Bool.and_eq_true] at h
  exact h.2

theorem Env.not_valid_page0 (h : a < pgsize) : e.valid a = false := by
  unfold Env.valid
  rw [e.page0 a h, Bool.and_false]

/-- A string whose first byte is not null. -/
theorem Env.stringInside_succ (h : e.mem a ≠ 0) :
    e.StringInside a ↔ e.valid a = true ∧ e.StringInside (a + 1) := by
  constructor
  · rintro ⟨l, h0, hv⟩
    cases l with
    | zero => exact absurd h0 h
    | succ l =>
        refine ⟨hv 0 (by omega), l, ?_, fun i hi => ?_⟩
        · rwa [Nat.add_assoc, Nat.add_comm 1]
        · rw [Nat.add_assoc, Nat.add_comm 1]
          exact hv (i + 1) (by omega)
  · rintro ⟨hv, l, h0, hvs⟩
    refine ⟨l + 1, ?_, fun i hi => ?_⟩
    · rwa [Nat.add_comm l, ← Nat.add_assoc]
    · cases i with
      | zero => exact hv
      | succ i =>
          rw [Nat.add_comm i, ← Nat.add_assoc]
          exact hvs i (by omega)

theorem only_loadString : ∀ {fuel a : ℕ}, a ≤ physBase → physBase < a + fuel →
    ((loadString e fuel a).Only e.Within ↔ e.StringInside a)
  | 0, a, ha, hf => by omega
  | fuel + 1, a, ha, hf => by
      unfold loadString
      rw [only_bind_of_ok (access_result _), only_access]
      by_cases hv : e.valid a = true
      · have hlt := Env.lt_of_valid hv
        rw [Env.mapped_of_valid hv, Bool.true_or, Bool.true_and]
        by_cases h0 : e.mem a = 0
        · have hs : e.StringInside a := ⟨0, h0, fun i hi => by
            obtain rfl : i = 0 := by omega
            exact hv⟩
          simp [Env.Within, hv, h0, hs]
        · have hne : (e.mem a != 0) = true := by simpa using h0
          rw [if_pos hne, only_loadString (by omega) (by omega), Env.stringInside_succ h0]
          rfl
      · refine ⟨fun h => absurd h.1 hv, fun h => ?_⟩
        obtain ⟨l, -, hvs⟩ := h
        exact absurd (hvs 0 (by omega)) hv

/-! ### The calls -/

/-- How many bytes of its buffer a `read` of `size` bytes from `rf` fills: what the caller asks
for, as far as the file goes. -/
def readSpan (e : Env) (rf : File) (size : ℕ) : ℕ :=
  span e.bounce rf.pos (min (toOff size) ((e.inodes rf.inode).length - rf.pos)).toNat

/-- How many bytes of its buffer a `write` of `size` bytes to `wf` takes: what the caller asks
for, unless writes are denied or the file has to grow and cannot. -/
def writeSpan (e : Env) (wf : File) (size : ℕ) : ℕ :=
  let length := (e.inodes wf.inode).length
  let last := wf.pos + toOff size - 1
  if (e.inodes wf.inode).denyWriteCnt ≠ 0 ∨ ¬(0 ≤ last ∧ last < length) ∧ e.reserves = false then 0
  else span e.bounce wf.pos (toOff size).toNat

/-- The `n` bytes from `a` on are the caller's own. -/
def Env.RangeInside (e : Env) (a n : ℕ) : Prop := ∀ i, i < n → e.valid (a + i) = true

/-- What the caller's pointer, if its first byte is valid, has to name. -/
def Request.Inside (e : Env) (p : Process) : Request → Prop
  | .exit _ | .filesize _ | .close _ => True
  | .create file | .open file | .exec file => e.valid file = true → e.StringInside file
  | .read fd buffer size => e.valid buffer = true → 3 ≤ fd → fd ≤ 32 →
      ∀ rf, p.oft (fd - 3) = some rf → e.RangeInside buffer (readSpan e rf size)
  | .write fd buffer size => e.valid buffer = true →
      (fd = 1 → e.RangeInside buffer size) ∧
      (3 ≤ fd → fd ≤ 32 → ∃ wf, p.oft (fd - 3) = some wf ∧
        e.RangeInside buffer (writeSpan e wf size))

theorem only_inodeWriteAt {inode : Inode} :
    (inodeWriteAt e inode buffer size offset).Only P ↔
      ∀ i, i < (if inode.denyWriteCnt ≠ 0 ∨
          ¬(0 ≤ offset + size - 1 ∧ offset + size - 1 < inode.length) ∧ e.reserves = false then 0
        else span e.bounce offset size.toNat) → P (.load (buffer + i)) := by
  unfold inodeWriteAt
  by_cases hd : inode.denyWriteCnt ≠ 0
  · simp [hd]
  by_cases hin : 0 ≤ offset + size - 1 ∧ offset + size - 1 < inode.length
  · have hmin : min size (inode.length - offset) = size := by omega
    rw [if_neg hd, if_pos hin, only_copyLoop (Nat.le_refl _), hmin, if_neg (by tauto)]
  · rw [if_neg hd, if_neg hin]
    cases hr : e.reserves with
    | false =>
        simp only [Bool.false_eq_true, if_false]
        rw [if_pos (.inr ⟨hin, trivial⟩)]
        simp
    | true =>
        have hmin : min size (offset + size - offset) = size := by omega
        rw [if_pos rfl, only_copyLoop (Nat.le_refl _), hmin, if_neg (by simp [hd])]

theorem only_fileRead {i : ℤ} {rf : File} {size : ℕ} :
    (fileRead e p i rf buffer size).Only e.Within ↔ e.RangeInside buffer (readSpan e rf size) := by
  unfold fileRead inodeReadAt
  rw [only_bind_of_ok (access_result _), only_access, only_bind, only_copyLoop (Nat.le_refl _)]
  simp [Env.Within, Env.RangeInside, readSpan]

theorem only_fileWrite {i : ℤ} {wf : Option File} {size : ℕ} :
    (fileWrite e p i wf buffer size).Only e.Within ↔
      ∃ f, wf = some f ∧ e.RangeInside buffer (writeSpan e f size) := by
  unfold fileWrite
  rw [only_bind_of_ok (access_result _), only_access]
  cases wf with
  | none =>
      have h0 : e.valid 0 = false := Env.not_valid_page0 (by decide)
      rw [only_bind_of_ok (touch_result _ _ _), only_touch]
      refine ⟨fun h => ?_, fun ⟨f, hf, _⟩ => by cases hf⟩
      exact absurd (h.2.1 0 (by decide)) (by simp [Env.Within, h0])
  | some f =>
      dsimp only
      rw [only_bind, only_inodeWriteAt]
      simp [Env.Within, Env.RangeInside, writeSpan]

theorem only_sysRead {fd : ℤ} {size : ℕ} (h : e.valid buffer = true) :
    (sysRead e p fd buffer size).Only e.Within ↔
      (3 ≤ fd → fd ≤ 32 → ∀ rf, p.oft (fd - 3) = some rf →
        e.RangeInside buffer (readSpan e rf size)) := by
  have hget : (umemGet e buffer).Only e.Within := by
    rw [umemGet_valid h]
    simpa [Only, Env.Within] using h
  unfold sysRead
  rw [only_bind_of_ok (a := some (e.mem buffer)) (by rw [umemGet_valid h])]
  dsimp only
  by_cases hfd : fd < 3 ∨ fd > 32
  · rw [if_pos hfd]
    refine ⟨fun _ h3 h32 => by omega, fun _ => ⟨hget, only_pure _⟩⟩
  · rw [if_neg hfd, only_bind_of_ok (a := p.oft (fd - 3)) rfl]
    have htable : (tableGet p (fd - 3)).Only e.Within := by simp [tableGet, only_bind, Env.Within]
    cases hf : p.oft (fd - 3) with
    | none =>
        exact ⟨fun _ _ _ rf hrf => (by cases hrf), fun _ => ⟨hget, htable, only_pure _⟩⟩
    | some f =>
        dsimp only
        rw [only_fileRead]
        refine ⟨fun hr _ _ rf hrf => ?_, fun hr => ⟨hget, htable, hr (by omega) (by omega) f rfl⟩⟩
        cases hrf
        exact hr.2.2

theorem only_sysWrite {fd : ℤ} {size : ℕ} (h : e.valid buffer = true) :
    (sysWrite e p fd buffer size).Only e.Within ↔
      (fd = 1 → e.RangeInside buffer size) ∧
      (3 ≤ fd → fd ≤ 32 → ∃ wf, p.oft (fd - 3) = some wf ∧
        e.RangeInside buffer (writeSpan e wf size)) := by
  have hget : (umemGet e buffer).Only e.Within := by
    rw [umemGet_valid h]
    simpa [Only, Env.Within] using h
  unfold sysWrite
  rw [only_bind_of_ok (a := some (e.mem buffer)) (by rw [umemGet_valid h])]
  dsimp only
  by_cases h1 : fd = 1
  · subst h1
    rw [if_pos rfl, only_bind_of_ok (touch_result _ _ _), only_touch]
    refine ⟨fun hr => ⟨fun _ => hr.2.1, fun h3 => by omega⟩, fun hr => ⟨hget, hr.1 rfl, only_pure _⟩⟩
  rw [if_neg h1]
  by_cases hfd : fd < 3 ∨ fd > 32
  · rw [if_neg (by omega)]
    refine ⟨fun _ => ⟨fun h => absurd h h1, fun h3 h32 => by omega⟩, fun _ => ⟨hget, only_exit _⟩⟩
  · rw [if_pos hfd, only_bind_of_ok (a := p.oft (fd - 3)) rfl, only_fileWrite]
    have htable : (tableGet p (fd - 3)).Only e.Within := by simp [tableGet, only_bind, Env.Within]
    refine ⟨fun hr => ⟨fun h => absurd h h1, fun _ _ => hr.2.2⟩, fun hr => ?_⟩
    exact ⟨hget, htable, hr.2 (by omega) (by omega)⟩

theorem only_sysCreate {file : ℕ} (h : e.valid file = true) :
    (sysCreate e p file).Only e.Within ↔ e.StringInside file := by
  have hlt := Env.lt_of_valid h
  have h0 : file ≠ 0 := by
    rintro rfl
    rw [Env.not_valid_page0 (by decide)] at h
    cases h
  have hget : (umemGet e file).Only e.Within := by
    rw [umemGet_valid h]
    simpa [Only, Env.Within] using h
  unfold sysCreate
  rw [if_neg h0, only_bind_of_ok (a := some (e.mem file)) (by rw [umemGet_valid h])]
  dsimp only
  rw [only_bind, only_loadString (Nat.le_of_lt hlt) (by unfold physBase at *; omega)]
  simp [hget]

theorem only_sysOpen {file : ℕ} (h : e.valid file = true) :
    (sysOpen e p file).Only e.Within ↔ e.StringInside file := by
  have hlt := Env.lt_of_valid h
  have h0 : file ≠ 0 := by
    rintro rfl
    rw [Env.not_valid_page0 (by decide)] at h
    cases h
  have hget : (umemGet e file).Only e.Within := by
    rw [umemGet_valid h]
    simpa [Only, Env.Within] using h
  unfold sysOpen
  rw [if_neg h0, only_bind_of_ok (a := some (e.mem file)) (by rw [umemGet_valid h])]
  dsimp only
  rw [only_bind, only_loadString (Nat.le_of_lt hlt) (by unfold physBase at *; omega)]
  refine ⟨fun hr => hr.2.1, fun hr => ⟨hget, hr, fun _ _ => ?_⟩⟩
  cases e.opened with
  | none => exact only_pure _
  | some f => simp [tableSet, only_bind, Env.Within]

theorem only_sysExec {file : ℕ} (h : e.valid file = true) :
    (sysExec e p file).Only e.Within ↔ e.StringInside file := by
  have hlt := Env.lt_of_valid h
  have hget : (umemGet e file).Only e.Within := by
    rw [umemGet_valid h]
    simpa [Only, Env.Within] using h
  have hload : (loadString e (2 ^ 32 - file) file).Only e.Within ↔ e.StringInside file :=
    only_loadString (Nat.le_of_lt hlt) (by unfold physBase at *; omega)
  unfold sysExec
  rw [only_bind_of_ok (a := some (e.mem file)) (by rw [umemGet_valid h])]
  dsimp only
  rw [only_bind_of_ok (processExecute_result _), only_processExecute,
    only_bind_of_ok (loadString_result _ _), hload]
  refine ⟨fun hr => hr.2.1, fun hr => ⟨hget, hr, hr, ?_⟩⟩
  cases e.opened with
  | none => exact only_pure _
  | some f => exact only_pure _

/-- A call stays in the caller's memory exactly when its buffer or string does, as far as the
call gets; a pointer whose first byte is not the caller's own ends the process before any
access. -/
theorem user_memory (r : Request) :
    ((perform e p r).Only e.Within ↔ r.Inside e p) ∧
      ∀ a, r.pointer = some a → e.valid a = false →
        (perform e p r).log = [] ∧ (perform e p r).result = .error (-1) := by
  refine ⟨?_, fun a ha hv => by rw [perform_refused ha hv]; exact ⟨rfl, rfl⟩⟩
  by_cases hv : ∃ a, r.pointer = some a ∧ e.valid a = false
  · obtain ⟨a, ha, hv⟩ := hv
    rw [perform_refused ha hv]
    refine iff_of_true (only_exit _) ?_
    cases r <;> cases ha <;> simp [Request.Inside, hv]
  have hv : ∀ a, r.pointer = some a → e.valid a = true := fun a ha => by
    cases h : e.valid a with
    | true => rfl
    | false => exact absurd ⟨a, ha, h⟩ hv
  cases r with
  | exit code => simp [perform, Request.Inside]
  | filesize fd =>
      simp [perform, sysFilesize, tableGet, fileLength, only_bind, Env.Within, Request.Inside]
  | close fd =>
      by_cases hfd : fd < 3 ∨ fd > 32 <;>
        simp [perform, sysClose, hfd, tableSet, only_bind, Env.Within, Request.Inside]
  | create file => simp [perform, only_sysCreate (hv _ rfl), Request.Inside, hv _ rfl]
  | «open» file => simp [perform, only_sysOpen (hv _ rfl), Request.Inside, hv _ rfl]
  | exec file => simp [perform, only_sysExec (hv _ rfl), Request.Inside, hv _ rfl]
  | read fd buffer size =>
      simp [perform, only_sysRead (hv _ rfl), Request.Inside, hv _ rfl]
  | write fd buffer size =>
      simp [perform, only_sysWrite (hv _ rfl), Request.Inside, hv _ rfl]

/-- The stack page is mapped; file 0 has 2 bytes. -/
def stackOnly : Env :=
  { mem := fun _ => 0
    mapped := fun a => physBase - pgsize ≤ a && a < physBase
    page0 := fun _ => page0_not_stack
    inodes := fun _ => ⟨2, 0⟩
    bounce := true
    reserves := true
    created := true
    opened := none
    page := true
    started := 4 }

/-- Descriptor 3 is open on file 0. -/
def oneFile : Process := ⟨fun i => if i = 0 then some ⟨0, 0⟩ else none, 5⟩

/-- A read of 2 bytes to the last byte of the stack page. -/
theorem sys_read_leaves_memory :
    Access.store physBase ∈ (perform stackOnly oneFile (.read 3 (physBase - 1) 2)).log ∧
      ¬(perform stackOnly oneFile (.read 3 (physBase - 1) 2)).Only stackOnly.Within := by
  have h : Access.store physBase ∈
      (perform stackOnly oneFile (.read 3 (physBase - 1) 2)).log := by decide
  have hkernel : ¬stackOnly.valid physBase = true := by decide
  exact ⟨h, fun hw => hkernel (hw _ h)⟩

end CSE130.Lab3.Syscall
