import CSE130.Lib.Transition
import CSE130.Lab3.Syscall

/-! # The descriptor table

Every `open` advances `max_fd` by two and a successful one stores its file at `max_fd - 3`
without a bound; `write` does not test the entry it passes on and `filesize` tests nothing.
`descriptor_table` says which calls keep to the table, and that a process which makes only those
never leaves it. -/

namespace CSE130.Lab3.Syscall

open Traced Transition

variable {e : Env} {p p' p₀ : Process} {P : Access → Prop} {r : Request}

/-! ### Runs of a process -/

/-- The process makes a call; `none` when the call ends it. -/
def callStep (a : Env × Request) (p : Process) : Option Process :=
  match (perform a.1 p a.2).result with
  | .error _ => none
  | .ok (_, p) => some p

/-- The table when `thread_create` is done. -/
def Process.Fresh (p : Process) : Prop := (∀ i, 0 ≤ i → i < 32 → p.oft i = none) ∧ p.maxFd = 3

/-! ### What the calls may do -/

/-- An access keeps to the table, and to files that are in it. -/
def InTable : Access → Prop
  | .load _ | .store _ => True
  | .table i => 0 ≤ i ∧ i < 32
  | .file f => f ≠ none

/-- A descriptor of an open file. -/
def Process.IsOpen (p : Process) (fd : ℤ) : Prop :=
  3 ≤ fd ∧ fd < 35 ∧ p.oft (fd - 3) ≠ none

/-- A call that got a bad descriptor: none of an open file, and not that of the console. -/
def Request.Bad (p : Process) : Request → Prop
  | .exit _ | .create _ | .open _ | .exec _ => False
  | .filesize fd | .read fd _ _ | .close fd => ¬p.IsOpen fd
  | .write fd _ _ => fd ≠ 1 ∧ ¬p.IsOpen fd

/-- The call returns an error or ends the process. -/
def Refused (x : Call (Option ℤ × Process)) : Prop :=
  (∃ c, x.result = .error c) ∨ ∃ p, x.result = .ok (some (-1), p)

/-- The call keeps to the table and refuses a bad descriptor. -/
def Safe (e : Env) (p : Process) (r : Request) : Prop :=
  (perform e p r).Only InTable ∧ (r.Bad p → Refused (perform e p r))

/-- What a call has to find in the table.  `read` tests its descriptor itself. -/
def Request.Fits (e : Env) (p : Process) : Request → Prop
  | .exit _ | .create _ | .exec _ | .read _ _ _ => True
  | .open file => e.valid file = true → e.opened ≠ none → 3 ≤ p.maxFd ∧ p.maxFd < 35
  | .write fd buffer _ => e.valid buffer = true → 3 ≤ fd → fd ≤ 32 → p.IsOpen fd
  | .filesize fd => p.IsOpen fd
  | .close fd => 3 ≤ fd → fd ≤ 32 → p.IsOpen fd

/-! ### One call -/

theorem only_umemGet (a : ℕ) : (umemGet e a).Only InTable := by
  unfold umemGet
  split
  · exact only_bind.mpr ⟨only_access.mpr trivial, fun _ _ => only_pure _⟩
  · exact only_pure _

theorem only_loadString_inTable : ∀ fuel a : ℕ, (loadString e fuel a).Only InTable
  | 0, _ => only_pure _
  | fuel + 1, a => by
      unfold loadString
      refine only_bind.mpr ⟨only_access.mpr trivial, fun _ _ => ?_⟩
      split
      · exact only_loadString_inTable fuel _
      · exact only_pure _

theorem only_inodeWriteAt_inTable {inode : Inode} {buffer : ℕ} {size offset : ℤ} :
    (inodeWriteAt e inode buffer size offset).Only InTable := by
  unfold inodeWriteAt
  split_ifs
  · exact only_pure _
  · exact (only_copyLoop (Nat.le_refl _)).mpr fun _ _ => trivial
  · exact (only_copyLoop (Nat.le_refl _)).mpr fun _ _ => trivial
  · exact only_pure _

theorem only_fileWrite_inTable {i : ℤ} {wf : Option File} {buffer size : ℕ} :
    (fileWrite e p i wf buffer size).Only InTable ↔ wf ≠ none := by
  unfold fileWrite
  rw [only_bind_of_ok (access_result _), only_access]
  refine ⟨fun h => h.1, fun h => ⟨h, ?_⟩⟩
  cases wf with
  | none => exact absurd rfl h
  | some f => exact only_bind.mpr ⟨only_inodeWriteAt_inTable, fun _ _ => only_pure _⟩

/-- A call that ends the process for its pointer is safe. -/
theorem safe_refused {a : ℕ} (ha : r.pointer = some a) (hv : e.valid a = false) : Safe e p r := by
  unfold Safe
  rw [perform_refused ha hv]
  exact ⟨only_exit _, fun _ => .inl ⟨-1, rfl⟩⟩

theorem valid_ne_zero {a : ℕ} (hv : e.valid a = true) : a ≠ 0 := by
  rintro rfl
  unfold Env.valid at hv
  rw [e.page0 0 (by decide), Bool.and_false] at hv
  cases hv

theorem umemGet_result {a : ℕ} (hv : e.valid a = true) :
    (umemGet e a).result = .ok (some (e.mem a)) := by
  rw [umemGet_valid hv]

theorem safe_open {file : ℕ} (hv : e.valid file = true) :
    Safe e p (.open file) ↔ (Request.open file).Fits e p := by
  have hload := only_loadString_inTable (e := e) (2 ^ 32 - file) file
  have hresult := loadString_result (e := e) (2 ^ 32 - file) file
  have honly : (sysOpen e p file).Only InTable ↔ (Request.open file).Fits e p := by
    unfold sysOpen Request.Fits
    rw [if_neg (valid_ne_zero hv), only_bind_of_ok (umemGet_result hv)]
    dsimp only
    rw [only_bind_of_ok hresult]
    cases ho : e.opened with
    | none =>
        exact iff_of_true ⟨only_umemGet _, hload, only_pure _⟩ fun _ h => absurd rfl h
    | some f =>
        simp only [tableSet, only_bind, only_access, only_pure, InTable]
        constructor
        · intro h _ _
          have := h.2.2.1.1
          omega
        · intro h
          have := h hv (Option.some_ne_none f)
          exact ⟨only_umemGet _, hload, ⟨by omega, fun _ _ => trivial⟩, fun _ _ => trivial⟩
  exact ⟨fun h => honly.mp (only_returns.mp h.1), fun h => ⟨only_returns.mpr (honly.mpr h), False.elim⟩⟩

theorem safe_filesize {fd : ℤ} :
    Safe e p (.filesize fd) ↔ (Request.filesize fd).Fits e p := by
  have honly : (sysFilesize e p fd).Only InTable ↔ p.IsOpen fd := by
    unfold sysFilesize
    rw [only_bind_of_ok (a := p.oft (fd - 3)) rfl, only_bind]
    simp only [tableGet, fileLength, only_bind, only_access, only_pure, InTable, Process.IsOpen]
    constructor
    · intro h
      exact ⟨by omega, by omega, h.2.1.1⟩
    · intro h
      exact ⟨⟨by omega, fun _ _ => trivial⟩, ⟨h.2.2, fun _ _ => trivial⟩, fun _ _ => trivial⟩
  exact ⟨fun h => honly.mp (only_returns.mp h.1),
    fun h => ⟨only_returns.mpr (honly.mpr h), fun hb => absurd h hb⟩⟩

theorem safe_close {fd : ℤ} : Safe e p (.close fd) ↔ (Request.close fd).Fits e p := by
  by_cases hfd : fd < 3 ∨ fd > 32
  · have hcall : perform e p (.close fd) = exit (-1) := by
      change sysClose p fd >>= _ = _
      unfold sysClose
      rw [if_pos hfd, exit_bind]
    unfold Safe
    rw [hcall]
    exact iff_of_true ⟨only_exit _, fun _ => .inl ⟨-1, rfl⟩⟩ fun h3 h32 => by omega
  · have hcall : perform e p (.close fd) =
        (tableSet p (fd - 3) none >>= fun p => pure (none, p)) := by
      change sysClose p fd >>= _ = _
      unfold sysClose
      rw [if_neg hfd]
    unfold Safe
    rw [hcall]
    constructor
    · intro h h3 h32
      by_contra hopen
      obtain ⟨c, hc⟩ | ⟨p', hc⟩ := h.2 hopen
      · cases hc
      · cases hc
    · intro h
      refine ⟨?_, fun hb => absurd (h (by omega) (by omega)) hb⟩
      simp only [tableSet, only_bind, only_access, only_pure, InTable]
      exact ⟨⟨by omega, fun _ _ => trivial⟩, fun _ _ => trivial⟩

theorem safe_read {fd : ℤ} {buffer size : ℕ} (hv : e.valid buffer = true) :
    Safe e p (.read fd buffer size) := by
  unfold Safe perform sysRead
  have htable : ∀ i, 0 ≤ i ∧ i < 32 → (tableGet p i).Only InTable := fun i hi =>
    only_bind.mpr ⟨only_access.mpr hi, fun _ _ => only_pure _⟩
  rw [only_returns, only_bind_of_ok (umemGet_result hv)]
  dsimp only
  by_cases hfd : fd < 3 ∨ fd > 32
  · refine ⟨⟨only_umemGet _, by rw [if_pos hfd]; exact only_pure _⟩, fun _ => .inr ⟨p, ?_⟩⟩
    refine returns_ok ?_
    rw [result_bind_of_ok (umemGet_result hv), if_pos hfd]
    rfl
  · rw [if_neg hfd, only_bind_of_ok (a := p.oft (fd - 3)) rfl]
    cases hf : p.oft (fd - 3) with
    | none =>
        refine ⟨⟨only_umemGet _, htable _ (by omega), only_pure _⟩, fun _ => .inr ⟨p, ?_⟩⟩
        refine returns_ok ?_
        rw [result_bind_of_ok (umemGet_result hv)]
        dsimp only
        rw [result_bind_of_ok (a := p.oft (fd - 3)) rfl, hf]
        rfl
    | some f =>
        refine ⟨⟨only_umemGet _, htable _ (by omega), ?_⟩, fun hb => ?_⟩
        · unfold fileRead inodeReadAt
          refine only_bind.mpr ⟨only_access.mpr (Option.some_ne_none f), fun _ _ => ?_⟩
          exact only_bind.mpr ⟨(only_copyLoop (Nat.le_refl _)).mpr fun _ _ => trivial,
            fun _ _ => only_pure _⟩
        · refine absurd ⟨by omega, by omega, ?_⟩ hb
          rw [hf]
          exact Option.some_ne_none f

theorem safe_write {fd : ℤ} {buffer size : ℕ} (hv : e.valid buffer = true) :
    Safe e p (.write fd buffer size) ↔ (Request.write fd buffer size).Fits e p := by
  unfold Safe perform sysWrite
  rw [only_returns, only_bind_of_ok (umemGet_result hv)]
  dsimp only
  by_cases h1 : fd = 1
  · subst h1
    refine iff_of_true ⟨⟨only_umemGet _, ?_⟩, fun hb => absurd rfl hb.1⟩ fun _ h => by omega
    rw [if_pos rfl]
    exact only_bind.mpr ⟨only_touch.mpr fun _ _ => trivial, fun _ _ => only_pure _⟩
  rw [if_neg h1]
  by_cases hfd : fd < 3 ∨ fd > 32
  · rw [if_neg (by omega)]
    refine iff_of_true ⟨⟨only_umemGet _, only_exit _⟩, fun _ => .inl ⟨-1, ?_⟩⟩
      fun _ h3 h32 => by omega
    refine returns_error ?_
    rw [result_bind_of_ok (umemGet_result hv)]
    rfl
  · rw [if_pos hfd, only_bind_of_ok (a := p.oft (fd - 3)) rfl, only_fileWrite_inTable]
    have htable : (tableGet p (fd - 3)).Only InTable :=
      only_bind.mpr ⟨only_access.mpr (by unfold InTable; omega), fun _ _ => only_pure _⟩
    constructor
    · intro h _ h3 h32
      exact ⟨h3, by omega, h.1.2.2⟩
    · intro h
      have hopen : p.IsOpen fd := h hv (by omega) (by omega)
      exact ⟨⟨only_umemGet _, htable, hopen.2.2⟩, fun hb => absurd hopen hb.2⟩

theorem safe_iff : Safe e p r ↔ r.Fits e p := by
  by_cases hv : ∃ a, r.pointer = some a ∧ e.valid a = false
  · obtain ⟨a, ha, hv⟩ := hv
    refine iff_of_true (safe_refused ha hv) ?_
    cases r <;> cases ha <;> simp [Request.Fits, hv]
  have hv : ∀ a, r.pointer = some a → e.valid a = true := fun a ha => by
    cases h : e.valid a with
    | true => rfl
    | false => exact absurd ⟨a, ha, h⟩ hv
  cases r with
  | exit code => exact iff_of_true ⟨only_exit _, False.elim⟩ trivial
  | create file =>
      refine iff_of_true ⟨only_returns.mpr ?_, False.elim⟩ trivial
      unfold sysCreate
      rw [if_neg (valid_ne_zero (hv _ rfl)), only_bind_of_ok (umemGet_result (hv _ rfl))]
      exact ⟨only_umemGet _, only_bind.mpr ⟨only_loadString_inTable _ _, fun _ _ => only_pure _⟩⟩
  | «open» file => exact safe_open (hv _ rfl)
  | exec file =>
      refine iff_of_true ⟨only_returns.mpr ?_, False.elim⟩ trivial
      unfold sysExec
      rw [only_bind_of_ok (umemGet_result (hv _ rfl))]
      dsimp only
      rw [only_bind_of_ok (processExecute_result _), only_processExecute,
        only_bind_of_ok (loadString_result _ _)]
      refine ⟨only_umemGet _, only_loadString_inTable _ _, only_loadString_inTable _ _, ?_⟩
      cases e.opened with
      | none => exact only_pure _
      | some f => exact only_pure _
  | filesize fd => exact safe_filesize
  | read fd buffer size => exact iff_of_true (safe_read (hv _ rfl)) trivial
  | write fd buffer size => exact safe_write (hv _ rfl)
  | close fd => exact safe_close

/-! ### Runs -/

/-- A step that opens no file leaves `max_fd` alone and fills no entry. -/
def Keeps (p p' : Process) : Prop :=
  p'.maxFd = p.maxFd ∧ ∀ i, p'.oft i ≠ none → p.oft i ≠ none

theorem Keeps.refl (p : Process) : Keeps p p := ⟨rfl, fun _ h => h⟩

/-- At most the position of a file in the table is changed. -/
def Advanced (p p' : Process) : Prop :=
  p' = p ∨ ∃ i f n, p.oft i = some f ∧ p' = p.advance i f n

theorem Advanced.keeps (h : Advanced p p') : Keeps p p' := by
  obtain rfl | ⟨i, f, n, hf, rfl⟩ := h
  · exact .refl _
  · refine ⟨rfl, fun j hj => ?_⟩
    by_cases he : j = i
    · rw [he, hf]
      exact Option.some_ne_none f
    · unfold Process.advance at hj
      dsimp only at hj
      rwa [Function.update_of_ne he] at hj

theorem sysRead_advanced {fd v : ℤ} {buffer size : ℕ}
    (h : (sysRead e p fd buffer size).result = .ok (v, p')) : Advanced p p' := by
  obtain ⟨a, -, h⟩ := result_bind_eq_ok.mp h
  cases a with
  | none => cases h
  | some b =>
      dsimp only at h
      split_ifs at h
      · cases h
        exact .inl rfl
      · obtain ⟨f, hf, h⟩ := result_bind_eq_ok.mp h
        cases hf
        cases hf : p.oft (fd - 3) with
        | none =>
            rw [hf] at h
            cases h
            exact .inl rfl
        | some rf =>
            rw [hf] at h
            obtain ⟨_, -, h⟩ := result_bind_eq_ok.mp h
            obtain ⟨n, -, h⟩ := result_bind_eq_ok.mp h
            cases h
            exact .inr ⟨_, rf, _, hf, rfl⟩

theorem sysWrite_advanced {fd v : ℤ} {buffer size : ℕ}
    (h : (sysWrite e p fd buffer size).result = .ok (v, p')) : Advanced p p' := by
  obtain ⟨a, -, h⟩ := result_bind_eq_ok.mp h
  cases a with
  | none => cases h
  | some b =>
      dsimp only at h
      split_ifs at h
      · obtain ⟨_, -, h⟩ := result_bind_eq_ok.mp h
        cases h
        exact .inl rfl
      · cases h
      · obtain ⟨f, hf, h⟩ := result_bind_eq_ok.mp h
        cases hf
        obtain ⟨_, -, h⟩ := result_bind_eq_ok.mp h
        cases hf : p.oft (fd - 3) with
        | none =>
            rw [hf] at h
            obtain ⟨_, -, h⟩ := result_bind_eq_ok.mp h
            cases h
            exact .inl rfl
        | some wf =>
            rw [hf] at h
            obtain ⟨n, -, h⟩ := result_bind_eq_ok.mp h
            cases h
            exact .inr ⟨_, wf, _, hf, rfl⟩

theorem sysCreate_advanced {file : ℕ} {v : ℤ} (h : (sysCreate e p file).result = .ok (v, p')) :
    Advanced p p' := by
  unfold sysCreate at h
  split at h
  · cases h
  obtain ⟨a, -, h⟩ := result_bind_eq_ok.mp h
  cases a with
  | none => cases h
  | some b =>
      obtain ⟨_, -, h⟩ := result_bind_eq_ok.mp h
      cases h
      exact .inl rfl

theorem sysExec_advanced {file : ℕ} {v : ℤ} (h : (sysExec e p file).result = .ok (v, p')) :
    Advanced p p' := by
  obtain ⟨a, -, h⟩ := result_bind_eq_ok.mp h
  cases a with
  | none => cases h
  | some b =>
      obtain ⟨tid, -, h⟩ := result_bind_eq_ok.mp h
      obtain ⟨_, -, h⟩ := result_bind_eq_ok.mp h
      cases ho : e.opened with
      | none =>
          rw [ho] at h
          cases h
          exact .inl rfl
      | some f =>
          rw [ho] at h
          cases h
          exact .inl rfl

/-- A `close` that returns empties its entry. -/
def Closes (fd : ℤ) (p p' : Process) : Prop :=
  p' = { p with oft := Function.update p.oft (fd - 3) none }

theorem Closes.keeps {fd : ℤ} (h : Closes fd p p') : Keeps p p' := by
  subst h
  refine ⟨rfl, fun i hi => ?_⟩
  by_cases he : i = fd - 3
  · exact absurd (by rw [he]; exact Function.update_self ..) hi
  · dsimp only at hi
    rwa [Function.update_of_ne he] at hi

theorem sysClose_closes {fd : ℤ} (h : (sysClose p fd).result = .ok p') :
    (3 ≤ fd ∧ fd ≤ 32) ∧ Closes fd p p' := by
  unfold sysClose at h
  split_ifs at h with hfd
  · cases h
  · cases h
    exact ⟨by omega, rfl⟩

/-- What an `open` that returns does to the table. -/
def Opens (e : Env) (p p' : Process) : Prop :=
  p'.maxFd = incr (incr p.maxFd) ∧
    (p'.oft = p.oft ∨ e.opened ≠ none ∧ p'.oft = Function.update p.oft (p.maxFd - 3) e.opened)

/-- An `open` that returns `v`. -/
structure OpenReturns (e : Env) (v : ℤ) (p p' : Process) : Prop where
  maxFd : p'.maxFd = incr (incr p.maxFd)
  failed : e.opened = none → v = -1 ∧ p'.oft = p.oft
  opened : ∀ f, e.opened = some f →
    v = p.maxFd ∧ p'.oft = Function.update p.oft (p.maxFd - 3) (some f)

theorem OpenReturns.opens {v : ℤ} (h : OpenReturns e v p p') : Opens e p p' := by
  refine ⟨h.maxFd, ?_⟩
  cases ho : e.opened with
  | none => exact .inl (h.failed ho).2
  | some f => exact .inr ⟨Option.some_ne_none f, (h.opened f ho).2⟩

theorem sysOpen_returns {file : ℕ} {v : ℤ} (h : (sysOpen e p file).result = .ok (v, p')) :
    OpenReturns e v p p' := by
  unfold sysOpen at h
  split_ifs at h
  · cases h
  obtain ⟨a, -, h⟩ := result_bind_eq_ok.mp h
  cases a with
  | none => cases h
  | some b =>
      obtain ⟨_, -, h⟩ := result_bind_eq_ok.mp h
      dsimp only at h
      cases ho : e.opened with
      | none =>
          rw [ho] at h
          cases h
          exact ⟨rfl, fun _ => ⟨rfl, rfl⟩, fun f hf => nomatch ho.symm.trans hf⟩
      | some f =>
          rw [ho] at h
          obtain ⟨q, hq, h⟩ := result_bind_eq_ok.mp h
          cases hq
          cases h
          refine ⟨rfl, fun hf => (nomatch ho.symm.trans hf), fun f' hf => ?_⟩
          cases ho.symm.trans hf
          exact ⟨rfl, rfl⟩

/-- The call is an `open`. -/
def Request.isOpen : Request → Bool
  | .open _ => true
  | _ => false

/-- What a call that returns does to the table. -/
inductive Effect (e : Env) (p p' : Process) : Request → Prop
  | opens {file : ℕ} {v : ℤ} : (perform e p (.open file)).result = .ok (some v, p') →
      OpenReturns e v p p' → Effect e p p' (.open file)
  | closes {fd : ℤ} : 3 ≤ fd ∧ fd ≤ 32 → Closes fd p p' → Effect e p p' (.close fd)
  | create {file : ℕ} : Advanced p p' → Effect e p p' (.create file)
  | exec {file : ℕ} : Advanced p p' → Effect e p p' (.exec file)
  | filesize {fd : ℤ} : Advanced p p' → Effect e p p' (.filesize fd)
  | read {fd : ℤ} {buffer size : ℕ} : Advanced p p' → Effect e p p' (.read fd buffer size)
  | write {fd : ℤ} {buffer size : ℕ} : Advanced p p' → Effect e p p' (.write fd buffer size)

theorem callStep_effect (hs : callStep (e, r) p = some p') : Effect e p p' r := by
  unfold callStep at hs
  split at hs
  · cases hs
  · rename_i v q hq
    cases hs
    cases r with
    | exit code => cases hq
    | create file =>
        obtain ⟨_, h, hq⟩ := result_bind_eq_ok.mp hq
        cases hq
        exact .create (sysCreate_advanced h)
    | «open» file =>
        obtain ⟨⟨v, q⟩, h, hv⟩ := result_bind_eq_ok.mp hq
        cases hv
        exact .opens hq (sysOpen_returns h)
    | exec file =>
        obtain ⟨_, h, hq⟩ := result_bind_eq_ok.mp hq
        cases hq
        exact .exec (sysExec_advanced h)
    | filesize fd =>
        cases hq
        exact .filesize (.inl rfl)
    | read fd buffer size =>
        obtain ⟨_, h, hq⟩ := result_bind_eq_ok.mp hq
        cases hq
        exact .read (sysRead_advanced h)
    | write fd buffer size =>
        obtain ⟨_, h, hq⟩ := result_bind_eq_ok.mp hq
        cases hq
        exact .write (sysWrite_advanced h)
    | close fd =>
        obtain ⟨_, h, hq⟩ := result_bind_eq_ok.mp hq
        cases hq
        obtain ⟨hfd, h⟩ := sysClose_closes h
        exact .closes hfd h

theorem callStep_cases (hs : callStep (e, r) p = some p') :
    r.isOpen = true ∧ Opens e p p' ∨ r.isOpen = false ∧ Keeps p p' := by
  cases callStep_effect hs with
  | opens _ h => exact .inl ⟨rfl, h.opens⟩
  | closes _ h => exact .inr ⟨rfl, h.keeps⟩
  | create h => exact .inr ⟨rfl, h.keeps⟩
  | exec h => exact .inr ⟨rfl, h.keeps⟩
  | filesize h => exact .inr ⟨rfl, h.keeps⟩
  | read h => exact .inr ⟨rfl, h.keeps⟩
  | write h => exact .inr ⟨rfl, h.keeps⟩

/-- How many calls of a history were an `open`. -/
def opens (h : List (Process × Env × Request)) : ℕ := h.countP fun x => x.2.2.isOpen

/-- An entry of the table was filled by an `open` of the run. -/
def Filled (h : List (Process × Env × Request)) (p : Process) : Prop :=
  ∀ i, 0 ≤ i → i < 32 → p.oft i ≠ none →
    ∃ x ∈ h, x.2.2.isOpen = true ∧ x.2.1.opened ≠ none ∧ x.1.maxFd = i + 3

variable {G : Process → Env × Request → Prop} {h : List (Process × Env × Request)}

theorem opens_cons (x : Process × Env × Request) :
    opens (x :: h) = opens h + if x.2.2.isOpen then 1 else 0 := List.countP_cons

theorem run_table (h₀ : p₀.Fresh) (hr : Run callStep G p₀ h p) :
    p.maxFd = incr^[2 * opens h] 3 ∧ Filled h p := by
  refine hr.invariant (I := fun h p => p.maxFd = incr^[2 * opens h] 3 ∧ Filled h p)
    ⟨h₀.2, fun i hi hi' hne => absurd (h₀.1 i hi hi') hne⟩ ?_
  rintro h q ⟨e, r⟩ q' - ⟨hmax, hfilled⟩ - hs
  rcases callStep_cases hs with ⟨hopen, hmax', hoft⟩ | ⟨hopen, hmax', hkeeps⟩
  · have hcount : 2 * opens ((q, e, r) :: h) = 2 + 2 * opens h := by
      rw [opens_cons, if_pos hopen]
      omega
    refine ⟨?_, fun i hi hi' hne => ?_⟩
    · rw [hcount, hmax', Function.iterate_add_apply, ← hmax]
      rfl
    · rcases hoft with he | ⟨ho, he⟩
      · rw [he] at hne
        obtain ⟨x, hx, hx'⟩ := hfilled i hi hi' hne
        exact ⟨x, List.mem_cons_of_mem _ hx, hx'⟩
      · by_cases hi0 : i = q.maxFd - 3
        · exact ⟨(q, e, r), List.mem_cons_self, hopen, ho, by change q.maxFd = i + 3; omega⟩
        · rw [he, Function.update_of_ne hi0] at hne
          obtain ⟨x, hx, hx'⟩ := hfilled i hi hi' hne
          exact ⟨x, List.mem_cons_of_mem _ hx, hx'⟩
  · have hcount : opens ((q, e, r) :: h) = opens h := by
      rw [opens_cons, if_neg (by simp [hopen]), Nat.add_zero]
    refine ⟨by rw [hcount, hmax', hmax], fun i hi hi' hne => ?_⟩
    obtain ⟨x, hx, hx'⟩ := hfilled i hi hi' (hkeeps i hne)
    exact ⟨x, List.mem_cons_of_mem _ hx, hx'⟩

/-- A process whose calls all find what they need keeps to its table: every call was safe, the
next one is exactly if it fits, `max_fd` counts the opens, and every entry was filled by one. -/
theorem descriptor_table (h₀ : p₀.Fresh)
    (hr : Run callStep (fun p a => a.2.Fits a.1 p) p₀ h p) :
    (∀ x ∈ h, Safe x.2.1 x.1 x.2.2) ∧ (∀ e r, Safe e p r ↔ r.Fits e p) ∧
      p.maxFd = incr^[2 * opens h] 3 ∧ Filled h p :=
  ⟨fun _ hx => safe_iff.mpr (hr.of_mem hx).2.1, fun _ _ => safe_iff, run_table h₀ hr⟩

/-- A process without open files. -/
def freshProcess : Process := ⟨fun _ => none, 3⟩

/-- The stack page is mapped and ends with the path `a`, which `filesys_open` finds. -/
def openEnv : Env :=
  { mem := fun a => if a = physBase - 2 then 97 else 0
    mapped := fun a => physBase - pgsize ≤ a && a < physBase
    page0 := fun _ => page0_not_stack
    inodes := fun _ => ⟨2, 0⟩
    bounce := true
    reserves := true
    created := true
    opened := some ⟨0, 0⟩
    page := true
    started := 4 }

/-- `open ("a")`. -/
def openA : Env × Request := (openEnv, .open (physBase - 2))

theorem freshProcess_fresh : freshProcess.Fresh := ⟨fun _ _ _ => rfl, rfl⟩

theorem descriptor_table_one_open : ∃ p, callStep openA freshProcess = some p ∧
    Safe openEnv p (.filesize 3) := by
  have hs : callStep openA freshProcess =
    some ⟨Function.update freshProcess.oft 0 (some ⟨0, 0⟩), 5⟩ := rfl
  have hfits : openA.2.Fits openA.1 freshProcess := fun _ _ => by decide
  refine ⟨_, hs, ?_⟩
  refine ((descriptor_table freshProcess_fresh (Run.nil.cons hfits hs)).2.1 _ _).mpr ?_
  exact ⟨by decide, by decide, by decide⟩

/-- The 17th `open` writes past the end of the table; `filesize` of a descriptor that is not open
passes a null pointer. -/
theorem descriptor_table_left :
    (∃ p, execute callStep (List.replicate 16 openA) freshProcess = some p ∧
      Access.table 32 ∈ (perform openEnv p openA.2).log ∧ ¬Safe openEnv p openA.2) ∧
    Access.file none ∈ (perform openEnv freshProcess (.filesize 3)).log ∧
      ¬Safe openEnv freshProcess (.filesize 3) := by
  have hnull : Access.file none ∈ (perform openEnv freshProcess (.filesize 3)).log := by decide
  have h : (execute callStep (List.replicate 16 openA) freshProcess).map
      (fun p => decide (Access.table 32 ∈ (perform openEnv p openA.2).log)) = some true := by
    decide +kernel
  obtain ⟨p, hp, hlog⟩ := Option.map_eq_some_iff.mp h
  have hpast : Access.table 32 ∈ (perform openEnv p openA.2).log := of_decide_eq_true hlog
  refine ⟨⟨p, hp, hpast, fun hsafe => ?_⟩, hnull, fun hsafe => hsafe.1 _ hnull rfl⟩
  exact absurd (hsafe.1 _ hpast).2 (by decide)

end CSE130.Lab3.Syscall
