import CSE130.Lab3.Descriptors
import Mathlib.Data.List.Perm.Subperm

/-! # A descriptor works until it is closed

`sys_open` takes a new number for every attempt, and every second number is left out; `sys_read`,
`sys_write` and `sys_close` accept the numbers from 3 to 32.  So the descriptors of the first 15
attempts work, and no other (`descriptors_work`). -/

namespace CSE130.Lab3.Syscall

open Traced Transition

abbrev History := List (Process × Env × Request)

/-- The value that a call returned. -/
def returned (x : Process × Env × Request) : Option ℤ :=
  match (perform x.2.1 x.1 x.2.2).result with
  | .ok (v, _) => v
  | .error _ => none

/-- The descriptors that `sys_open` has returned and that are not closed, each with the inode of
its file. -/
def openTable : History → List (ℤ × ℕ)
  | [] => []
  | x :: h =>
      match x.2.2 with
      | .open _ =>
          match returned x, x.2.1.opened with
          | some fd, some f => if 0 ≤ fd then (fd, f.inode) :: openTable h else openTable h
          | _, _ => openTable h
      | .close fd => (openTable h).filter fun d => d.1 ≠ fd
      | _ => openTable h

/-- The call returns, and the only file that it passes on is one of the inode `n`. -/
structure Passes (e : Env) (p : Process) (r : Request) (n : ℕ) : Prop where
  returns : ∃ v p', (perform e p r).result = .ok (some v, p')
  file : ∃ f : File, f.inode = n ∧ ∀ g, .file g ∈ (perform e p r).log ↔ g = some f

/-- The descriptor is accepted, and designates a file of the inode `n`. -/
structure Accepts (p : Process) (fd : ℤ) (n : ℕ) : Prop where
  read : ∀ e buffer size, e.valid buffer = true → Passes e p (.read fd buffer size) n
  write : ∀ e buffer size, e.valid buffer = true → Passes e p (.write fd buffer size) n
  filesize : ∀ e, Passes e p (.filesize fd) n
  close : ∀ e, ∃ p', (perform e p (.close fd)).result = .ok (none, p')

/-- The descriptors of a process work: those that are open are accepted and differ from one
another, and a process with less than 30 of them gets another one. -/
structure Works (h : History) (p : Process) : Prop where
  accepted : ∀ fd n, (fd, n) ∈ openTable h → Accepts p fd n
  distinct : ((openTable h).map Prod.fst).Nodup
  another : (openTable h).length < 30 → ∀ (e : Env) (file : ℕ) (f : File), e.valid file = true →
    e.opened = some f → ∃ fd p', (perform e p (.open file)).result = .ok (some fd, p') ∧
      0 ≤ fd ∧ fd ∉ (openTable h).map Prod.fst ∧ Accepts p' fd f.inode

variable {e : Env} {p p' p₀ : Process} {r : Request} {f : File} {fd : ℤ} {n : ℕ} {h : History}
  {G : Process → Env × Request → Prop}

/-! ### One call -/

theorem copyLoop_result {length : ℤ} {g : ℕ → Access} : ∀ (fuel buffer : ℕ) (size offset : ℤ),
    ∃ n, (copyLoop e length g fuel buffer size offset).result = .ok n
  | 0, _, _, _ => ⟨0, rfl⟩
  | fuel + 1, buffer, size, offset => by
      unfold copyLoop
      dsimp only
      split_ifs
      · exact ⟨0, rfl⟩
      · rw [result_bind_of_ok (touch_result g _ _)]
        obtain ⟨n, hn⟩ := copyLoop_result fuel (buffer + (min size (min (length - offset)
          (512 - offset % 512))).toNat) (size - min size (min (length - offset)
            (512 - offset % 512))) (offset + min size (min (length - offset) (512 - offset % 512)))
        rw [result_bind_of_ok hn]
        exact ⟨_, rfl⟩
      · exact ⟨0, rfl⟩

theorem inodeWriteAt_result {inode : Inode} {buffer : ℕ} {size offset : ℤ} :
    ∃ n, (inodeWriteAt e inode buffer size offset).result = .ok n := by
  unfold inodeWriteAt
  split_ifs
  · exact ⟨0, rfl⟩
  · exact copyLoop_result _ _ _ _
  · exact copyLoop_result _ _ _ _
  · exact ⟨0, rfl⟩

/-- Not a file. -/
def NoFile (a : Access) : Prop := ∀ g, a ≠ .file g

theorem only_inodeWriteAt_noFile {inode : Inode} {buffer : ℕ} {size offset : ℤ} :
    (inodeWriteAt e inode buffer size offset).Only NoFile := by
  unfold inodeWriteAt
  split_ifs
  · exact only_pure _
  · exact (only_copyLoop (Nat.le_refl _)).mpr fun _ _ => nofun
  · exact (only_copyLoop (Nat.le_refl _)).mpr fun _ _ => nofun
  · exact only_pure _

theorem mem_file_iff {l₁ l₂ : List Access} (h₁ : ∀ a ∈ l₁, NoFile a) (h₂ : ∀ a ∈ l₂, NoFile a)
    (g : Option File) : .file g ∈ l₁ ++ .file (some f) :: l₂ ↔ g = some f := by
  rw [List.mem_append, List.mem_cons]
  constructor
  · rintro (hm | hm | hm)
    · exact absurd rfl (h₁ _ hm g)
    · exact Access.file.inj hm
    · exact absurd rfl (h₂ _ hm g)
  · rintro rfl
    exact .inr (.inl rfl)

/-- A call that passes a file on after accesses to other things. -/
theorem passes_of (pre : List Access) (x : Call ℤ) (k : ℤ → Process) (hpre : ∀ a ∈ pre, NoFile a)
    (hx : ∃ n, x.result = .ok n) (hlog : x.Only NoFile)
    (hrun : perform e p r = returns (⟨pre, .ok ()⟩ >>= fun _ => do
      access (.file (some f))
      let n ← x
      pure (n, k n))) : Passes e p r f.inode := by
  obtain ⟨n, hn⟩ := hx
  have hcall : perform e p r = ⟨pre ++ .file (some f) :: x.log, .ok (some n, k n)⟩ := by
    have hy : ((⟨pre, .ok ()⟩ : Call Unit) >>= fun _ => do
        access (.file (some f))
        let n ← x
        pure (n, k n)) = ⟨pre ++ .file (some f) :: x.log, .ok (n, k n)⟩ := by
      rw [bind_of_ok rfl, bind_of_ok (access_result _), bind_of_ok hn, pure_log, List.append_nil]
      rfl
    rw [hrun, hy]
    unfold returns
    rw [bind_of_ok rfl, pure_log, List.append_nil]
    rfl
  refine ⟨⟨n, k n, by rw [hcall]⟩, f, rfl, fun g => ?_⟩
  rw [hcall]
  exact mem_file_iff hpre hlog g

/-- A descriptor in the range, with its file in the table, is accepted. -/
theorem accepts_of_table (h3 : 3 ≤ fd) (h32 : fd ≤ 32) (hf : p.oft (fd - 3) = some f) :
    Accepts p fd f.inode := by
  have hin : ¬(fd < 3 ∨ fd > 32) := by omega
  constructor
  · intro e buffer size hv
    refine passes_of [.load buffer, .table (fd - 3)]
      (inodeReadAt e (e.inodes f.inode) buffer (toOff size) f.pos) (p.advance (fd - 3) f) ?_ (copyLoop_result _ _ _ _) ((only_copyLoop (Nat.le_refl _)).mpr fun _ _ => nofun) ?_
    · intro a ha
      obtain rfl | rfl := List.mem_pair.mp ha
      · exact nofun
      · exact nofun
    · change returns (sysRead e p fd buffer size) = _
      unfold sysRead
      rw [umemGet_valid hv, bind_of_ok rfl]
      dsimp only
      rw [if_neg hin]
      unfold tableGet
      rw [hf]
      rfl
  · intro e buffer size hv
    refine passes_of [.load buffer, .table (fd - 3)]
      (inodeWriteAt e (e.inodes f.inode) buffer (toOff size) f.pos) (p.advance (fd - 3) f) ?_ inodeWriteAt_result only_inodeWriteAt_noFile ?_
    · intro a ha
      obtain rfl | rfl := List.mem_pair.mp ha
      · exact nofun
      · exact nofun
    · change returns (sysWrite e p fd buffer size) = _
      unfold sysWrite
      rw [umemGet_valid hv, bind_of_ok rfl]
      dsimp only
      rw [if_neg (by omega), if_pos hin]
      unfold tableGet
      rw [hf]
      rfl
  · intro e
    refine passes_of [.table (fd - 3)] (pure (e.inodes f.inode).length) (fun _ => p) ?_ ⟨_, rfl⟩ (only_pure _) ?_
    · intro a ha
      obtain rfl := List.mem_singleton.mp ha
      exact nofun
    · change returns (sysFilesize e p fd) = _
      unfold sysFilesize tableGet
      rw [hf]
      rfl
  · intro e
    refine ⟨{ p with oft := Function.update p.oft (fd - 3) none }, ?_⟩
    change (sysClose p fd >>= fun p => pure (none, p)).result = _
    unfold sysClose
    rw [if_neg hin]
    rfl

/-- Above the range, `read` returns -1 and passes no file on. -/
theorem not_accepts (h32 : 32 < fd) : ¬Accepts p fd n := by
  intro h
  have hv : openEnv.valid (physBase - 2) = true := by decide
  have hrun : perform openEnv p (.read fd (physBase - 2) 1) =
      ⟨[.load (physBase - 2)], .ok (some (-1), p)⟩ := by
    change returns (sysRead openEnv p fd (physBase - 2) 1) = _
    unfold sysRead
    rw [umemGet_valid hv, bind_of_ok rfl]
    dsimp only
    rw [if_pos (.inr h32)]
    rfl
  obtain ⟨f, -, hlog⟩ := (h.read openEnv (physBase - 2) 1 hv).file
  rw [hrun] at hlog
  cases List.mem_singleton.mp ((hlog (some f)).mpr rfl)

theorem open_result {file : ℕ} (hv : e.valid file = true) (ho : e.opened = some f) :
    ∃ p', (perform e p (.open file)).result = .ok (some p.maxFd, p') ∧
      p'.oft = Function.update p.oft (p.maxFd - 3) (some f) := by
  refine ⟨_, returns_ok (p := { p with
    maxFd := incr (incr p.maxFd), oft := Function.update p.oft (p.maxFd - 3) (some f) }) ?_, rfl⟩
  unfold sysOpen
  rw [if_neg (valid_ne_zero hv), result_bind_of_ok (umemGet_result hv)]
  dsimp only
  rw [result_bind_of_ok (loadString_result _ _), ho]
  rfl

/-! ### Runs -/

/-- The table after a run: the number that comes next, and for every open descriptor its file. -/
structure Tracked (h : History) (p : Process) : Prop where
  maxFd : p.maxFd = 3 + 2 * opens h
  number : ∀ d ∈ openTable h, ∃ j < opens h, d.1 = 3 + 2 * (j : ℤ)
  distinct : ((openTable h).map Prod.fst).Nodup
  file : ∀ d ∈ openTable h, ∃ f, p.oft (d.1 - 3) = some f ∧ f.inode = d.2

theorem incr_of_lt {x : ℤ} (h0 : 0 ≤ x) (h : x + 1 < 2 ^ 31) : incr x = x + 1 := by
  unfold incr
  rw [Int.bmod_eq_of_le (by omega) (by omega)]

theorem Advanced.file {i : ℤ} (h : Advanced p p') (hf : p.oft i = some f) :
    ∃ f', p'.oft i = some f' ∧ f'.inode = f.inode := by
  obtain rfl | ⟨j, g, n, hg, rfl⟩ := h
  · exact ⟨f, hf, rfl⟩
  · unfold Process.advance
    by_cases he : i = j
    · rw [he, hg] at hf
      cases hf
      rw [he]
      exact ⟨_, Function.update_self _ _ _, rfl⟩
    · exact ⟨f, (Function.update_of_ne he _ _).trans hf, rfl⟩

theorem Tracked.same (ht : Tracked h p) {x : Process × Env × Request} (hopen : x.2.2.isOpen = false)
    (htable : openTable (x :: h) = openTable h) (ha : Advanced p p') : Tracked (x :: h) p' := by
  have hcount : opens (x :: h) = opens h := by
    rw [opens_cons, if_neg (by rw [hopen]; exact Bool.noConfusion), Nat.add_zero]
  constructor
  · rw [ha.keeps.1, hcount]
    exact ht.maxFd
  · rw [htable, hcount]
    exact ht.number
  · rw [htable]
    exact ht.distinct
  · rw [htable]
    intro d hd
    obtain ⟨f, hf, hi⟩ := ht.file d hd
    obtain ⟨f', hf', hi'⟩ := ha.file hf
    exact ⟨f', hf', hi'.trans hi⟩

theorem Tracked.close (ht : Tracked h p) (hc : Closes fd p p') :
    Tracked ((p, e, .close fd) :: h) p' := by
  have hcount : opens ((p, e, .close fd) :: h) = opens h := opens_cons _
  have htable : openTable ((p, e, .close fd) :: h) = (openTable h).filter fun d => d.1 ≠ fd := rfl
  subst hc
  constructor
  · rw [hcount]
    exact ht.maxFd
  · rw [htable, hcount]
    exact fun d hd => ht.number d (List.mem_filter.mp hd).1
  · rw [htable]
    exact ht.distinct.sublist (List.filter_sublist.map _)
  · rw [htable]
    intro d hd
    obtain ⟨hd, hne⟩ := List.mem_filter.mp hd
    have hne : d.1 ≠ fd := of_decide_eq_true hne
    obtain ⟨f, hf, hi⟩ := ht.file d hd
    exact ⟨f, (Function.update_of_ne (fun he => hne (by omega)) _ _).trans hf, hi⟩

theorem Tracked.open {file : ℕ} {v : ℤ} (ht : Tracked h p) (hbound : opens h < 2 ^ 30 - 2)
    (hv : returned (p, e, .open file) = some v) (ho : OpenReturns e v p p') :
    Tracked ((p, e, .open file) :: h) p' := by
  have hcount : opens ((p, e, .open file) :: h) = opens h + 1 := opens_cons _
  have hnext : p'.maxFd = 3 + 2 * ((opens h + 1 : ℕ) : ℤ) := by
    have hfirst : incr p.maxFd = p.maxFd + 1 :=
      incr_of_lt (by rw [ht.maxFd]; omega) (by rw [ht.maxFd]; omega)
    rw [ho.maxFd, hfirst, incr_of_lt (by rw [ht.maxFd]; omega) (by rw [ht.maxFd]; omega), ht.maxFd]
    omega
  have hold : ∀ d ∈ openTable h, ∃ j < opens h + 1, d.1 = 3 + 2 * (j : ℤ) := fun d hd => by
    obtain ⟨j, hj, hd⟩ := ht.number d hd
    exact ⟨j, Nat.lt_succ_of_lt hj, hd⟩
  cases hf : e.opened with
  | none =>
      have htable : openTable ((p, e, .open file) :: h) = openTable h := by
        rw [openTable]
        dsimp only
        rw [hv, hf]
      obtain ⟨-, hoft⟩ := ho.failed hf
      constructor
      · rw [hcount]
        exact hnext
      · rw [htable, hcount]
        exact hold
      · rw [htable]
        exact ht.distinct
      · rw [htable, hoft]
        exact ht.file
  | some f =>
      obtain ⟨rfl, hoft⟩ := ho.opened f hf
      have htable : openTable ((p, e, .open file) :: h) = (p.maxFd, f.inode) :: openTable h := by
        rw [openTable]
        dsimp only
        rw [hv, hf]
        exact if_pos (by rw [ht.maxFd]; omega)
      have hnew : ∀ d ∈ openTable h, d.1 ≠ p.maxFd := fun d hd he => by
        obtain ⟨j, hj, hd⟩ := ht.number d hd
        rw [ht.maxFd] at he
        omega
      constructor
      · rw [hcount]
        exact hnext
      · rw [htable, hcount]
        intro d hd
        obtain rfl | hd := List.mem_cons.mp hd
        · exact ⟨opens h, Nat.lt_succ_self _, ht.maxFd⟩
        · exact hold d hd
      · rw [htable, List.map_cons, List.nodup_cons]
        refine ⟨fun hm => ?_, ht.distinct⟩
        obtain ⟨d, hd, he⟩ := List.mem_map.mp hm
        exact hnew d hd he
      · rw [htable, hoft]
        intro d hd
        obtain rfl | hd := List.mem_cons.mp hd
        · exact ⟨f, Function.update_self _ _ _, rfl⟩
        · obtain ⟨g, hg, hi⟩ := ht.file d hd
          have hne : d.1 - 3 ≠ p.maxFd - 3 := fun he => hnew d hd (by omega)
          exact ⟨g, (Function.update_of_ne hne _ _).trans hg, hi⟩

theorem run_tracked (h₀ : p₀.Fresh) (hr : Run callStep G p₀ h p) :
    opens h < 2 ^ 30 - 1 → Tracked h p := by
  refine hr.invariant (I := fun h p => opens h < 2 ^ 30 - 1 → Tracked h p)
    (fun _ => ⟨h₀.2, nofun, List.nodup_nil, nofun⟩) ?_
  rintro h q ⟨e, r⟩ q' - ih - hs hbound
  have hle : opens h ≤ opens ((q, e, r) :: h) := by
    rw [opens_cons]
    exact Nat.le_add_right _ _
  have ht := ih (Nat.lt_of_le_of_lt hle hbound)
  cases callStep_effect hs with
  | @opens file v hv ho =>
      have hcount : opens ((q, e, .open file) :: h) = opens h + 1 := opens_cons _
      refine ht.open (by omega) ?_ ho
      unfold returned
      rw [hv]
  | closes _ hc => exact ht.close hc
  | create ha => exact ht.same rfl rfl ha
  | exec ha => exact ht.same rfl rfl ha
  | filesize ha => exact ht.same rfl rfl ha
  | read ha => exact ht.same rfl rfl ha
  | write ha => exact ht.same rfl rfl ha

theorem Tracked.works (ht : Tracked h p) (hfew : opens h < 15) : Works h p := by
  constructor
  · intro fd n hd
    obtain ⟨j, hj, he⟩ := ht.number _ hd
    obtain ⟨f, hf, rfl⟩ := ht.file _ hd
    exact accepts_of_table (by dsimp only at he; omega) (by dsimp only at he; omega) hf
  · exact ht.distinct
  · intro _ e file f hv ho
    obtain ⟨p', hr, hoft⟩ := open_result (p := p) hv ho
    have hmax := ht.maxFd
    refine ⟨p.maxFd, p', hr, by omega, fun hm => ?_, ?_⟩
    · obtain ⟨d, hd, he⟩ := List.mem_map.mp hm
      obtain ⟨j, hj, hd⟩ := ht.number d hd
      omega
    · refine accepts_of_table (by omega) (by omega) ?_
      rw [hoft]
      exact Function.update_self _ _ _

theorem Tracked.not_works (ht : Tracked h p) (hmany : 15 ≤ opens h) : ¬Works h p := by
  intro hw
  have hsmall : ∀ d ∈ openTable h, d.1 ≤ 32 := fun d hd =>
    Int.not_lt.mp fun hlt => not_accepts hlt (hw.accepted d.1 d.2 hd)
  have hsub : (openTable h).map Prod.fst ⊆ (List.range 15).map fun j : ℕ => 3 + 2 * (j : ℤ) := by
    intro fd hm
    obtain ⟨d, hd, rfl⟩ := List.mem_map.mp hm
    obtain ⟨j, -, he⟩ := ht.number d hd
    have := hsmall d hd
    exact List.mem_map.mpr ⟨j, List.mem_range.mpr (by omega), he.symm⟩
  have hlen := (List.subperm_of_subset ht.distinct hsub).length_le
  rw [List.length_map, List.length_map, List.length_range] at hlen
  have hv : openEnv.valid (physBase - 2) = true := by decide
  obtain ⟨fd, p', hr, -, -, haccepts⟩ := hw.another (by omega) openEnv (physBase - 2) ⟨0, 0⟩ hv rfl
  obtain ⟨p'', hr', -⟩ := open_result (p := p) (e := openEnv) hv rfl
  rw [hr] at hr'
  cases hr'
  refine not_accepts ?_ haccepts
  rw [ht.maxFd]
  omega

/-- **The descriptors that work**: as long as fewer than 15 opens were tried, failed ones included.
With the 15th the process has no number left that `read`, `write` and `close` accept. -/
theorem descriptors_work (h₀ : p₀.Fresh) (hr : Run callStep G p₀ h p) :
    (opens h < 15 → Works h p) ∧
      (Run callStep (fun p a => a.2.Fits a.1 p) p₀ h p → 15 ≤ opens h → opens h < 2 ^ 30 - 1 →
        ¬Works h p) := by
  constructor
  · intro hfew
    exact (run_tracked h₀ hr (by omega)).works hfew
  · intro hfits hmany hbound
    exact (run_tracked h₀ hfits hbound).not_works hmany

theorem descriptors_work_one_open : ∃ p, callStep openA freshProcess = some p ∧
    Works [(freshProcess, openA)] p := by
  have hs : callStep openA freshProcess =
    some ⟨Function.update freshProcess.oft 0 (some ⟨0, 0⟩), 5⟩ := rfl
  have hr : Run callStep (fun _ _ => True) freshProcess [(freshProcess, openA)] _ :=
    Run.nil.cons trivial hs
  exact ⟨_, hs, (descriptors_work freshProcess_fresh hr).1 (by decide)⟩

/-- The 16th `open` of a file returns 33. -/
theorem descriptors_run_out : ∃ h p, Run callStep (fun _ _ => True) freshProcess h p ∧
    opens h = 16 ∧ (33, 0) ∈ openTable h ∧ ¬Works h p := by
  have h : (execute callStep (List.replicate 16 openA) freshProcess).map (fun _ =>
      (opens (trace callStep (List.replicate 16 openA) freshProcess),
        decide ((33, 0) ∈ openTable (trace callStep (List.replicate 16 openA) freshProcess)))) =
      some (16, true) := by
    decide +kernel
  obtain ⟨p, hp, hfacts⟩ := Option.map_eq_some_iff.mp h
  obtain ⟨hopens, hmem⟩ := Prod.mk.inj hfacts
  have hr := execute_run (fun _ _ _ => trivial) Run.nil hp
  rw [List.append_nil] at hr
  have hmem := of_decide_eq_true hmem
  exact ⟨_, p, hr, hopens, hmem, fun hw => not_accepts (by decide) (hw.accepted _ _ hmem)⟩

end CSE130.Lab3.Syscall
