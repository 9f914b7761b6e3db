import CSE130.Lab3.OpenFiles

/-! # How long a file object lives

No system call of a process and no way to end it calls `file_close`.

* The kernel keeps exactly the file objects that the process is entitled to as long as no
  descriptor is closed, `sys_exec` finds no file and no process ends that `elf_load` has opened a
  file for (`file_objects`).
* Writes to an executable are refused while it runs, in every run.  They are accepted afterwards
  only if no process loaded from it was the last one to end (`executables_protected`). -/

namespace CSE130.Lab3.OpenFiles

open Files
open Transition
open Function (update)

variable {k k' : Kernel} {x : Action} {s t : Sector} {p q a b : ℕ} {P P' : Process}
  {st : Files.State} {h : List (Kernel × Action × (ℕ → Bool))}

/-! ### File objects -/

/-- The file objects that the process should have: one for each descriptor, and one for its
executable. -/
def Process.entitled (P : Process) : ℕ :=
  if P.status = .exited then 0
  else P.descriptors.length + if P.status.file.isSome = true then 1 else 0

/-- The file objects of every process are the ones that it should have.  After a process has
ended, the references to every inode are those of `filesys_init` and of the others. -/
def NoLeak (st : Files.State) (k : Kernel) : Prop :=
  (∀ p P, k.process p = some P → k.owned p = P.entitled) ∧
    ∀ p P, k.process p = some P → P.status = .exited → ∀ s, k.fs.opens s =
      (boot st).fs.opens s + k.files.countP fun a => (k.file a).inode = s ∧ k.owner a ≠ some p

/-- The step loses no file object and no reference: a process that ends had no executable opened,
the entry for a descriptor to be closed is empty, `sys_exec` opens no file, and no path leads to
a removed inode. -/
structure LosesNothing (k : Kernel) (x : Action) : Prop where
  ended : ∀ p P, Ends x p → k.process p = some P → P.status.file = none
  closed : ∀ p P fd, x = .sysClose p fd → k.process p = some P → P.oft (fd - 3) = none
  exec : ∀ p s a, x = .sysExec p (some s) a → ¬Opens k.fs s
  removed : ∀ s, LeadsTo x s → k.isRemoved s = false

/-- The entitlement by process identifier. -/
def Kernel.entitled (k : Kernel) (p : ℕ) : ℕ := ((k.process p).map Process.entitled).getD 0

structure Exact (st : Files.State) (k : Kernel) : Prop where
  opens : ∀ s, k.fs.opens s = (boot st).fs.opens s + k.refs s
  owned : ∀ p, k.owned p = k.entitled p
  early : ∀ p P, k.process p = some P → P.status.isRunning = false → P.status ≠ .exited →
    P.descriptors = []
  entry : ∀ p P fd, k.process p = some P → fd ∈ P.descriptors → 3 ≤ fd → fd ≤ 32 →
    P.oft (fd - 3) ≠ none

theorem entitled_of (hp : k.process p = some P) : k.entitled p = P.entitled := by
  unfold Kernel.entitled
  rw [hp]
  rfl

theorem entitled_congr (h : k'.process p = k.process p) : k'.entitled p = k.entitled p := by
  unfold Kernel.entitled
  rw [h]

theorem entitled_alive (h : P.status ≠ .exited) :
    P.entitled = P.descriptors.length + if P.status.file.isSome = true then 1 else 0 := if_neg h

theorem isRunning_ne_exited (h : P.status.isRunning = true) : P.status ≠ .exited := by
  intro he
  rw [he] at h
  cases h

/-- The process `p` becomes `P'`, and the kernel's books are in order for it. -/
theorem Exact.update (he : Exact st k) (h : k'.process = update k.process p (some P'))
    (hopens : ∀ s, k'.fs.opens s = (boot st).fs.opens s + k'.refs s)
    (howned : k'.owned p = P'.entitled) (hother : ∀ q, q ≠ p → k'.owned q = k.owned q)
    (hearly : P'.status.isRunning = false → P'.status ≠ .exited → P'.descriptors = [])
    (hentry : ∀ fd, fd ∈ P'.descriptors → 3 ≤ fd → fd ≤ 32 → P'.oft (fd - 3) ≠ none) :
    Exact st k' := by
  refine ⟨hopens, fun q => ?_, fun q Q hQ => ?_, fun q Q fd hQ => ?_⟩
  · by_cases hq : q = p
    · subst hq
      rw [howned, entitled_of (h ▸ Function.update_self ..)]
    · rw [hother q hq, entitled_congr (h ▸ Function.update_of_ne hq ..), he.owned]
  · rw [h, Function.update_apply] at hQ
    split at hQ
    · cases hQ
      exact hearly
    · exact he.early q Q hQ
  · rw [h, Function.update_apply] at hQ
    split at hQ
    · cases hQ
      exact hentry fd
    · exact he.entry q Q fd hQ

theorem Exact.same (he : Exact st k) (h : k'.process = k.process)
    (hopens : ∀ s, k'.fs.opens s = (boot st).fs.opens s + k'.refs s)
    (howned : ∀ q, k'.owned q = k.owned q) : Exact st k' where
  opens := hopens
  owned q := by rw [howned, he.owned, entitled_congr (by rw [h])]
  early q Q hQ := he.early q Q (h ▸ hQ)
  entry q Q fd hQ := he.entry q Q fd (h ▸ hQ)

theorem Turn.exact (ht : Turn x p P P') (he : Exact st k) (hg : LosesNothing k x)
    (hp : k.process p = some P) : P'.entitled = P.entitled ∧
      (P'.status.isRunning = false → P'.status ≠ .exited → P'.descriptors = []) ∧
      ∀ fd, fd ∈ P'.descriptors → 3 ≤ fd → fd ≤ 32 → P'.oft (fd - 3) ≠ none := by
  have hentry := he.entry p P
  cases ht with
  | notLoaded hc =>
      refine ⟨?_, fun _ _ => ?_, fun fd => hentry fd hp⟩
      · simp [Process.entitled, hc, Status.file]
      · exact he.early p P hp (by rw [hc]; rfl) (by rw [hc]; nofun)
  | loadFailed a hl =>
      refine ⟨?_, fun _ _ => ?_, fun fd => hentry fd hp⟩
      · simp [Process.entitled, hl, Status.file]
      · exact he.early p P hp (by rw [hl]; rfl) (by rw [hl]; nofun)
  | notOpened fd hr => exact ⟨rfl, he.early p P hp, fun fd => hentry fd hp⟩
  | closed fd hx h3 h32 hr =>
      have hnone := hg.closed p P fd hx hp
      have hfd : fd ∉ P.descriptors := fun hmem => hentry fd hp hmem h3 h32 hnone
      have hoft := Function.update_eq_self (fd - 3) P.oft
      rw [hnone] at hoft
      rw [List.erase_of_not_mem hfd, hoft]
      exact ⟨rfl, he.early p P hp, fun fd => hentry fd hp⟩
  | ended hx hs =>
      have hnone := hg.ended p P hx hp
      have hfail : P.status = .failed none :=
        hs.resolve_left fun hsome => by
          rw [hnone] at hsome
          cases hsome
      have hempty := he.early p P hp (by rw [hfail]; rfl) (by rw [hfail]; nofun)
      refine ⟨?_, fun _ hne => absurd rfl hne, fun fd => hentry fd hp⟩
      simp [Process.entitled, hfail, hempty, Status.file]

theorem SameBooks.exact (hb : SameBooks k k') (he : Exact st k) (hg : LosesNothing k x)
    (ht : Turns k x k'.process) : Exact st k' := by
  have hopens (s : Sector) : k'.fs.opens s = (boot st).fs.opens s + k'.refs s := by
    rw [hb.counts.opens, hb.refs, he.opens]
  generalize hpr : k'.process = pr at ht
  cases ht with
  | same => exact he.same hpr hopens hb.owned
  | start p hp =>
      have hzero : k.owned p = 0 := by
        rw [he.owned]
        unfold Kernel.entitled
        rw [hp]
        rfl
      refine he.update hpr hopens ?_ (fun q _ => hb.owned q) (fun _ _ => rfl) fun _ hmem => by
        cases hmem
      rw [hb.owned, hzero]
      rfl
  | turn p P P' hp hturn =>
      obtain ⟨hent, hearly, hentry⟩ := hturn.exact he hg hp
      refine he.update hpr hopens ?_ (fun q _ => hb.owned q) hearly hentry
      rw [hb.owned, hent, he.owned, entitled_of hp]

theorem Opened.exact_opens {who : Option ℕ} (ho : Opened k who s a k') (he : Exact st k)
    (t : Sector) : k'.fs.opens t = (boot st).fs.opens t + k'.refs t := by
  rw [ho.opens, ho.refs, he.opens, Nat.add_assoc]

theorem Opened.owned_self (ho : Opened k (some p) s a k') : k'.owned p = k.owned p + 1 := by
  rw [ho.owned, if_pos rfl]

theorem Opened.owned_of_ne {who : Option ℕ} (ho : Opened k who s a k') (hne : who ≠ some q) :
    k'.owned q = k.owned q := by
  rw [ho.owned, if_neg hne, Nat.add_zero]

theorem exact_moves (he : Exact st k) (hg : LosesNothing k x) (hm : Moves k x k') :
    Exact st k' := by
  cases hm with
  | quiet hb ht => exact hb.exact he hg ht
  | lost s hl hx _ =>
      have hr := hl.removed
      rw [hg.removed s hx] at hr
      cases hr
  | opened s a ho h => exact he.same h (ho.exact_opens he) fun q => ho.owned_of_ne nofun
  | exec p a P s _ _ hx hs _ => exact absurd hs (hg.exec p s a hx)
  | loading p a P s ho hp hc h =>
      refine he.update h (ho.exact_opens he) ?_
        (fun q hq => ho.owned_of_ne fun heq => hq (Option.some.inj heq).symm) (fun _ _ => ?_)
        fun fd => he.entry p P fd hp
      · rw [ho.owned_self, he.owned, entitled_of hp]
        simp [Process.entitled, hc, Status.file]
      · exact he.early p P hp (by rw [hc]; rfl) (by rw [hc]; nofun)
  | descriptor p a P P' s ho hp h hr hs hd ht =>
      have hne := isRunning_ne_exited hr
      refine he.update h (ho.exact_opens he) ?_
        (fun q hq => ho.owned_of_ne fun heq => hq (Option.some.inj heq).symm)
        (fun hrun => by rw [hs, hr] at hrun; cases hrun) fun fd hmem h3 h32 => ?_
      · rw [ho.owned_self, he.owned, entitled_of hp, entitled_alive hne,
          entitled_alive (by rwa [hs]), hd, hs, List.length_cons]
        omega
      · rw [hd, List.mem_cons] at hmem
        obtain ht | ⟨hge, ht⟩ := ht
        · rw [ht, Function.update_apply]
          split
          · nofun
          · rename_i hfd
            refine he.entry p P fd hp (hmem.resolve_left fun heq => hfd ?_) h3 h32
            rw [heq]
        · rw [ht]
          exact he.entry p P fd hp (hmem.resolve_left (by omega)) h3 h32
  | loaded p a P hd hp hl h =>
      refine he.update h (fun s => ?_) ?_ (fun q _ => hd.owned q) nofun
        fun fd => he.entry p P fd hp
      · rw [hd.opens, hd.refs, he.opens]
      · rw [hd.owned, he.owned, entitled_of hp]
        simp [Process.entitled, hl, Status.file]
  | closed a hc h =>
      refine he.same h (fun s => ?_) hc.owned
      have h₁ := hc.refs s
      have h₂ := hc.opens s
      have h₃ := he.opens s
      omega

theorem exact_boot (st : Files.State) : Exact st (boot st) where
  opens _ := rfl
  owned _ := rfl
  early _ _ hp := by cases hp
  entry _ _ _ hp := by cases hp

theorem exact_answer (he : Exact st k) (heap : ℕ → Bool) : Exact st (k.answer heap) :=
  he.same rfl he.opens fun _ => rfl

theorem reachable_exact
    (hr : Reachable step (fun k y => LosesNothing (k.answer y.2) y.1) (boot st) k) :
    Inv k ∧ Exact st k := by
  refine hr.invariant (I := fun k => Inv k ∧ Exact st k) ⟨inv_boot st, exact_boot st⟩ ?_
  rintro k y k' - ⟨hi, he⟩ hg hs
  have hm := act_moves (inv_answer hi y.2) hs
  exact ⟨inv_moves (inv_answer hi y.2) hm, exact_moves (exact_answer he y.2) hg hm⟩

/-- **File objects.**  In a run whose steps lose nothing every process has the file objects that
it should have, and what has ended holds no reference. -/
theorem file_objects
    (hr : Reachable step (fun k y => LosesNothing (k.answer y.2) y.1) (boot st) k) :
    NoLeak st k := by
  obtain ⟨-, he⟩ := reachable_exact hr
  have howned (p : ℕ) (P : Process) (hp : k.process p = some P) : k.owned p = P.entitled := by
    rw [he.owned, entitled_of hp]
  refine ⟨howned, fun p P hp hs s => ?_⟩
  have hnone : k.owned p = 0 := by
    rw [howned p P hp]
    exact if_pos hs
  rw [he.opens]
  refine congrArg _ (List.countP_congr fun a ha => ?_)
  have hne : k.owner a ≠ some p := by
    have := List.countP_eq_zero.mp hnone a ha
    simpa using this
  simp [hne]

/-- A step that ends no process, closes nothing and is not a `sys_exec`. -/
theorem losesNothing_of (hends : ∀ p, ¬Ends x p) (hclose : ∀ p fd, x ≠ .sysClose p fd)
    (hexec : ∀ p found a, x ≠ .sysExec p found a)
    (hremoved : ∀ s, LeadsTo x s → k.isRemoved s = false) : LosesNothing k x :=
  ⟨fun p _ hx => absurd hx (hends p), fun p _ fd hx => absurd hx (hclose p fd),
    fun p s a hx => absurd hx (hexec p (some s) a), hremoved⟩

/-- A file system of eight empty sectors. -/
def emptyDisk : Files.State :=
  ⟨fun _ => zeros, fun _ => false, 8, true, fun _ => none, fun _ => false, fun _ => true, false⟩

/-- Every `malloc` succeeds. -/
def plenty (_ : ℕ) : Bool := true

/-- A process runs the executable at sector 2. -/
def runSector2 : List (Action × (ℕ → Bool)) :=
  [(.start 3, plenty), (.load 3 true (some 2) 100, plenty), (.loaded 3 true 52, plenty)]

theorem file_objects_two : ∃ k P, Reachable step
    (fun k y => LosesNothing (k.answer y.2) y.1) (boot emptyDisk) k ∧ k.process 3 = some P ∧
      k.owned 3 = 2 ∧ P.entitled = 2 ∧ NoLeak emptyDisk k := by
  have hr₁ := (Reachable.refl : Reachable step
    (fun k y => LosesNothing (k.answer y.2) y.1) (boot emptyDisk) _).tail (a := (.start 3, plenty))
      (losesNothing_of (fun _ => id) (by nofun) (by nofun) fun _ => False.elim) rfl
  have hr₂ := hr₁.tail (a := (.load 3 true (some 2) 100, plenty))
    (losesNothing_of (fun _ => id) (by nofun) (by nofun) fun s hs => by cases hs; rfl) rfl
  have hr₃ := hr₂.tail (a := (.loaded 3 true 52, plenty))
    (losesNothing_of (fun _ => id) (by nofun) (by nofun) fun _ => False.elim) rfl
  have hr := hr₃.tail (a := (.sysOpen 3 (some 4) 101, plenty))
    (losesNothing_of (fun _ => id) (by nofun) (by nofun) fun s hs => by cases hs; rfl) rfl
  exact ⟨_, _, hr, rfl, rfl, rfl, file_objects hr⟩

/-- A descriptor is closed, and its file object stays. -/
theorem file_objects_closed : ∃ k, Reachable step (fun _ _ => True) (boot emptyDisk) k ∧
    ¬NoLeak emptyDisk k := by
  have hex : (execute step (runSector2 ++ [(.sysOpen 3 (some 4) 101, plenty),
      (.sysClose 3 3, plenty)]) (boot emptyDisk)).map
      (fun k => (k.owned 3, (k.process 3).map Process.entitled)) = some (2, some 1) := by rfl
  obtain ⟨k, hk, hv⟩ := Option.map_eq_some_iff.mp hex
  obtain ⟨hown, hP⟩ := Prod.mk.inj hv
  obtain ⟨P, hP, hent⟩ := Option.map_eq_some_iff.mp hP
  refine ⟨k, execute_reachable (fun _ _ _ => trivial) .refl hk, fun hno => ?_⟩
  have h := hno.1 3 P hP
  rw [hown, hent] at h
  cases h

/-! ### Executables -/

/-- A process loaded from the inode is running. -/
def Kernel.Runs (k : Kernel) (s : Sector) : Prop :=
  ∃ p P a, k.process p = some P ∧ P.status = .running a ∧ (k.file a).inode = s

/-- `inode_write_at` returns 0 and changes nothing. -/
def Kernel.Refuses (k : Kernel) (s : Sector) : Prop := ∀ buffer size offset,
  k.fs.inodeWriteAt s buffer size offset = some (0, k.fs)

/-- `inode_write_at` passes its test of `deny_write_cnt`. -/
def Kernel.Accepts (k : Kernel) (s : Sector) : Prop :=
  ∀ i, k.fs.openInodes s = some i → i.denyWriteCnt = 0

/-- Writes to an inode are refused while a process loaded from it runs, and accepted otherwise.
There are no other denials: `elf_load` is the only caller of `file_deny_write`. -/
def WriteProtected (k : Kernel) (s : Sector) : Prop :=
  (k.Runs s → k.Refuses s) ∧ (¬k.Runs s → k.Accepts s)

/-- A process that ends and was loaded from an inode leaves another one that was, too. -/
def KeepsRunning (k : Kernel) (x : Action) : Prop := ∀ p P a, Ends x p → k.process p = some P →
  P.status = .running a → ∃ q Q b, q ≠ p ∧ k.process q = some Q ∧ Q.status = .running b ∧
    (k.file b).inode = (k.file a).inode

/-- A file object that denies writes has a process running. -/
def Protected (k : Kernel) : Prop :=
  ∀ a, a ∈ k.files → (k.file a).denyWrite = true → k.Runs (k.file a).inode

theorem Turn.running (ht : Turn x p P P') (hs : P.status = .running a) (hx : ¬Ends x p) :
    P'.status = .running a := by
  cases ht with
  | notLoaded hc =>
      rw [hs] at hc
      cases hc
  | loadFailed b hl =>
      rw [hs] at hl
      cases hl
  | notOpened => exact hs
  | closed => exact hs
  | ended he => exact absurd he hx

theorem Turns.runs {pr : ℕ → Option Process} (ht : Turns k x pr) (hg : KeepsRunning k x)
    (hp : k.process p = some P) (hs : P.status = .running a) :
    ∃ q Q b, pr q = some Q ∧ Q.status = .running b ∧ (k.file b).inode = (k.file a).inode := by
  cases ht with
  | same => exact ⟨p, P, a, hp, hs, rfl⟩
  | start q hq =>
      refine ⟨p, P, a, ?_, hs, rfl⟩
      rw [Function.update_of_ne, hp]
      rintro rfl
      cases hp.symm.trans hq
  | turn q Q Q' hq hturn =>
      by_cases hpq : p = q
      · subst hpq
        cases hp.symm.trans hq
        by_cases hx : Ends x p
        · obtain ⟨r, R, b, hrp, hR, hb, hinode⟩ := hg p P a hx hp hs
          exact ⟨r, R, b, (Function.update_of_ne hrp ..).trans hR, hb, hinode⟩
        · exact ⟨p, Q', a, Function.update_self .., hturn.running hs hx, rfl⟩
      · exact ⟨p, P, a, (Function.update_of_ne hpq ..).trans hp, hs, rfl⟩

/-- The processes that run go on running, or others do for them. -/
theorem Kernel.Runs.carry (hr : k.Runs s) (h : ∀ p P a, k.process p = some P →
    P.status = .running a → ∃ q Q b, k'.process q = some Q ∧ Q.status = .running b ∧
      (k'.file b).inode = (k.file a).inode) : k'.Runs s := by
  obtain ⟨p, P, a, hp, hs, hinode⟩ := hr
  obtain ⟨q, Q, b, hq, hs', hb⟩ := h p P a hp hs
  exact ⟨q, Q, b, hq, hs', hb.trans hinode⟩

theorem Inv.running_mem (hi : Inv k) (hp : k.process p = some P) (hs : P.status = .running a) :
    a ∈ k.files ∧ k.owner a = some p ∧ (k.file a).denyWrite = true := by
  have h := hi.file p P a hp (by rw [hs]; rfl)
  rwa [hs] at h

theorem Opened.protected {who : Option ℕ} (ho : Opened k who s a k') (hi : Inv k)
    (hp : Protected k) (h : ∀ q Q b, k.process q = some Q → Q.status = .running b →
      ∃ Q', k'.process q = some Q' ∧ Q'.status = .running b) : Protected k' := by
  intro c hc hdeny
  have hne : c ≠ a := by
    rintro rfl
    rw [ho.file, Function.update_self] at hdeny
    cases hdeny
  rw [ho.files, List.mem_cons, or_iff_right hne] at hc
  rw [ho.file, Function.update_of_ne hne] at hdeny ⊢
  refine (hp c hc hdeny).carry fun q Q b hq hs => ?_
  obtain ⟨Q', hq', hs'⟩ := h q Q b hq hs
  refine ⟨q, Q', b, hq', hs', ?_⟩
  rw [ho.file, Function.update_of_ne (ne_of_mem_of_not_mem (hi.running_mem hq hs).1 ho.fresh)]

theorem protected_moves (hi : Inv k) (hp : Protected k) (hg : KeepsRunning k x)
    (hm : Moves k x k') : Protected k' := by
  cases hm with
  | quiet hb ht =>
      intro c hc hdeny
      rw [hb.files] at hc
      rw [hb.denyWrite] at hdeny
      rw [hb.inode]
      refine (hp c hc hdeny).carry fun p P a hP hs => ?_
      obtain ⟨q, Q, b, hq, hs', hb'⟩ := ht.runs hg hP hs
      exact ⟨q, Q, b, hq, hs', (hb.inode b).trans hb'⟩
  | lost s hl _ ht =>
      intro c hc hdeny
      rw [hl.files] at hc
      rw [hl.file] at hdeny ⊢
      refine (hp c hc hdeny).carry fun p P a hP hs => ?_
      rw [hl.file]
      exact ht.runs hg hP hs
  | opened s a ho h => exact ho.protected hi hp fun q Q b hq hs => ⟨Q, h ▸ hq, hs⟩
  | exec p a P s ho _ _ _ h => exact ho.protected hi hp fun q Q b hq hs => ⟨Q, h ▸ hq, hs⟩
  | loading p a P s ho hP hc h =>
      refine ho.protected hi hp fun q Q b hq hs => ⟨Q, ?_, hs⟩
      rw [h, Function.update_of_ne, hq]
      rintro rfl
      cases hq.symm.trans hP
      cases hs.symm.trans hc
  | descriptor p a P P' s ho hP h hr hs =>
      refine ho.protected hi hp fun q Q b hq hsQ => ?_
      by_cases hqp : q = p
      · subst hqp
        cases hq.symm.trans hP
        exact ⟨P', h ▸ Function.update_self .., hs.trans hsQ⟩
      · exact ⟨Q, (h ▸ Function.update_of_ne hqp ..).trans hq, hsQ⟩
  | loaded p a P hd hP hl h =>
      intro c hc hdeny
      rw [hd.files] at hc
      by_cases hca : c = a
      · subst hca
        exact ⟨p, _, c, h ▸ Function.update_self .., rfl, rfl⟩
      · rw [hd.denyWrite c hca] at hdeny
        rw [hd.inode]
        refine (hp c hc hdeny).carry fun q Q b hq hs => ⟨q, Q, b, ?_, hs, hd.inode b⟩
        rw [h, Function.update_of_ne, hq]
        rintro rfl
        cases hq.symm.trans hP
        cases hs.symm.trans hl
  | closed a hc h =>
      intro c hmem hdeny
      rw [hc.files] at hmem
      rw [hc.file] at hdeny ⊢
      refine (hp c (List.mem_of_mem_erase hmem) hdeny).carry fun q Q b hq hs =>
        ⟨q, Q, b, h ▸ hq, hs, ?_⟩
      rw [hc.file]

theorem protected_boot (st : Files.State) : Protected (boot st) := fun _ ha => by cases ha

theorem refuses_of_runs (hi : Inv k) (hr : k.Runs s) : k.Refuses s := by
  obtain ⟨p, P, a, hp, hs, rfl⟩ := hr
  obtain ⟨hmem, -, hdeny⟩ := hi.running_mem hp hs
  have hpos : 0 < k.denying (k.file a).inode := List.countP_pos_iff.mpr ⟨a, hmem, by simp [hdeny]⟩
  rw [← hi.denials] at hpos
  obtain ⟨i, hopen⟩ := open_of_denials hpos.ne'
  rw [denials_of_open hopen] at hpos
  intro buffer size offset
  unfold State.inodeWriteAt
  rw [hopen]
  exact if_pos hpos.ne'

theorem accepts_of_protected (hi : Inv k) (hp : Protected k) (hr : ¬k.Runs s) : k.Accepts s := by
  intro i hopen
  rw [← denials_of_open hopen, hi.denials]
  refine List.countP_eq_zero.mpr fun a ha hdeny => hr ?_
  simp only [decide_eq_true_eq] at hdeny
  exact hdeny.1 ▸ hp a ha hdeny.2

/-- **Executables.**  A write to a running executable is refused.  In a run in which the last process
loaded from a file never ends, writes are accepted whenever none of them runs. -/
theorem executables_protected (hr : Run step (fun _ _ => True) (boot st) h k) :
    (∀ s, k.Runs s → k.Refuses s) ∧
      ((∀ y ∈ h, KeepsRunning y.1 y.2.1) → ∀ s, WriteProtected k s) := by
  have hi : Inv k := (Reachable.invariant (I := Inv) (inv_boot st)
    (fun _ _ _ _ hi _ hs => inv_step hi hs) ⟨_, hr⟩)
  refine ⟨fun s => refuses_of_runs hi, fun hg s => ?_⟩
  have hr' : Run step (fun k y => KeepsRunning k y.1) (boot st) h k := hr.guard hg
  have hp : Inv k ∧ Protected k := by
    refine Reachable.invariant (I := fun k => Inv k ∧ Protected k)
      ⟨inv_boot st, protected_boot st⟩ ?_ ⟨_, hr'⟩
    rintro k y k' - ⟨hi, hp⟩ hg hs
    have hm := act_moves (inv_answer hi y.2) hs
    exact ⟨inv_moves (inv_answer hi y.2) hm, protected_moves (inv_answer hi y.2) hp hg hm⟩
  exact ⟨refuses_of_runs hi, accepts_of_protected hi hp.2⟩

theorem keepsRunning_of (h : ∀ p, ¬Ends x p) : KeepsRunning k x :=
  fun p _ _ hx => absurd hx (h p)

/-- Two processes run the same file, and one of them ends. -/
theorem executables_protected_two : ∃ h k, Run step (fun _ _ => True) (boot emptyDisk) h k ∧
    k.Runs 2 ∧ (k.process 3).map Process.status = some .exited ∧ k.Refuses 2 ∧
      ∀ s, WriteProtected k s := by
  have hr₁ := (Run.nil : Run step (fun _ _ => True) (boot emptyDisk) [] _).cons
    (a := (.start 3, plenty)) trivial rfl
  have hr₂ := hr₁.cons (a := (.load 3 true (some 2) 100, plenty)) trivial rfl
  have hr₃ := hr₂.cons (a := (.loaded 3 true 52, plenty)) trivial rfl
  have hr₄ := hr₃.cons (a := (.start 4, plenty)) trivial rfl
  have hr₅ := hr₄.cons (a := (.load 4 true (some 2) 101, plenty)) trivial rfl
  have hr₆ := hr₅.cons (a := (.loaded 4 true 52, plenty)) trivial rfl
  have hr := hr₆.cons (a := (.exit 3, plenty)) trivial rfl
  obtain ⟨hrefuse, hprotect⟩ := executables_protected hr
  refine ⟨_, _, hr, ⟨4, _, 101, rfl, rfl, rfl⟩, rfl, hrefuse 2 ⟨4, _, 101, rfl, rfl, rfl⟩,
    hprotect fun y hy => ?_⟩
  rcases List.mem_cons.mp hy with rfl | hy
  · rintro p P a hx hp hs
    cases hx
    cases hp
    cases hs
    exact ⟨4, _, 101, by decide, rfl, rfl, rfl⟩
  · refine keepsRunning_of ?_
    simp only [List.mem_cons, List.not_mem_nil, or_false] at hy
    rcases hy with rfl | rfl | rfl | rfl | rfl | rfl <;> exact fun _ => id

/-- The only process loaded from a file has ended, its file object is still there, and no write is
accepted. -/
theorem executables_protected_ended : ∃ k, Reachable step (fun _ _ => True) (boot emptyDisk) k ∧
    (∀ a, a ∈ k.files → k.owner a = some 3) ∧ ¬k.Runs 2 ∧ ¬WriteProtected k 2 := by
  have hex : (execute step (runSector2 ++ [(.exit 3, plenty)]) (boot emptyDisk)).map
      (fun k => (k.files, k.owner 100, (k.process 3).map Process.status,
        (k.fs.openInodes 2).map Inode.denyWriteCnt)) =
      some ([100], some 3, some .exited, some 1) := by rfl
  obtain ⟨k, hk, hv⟩ := Option.map_eq_some_iff.mp hex
  simp only [Prod.mk.injEq] at hv
  obtain ⟨hfiles, howner, hstatus, hdeny⟩ := hv
  have hr := execute_reachable (G := fun _ _ => True) (fun _ _ _ => trivial) .refl hk
  have hi : Inv k := hr.invariant (I := Inv) (inv_boot _) fun _ _ _ _ hi _ hs => inv_step hi hs
  have hall (a : ℕ) (ha : a ∈ k.files) : k.owner a = some 3 := by
    rw [hfiles, List.mem_singleton] at ha
    rw [ha, howner]
  have hruns : ¬k.Runs 2 := by
    rintro ⟨p, P, a, hp, hs, -⟩
    obtain ⟨hmem, ho, -⟩ := hi.running_mem hp hs
    obtain rfl := Option.some.inj (ho.symm.trans (hall a hmem))
    rw [hp, Option.map_some, hs] at hstatus
    cases hstatus
  refine ⟨k, hr, hall, hruns, fun hno => ?_⟩
  obtain ⟨i, hopen, hcnt⟩ := Option.map_eq_some_iff.mp hdeny
  have hzero := hno.2 hruns i hopen
  rw [hcnt] at hzero
  cases hzero

end CSE130.Lab3.OpenFiles
