import CSE130.Lab2.Mutex

/-! # Priority donation

No thread should wait for a lock whose holder has a lower priority (`NoInversion`).
`lock_acquire` raises the holder and, along the `blocker` pointers, the holders that it waits
for in turn.  The invariant by phases (`AtDonation`) follows `donate` down this chain: the only
pairs out of order are those of the lock it has come to.

Five statements can break the inequality, and `donates` says of each what it has to find:
`donate` has to meet a `blocker` that is current, a thread that takes a lock or queues for it
again must not be below the waiters or the holder, and a release and `thread_set_priority` must
not go below a thread that still waits. -/

namespace CSE130.Lab2

open Function (update)
open Transition

variable {k k' : Kernel} {f : Frame} {st : List Frame} {l m : Lock} {t h : Thread}
  {v : ℕ → BitVec 32} {a : Action}

/-- Thread `t` is blocked inside `lock_acquire(l)`. -/
def Kernel.BlockedIn (k : Kernel) (t : Thread) (l : Lock) : Prop :=
  k.status t = .blocked ∧ ∃ st, k.stack t = .semaphoreDownLoop (.lock l) :: st

/-- The threads blocked inside `lock_acquire(l)` are those on the waiters list of its
semaphore. -/
theorem blockedIn_iff {G : Kernel → Action → Prop} (hr : Reachable step G (boot v) k) :
    k.BlockedIn t l ↔ t ∈ k.waiters (.lock l) := by
  have hk := reachable_consistent hr
  obtain ⟨h, hr⟩ := hr
  constructor
  · rintro ⟨hb, st, hst⟩
    by_contra hw
    rcases (run_owed (hr.mono fun _ _ _ => trivial) (.lock l)).2 t _ st hst hw with rfl | ht
    · exact hk.threads.ne_of_blocked hb rfl
    · exact hk.threads.not_ready_of_blocked hb ht
  · exact hk.threads.waiting _ t

/-- No thread waits for a lock whose holder has a lower priority, but for the pairs `E`. -/
def OrderedBut (k : Kernel) (E : Lock → Thread → Prop) : Prop :=
  ∀ l h, k.holder l = some h → ∀ t ∈ k.waiters (.lock l), k.priority t ≤ k.priority h ∨ E l t

/-- No thread waits for a lock whose holder has a lower priority. -/
def NoInversion (k : Kernel) : Prop :=
  ∀ l h, k.holder l = some h → ∀ t ∈ k.waiters (.lock l), k.priority t ≤ k.priority h

/-- The running thread is not above the holder of `l`. -/
def Covered (k : Kernel) (l : Lock) : Prop :=
  ∀ h, k.holder l = some h → k.priority k.current ≤ k.priority h

/-- Control moves only in `schedule()`, and
* `donate` goes on to a lock that its holder waits for and whose holder is below the caller;
* a thread that takes a lock is not below the threads that still wait for it;
* a thread that a release has woken, and that finds the lock taken, is not above the holder;
* a release that revokes a donation leaves the caller the priority of the threads that wait for
  its other locks;
* `thread_set_priority` sets no priority below that of a thread waiting for a lock of the
  caller. -/
def donates (k : Kernel) (a : Action) : Prop :=
  coop k a ∧
  match a, k.code with
  | .run, .donateNext m :: _ => ∀ h n g, k.holder m = some h → h ∈ k.waiters (.lock n) →
      k.holder n = some g → k.priority g < k.priority k.current → k.blocker h = some n
  | .run, .lockAcquireHold l :: _ =>
      ∀ t ∈ k.waiters (.lock l), k.priority t ≤ k.priority k.current
  | .run, .semaphoreDownLoop (.lock l) :: _ => k.value (.lock l) = 0 → Covered k l
  | .run, .lockReleaseRevoke l :: _ => k.donator l ≠ none →
      ∀ m, k.holder m = some k.current → ∀ t ∈ k.waiters (.lock m), k.Remains l (k.priority t)
  | .run, .threadSetPriority n _ :: _ => k.priorityOld k.current = k.priority k.current →
      ∀ m, k.holder m = some k.current → ∀ t ∈ k.waiters (.lock m), k.priority t ≤ n
  | _, _ => True

/-- What is known at each statement. -/
def DonationAt (k : Kernel) : Frame → List Frame → Prop
  | .donate m, st =>
      (∃ h, k.holder m = some h ∧ k.priority h < k.priority k.current) ∧
      OrderedBut k (fun l t => l = m ∧ k.priority t ≤ k.priority k.current) ∧
      ∀ l st', st = .lockAcquireDown l :: st' → l = m ∨ Covered k l
  | .donateNext m, st =>
      (∃ h, k.holder m = some h ∧ k.priority h = k.priority k.current) ∧
      OrderedBut k (fun _ t => k.holder m = some t) ∧
      ∀ l st', st = .lockAcquireDown l :: st' → Covered k l
  | .lockAcquireBlocker l, _ => NoInversion k ∧
      ∃ h, k.holder l = some h ∧ k.priority h < k.priority k.current
  | .lockAcquireDown l, _ | .semaphoreDown (.lock l), _ => NoInversion k ∧ Covered k l
  | _, _ => NoInversion k

/-- The invariant by phases. -/
def AtDonation : Kernel → Prop := Phase NoInversion DonationAt

theorem NoInversion.resumes (h : NoInversion k) (g : Frame) (st : List Frame) (hg : g.resumes) :
    DonationAt k g st := by
  cases g <;> first | exact h | exact hg.elim

theorem DonationAt.noInversion (h : DonationAt k f st) (hd : ¬ f.isDonate) : NoInversion k := by
  cases f with
  | donate | donateNext => exact (hd trivial).elim
  | lockAcquireBlocker | lockAcquireDown => exact h.1
  | semaphoreDown s =>
      cases s with
      | lock l => exact h.1
      | _ => exact h
  | _ => exact h

theorem NoInversion.mono (hi : NoInversion k) (hh : ∀ l h, k'.holder l = some h →
      k.holder l = some h)
    (hw : ∀ l, ∀ t ∈ k'.waiters (.lock l), t ∈ k.waiters (.lock l))
    (hp : k'.priority = k.priority) : NoInversion k' := by
  intro l h hl t ht
  rw [hp]
  exact hi l h (hh l h hl) t (hw l t ht)

theorem NoInversion.set {q : ℤ} (hi : NoInversion k) (hk : Scheduled k)
    (hp : k'.priority = update k.priority k.current q) (hh : k'.holder = k.holder)
    (hw : k'.waiters = k.waiters)
    (hq : ∀ l, k.holder l = some k.current → ∀ t ∈ k.waiters (.lock l), k.priority t ≤ q) :
    NoInversion k' := by
  intro l h hl t ht
  rw [hh] at hl
  rw [hw] at ht
  rw [hp, Function.update_of_ne (hk.ne_of_waiting ht).1, Function.update_apply]
  split
  · rename_i he
    exact hq l (he ▸ hl) t ht
  · exact hi l h hl t ht

theorem DonationAt.raise (hP : DonationAt k (.donate m) st) (hh : k.holder m = some h)
    (hp : k'.priority = update k.priority h (k.priority k.current))
    (hl : k'.holder = k.holder) (hw : k'.waiters = k.waiters) (hc : k'.current = k.current) :
    DonationAt k' (.donateNext m) st := by
  obtain ⟨⟨h', hh', hlt⟩, hord, hst⟩ := hP
  rw [hh, Option.some.injEq] at hh'
  subst hh'
  have hne : k.current ≠ h := by
    rintro rfl
    exact lt_irrefl _ hlt
  have hcur : k'.priority k'.current = k.priority k.current := by
    rw [hc, hp, Function.update_of_ne hne]
  have hself : k'.priority h = k.priority k.current := by rw [hp, Function.update_self]
  refine ⟨⟨h, hl ▸ hh, hself.trans hcur.symm⟩, fun l g hg t ht => ?_, fun l st' he g hg => ?_⟩
  · rw [hl] at hg ⊢
    rw [hw] at ht
    by_cases hth : t = h
    · exact .inr (hth ▸ hh)
    · left
      have htp : k'.priority t = k.priority t := by rw [hp, Function.update_of_ne hth]
      rw [htp]
      by_cases hgh : g = h
      · subst hgh
        rw [hself]
        rcases hord l g hg t ht with hle | ⟨-, hle⟩
        · exact hle.trans hlt.le
        · exact hle
      · rw [hp, Function.update_of_ne hgh]
        rcases hord l g hg t ht with hle | ⟨rfl, -⟩
        · exact hle
        · rw [hh, Option.some.injEq] at hg
          exact (hgh hg.symm).elim
  · rw [hl] at hg
    rw [hcur]
    by_cases hgh : g = h
    · rw [hgh, hself]
    · rw [hp, Function.update_of_ne hgh]
      rcases hst l st' he with rfl | hcov
      · rw [hh, Option.some.injEq] at hg
        exact (hgh hg.symm).elim
      · exact hcov g hg

/-- At `donateNext(m)` the pairs out of order are those of the lock that the holder of `m` waits
for, and this is its `blocker`. -/
theorem DonationAt.next {g : Thread} {n : Lock} (hP : DonationAt k (.donateNext m) st)
    (hg : donates k .run) (hcode : k.code = .donateNext m :: st) (hl : k.holder n = some g)
    (ht : t ∈ k.waiters (.lock n)) : k.priority t ≤ k.priority g ∨
      (k.holder m = some t ∧ k.blocker t = some n ∧ k.priority g < k.priority k.current ∧
        k.priority t = k.priority k.current) := by
  obtain ⟨⟨h, hh, heq⟩, hord, -⟩ := hP
  have hg := hg.2
  rw [hcode] at hg
  rcases hord n g hl t ht with hle | ht'
  · exact .inl hle
  · rw [ht', Option.some.injEq] at hh
    subst hh
    by_cases hle : k.priority t ≤ k.priority g
    · exact .inl hle
    · have hlt : k.priority g < k.priority k.current := by omega
      exact .inr ⟨ht', hg t n g ht' ht hl hlt, hlt, heq⟩

theorem DonationAt.stop (hP : DonationAt k (.donateNext m) st) (hg : donates k .run)
    (hcode : k.code = .donateNext m :: st)
    (hend : ∀ h n g, k.holder m = some h → k.blocker h = some n → k.holder n = some g →
      k.priority k.current ≤ k.priority g) : NoInversion k := by
  intro l h hl t ht
  rcases hP.next hg hcode hl ht with hle | ⟨htm, hb, hlt, -⟩
  · exact hle
  · exact (not_le.mpr hlt (hend t l h htm hb hl)).elim

theorem DonationAt.block {s : Semaphore} (hP : DonationAt k f st) (hg : donates k .run)
    (hcode : k.code = f :: st) (hf : f = .semaphoreDown s ∨ f = .semaphoreDownLoop s)
    (hv : k.value s = 0) (hp : k'.priority = k.priority) (hh : k'.holder = k.holder)
    (hw : k'.waiters = update k.waiters s (k.current :: k.waiters s)) : NoInversion k' := by
  have hno : NoInversion k :=
    hP.noInversion (by rcases hf with rfl | rfl <;> exact id)
  have hcov {l : Lock} (hs : s = .lock l) : Covered k l := by
    subst hs
    rcases hf with rfl | rfl
    · exact hP.2
    · have hg := hg.2
      rw [hcode] at hg
      exact hg hv
  intro l h hl t ht
  rw [hh] at hl
  rw [hp]
  rw [hw, Function.update_apply] at ht
  split at ht
  · rename_i he
    rcases List.mem_cons.mp ht with rfl | ht
    · exact hcov he.symm h hl
    · exact hno l h hl t (he ▸ ht)
  · exact hno l h hl t ht

theorem AtDonation.exec (hk : Cooperative k) (hlt : ∀ l t, k.holder l = some t → t < k.threads)
    (ht : AtDonation k) (hg : donates k .run) (hcode : k.code = f :: st)
    (hx : Exec f (k.popped st) k') : AtDonation k' := by
  have hP : DonationAt k f st := (Phase.cons hcode).mp ht
  have hw : WellStacked (f :: st) := hk.wellStacked hcode
  have hret {X : Kernel} (hd : ¬ f.isDonate) (hc : X.code = st) (h : NoInversion X) :
      AtDonation X := Phase.ret hw hd hc h h.resumes
  have hstay : (k.popped st).code = st := popped_code k st
  have hgo := hg.2
  rw [hcode] at hgo
  -- statements that change the waiters of one semaphore
  have hfewer {s : Semaphore} {ws : List Thread} {X : Kernel} (hd : ¬ f.isDonate)
      (hw : X.waiters = update k.waiters s ws) (hs : ∀ t ∈ ws, t ∈ k.waiters s)
      (hh : X.holder = k.holder) (hp : X.priority = k.priority) : NoInversion X := by
    refine (hP.noInversion hd).mono (fun l h hl => hh ▸ hl) (fun l t ht => ?_) hp
    rw [hw, Function.update_apply] at ht
    split at ht
    · rename_i he
      exact he ▸ hs t ht
    · exact ht
  cases hx with
  | acquireFree hn =>
      refine Phase.push ⟨hP, fun h hh => ?_⟩
      cases hn.symm.trans hh
  | acquireHeld | containsTrue | containsFalse | push | donator => exact Phase.push hP
  | compareTrue hh hlt => exact Phase.push ⟨hP, _, hh, hlt⟩
  | compareFalse hh hle =>
      refine Phase.push ⟨hP, fun g hg => ?_⟩
      cases hh.symm.trans hg
      exact hle
  | blocker =>
      refine Phase.push ⟨hP.2, fun l h hl t ht => .inl (hP.1 l h hl t ht), fun l' st' he => ?_⟩
      rw [Kernel.push_code, List.cons.injEq] at he
      cases he.1
      exact .inl rfl
  | down => exact Phase.push hP
  | hold =>
      refine hret id hstay fun l h hl t ht => ?_
      have hno : NoInversion k := hP
      have hl : update k.holder _ (some k.current) l = some h := hl
      rw [Function.update_apply] at hl
      split at hl
      · rename_i he
        cases hl
        exact hgo t (he ▸ ht)
      · exact hno l h hl t ht
  | donate hh =>
      exact Phase.pushed hstay (hP.raise hh rfl rfl rfl rfl)
  | donateEnd hh hb =>
      have hno : NoInversion k := hP.stop hg hcode fun h n g hh' hb' _ => by
        cases hh.symm.trans hh'
        cases hb.symm.trans hb'
      exact Phase.ret_donate hw hstay fun l st' he => ⟨hno, hP.2.2 l st' he⟩
  | donateStop hh hb hm hle =>
      have hno : NoInversion k := hP.stop hg hcode fun h n g hh' hb' hl => by
        cases hh.symm.trans hh'
        cases hb.symm.trans hb'
        cases hm.symm.trans hl
        exact hle
      exact Phase.ret_donate hw hstay fun l st' he => ⟨hno, hP.2.2 l st' he⟩
  | donateNext hh hb hm hlt =>
      refine Phase.pushed hstay ⟨⟨_, hm, hlt⟩, fun l g hl t ht => ?_,
        fun l st' he => .inr (hP.2.2 l st' he)⟩
      refine (hP.next hg hcode hl ht).imp_right fun hb' => ?_
      cases hh.symm.trans hb'.1
      cases hb.symm.trans hb'.2.1
      exact ⟨rfl, hb'.2.2.2.le⟩
  | release =>
      refine Phase.push (NoInversion.mono (k := k) hP (fun l h hl => ?_) (fun _ _ ht => ht) rfl)
      have hl : update k.holder _ none l = some h := hl
      rw [Function.update_apply] at hl
      split at hl
      · cases hl
      · exact hl
  | revokeNone => exact Phase.push hP
  | revoke hd hp hq =>
      refine Phase.push (NoInversion.set (k := k) hP hk.threads rfl rfl rfl fun l hl t ht => ?_)
      exact (remains_iff hp hq).mp (hgo hd l hl t ht)
  | take hf hv =>
      have hd : ¬ f.isDonate := by rcases hf with rfl | rfl <;> exact id
      exact hret hd (by simp [Kernel.code]) (hP.noInversion hd)
  | upNone => exact hret id (by simp [Kernel.code]) hP
  | upStay hp =>
      exact hret id (by simp [Kernel.code, Kernel.woken])
        (hfewer id rfl (fun t ht => hp.subset (List.mem_cons_of_mem _ ht)) rfl rfl)
  | wait => exact Phase.push (hfewer id rfl (by simp) rfl rfl)
  | waitDown | waitAcquire | broadcast | signal => exact Phase.push hP
  | waitReturn | signalNone | broadcastEnd | setOld | preemptStay | setStay =>
      exact hret id hstay hP
  | create =>
      -- the page of the new thread is not one of the threads compared
      refine Phase.push fun l h hl t ht => ?_
      have hno : NoInversion k := hP
      have ht' : t ≠ k.threads := (hk.threads.waiting_lt _ t ht).ne
      have hh' : h ≠ k.threads := (hlt l h hl).ne
      show update k.priority k.threads _ t ≤ update k.priority k.threads _ h
      rw [Function.update_of_ne ht', Function.update_of_ne hh']
      exact hno l h hl t ht
  | allocate | unblock => exact Phase.push hP
  | setPriority he =>
      exact Phase.push (NoInversion.set (k := k) hP hk.threads rfl rfl rfl (hgo he))
  | @switch _ k₁ _ u ready hp hn =>
      have hno : NoInversion (k₁.dispatch u ready) := by
        cases hp with
        | block hf hv => exact hP.block hg hcode hf hv rfl rfl rfl
        | up hp =>
            exact hfewer id rfl (fun t ht => hp.subset (List.mem_cons_of_mem _ ht)) rfl rfl
        | _ => exact hP
      exact Phase.parked (hk.parks hcode hp _) hno hno.resumes

theorem reachable_atDonation (hr : Reachable step donates (boot v) k) : AtDonation k := by
  refine Phase.reachable (fun _ _ hg => hg.1) (fun l h hl => by cases hl)
    (fun k c hB => by cases c <;> exact hB) (fun k f st k' hr hk ht hg hcode hx => ?_) hr
  exact AtDonation.exec hk (reachable_holder_lt hr) ht hg hcode hx

/-- **Priority donation leaves no inversion**: in every run whose steps meet `donates`, whenever
`donate` is not on its way down a chain, the holder of a lock has at least the priority of every
thread that is blocked in `lock_acquire` on it. -/
theorem no_inversion_of_donates (hr : Reachable step donates (boot v) k)
    (hd : ∀ f st, k.code = f :: st → ¬ f.isDonate) (hl : k.holder l = some h)
    (ht : k.BlockedIn t l) : k.priority t ≤ k.priority h := by
  have hat := reachable_atDonation hr
  have hno : NoInversion k := by
    cases hcode : k.code with
    | nil => exact (Phase.nil hcode).mp hat
    | cons f st => exact ((Phase.cons hcode).mp hat).noInversion (hd f st hcode)
  exact hno l h hl t ((blockedIn_iff hr).mp ht)

/-- The initial thread holds lock `0`.  Thread `2` acquires lock `1` and waits for lock `0`, and
thread `3` waits for lock `1`. -/
def chain : List Action :=
  Call.steps (.lockAcquire 0) 4 ++ Call.steps (.threadCreate 32) 11 ++
  Call.steps (.lockAcquire 1) 4 ++ Call.steps (.lockAcquire 0) 10 ++
  Call.steps (.threadCreate 33) 11 ++ Call.steps (.lockAcquire 1) 12

/-- A test that the steps of `chain` pass. -/
def followsChain (k : Kernel) (_ : Action) : Bool :=
  match k.code with
  | .donateNext m :: _ => (k.holder m).all fun h =>
      match k.stack h with
      | .semaphoreDownLoop (.lock n) :: _ => k.blocker h = some n
      | _ => true
  | .lockAcquireHold l :: _ => k.waiters (.lock l) = []
  | .lockReleaseRevoke l :: _ => k.donator l = none
  | .semaphoreDownLoop _ :: _ | .threadSetPriority _ _ :: _ => false
  | _ => true

theorem donates_of_followsChain (hk : Consistent k) (hc : coop k a) (hg : followsChain k a) :
    donates k a := by
  refine ⟨hc, ?_⟩
  unfold followsChain at hg
  split
  · rename_i m st hcode
    intro h n g hh hw _ _
    obtain ⟨-, st', hst⟩ := hk.threads.waiting _ h hw
    simpa [hcode, hh, hst] using hg
  · rename_i l st hcode
    intro t ht
    have hnil : k.waiters (.lock l) = [] := by simpa [hcode] using hg
    rw [hnil] at ht
    cases ht
  · rename_i hcode
    simp [hcode] at hg
  · rename_i hcode
    exact fun hd => (hd (by simpa [hcode] using hg)).elim
  · rename_i hcode
    simp [hcode] at hg
  · trivial

theorem no_inversion_of_donates_chain : ∃ k, Reachable step donates (boot fun _ => 0) k ∧
    k.holder (.user 0) = some 0 ∧ k.holder (.user 1) = some 2 ∧ k.priority 0 = 33 ∧
    k.priority 2 ≤ k.priority 0 ∧ k.priority 3 ≤ k.priority 2 := by
  have hex : (execute (checked followsChain step) chain (boot fun _ => 0)).any fun k =>
      k.code = [] ∧ k.holder (.user 0) = some 0 ∧ k.holder (.user 1) = some 2 ∧
      k.priority 0 = 33 ∧ 2 ∈ k.waiters (.lock (.user 0)) ∧ 3 ∈ k.waiters (.lock (.user 1)) := by
    decide +kernel
  obtain ⟨k, hk, he⟩ := (Option.any_eq_true _ _).mp hex
  obtain ⟨hcode, h0, h1, hp, hw0, hw1⟩ := of_decide_eq_true he
  have hrun := execute_run (G := coop) (coop_of_call_run (by simp [chain, Call.steps])) .nil hk
  have hr : Reachable step donates (boot fun _ => 0) k :=
    ⟨_, hrun.of_checked.mono_of_reachable fun _ _ hr hg =>
      donates_of_followsChain (reachable_consistent hr) hg.2 hg.1⟩
  have hd (f : Frame) (st : List Frame) (hf : k.code = f :: st) : ¬ f.isDonate := by
    rw [hcode] at hf
    cases hf
  exact ⟨k, hr, h0, h1, hp,
    no_inversion_of_donates hr hd h0 ((blockedIn_iff hr).mpr hw0),
    no_inversion_of_donates hr hd h1 ((blockedIn_iff hr).mpr hw1)⟩

/-- The initial thread holds lock `0`.  Thread `2`, of priority `5`, holds nothing, and thread
`3`, of priority `31`, waits for the lock when the initial thread lowers its own priority. -/
def lowerHolder : List Action :=
  Call.steps (.threadCreate 5) 11 ++ Call.steps (.lockAcquire 0) 4 ++
  Call.steps (.threadCreate 31) 11 ++ Call.steps .threadYield 1 ++
  Call.steps (.lockAcquire 0) 7 ++ Call.steps (.threadSetPriority 10 0) 2

/-- The initial thread then has priority `10` while thread `3` waits for its lock. -/
theorem set_priority_inverts : ∃ k, Reachable step coop (boot fun _ => 0) k ∧ k.code = [] ∧
    k.holder (.user 0) = some 0 ∧ k.BlockedIn 3 (.user 0) ∧ k.priority 0 = 10 ∧
    k.priority 3 = 31 := by
  have hex : (execute step lowerHolder (boot fun _ => 0)).any fun k =>
      k.code = [] ∧ k.holder (.user 0) = some 0 ∧ 3 ∈ k.waiters (.lock (.user 0)) ∧
      k.priority 0 = 10 ∧ k.priority 3 = 31 := by
    decide +kernel
  obtain ⟨k, hk, he⟩ := (Option.any_eq_true _ _).mp hex
  obtain ⟨hcode, hh, hw, hp, hp'⟩ := of_decide_eq_true he
  have hr := execute_reachable (G := coop)
    (coop_of_call_run (by simp [lowerHolder, Call.steps])) .refl hk
  exact ⟨k, hr, hcode, hh, (blockedIn_iff hr).mpr hw, hp, hp'⟩

end CSE130.Lab2
