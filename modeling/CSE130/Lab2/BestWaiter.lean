import CSE130.Lab2.DonatorLinks

/-! # The donator of a lock among its waiters

`lock_release` and `lock_donator_less` look at one waiter of every lock, its donator.  They find
the right priority if that waiter is a highest one (`Best`).

Four statements can make another waiter the highest, and `keepsBest` says of each what it has to
find: a thread that queues becomes the donator whatever its priority; a thread that was woken and
queues again does not; the lock has no donator when a thread takes it; and a chain of donations
raises threads that are waiting already. -/

namespace CSE130.Lab2

open Function (update)
open Transition

variable {k k' : Kernel} {f : Frame} {st : List Frame} {l m n : Lock} {t u h d : Thread}
  {s : Semaphore} {v : ℕ → BitVec 32} {a : Action} {es : List Event} {ws : List Thread}

/-- If the lock is held and threads wait for it, its donator is one of them, of highest priority. -/
def Best (k : Kernel) (l : Lock) : Prop :=
  k.holder l ≠ none → k.waiters (.lock l) ≠ [] → ∃ d ∈ k.waiters (.lock l),
    k.donator l = some d ∧ ∀ t ∈ k.waiters (.lock l), k.priority t ≤ k.priority d

/-- The donators of all locks but `m` are the best. -/
def BestBut (k : Kernel) (m : Lock) : Prop := ∀ l, l ≠ m → Best k l

/-- Control moves only in `schedule()`, and
* a thread that queues for a held lock is not below the threads that wait already;
* a thread that was woken, and queues again because the lock is taken, is not above the donator,
  and there is one;
* a thread takes a lock when nobody else waits for it any more;
* `donate` raises a waiting thread no higher than the donator of the lock that it waits for,
  unless it is the donator. -/
def keepsBest (k : Kernel) (a : Action) : Prop :=
  coop k a ∧
  match a, k.code with
  | .run, .semaphoreDown (.lock l) :: _ => k.value (.lock l) = 0 → k.holder l ≠ none →
      ∀ t ∈ k.waiters (.lock l), k.priority t ≤ k.priority k.current
  | .run, .semaphoreDownLoop (.lock l) :: _ => k.value (.lock l) = 0 → k.holder l ≠ none →
      ∃ d, k.donator l = some d ∧ k.priority k.current ≤ k.priority d
  | .run, .lockAcquireHold l :: _ => k.waiters (.lock l) = []
  | .run, .donate m :: _ => ∀ h n d, k.holder m = some h → h ∈ k.waiters (.lock n) →
      k.holder n ≠ none → k.donator n = some d → d ≠ h → k.priority k.current ≤ k.priority d
  | _, _ => True

/-- What is known at each statement. -/
def BestAt (k : Kernel) : Frame → List Frame → Prop
  | .lockAcquireCompare m, _ => BestBut k m
  | .lockAcquireBlocker m, _ =>
      BestBut k m ∧ ∃ h, k.holder m = some h ∧ k.priority h < k.priority k.current
  | .donate m, st => (∃ h, k.holder m = some h ∧ k.priority h < k.priority k.current) ∧
      ∀ n st', st = .lockAcquireDown n :: st' → BestBut k n
  | .donateNext _, st => ∀ n st', st = .lockAcquireDown n :: st' → BestBut k n
  | .lockAcquireDown m, _ | .semaphoreDown (.lock m), _ =>
      BestBut k m ∧ (k.holder m = none ∨ k.donator m = some k.current)
  | _, _ => ∀ l, Best k l

/-- The invariant by phases. -/
def AtBest : Kernel → Prop := Phase (fun k => ∀ l, Best k l) BestAt

theorem BestAt.of_best (h : ∀ l, Best k l) (g : Frame) (st : List Frame) (hg : g.resumes) :
    BestAt k g st := by
  cases g <;> first | exact h | exact hg.elim

theorem Best.keep (hb : Best k l) (hh : k'.holder l ≠ none → k.holder l ≠ none)
    (hd : k'.donator l = k.donator l)
    (hw : k'.holder l ≠ none → k'.waiters (.lock l) = k.waiters (.lock l))
    (hp : ∀ t ∈ k.waiters (.lock l), k'.priority t = k.priority t) : Best k' l := by
  intro hheld hne
  rw [hw hheld] at hne ⊢
  obtain ⟨d, hdw, hdn, hmax⟩ := hb (hh hheld) hne
  refine ⟨d, hdw, hd.trans hdn, fun t ht => ?_⟩
  rw [hp t ht, hp d hdw]
  exact hmax t ht

theorem Best.of_free (hn : k.holder l = none) : Best k l := fun hheld => (hheld hn).elim

theorem Best.set {p : ℤ} (hb : Best k l) (ht : t ∉ k.waiters (.lock l))
    (hp : k'.priority = update k.priority t p) (hh : k'.holder = k.holder)
    (hd : k'.donator l = k.donator l) (hw : k'.waiters = k.waiters) : Best k' l := by
  refine hb.keep (fun h => hh ▸ h) hd (fun _ => by rw [hw]) fun u hu => ?_
  rw [hp, Function.update_of_ne]
  rintro rfl
  exact ht hu

theorem Best.raise (hb : Best k l) (hlt : k.priority h < k.priority k.current)
    (hg : h ∈ k.waiters (.lock l) → k.holder l ≠ none → ∀ d, k.donator l = some d → d ≠ h →
      k.priority k.current ≤ k.priority d)
    (hp : k'.priority = update k.priority h (k.priority k.current)) (hh : k'.holder = k.holder)
    (hd : k'.donator = k.donator) (hw : k'.waiters = k.waiters) : Best k' l := by
  by_cases hmem : h ∈ k.waiters (.lock l)
  · intro hheld hne
    rw [hh] at hheld
    rw [hw] at hne ⊢
    obtain ⟨d, hdw, hdn, hmax⟩ := hb hheld hne
    refine ⟨d, hdw, hd ▸ hdn, fun t ht => ?_⟩
    have hle := hmax t ht
    rw [hp, Function.update_apply, Function.update_apply]
    by_cases hdh : d = h
    · -- the donator is raised above all
      subst hdh
      rw [if_pos rfl]
      split
      · exact le_rfl
      · exact hle.trans hlt.le
    · rw [if_neg hdh]
      split
      · exact hg hmem hheld d hdn hdh
      · exact hle
  · exact hb.set hmem hp hh (by rw [hd]) hw

theorem Best.block (hw : k'.waiters = update k.waiters (.lock l) (k.current :: k.waiters (.lock l)))
    (hh : k'.holder = k.holder) (hd : k'.donator = k.donator) (hp : k'.priority = k.priority)
    (hbest : k.holder l ≠ none → ∃ d ∈ k.current :: k.waiters (.lock l), k.donator l = some d ∧
      ∀ t ∈ k.current :: k.waiters (.lock l), k.priority t ≤ k.priority d) : Best k' l := by
  intro hheld _
  rw [hw, Function.update_self, hd, hp]
  exact hbest (hh ▸ hheld)

theorem Best.other (hb : Best k l) (hw : k'.waiters = update k.waiters s ws)
    (hs : k.holder l ≠ none → Semaphore.lock l ≠ s) (hh : k'.holder = k.holder)
    (hd : k'.donator = k.donator) (hp : k'.priority = k.priority) : Best k' l := by
  refine hb.keep (fun h => hh ▸ h) (by rw [hd]) (fun hheld => ?_) fun t _ => by rw [hp]
  rw [hw, Function.update_of_ne (hs (hh ▸ hheld))]

theorem BestAt.take (hP : BestAt k f st) (hg : ∀ l, Guarded l es k)
    (hf : f = .semaphoreDown s ∨ f = .semaphoreDownLoop s) (hv : k.value s ≠ 0) (l : Lock) :
    Best k l := by
  rcases hf with rfl | rfl
  · cases s with
    | lock m =>
        obtain ⟨hb, -⟩ : BestBut k m ∧ _ := hP
        by_cases hlm : l = m
        · subst hlm
          exact .of_free ((hg l).free hv).2
        · exact hb l hlm
    | _ => exact hP l
  · exact hP l

theorem BestAt.block (hP : BestAt k f st) (hL : LinkAt k f st) (hg : keepsBest k .run)
    (hcode : k.code = f :: st) (hf : f = .semaphoreDown s ∨ f = .semaphoreDownLoop s)
    (hv : k.value s = 0) (hw : k'.waiters = update k.waiters s (k.current :: k.waiters s))
    (hh : k'.holder = k.holder) (hd : k'.donator = k.donator) (hp : k'.priority = k.priority)
    (l : Lock) : Best k' l := by
  have hg := hg.2
  rw [hcode] at hg
  have hother (hb : Best k l) (hs : Semaphore.lock l ≠ s) : Best k' l :=
    hb.other hw (fun _ => hs) hh hd hp
  rcases hf with rfl | rfl
  · cases s with
    | lock m =>
        obtain ⟨hb, hm⟩ : BestBut k m ∧ (k.holder m = none ∨ k.donator m = some k.current) := hP
        by_cases hlm : l = m
        · subst hlm
          refine .block hw hh hd hp fun hheld => ?_
          refine ⟨k.current, List.mem_cons_self, hm.resolve_left hheld, fun t ht => ?_⟩
          rcases List.mem_cons.mp ht with rfl | ht
          · exact le_rfl
          · exact hg hv hheld t ht
        · exact hother (hb l hlm) (by simpa using hlm)
    | _ => exact hother (hP l) nofun
  · have hb : ∀ l, Best k l := hP
    have hs : ∀ l, Settled k l := hL
    by_cases hls : Semaphore.lock l = s
    · subst hls
      refine .block hw hh hd hp fun hheld => ?_
      obtain ⟨d, hdn, hle⟩ := hg hv hheld
      have hdw : d ∈ k.waiters (.lock l) := by
        obtain ⟨hn, -⟩ | ⟨-, d', -, -, hdn', hdw⟩ := hs l
        · cases hn.symm.trans hdn
        · cases hdn'.symm.trans hdn
          exact hdw
      obtain ⟨d', -, hdn', hmax⟩ := hb l hheld (List.ne_nil_of_mem hdw)
      cases hdn'.symm.trans hdn
      refine ⟨d, List.mem_cons_of_mem _ hdw, hdn, fun t ht => ?_⟩
      rcases List.mem_cons.mp ht with rfl | ht
      · exact hle
      · exact hmax t ht
    · exact hother (hb l) hls

/-- A `semaphore_up` of a lock is that of its release, when the lock has no holder any more. -/
theorem Best.up (hb : Best k l) (hg : ∀ l, Guarded l es k) (hcode : k.code = .semaphoreUp s :: st)
    (hw : k'.waiters = update k.waiters s ws) (hh : k'.holder = k.holder)
    (hd : k'.donator = k.donator) (hp : k'.priority = k.priority) : Best k' l := by
  refine hb.other hw (fun hheld => ?_) hh hd hp
  rintro rfl
  exact hheld ((hg l).inside k.current ⟨st, .inr (.inr hcode)⟩).2

/-! ### Every statement -/

theorem AtBest.exec (hk : Cooperative k) (hguard : ∀ l, Guarded l es k)
    (hL : LinkAt k f st) (ht : AtBest k) (hg : keepsBest k .run) (hcode : k.code = f :: st)
    (hx : Exec f (k.popped st) k') : AtBest k' := by
  have hP : BestAt k f st := (Phase.cons hcode).mp ht
  have hw : WellStacked (f :: st) := hk.wellStacked hcode
  have hret {X : Kernel} (hd : ¬ f.isDonate) (hc : X.code = st) (h : ∀ l, Best X l) :
      AtBest X := Phase.ret hw hd hc h (BestAt.of_best h)
  have hstay : (k.popped st).code = st := popped_code k st
  have hcur (l : Lock) : k.current ∉ k.waiters (.lock l) := fun h =>
    (hk.threads.ne_of_waiting h).1 rfl
  have hgo := hg.2
  rw [hcode] at hgo
  cases hx with
  | @acquireFree _ m hn =>
      have hb : ∀ l, Best k l := hP
      exact Phase.push ⟨fun l _ => hb l, .inl hn⟩
  | acquireHeld | containsTrue | containsFalse | push => exact Phase.push hP
  | @donator _ m =>
      have hb : ∀ l, Best k l := hP
      exact Phase.push fun l hlm => (hb l).keep id (Function.update_of_ne hlm _ _) (fun _ => rfl)
        fun _ _ => rfl
  | compareTrue hh hlt => exact Phase.push ⟨hP, _, hh, hlt⟩
  | @compareFalse _ m =>
      obtain ⟨-, -, -, -, hdn⟩ : SettledBut k m ∧ Claimed k m := hL
      exact Phase.push ⟨hP, .inr hdn⟩
  | @blocker _ m =>
      obtain ⟨hb, hlow⟩ : BestBut k m ∧ _ := hP
      refine Phase.push ⟨hlow, fun n st' he => ?_⟩
      rw [Kernel.push_code, List.cons.injEq] at he
      cases he.1
      exact hb
  | down => exact Phase.push hP
  | @hold _ m =>
      have hb : ∀ l, Best k l := hP
      refine hret id hstay fun l => ?_
      by_cases hlm : l = m
      · subst hlm
        exact fun _ hne => (hne hgo).elim
      · have hsame : update k.holder m (some k.current) l = k.holder l :=
          Function.update_of_ne hlm _ _
        exact (hb l).keep (fun h => hsame ▸ h) rfl (fun _ => rfl) fun _ _ => rfl
  | @donate _ m h hh =>
      obtain ⟨⟨h', hh', hlow⟩, hb⟩ : (∃ h, k.holder m = some h ∧ _) ∧ _ := hP
      cases hh.symm.trans hh'
      refine Phase.pushed hstay fun n st' he l hln => ?_
      exact (hb n st' he l hln).raise hlow (fun hmem hheld d => hgo h l d hh hmem hheld)
        rfl rfl rfl rfl
  | donateEnd | donateStop =>
      refine Phase.ret_donate hw hstay fun m st' he => ?_
      obtain ⟨-, -, -, -, hdn⟩ := hL m st' he
      exact ⟨hP m st' he, .inr hdn⟩
  | donateNext _ _ hm hlt => exact Phase.pushed hstay ⟨⟨_, hm, hlt⟩, hP⟩
  | @release _ m =>
      have hb : ∀ l, Best k l := hP
      refine Phase.push fun l => ?_
      by_cases hlm : l = m
      · subst hlm
        exact .of_free (Function.update_self ..)
      · have hsame : update k.holder m none l = k.holder l := Function.update_of_ne hlm _ _
        exact (hb l).keep (fun h => hsame ▸ h) rfl (fun _ => rfl) fun _ _ => rfl
  | @revokeNone _ m hn =>
      have hb : ∀ l, Best k l := hP
      have hsame : update k.donator m none = k.donator := Function.update_eq_self_iff.mpr hn.symm
      exact Phase.push fun l => (hb l).keep id (congrFun hsame l) (fun _ => rfl) fun _ _ => rfl
  | @revoke _ m =>
      have hb : ∀ l, Best k l := hP
      have hfree := ((hguard m).inside k.current ⟨st, .inr (.inl hcode)⟩).2
      refine Phase.push fun l => ?_
      by_cases hlm : l = m
      · subst hlm
        exact .of_free hfree
      · exact (hb l).set (hcur l) rfl rfl (Function.update_of_ne hlm _ _) rfl
  | take hf hv =>
      have hd : ¬ f.isDonate := by rcases hf with rfl | rfl <;> exact id
      exact hret hd (by simp [Kernel.code]) (hP.take hguard hf hv)
  | upNone => exact hret id (by simp [Kernel.code]) hP
  | upStay =>
      have hb : ∀ l, Best k l := hP
      exact hret id (by simp [Kernel.code, Kernel.woken])
        fun l => (hb l).up hguard hcode rfl rfl rfl rfl
  | wait =>
      have hb : ∀ l, Best k l := hP
      exact Phase.push fun l => (hb l).other rfl (fun _ => by simp) rfl rfl rfl
  | waitDown | waitAcquire | broadcast | signal | allocate | unblock => exact Phase.push hP
  | waitReturn | signalNone | broadcastEnd | preemptStay | setStay | setOld =>
      exact hret id hstay hP
  | create =>
      have hb : ∀ l, Best k l := hP
      refine Phase.push fun l => (hb l).set (t := k.threads) (fun ht => ?_) rfl rfl rfl rfl
      exact (hk.threads.waiting_lt _ _ ht).ne rfl
  | setPriority =>
      have hb : ∀ l, Best k l := hP
      exact Phase.push fun l => (hb l).set (hcur l) rfl rfl rfl rfl
  | @switch _ k₁ _ u ready hp hn =>
      have hb : ∀ l, Best (k₁.dispatch u ready) l := by
        cases hp with
        | block hf hv => exact hP.block hL hg hcode hf hv rfl rfl rfl rfl
        | up =>
            have hb : ∀ l, Best k l := hP
            exact fun l => (hb l).up hguard hcode rfl rfl rfl rfl
        | _ => exact hP
      exact Phase.parked (hk.parks hcode hp _) hb (BestAt.of_best hb)

theorem reachable_atBest (hr : Reachable step keepsBest (boot v) k) : AtBest k := by
  have hG (k : Kernel) (a : Action) (hg : keepsBest k a) : coop k a := hg.1
  refine Phase.reachable hG (fun _ => .of_free rfl) (fun k c hB => by cases c <;> exact hB)
    (fun k f st k' hr hk ht hg hcode hx => ?_) hr
  have hL := (Phase.cons hcode).mp (reachable_atLinks hG hr)
  obtain ⟨es, hrun⟩ := hr
  have hguard := run_guarded (hrun.mono fun _ _ _ => trivial)
  exact AtBest.exec hk hguard hL ht hg hcode hx

theorem AtBest.best (ht : AtBest k) (hw : WellStacked k.code) (hl : ¬ k.WorksOn l) : Best k l := by
  cases hcode : k.code with
  | nil => exact (Phase.nil hcode).mp ht l
  | cons f st =>
      have hP : BestAt k f st := (Phase.cons hcode).mp ht
      have hne {g : Frame} (hg : g ∈ f :: st) : g.worksOn ≠ some l :=
        fun h => hl ⟨g, hcode ▸ hg, h⟩
      have hbut {m : Lock} (hb : BestBut k m) (hg : f.worksOn = some m) : Best k l :=
        hb l fun he => hne List.mem_cons_self (he ▸ hg)
      have hdonate {n : Lock} (hf : f = .donate n ∨ f = .donateNext n)
          (hb : ∀ m st', st = .lockAcquireDown m :: st' → BestBut k m) : Best k l := by
        obtain ⟨m, st', hst, -⟩ : ∃ m st', st = .lockAcquireDown m :: st' ∧ Outer st' := by
          rw [hcode] at hw
          rcases hf with rfl | rfl <;> exact hw
        refine hb m st' hst l fun he => ?_
        subst hst
        exact hne (List.mem_cons_of_mem _ List.mem_cons_self) (he ▸ rfl)
      cases f with
      | lockAcquireCompare => exact hbut hP rfl
      | lockAcquireBlocker | lockAcquireDown => exact hbut hP.1 rfl
      | donate => exact hdonate (.inl rfl) hP.2
      | donateNext => exact hdonate (.inr rfl) hP
      | semaphoreDown s =>
          cases s with
          | lock m => exact hbut hP.1 rfl
          | _ => exact hP l
      | _ => exact hP l

/-! ### What a release computes -/

/-- `q` is the highest of the own priority of `t` and the priorities of the threads that are
blocked on its locks. -/
def Kernel.IsDonation (k : Kernel) (t : Thread) (q : ℤ) : Prop :=
  k.priorityOld t ≤ q ∧
    (∀ n u, k.holder n = some t → k.BlockedIn u n → k.priority u ≤ q) ∧
    (q = k.priorityOld t ∨ ∃ n u, k.holder n = some t ∧ k.BlockedIn u n ∧ k.priority u = q)

/-- The highest donation of the locks in the list is the highest of all threads that wait. -/
theorem isDonation_of_max {ds : List Lock} {q : ℤ} (hs : SettledBut k l) (hb : ∀ n, Best k n)
    (hblocked : ∀ t n, k.BlockedIn t n ↔ t ∈ k.waiters (.lock n)) (hfree : k.holder l = none)
    (ho : k.Once l k.current) (hp : List.Perm ds ((k.donators k.current).erase l))
    (hq : IsMaxDonation { k with donator := update k.donator l none } (k.priorityOld k.current)
      ds q) : k.IsDonation k.current q := by
  obtain ⟨hold, hall, hmax⟩ := hq
  have hne {n : Lock} (hn : n ∈ ds) : n ≠ l := by
    rintro rfl
    exact ho.erase _ (hp.subset hn)
  refine ⟨hold, fun n u hheld hu => ?_, ?_⟩
  · have hnl : n ≠ l := by
      rintro rfl
      cases hfree.symm.trans hheld
    have hu := (hblocked u n).mp hu
    obtain ⟨d, -, hdn, hle⟩ := hb n (by rw [hheld]; nofun) (List.ne_nil_of_mem hu)
    obtain ⟨hn, -⟩ | ⟨h, -, hh, hon, -⟩ := hs n hnl
    · cases hn.symm.trans hdn
    · cases hheld.symm.trans hh
      have hmem : n ∈ ds := hp.symm.subset ((List.mem_erase_of_ne hnl).mpr hon.mem)
      obtain ⟨e, he, hle'⟩ := hall n hmem
      have he : update k.donator l none n = some e := he
      rw [Function.update_of_ne hnl] at he
      cases hdn.symm.trans he
      exact (hle u hu).trans hle'
  · refine hmax.imp_right fun ⟨n, hn, d, hd, hdq⟩ => ?_
    have hd : update k.donator l none n = some d := hd
    rw [Function.update_of_ne (hne hn)] at hd
    obtain ⟨hheld, -, e, he, hw⟩ := (hs n (hne hn)).once (List.mem_of_mem_erase (hp.subset hn))
    cases hd.symm.trans he
    exact ⟨n, d, hheld, (hblocked d n).mpr hw, hdq⟩

/-- **The donator is a highest waiter** in every run whose steps meet `keepsBest`: unless the
running thread works on it, a held lock on which threads are blocked has one of them as its
donator, of maximal priority.  A release that revokes a donation leaves the caller the highest of
its own priority and those of the threads that are blocked on its other locks. -/
theorem donator_best (hr : Reachable step keepsBest (boot v) k) :
    (∀ l h t, ¬ k.WorksOn l → k.holder l = some h → k.BlockedIn t l →
      ∃ d, k.donator l = some d ∧ k.BlockedIn d l ∧
        ∀ u, k.BlockedIn u l → k.priority u ≤ k.priority d) ∧
    ∀ l st k', k.code = .lockReleaseRevoke l :: st → k.donator l ≠ none →
      stepRun k = some k' → k.IsDonation k.current (k'.priority k.current) := by
  have hk := reachable_consistent hr
  have hat := reachable_atBest hr
  refine ⟨fun l h t hl hheld ht => ?_, fun l st k' hcode hne hs => ?_⟩
  · have hb := hat.best (hk.control.shape _) hl
    have hw := (blockedIn_iff hr).mp ht
    obtain ⟨d, hdw, hdn, hmax⟩ := hb (by rw [hheld]; nofun) (List.ne_nil_of_mem hw)
    exact ⟨d, hdn, (blockedIn_iff hr).mpr hdw, fun u hu => hmax u ((blockedIn_iff hr).mp hu)⟩
  · have hb : ∀ n, Best k n := (Phase.cons hcode).mp hat
    have hL := reachable_atLinks (fun _ _ hg => hg.1) hr
    obtain ⟨hsettled, hl⟩ : SettledBut k l ∧ _ := (Phase.cons hcode).mp hL
    have ho : k.Once l k.current := (hl.resolve_left fun h => hne h.1).2
    have hfree : k.holder l = none := by
      obtain ⟨es, hrun⟩ := hr
      have hguard := run_guarded (hrun.mono fun _ _ _ => trivial) l
      exact (hguard.inside k.current ⟨st, .inr (.inl hcode)⟩).2
    obtain ⟨f, st', hcode', hx⟩ := stepRun_inv hs
    cases hcode.symm.trans hcode'
    cases hx with
    | revokeNone hn => exact (hne hn).elim
    | @revoke _ _ ds q _ hp hq =>
        have hself : update k.priority k.current q k.current = q := Function.update_self ..
        show k.IsDonation k.current (update k.priority k.current q k.current)
        rw [hself]
        exact isDonation_of_max hsettled hb (fun t n => blockedIn_iff hr) hfree ho hp hq
    | take hf => rcases hf with hf | hf <;> cases hf
    | switch hp =>
        cases hp with
        | block hf => rcases hf with hf | hf <;> cases hf

-- The only waiter is the donator.
example : (execute step (Call.steps (.lockAcquire 0) 4 ++ Call.steps (.threadCreate 40) 11 ++
    Call.steps (.lockAcquire 0) 10) (boot fun _ => 0)).any fun k =>
      k.waiters (.lock (.user 0)) = [2] ∧ k.donator (.user 0) = some 2 := by
  decide +kernel

/-- The initial thread holds the locks `0` and `1`.  Thread `2`, of priority `32`, waits for lock
`1`, and thread `3`, of priority `33`, for lock `0`, which is being released. -/
def releaseHigher : List Action :=
  Call.steps (.lockAcquire 0) 4 ++ Call.steps (.lockAcquire 1) 4 ++
  Call.steps (.threadCreate 32) 11 ++ Call.steps (.lockAcquire 1) 10 ++
  Call.steps (.threadCreate 33) 11 ++ Call.steps (.lockAcquire 0) 10 ++
  Call.steps (.lockRelease 0) 1

/-- A test that the steps of `releaseHigher` pass. -/
def followsBest (k : Kernel) (_ : Action) : Bool :=
  match k.code with
  | .semaphoreDown (.lock l) :: _ | .lockAcquireHold l :: _ => k.waiters (.lock l) = []
  | .semaphoreDownLoop _ :: _ => false
  | .donate m :: _ => (k.holder m).all fun h => k.stack h = []
  | _ => true

theorem keepsBest_of_followsBest (hk : Consistent k) (hc : coop k a) (hg : followsBest k a) :
    keepsBest k a := by
  refine ⟨hc, ?_⟩
  unfold followsBest at hg
  split
  · rename_i l st hcode
    have hnil : k.waiters (.lock l) = [] := by simpa [hcode] using hg
    intro _ _ t ht
    rw [hnil] at ht
    cases ht
  · rename_i hcode
    simp [hcode] at hg
  · rename_i hcode
    simpa [hcode] using hg
  · rename_i m st hcode
    intro h n d hh hw
    obtain ⟨-, st', hst⟩ := hk.threads.waiting _ h hw
    simp [hcode, hh, hst] at hg
  · trivial

theorem donator_best_releaseHigher : ∃ k k', Reachable step keepsBest (boot fun _ => 0) k ∧
    stepRun k = some k' ∧ k.donator (.user 1) = some 2 ∧ k.BlockedIn 2 (.user 1) ∧
    (∀ u, k.BlockedIn u (.user 1) → k.priority u ≤ k.priority 2) ∧ k'.priority 0 = 32 ∧
    k.IsDonation 0 32 := by
  have hex : (execute (checked followsBest step) releaseHigher (boot fun _ => 0)).any fun k =>
      k.code = [.lockReleaseRevoke (.user 0)] ∧ k.current = 0 ∧ k.holder (.user 1) = some 0 ∧
      k.donator (.user 1) = some 2 ∧ 2 ∈ k.waiters (.lock (.user 1)) ∧
      k.donator (.user 0) = some 3 ∧ (stepRun k).any fun k' => k'.priority 0 = 32 := by
    decide +kernel
  obtain ⟨k, hk, he⟩ := (Option.any_eq_true _ _).mp hex
  obtain ⟨hcode, hcur, hheld, hd, hw, hd', he⟩ := of_decide_eq_true he
  obtain ⟨k', hk', hp⟩ := (Option.any_eq_true _ _).mp he
  have hp := of_decide_eq_true hp
  have hrun := execute_run (G := coop) (coop_of_call_run (by simp [releaseHigher, Call.steps]))
    .nil hk
  have hr : Reachable step keepsBest (boot fun _ => 0) k :=
    ⟨_, hrun.of_checked.mono_of_reachable fun _ _ hr hg =>
      keepsBest_of_followsBest (reachable_consistent hr) hg.2 hg.1⟩
  obtain ⟨hbest, hrelease⟩ := donator_best hr
  have hnot : ¬ k.WorksOn (.user 1) := by
    rintro ⟨f, hf, hl⟩
    rw [hcode, List.mem_singleton] at hf
    subst hf
    cases hl
  have hb := (blockedIn_iff hr).mpr hw
  obtain ⟨d, hdn, -, hmax⟩ := hbest _ 0 2 hnot hheld hb
  cases hd.symm.trans hdn
  have hq := hrelease _ [] k' hcode (by rw [hd']; simp) hk'
  rw [hcur, hp] at hq
  exact ⟨k, k', hr, hk', hd, hb, hmax, hp, hq⟩

/-- The initial thread holds lock `0`.  Thread `3`, of priority `33`, waits for it; then, while the
initial thread waits for a semaphore, so does thread `2`, of priority `20`. -/
def queueLower : List Action :=
  Call.steps (.lockAcquire 0) 4 ++ Call.steps (.threadCreate 20) 11 ++
  Call.steps (.threadCreate 33) 11 ++ Call.steps (.lockAcquire 0) 10 ++
  Call.steps (.semaphoreDown 0) 1 ++ Call.steps (.lockAcquire 0) 7

/-- The donator is then thread `2`. -/
theorem donator_overwritten : ∃ k, Reachable step coop (boot fun _ => 0) k ∧ k.code = [.idle] ∧
    k.holder (.user 0) = some 0 ∧ k.BlockedIn 2 (.user 0) ∧ k.BlockedIn 3 (.user 0) ∧
    k.donator (.user 0) = some 2 ∧ k.priority 2 = 20 ∧ k.priority 3 = 33 := by
  have hex : (execute step queueLower (boot fun _ => 0)).any fun k =>
      k.code = [.idle] ∧ k.holder (.user 0) = some 0 ∧ 2 ∈ k.waiters (.lock (.user 0)) ∧
      3 ∈ k.waiters (.lock (.user 0)) ∧ k.donator (.user 0) = some 2 ∧ k.priority 2 = 20 ∧
      k.priority 3 = 33 := by
    decide +kernel
  obtain ⟨k, hk, he⟩ := (Option.any_eq_true _ _).mp hex
  obtain ⟨hcode, hh, hw2, hw3, hd, hp2, hp3⟩ := of_decide_eq_true he
  have hr := execute_reachable (G := coop)
    (coop_of_call_run (by simp [queueLower, Call.steps])) .refl hk
  exact ⟨k, hr, hcode, hh, (blockedIn_iff hr).mpr hw2, (blockedIn_iff hr).mpr hw3, hd, hp2, hp3⟩

end CSE130.Lab2
