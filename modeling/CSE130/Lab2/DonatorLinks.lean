import CSE130.Lab2.Donation
import CSE130.Lab2.ThreadLists

/-! # The donator of a lock and its element

`lock->lockelem` is linked into the `donators` list of the holder when the first thread queues for
the lock, and `lock->donator` is set then; `lock_release` unlinks the element if there is a
donator.  At a context switch the two agree (`Settled`): a lock without a donator is in no list,
and a lock with one is held, is linked once, in the list of its holder, and its donator waits for
it.

The running thread breaks this for one lock at a time, inside `lock_acquire` or `lock_release`;
the invariant by phases (`AtLinks`) says how. -/

namespace CSE130.Lab2

open Function (update)
open Transition

variable {k k' : Kernel} {f : Frame} {st : List Frame} {l m n : Lock} {t u h d : Thread}
  {s : Semaphore} {v : ℕ → BitVec 32} {a : Action} {es : List Event} {ds : List Lock}
  {ws : List Thread}

/-- `lock->lockelem` is in no list. -/
def Kernel.Loose (k : Kernel) (l : Lock) : Prop := ∀ t, l ∉ k.donators t

/-- `lock->lockelem` is linked once, in the list of `h`. -/
def Kernel.Once (k : Kernel) (l : Lock) (h : Thread) : Prop :=
  (k.donators h).count l = 1 ∧ ∀ t, t ≠ h → l ∉ k.donators t

/-- The donator of `l` and its element agree. -/
def Settled (k : Kernel) (l : Lock) : Prop :=
  (k.donator l = none ∧ k.Loose l) ∨
    ∃ h d, k.holder l = some h ∧ k.Once l h ∧ k.donator l = some d ∧ d ∈ k.waiters (.lock l)

/-- The caller of `lock_acquire(l)` is the donator, and does not wait yet. -/
def Claimed (k : Kernel) (l : Lock) : Prop :=
  ∃ h, k.holder l = some h ∧ k.Once l h ∧ k.donator l = some k.current

/-- All locks but `m` are settled. -/
def SettledBut (k : Kernel) (m : Lock) : Prop := ∀ l, l ≠ m → Settled k l

/-- What is known at each statement. -/
def LinkAt (k : Kernel) : Frame → List Frame → Prop
  | .lockAcquirePush m, _ => (∀ l, Settled k l) ∧ k.Loose m
  | .lockAcquireDonator m, _ => SettledBut k m ∧ ∃ h, k.holder m = some h ∧ k.Once m h
  | .lockAcquireCompare m, _ | .lockAcquireBlocker m, _ => SettledBut k m ∧ Claimed k m
  | .donate _, st | .donateNext _, st =>
      ∀ m st', st = .lockAcquireDown m :: st' → SettledBut k m ∧ Claimed k m
  | .lockAcquireDown m, _ | .semaphoreDown (.lock m), _ =>
      SettledBut k m ∧ (Settled k m ∨ Claimed k m)
  | .lockReleaseRevoke m, _ => SettledBut k m ∧
      (k.donator m = none ∧ k.Loose m ∨ k.donator m ≠ none ∧ k.Once m k.current)
  | _, _ => ∀ l, Settled k l

/-- The invariant by phases. -/
def AtLinks : Kernel → Prop := Phase (fun k => ∀ l, Settled k l) LinkAt

theorem LinkAt.of_settled (h : ∀ l, Settled k l) (g : Frame) (st : List Frame) (hg : g.resumes) :
    LinkAt k g st := by
  cases g <;> first | exact h | exact hg.elim

namespace Kernel

theorem Once.mem (ho : k.Once l h) : l ∈ k.donators h :=
  List.count_pos_iff.mp (by rw [ho.1]; exact Nat.one_pos)

theorem Loose.push (hl : k.Loose l)
    (hds : k'.donators = update k.donators h (k.donators h ++ [l])) : k'.Once l h := by
  refine ⟨?_, fun t ht => ?_⟩
  · rw [hds, Function.update_self, List.count_append, List.count_eq_zero.mpr (hl h),
      List.count_singleton_self]
  · rw [hds, Function.update_of_ne ht]
    exact hl t

theorem Once.erase (ho : k.Once l h) : ∀ t, l ∉ (k.donators t).erase l := by
  intro t
  by_cases ht : t = h
  · subst ht
    rw [← List.count_eq_zero, List.count_erase_self, ho.1]
  · exact fun hmem => ho.2 t ht (List.mem_of_mem_erase hmem)

end Kernel

/-! ### The other locks -/

/-- A step that leaves the lock alone: while it is held, its waiters stay. -/
theorem Settled.keep (hs : Settled k l) (hh : k'.holder l = k.holder l)
    (hd : k'.donator l = k.donator l) (hm : ∀ t, l ∈ k'.donators t → l ∈ k.donators t)
    (hc : ∀ h, k.holder l = some h → (k'.donators h).count l = (k.donators h).count l)
    (hw : ∀ h, k.holder l = some h → ∀ t ∈ k.waiters (.lock l), t ∈ k'.waiters (.lock l)) :
    Settled k' l := by
  rcases hs with ⟨hn, hl⟩ | ⟨h, d, hheld, ho, hdn, hdw⟩
  · exact .inl ⟨hd.trans hn, fun t ht => hl t (hm t ht)⟩
  · refine .inr ⟨h, d, hh.trans hheld, ⟨(hc h hheld).trans ho.1, fun t ht hmem => ?_⟩,
      hd.trans hdn, hw h hheld d hdw⟩
    exact ho.2 t ht (hm t hmem)

theorem Settled.congr (hs : Settled k l) (hh : k'.holder l = k.holder l)
    (hd : k'.donator l = k.donator l) (hds : k'.donators = k.donators)
    (hw : ∀ h, k.holder l = some h → ∀ t ∈ k.waiters (.lock l), t ∈ k'.waiters (.lock l)) :
    Settled k' l :=
  hs.keep hh hd (fun t ht => hds ▸ ht) (fun h _ => by rw [hds]) hw

theorem Settled.free (hs : Settled k l) (hn : k.holder l = none) :
    k.donator l = none ∧ k.Loose l := by
  rcases hs with hs | ⟨h, d, hheld, -⟩
  · exact hs
  · cases hn.symm.trans hheld

/-- A lock that is in the list of its holder has a donator. -/
theorem Settled.once (hs : Settled k l) (hm : l ∈ k.donators t) :
    k.holder l = some t ∧ k.Once l t ∧ ∃ d, k.donator l = some d ∧ d ∈ k.waiters (.lock l) := by
  rcases hs with ⟨-, hl⟩ | ⟨h, d, hheld, ho, hdn, hdw⟩
  · exact (hl t hm).elim
  · by_cases ht : t = h
    · exact ht ▸ ⟨hheld, ho, d, hdn, hdw⟩
    · exact (ho.2 t ht hm).elim

/-! ### The statements that matter -/

theorem LinkAt.push (hP : LinkAt k (.lockAcquirePush m) st) (hheld : k.holder m = some h)
    (hds : k'.donators = update k.donators h (k.donators h ++ [m]))
    (hd : k'.donator = k.donator) (hh : k'.holder = k.holder) (hw : k'.waiters = k.waiters) :
    LinkAt k' (.lockAcquireDonator m) st := by
  obtain ⟨hs, hl⟩ := hP
  refine ⟨fun l hne => ?_, h, hh ▸ hheld, hl.push hds⟩
  refine (hs l).keep (by rw [hh]) (by rw [hd]) (fun t ht => ?_) (fun g _ => ?_)
    (fun _ _ t ht => hw ▸ ht)
  · rw [hds, Function.update_apply] at ht
    split at ht
    · rename_i he
      rw [List.mem_append, List.mem_singleton] at ht
      exact he ▸ ht.resolve_right hne
    · exact ht
  · rw [hds, Function.update_apply]
    split
    · rename_i he
      rw [he, List.count_append, List.count_singleton, if_neg (by simpa using Ne.symm hne),
        Nat.add_zero]
    · rfl

theorem LinkAt.donator (hP : LinkAt k (.lockAcquireDonator m) st)
    (hd : k'.donator = update k.donator m (some k.current)) (hds : k'.donators = k.donators)
    (hh : k'.holder = k.holder) (hw : k'.waiters = k.waiters) (hc : k'.current = k.current) :
    SettledBut k' m ∧ Claimed k' m := by
  obtain ⟨hs, h, hheld, ho⟩ := hP
  refine ⟨fun l hne => ?_, h, hh ▸ hheld, ?_, by rw [hd, hc, Function.update_self]⟩
  · exact (hs l hne).congr (by rw [hh]) (by rw [hd, Function.update_of_ne hne]) hds
      fun _ _ t ht => hw ▸ ht
  · unfold Kernel.Once
    rw [hds]
    exact ho

theorem LinkAt.release (hs : ∀ l, Settled k l) (hheld : k.holder m = some k.current)
    (hh : k'.holder = update k.holder m none) (hd : k'.donator = k.donator)
    (hds : k'.donators = k.donators) (hw : k'.waiters = k.waiters) (hc : k'.current = k.current) :
    LinkAt k' (.lockReleaseRevoke m) st := by
  refine ⟨fun l hne => ?_, ?_⟩
  · exact (hs l).congr (by rw [hh, Function.update_of_ne hne]) (by rw [hd]) hds
      fun _ _ t ht => hw ▸ ht
  · unfold Kernel.Loose Kernel.Once
    rw [hd, hds, hc]
    rcases hs m with hfree | ⟨h, d, hheld', ho, hdn, -⟩
    · exact .inl hfree
    · cases hheld.symm.trans hheld'
      exact .inr ⟨by rw [hdn]; nofun, ho⟩

theorem LinkAt.revoke (hP : LinkAt k (.lockReleaseRevoke m) st) (hne : k.donator m ≠ none)
    (hp : List.Perm ds ((k.donators k.current).erase m))
    (hds : k'.donators = update (fun t => (k.donators t).erase m) k.current ds)
    (hd : k'.donator = update k.donator m none) (hh : k'.holder = k.holder)
    (hw : k'.waiters = k.waiters) (l : Lock) : Settled k' l := by
  obtain ⟨hs, hm⟩ := hP
  have ho : k.Once m k.current := (hm.resolve_left fun h => hne h.1).2
  have hmem {t : Thread} (ht : l ∈ k'.donators t) : l ∈ (k.donators t).erase m := by
    rw [hds, Function.update_apply] at ht
    split at ht
    · rename_i he
      exact he ▸ hp.subset ht
    · exact ht
  by_cases hlm : l = m
  · subst hlm
    exact .inl ⟨by rw [hd, Function.update_self], fun t ht => ho.erase t (hmem ht)⟩
  · refine (hs l hlm).keep (by rw [hh]) (by rw [hd, Function.update_of_ne hlm])
      (fun t ht => List.mem_of_mem_erase (hmem ht)) (fun h _ => ?_) (fun _ _ t ht => hw ▸ ht)
    rw [hds, Function.update_apply]
    split
    · rename_i he
      rw [hp.count_eq, he, List.count_erase_of_ne hlm]
    · rw [List.count_erase_of_ne hlm]

theorem LinkAt.revokeNone (hP : LinkAt k (.lockReleaseRevoke m) st) (hn : k.donator m = none)
    (l : Lock) : Settled k l := by
  by_cases hlm : l = m
  · exact hlm ▸ .inl (hP.2.resolve_right fun h => h.1 hn)
  · exact hP.1 l hlm

theorem LinkAt.take (hP : LinkAt k f st) (hg : ∀ l, Guarded l es k)
    (hf : f = .semaphoreDown s ∨ f = .semaphoreDownLoop s) (hv : k.value s ≠ 0) (l : Lock) :
    Settled k l := by
  rcases hf with rfl | rfl
  · cases s with
    | lock m =>
        obtain ⟨hs, hm⟩ : SettledBut k m ∧ (Settled k m ∨ Claimed k m) := hP
        by_cases hlm : l = m
        · subst hlm
          refine hm.resolve_right fun ⟨h, hheld, _⟩ => ?_
          cases ((hg l).free hv).2.symm.trans hheld
        · exact hs l hlm
    | _ => exact hP l
  · exact hP l

/-- A `semaphore_down` that waits: the donator is on the waiters list now. -/
theorem LinkAt.block (hP : LinkAt k f st) (hf : f = .semaphoreDown s ∨ f = .semaphoreDownLoop s)
    (hw : k'.waiters = update k.waiters s (k.current :: k.waiters s))
    (hds : k'.donators = k.donators) (hd : k'.donator = k.donator) (hh : k'.holder = k.holder)
    (l : Lock) : Settled k' l := by
  have hmem (t : Thread) (ht : t ∈ k.waiters (.lock l)) : t ∈ k'.waiters (.lock l) := by
    rw [hw, Function.update_apply]
    split
    · rename_i he
      exact List.mem_cons_of_mem _ (he ▸ ht)
    · exact ht
  have hkeep (hs : Settled k l) : Settled k' l :=
    hs.congr (by rw [hh]) (by rw [hd]) hds fun _ _ => hmem
  rcases hf with rfl | rfl
  · cases s with
    | lock m =>
        obtain ⟨hs, hm⟩ : SettledBut k m ∧ (Settled k m ∨ Claimed k m) := hP
        by_cases hlm : l = m
        · subst hlm
          rcases hm with hm | ⟨h, hheld, ho, hdn⟩
          · exact hkeep hm
          · refine .inr ⟨h, k.current, hh ▸ hheld, ?_, hd ▸ hdn, ?_⟩
            · unfold Kernel.Once
              rw [hds]
              exact ho
            · rw [hw, Function.update_self]
              exact List.mem_cons_self
        · exact hkeep (hs l hlm)
    | _ => exact hkeep (hP l)
  · exact hkeep (hP l)

/-- A `semaphore_up` of a lock is that of its release, when the lock has no holder any more. -/
theorem Settled.up (hs : Settled k l) (hg : ∀ l, Guarded l es k)
    (hcode : k.code = .semaphoreUp s :: st) (hw : k'.waiters = update k.waiters s ws)
    (hds : k'.donators = k.donators) (hd : k'.donator = k.donator) (hh : k'.holder = k.holder) :
    Settled k' l := by
  refine hs.congr (by rw [hh]) (by rw [hd]) hds fun h hheld t ht => ?_
  have hne : Semaphore.lock l ≠ s := by
    rintro rfl
    have hfree := ((hg l).inside k.current ⟨st, .inr (.inr hcode)⟩).2
    cases hfree.symm.trans hheld
  rw [hw, Function.update_of_ne hne]
  exact ht

/-! ### Every statement -/

theorem AtLinks.exec (hk : Cooperative k) (hlt : ∀ l t, k.holder l = some t → t < k.threads)
    (hg : ∀ l, Guarded l es k) (ht : AtLinks k) (hcode : k.code = f :: st)
    (hx : Exec f (k.popped st) k') : AtLinks k' := by
  have hP : LinkAt k f st := (Phase.cons hcode).mp ht
  have hw : WellStacked (f :: st) := hk.wellStacked hcode
  have hret {X : Kernel} (hd : ¬ f.isDonate) (hc : X.code = st) (h : ∀ l, Settled X l) :
      AtLinks X := Phase.ret hw hd hc h (LinkAt.of_settled h)
  have hstay : (k.popped st).code = st := popped_code k st
  cases hx with
  | @acquireFree _ m =>
      have hs : ∀ l, Settled k l := hP
      exact Phase.push ⟨fun l _ => hs l, .inl (hs m)⟩
  | acquireHeld => exact Phase.push hP
  | @containsTrue _ m h hh hm =>
      have hs : ∀ l, Settled k l := hP
      exact Phase.push ⟨fun l _ => hs l, h, hh, ((hs m).once hm).2.1⟩
  | @containsFalse _ m h hh hm =>
      have hs : ∀ l, Settled k l := hP
      refine Phase.push ⟨hs, fun t ht => ?_⟩
      -- only the holder could have the element in its list
      cases hh.symm.trans ((hs m).once ht).1
      exact hm ht
  | push hh => exact Phase.push (LinkAt.push (k := k) hP hh rfl rfl rfl rfl)
  | donator => exact Phase.push (LinkAt.donator (k := k) hP rfl rfl rfl rfl rfl)
  | compareTrue => exact Phase.push hP
  | @compareFalse _ m =>
      obtain ⟨hs, hm⟩ : SettledBut k m ∧ Claimed k m := hP
      exact Phase.push ⟨hs, .inr hm⟩
  | @blocker _ m =>
      have hP : SettledBut k m ∧ Claimed k m := hP
      refine Phase.push fun m' st' he => ?_
      rw [Kernel.push_code, List.cons.injEq] at he
      cases he.1
      exact hP
  | down => exact Phase.push hP
  | @hold _ m =>
      have hs : ∀ l, Settled k l := hP
      have hfree := ((hg m).inside k.current ⟨st, .inl hcode⟩).2
      refine hret id hstay fun l => ?_
      by_cases hlm : l = m
      · subst hlm
        exact .inl ((hs l).free hfree)
      · exact (hs l).congr (Function.update_of_ne hlm _ _) rfl rfl fun _ _ _ => id
  | donate => exact Phase.pushed hstay hP
  | donateEnd | donateStop =>
      refine Phase.ret_donate hw hstay fun m st' he => ?_
      obtain ⟨hs, hm⟩ := hP m st' he
      exact ⟨hs, .inr hm⟩
  | donateNext => exact Phase.pushed hstay hP
  | release hh => exact Phase.push (LinkAt.release (k := k) hP hh rfl rfl rfl rfl rfl)
  | @revokeNone _ m hn =>
      have hsame : update k.donator m none = k.donator := Function.update_eq_self_iff.mpr hn.symm
      refine Phase.push fun l => ?_
      exact (LinkAt.revokeNone hP hn l).congr rfl (congrFun hsame l) rfl fun _ _ _ => id
  | revoke hne hp => exact Phase.push (LinkAt.revoke (k := k) hP hne hp rfl rfl rfl rfl)
  | take hf hv =>
      have hd : ¬ f.isDonate := by rcases hf with rfl | rfl <;> exact id
      exact hret hd (by simp [Kernel.code]) (hP.take hg hf hv)
  | upNone => exact hret id (by simp [Kernel.code]) hP
  | upStay =>
      have hs : ∀ l, Settled k l := hP
      exact hret id (by simp [Kernel.code, Kernel.woken])
        fun l => (hs l).up hg hcode rfl rfl rfl rfl
  | wait =>
      have hs : ∀ l, Settled k l := hP
      refine Phase.push fun l => (hs l).congr rfl rfl rfl fun h _ t ht => ?_
      show t ∈ update k.waiters (.waiter k.frames) [] (.lock l)
      rw [Function.update_of_ne (by simp)]
      exact ht
  | waitDown | waitAcquire | broadcast | signal | allocate | unblock | setPriority =>
      exact Phase.push hP
  | waitReturn | signalNone | broadcastEnd | preemptStay | setStay | setOld =>
      exact hret id hstay hP
  | create =>
      have hs : ∀ l, Settled k l := hP
      refine Phase.push fun l => (hs l).keep rfl rfl (fun t ht => ?_) (fun h hh => ?_)
        fun _ _ _ => id
      · have ht : l ∈ update k.donators k.threads [] t := ht
        rw [Function.update_apply] at ht
        split at ht
        · cases ht
        · exact ht
      · show (update k.donators k.threads [] h).count l = _
        rw [Function.update_of_ne (hlt l h hh).ne]
  | @switch _ k₁ _ u ready hp hn =>
      have hs : ∀ l, Settled (k₁.dispatch u ready) l := by
        cases hp with
        | block hf => exact hP.block hf rfl rfl rfl rfl
        | up =>
            have hs : ∀ l, Settled k l := hP
            exact fun l => (hs l).up hg hcode rfl rfl rfl rfl
        | _ => exact hP
      exact Phase.parked (hk.parks hcode hp _) hs (LinkAt.of_settled hs)

theorem reachable_atLinks {G : Kernel → Action → Prop} (hG : ∀ k a, G k a → coop k a)
    (hr : Reachable step G (boot v) k) : AtLinks k := by
  refine Phase.reachable hG (fun _ => .inl ⟨rfl, fun _ => List.not_mem_nil⟩)
    (fun k c hB => by cases c <;> exact hB) (fun k f st k' hr hk ht hg hcode hx => ?_) hr
  have hlt := reachable_holder_lt hr
  obtain ⟨es, hrun⟩ := hr
  have hguard := run_guarded (hrun.mono fun _ _ _ => trivial)
  exact AtLinks.exec hk hlt hguard ht hcode hx

/-! ### The pointers that are followed -/

/-- Control moves only in `schedule()`, and no thread exits while it holds a lock. -/
def exitsFree (k : Kernel) (a : Action) : Prop :=
  coop k a ∧
  match a, k.code with
  | .run, .threadExit :: _ => ∀ l, k.holder l ≠ some k.current
  | _, _ => True

theorem Exec.dying (hx : Exec f k k') (ht : k'.status t = .dying) :
    k.status t = .dying ∨ (t = k.current ∧ f = .threadExit) := by
  have hup (x : ThreadStatus) (hne : x ≠ .dying) {u : Thread} {g : Thread → ThreadStatus}
      (h : update g u x t = .dying) : g t = .dying := by
    rw [Function.update_apply] at h
    split at h
    · exact (hne h).elim
    · exact h
  cases hx with
  | upStay | unblock => exact .inl (hup .ready nofun ht)
  | create => exact .inl (hup .blocked nofun ht)
  | switch hp =>
      have ht := hup .running nofun ht
      cases hp with
      | block | idle => exact .inl (hup .blocked nofun ht)
      | up => exact .inl (hup .ready nofun (hup .ready nofun ht))
      | preempt | set | yield => exact .inl (hup .ready nofun ht)
      | exit =>
          have ht : update k.status k.current .dying t = .dying := ht
          rw [Function.update_apply] at ht
          split at ht
          · rename_i he
            exact .inr ⟨he, rfl⟩
          · exact .inl ht
  | _ => exact .inl ht

theorem reachable_holder_isThread (hr : Reachable step exitsFree (boot v) k) :
    ∀ l h, k.holder l = some h → k.IsThread h := by
  have hlive : ∀ l h, k.holder l = some h → k.status h ≠ .dying := by
    refine hr.invariant (I := fun k => ∀ l h, k.holder l = some h → k.status h ≠ .dying) nofun
      fun k a k' hr hi hg hs l h hh hd => ?_
    cases step_inv hs with
    | call => exact hi l h hh hd
    | @run _ _ f st hcode hx =>
        have hk := reachable_consistent hr
        have hold : k.holder l = some h ∨ h = k.current ∧ f ≠ .threadExit := by
          rcases hx.holder with ⟨m, rfl, hhs⟩ | ⟨m, -, -, hhs⟩ | ⟨-, hhs⟩
          · rw [hhs, Function.update_apply] at hh
            split at hh
            · cases hh
              exact .inr ⟨rfl, nofun⟩
            · exact .inl hh
          · rw [hhs, Function.update_apply] at hh
            split at hh
            · cases hh
            · exact .inl hh
          · exact .inl (hhs ▸ hh)
        rcases hx.dying hd with hd | ⟨rfl, rfl⟩
        · rcases hold with hold | ⟨rfl, -⟩
          · exact hi l h hold hd
          · cases hk.threads.running.symm.trans hd
        · rcases hold with hold | ⟨-, hne⟩
          · have hg := hg.2
            rw [hcode] at hg
            exact hg l hold
          · exact hne rfl
    | timer | race => exact hg.1.elim
  exact fun l h hh => ⟨reachable_holder_lt hr l h hh, hlive l h hh⟩

/-- The statements of `lock_acquire` and `lock_release` between the changes of the two fields and
the wait; control does not move at any of them. -/
def Frame.worksOn : Frame → Option Lock
  | .lockAcquireDonator l | .lockAcquireCompare l | .lockAcquireBlocker l => some l
  | .lockAcquireDown l | .semaphoreDown (.lock l) | .lockReleaseRevoke l => some l
  | _ => none

/-- The running thread is at one of these statements, or will return to one. -/
def Kernel.WorksOn (k : Kernel) (l : Lock) : Prop := ∃ f ∈ k.code, f.worksOn = some l

/-- A lock that the running thread is not working on is settled. -/
theorem AtLinks.settled (ht : AtLinks k) (hw : WellStacked k.code) (hl : ¬ k.WorksOn l) :
    Settled k l := by
  cases hcode : k.code with
  | nil => exact (Phase.nil hcode).mp ht l
  | cons f st =>
      have hP : LinkAt k f st := (Phase.cons hcode).mp ht
      have hne {g : Frame} (hg : g ∈ f :: st) : g.worksOn ≠ some l :=
        fun h => hl ⟨g, hcode ▸ hg, h⟩
      have hbut {m : Lock} (hs : SettledBut k m) (hg : f.worksOn = some m) : Settled k l :=
        hs l fun he => hne List.mem_cons_self (he ▸ hg)
      cases f with
      | lockAcquirePush => exact hP.1 l
      | lockAcquireDonator | lockAcquireCompare | lockAcquireBlocker | lockAcquireDown =>
          exact hbut hP.1 rfl
      | lockReleaseRevoke => exact hbut hP.1 rfl
      | donate | donateNext =>
          rw [hcode] at hw
          obtain ⟨m, st', rfl, -⟩ := hw
          refine (hP m st' rfl).1 l fun he => ?_
          exact hne (List.mem_cons_of_mem _ List.mem_cons_self) (he ▸ rfl)
      | semaphoreDown s =>
          cases s with
          | lock m => exact hbut hP.1 rfl
          | _ => exact hP l
      | _ => exact hP l

/-- `lock_release` dereferences the donators of the locks that stay in the caller's list; the sort
does not come to the others. -/
theorem revoke_isSome (hlt : k.current < k.threads) (ho : k.Once l k.current)
    (hd : ∀ n ∈ k.donators k.current, n ≠ l → ∃ d, k.donator n = some d) :
    ∃ k', k.revoke l = some k' := by
  have hany : (List.range k.threads).any fun t => l ∈ k.donators t :=
    List.any_eq_true.mpr ⟨k.current, List.mem_range.mpr hlt, decide_eq_true ho.mem⟩
  have hdon {n : Lock} (hn : n ∈ (k.donators k.current).erase l) :
      ∃ d, update k.donator l none n = some d := by
    have hne : n ≠ l := by
      rintro rfl
      exact ho.erase _ hn
    rw [Function.update_of_ne hne]
    exact hd n (List.mem_of_mem_erase hn) hne
  unfold Kernel.revoke Kernel.removeLockelem
  rw [if_pos hany]
  simp only [Option.bind_eq_bind, Option.bind_some]
  by_cases hnil : (k.donators k.current).erase l = []
  · rw [if_pos hnil]
    exact ⟨_, rfl⟩
  · rw [if_neg hnil]
    have hsome : (KernelList.listSort (Kernel.lockDonatorLess { k with
        donators := fun t => (k.donators t).erase l, donator := update k.donator l none })
        ((k.donators k.current).erase l)).isSome := by
      refine KernelList.listSort_lessBy_isSome_iff.mpr (.inr fun n hn => ?_)
      obtain ⟨d, hd⟩ := hdon hn
      show ((update k.donator l none n).map k.priority).isSome
      rw [hd]
      rfl
    obtain ⟨sorted, hsort⟩ := Option.isSome_iff_exists.mp hsome
    have hperm := KernelList.listSort_perm hsort
    obtain ⟨back, hback⟩ := Option.isSome_iff_exists.mp
      (List.getLast?_isSome.mpr fun he => hnil (List.nil_perm.mp (he ▸ hperm)))
    obtain ⟨d, hd⟩ := hdon (hperm.subset (List.mem_of_getLast? hback))
    rw [hsort, Option.bind_some, hback, Option.bind_some, hd]
    exact ⟨_, rfl⟩

theorem lockReleaseRevoke_ne_none (hlt : k.current < k.threads)
    (ho : k.donator l ≠ none → k.Once l k.current)
    (hd : ∀ n ∈ k.donators k.current, n ≠ l → ∃ d, k.donator n = some d) :
    k.lockReleaseRevoke l ≠ none := by
  unfold Kernel.lockReleaseRevoke
  by_cases hn : k.donator l = none
  · rw [if_pos hn]
    nofun
  · rw [if_neg hn]
    obtain ⟨k', hk'⟩ := revoke_isSome hlt (ho hn) hd
    rw [hk']
    nofun

/-- **The donator of a lock and its element agree** in every run in which no thread exits while
it holds a lock.  Unless the running thread works on it, a lock has a donator if and only if it is
held and its element is linked once, in the list of the holder, and the donator is a thread that
is blocked on the lock.  `lock_release` unlinks an element that is linked, and dereferences
donators of that kind. -/
theorem donator_links (hr : Reachable step exitsFree (boot v) k) :
    (∀ l, ¬ k.WorksOn l →
      (k.donator l ≠ none ↔ ∃ h, k.holder l = some h ∧ k.Once l h) ∧
      ∀ d, k.donator l = some d → k.IsThread d ∧ k.BlockedIn d l) ∧
    (∀ l h, k.holder l = some h → k.IsThread h) ∧
    ∀ l st, k.code = .lockReleaseRevoke l :: st →
      (k.donator l ≠ none → k.Once l k.current) ∧
      (∀ n ∈ k.donators k.current, n ≠ l →
        ∃ d, k.donator n = some d ∧ k.IsThread d ∧ k.BlockedIn d n) ∧
      stepRun k ≠ none := by
  have hk := reachable_consistent hr
  have hat := reachable_atLinks (fun _ _ hg => hg.1) hr
  have hwait {d : Thread} {n : Lock} (hd : d ∈ k.waiters (.lock n)) :
      k.IsThread d ∧ k.BlockedIn d n := by
    have hb := (blockedIn_iff hr).mpr hd
    exact ⟨⟨hk.threads.waiting_lt _ d hd, by rw [hb.1]; nofun⟩, hb⟩
  refine ⟨fun l hl => ?_, reachable_holder_isThread hr, fun l st hcode => ?_⟩
  · have hs := hat.settled (hk.control.shape _) hl
    refine ⟨⟨fun hne => ?_, ?_⟩, fun d hd => ?_⟩
    · obtain ⟨hn, -⟩ | ⟨h, d, hheld, ho, -⟩ := hs
      · exact (hne hn).elim
      · exact ⟨h, hheld, ho⟩
    · rintro ⟨h, -, ho⟩
      obtain ⟨-, -, d, hd, -⟩ := hs.once ho.mem
      rw [hd]
      nofun
    · obtain ⟨hn, -⟩ | ⟨-, d', -, -, hd', hw⟩ := hs
      · cases hn.symm.trans hd
      · cases hd'.symm.trans hd
        exact hwait hw
  · obtain ⟨hs, hl⟩ : SettledBut k l ∧ _ := (Phase.cons hcode).mp hat
    have honce (hne : k.donator l ≠ none) : k.Once l k.current :=
      (hl.resolve_left fun h => hne h.1).2
    have hdon (n : Lock) (hn : n ∈ k.donators k.current) (hne : n ≠ l) :
        ∃ d, k.donator n = some d ∧ k.IsThread d ∧ k.BlockedIn d n := by
      obtain ⟨-, -, d, hd, hw⟩ := (hs n hne).once hn
      exact ⟨d, hd, hwait hw⟩
    refine ⟨honce, hdon, ?_⟩
    unfold stepRun
    rw [hcode]
    refine lockReleaseRevoke_ne_none (k := k.popped st) hk.threads.current_lt honce fun n hn hne => ?_
    obtain ⟨d, hd, -⟩ := hdon n hn hne
    exact ⟨d, hd⟩

/-- The initial thread holds the locks `0` and `1`, for which the threads `2` and `3` wait, and is
about to release lock `0`. -/
def releaseOne : List Action :=
  Call.steps (.lockAcquire 0) 4 ++ Call.steps (.lockAcquire 1) 4 ++
  Call.steps (.threadCreate 31) 11 ++ Call.steps .threadYield 1 ++
  Call.steps (.lockAcquire 0) 7 ++ Call.steps (.threadCreate 31) 11 ++
  Call.steps .threadYield 1 ++ Call.steps (.lockAcquire 1) 7 ++ Call.steps (.lockRelease 0) 1

/-- A test that the steps of `releaseOne` pass. -/
def neverExits (k : Kernel) (_ : Action) : Bool :=
  match k.code with
  | .threadExit :: _ => false
  | _ => true

theorem exitsFree_of_neverExits (hc : coop k a) (hn : neverExits k a) : exitsFree k a := by
  refine ⟨hc, ?_⟩
  unfold neverExits at hn
  split
  · rename_i hcode
    rw [hcode] at hn
    cases hn
  · trivial

theorem donator_links_releaseOne : ∃ k, Reachable step exitsFree (boot fun _ => 0) k ∧
    k.holder (.user 1) = some 0 ∧ k.Once (.user 1) 0 ∧ k.BlockedIn 3 (.user 1) ∧
    k.donator (.user 0) = some 2 ∧ k.Once (.user 0) 0 ∧ stepRun k ≠ none := by
  have hex : (execute (checked neverExits step) releaseOne (boot fun _ => 0)).any fun k =>
      k.code = [.lockReleaseRevoke (.user 0)] ∧ k.current = 0 ∧ k.holder (.user 1) = some 0 ∧
      k.donator (.user 1) = some 3 ∧ k.donator (.user 0) = some 2 := by
    decide +kernel
  obtain ⟨k, hk, he⟩ := (Option.any_eq_true _ _).mp hex
  obtain ⟨hcode, hcur, hheld, hd, hd'⟩ := of_decide_eq_true he
  have hrun := execute_run (G := coop) (coop_of_call_run (by simp [releaseOne, Call.steps])) .nil hk
  have hr : Reachable step exitsFree (boot fun _ => 0) k :=
    ⟨_, hrun.of_checked.mono fun _ _ hg => exitsFree_of_neverExits hg.2 hg.1⟩
  obtain ⟨hlinks, -, hrelease⟩ := donator_links hr
  have hnot : ¬ k.WorksOn (.user 1) := by
    rintro ⟨f, hf, hl⟩
    rw [hcode, List.mem_singleton] at hf
    subst hf
    cases hl
  obtain ⟨hiff, hwait⟩ := hlinks (.user 1) hnot
  obtain ⟨h, hh, ho⟩ := hiff.mp (by rw [hd]; simp)
  cases hheld.symm.trans hh
  obtain ⟨honce, -, hsafe⟩ := hrelease (.user 0) [] hcode
  exact ⟨k, hr, hheld, ho, (hwait 3 hd).2, hd', hcur ▸ honce (by rw [hd']; simp), hsafe⟩

end CSE130.Lab2
