import CSE130.Lab2.Condvar

/-! # Who is woken

`semaphore_down` pushes its caller to the front of the waiters list; `semaphore_up` sorts the list
by priority and takes the back.  So it wakes a waiter of the highest priority, and of those the one
that is last in the list.

The order of the list within a priority is that of arrival, the latest first, as long as the
priorities stay what they are.  A sort moves a later waiter behind an earlier one if its priority
is higher, and it stays there if a donation then raises the earlier one: `Together` excludes
this.

`condvar_signal` looks through the semaphores of `condvar_wait`, on each of which one thread
waits. -/

namespace CSE130.Lab2

open Function (update)
open KernelList
open Transition

variable {k k' k₁ : Kernel} {st : List Frame} {s : Semaphore} {c : Condvar} {l : Lock}
  {t u x y : Thread} {w : ℕ} {a : Action} {v : ℕ → BitVec 32} {G : Kernel → Action → Prop}

/-! ### `semaphore_up` -/

/-- Of the blocked threads, exactly `t` has been woken. -/
def Wakes (k : Kernel) (t : Thread) (k' : Kernel) : Prop :=
  k.status t = .blocked ∧ ∀ u, k.status u = .blocked → (k'.status u ≠ .blocked ↔ u = t)

theorem Scheduled.wakes_woken {ws : List Thread} (hk : Scheduled k)
    (hp : List.Perm (t :: ws) (k.waiters s)) : Wakes k t (k.woken s t ws) := by
  refine ⟨(hk.waiting s t (hp.subset List.mem_cons_self)).1, fun u hu => ?_⟩
  simp only [Kernel.woken, Function.update_apply]
  split <;> simp_all

theorem Wakes.yield (hw : Wakes k t k₁) (hk : Scheduled k) (hk₁ : Scheduled k₁)
    (hc : k₁.current = k.current) (hne : k₁.readyList ≠ []) (h : k₁.threadYield = some k') :
    Wakes k t k' := by
  obtain ⟨n, ready, hn, rfl⟩ := threadYield_spec h
  refine ⟨hw.1, fun u hu => ?_⟩
  have hcur : u ≠ k₁.current := hc ▸ hk.ne_of_blocked hu
  have hyield : k₁.yielding.status u = k₁.status u := Function.update_of_ne hcur ..
  have hready : k₁.yielding.status n = .ready := by
    rcases (hk₁.yielding.next hn).2.2.2 with rfl | h
    · -- the idle thread is chosen only if the list is empty
      obtain ⟨he, -⟩ | ⟨hp, -⟩ := hn
      · simp only [Kernel.yielding] at he
        split at he
        · exact absurd he hne
        · cases he
      · exact hk₁.yielding.ready _ (hp.subset List.mem_cons_self)
    · exact h
  rw [← hw.2 u hu, ← hyield]
  simp only [Kernel.dispatch, Function.update_apply]
  split
  · rename_i he
    rw [he, hready]
    simp
  · rfl

theorem Scheduled.semaphoreUp_wakes (hk : Scheduled k) (hne : k.waiters s ≠ []) :
    ∃ k' sorted t, k.semaphoreUp s = some k' ∧
      listSort k.threadPriorityLess (k.waiters s) = some sorted ∧ sorted.getLast? = some t ∧
      k'.waiters = update k.waiters s sorted.dropLast ∧ k'.condWaiters = k.condWaiters ∧
      Wakes k t k' := by
  obtain ⟨sorted, t, hs, ht⟩ := exists_back (k := k) hne
  obtain ⟨hp, -⟩ := pop_back_spec hs ht
  have hwoken := hk.wakes_woken hp
  have hs' : listSort (Kernel.threadPriorityLess
    { k with value := update k.value s ((k.value s + 1) % unsignedSize) }) (k.waiters s) =
      some sorted := hs
  have hup : k.semaphoreUp s = if k.priority t > k.priority k.current then
      (k.woken s t sorted.dropLast).threadYield else some (k.woken s t sorted.dropLast) := by
    simp only [Kernel.semaphoreUp, if_neg hne, hs', ht, Kernel.threadUnblock, hwoken.1, if_true,
      Option.bind_eq_bind, Option.bind_some]
    rfl
  by_cases hlt : k.priority t > k.priority k.current
  · obtain ⟨k', hy⟩ := exists_schedule (k.woken s t sorted.dropLast).yielding
    rw [if_pos hlt] at hup
    have hw := hwoken.yield hk (hk.woken hp) rfl (by simp [Kernel.woken]) hy
    obtain ⟨n, ready, -, he⟩ := schedule_spec hy
    exact ⟨k', sorted, t, hup.trans hy, hs, ht, by rw [he]; rfl, by rw [he]; rfl, hw⟩
  · rw [if_neg hlt] at hup
    exact ⟨k.woken s t sorted.dropLast, sorted, t, hup, hs, ht, rfl, rfl, hwoken⟩

theorem Consistent.step_semaphoreUp (hk : Consistent k) (hcode : k.code = .semaphoreUp s :: st)
    (hne : k.waiters s ≠ []) : ∃ k' sorted t, Lab2.step .run k = some k' ∧
      listSort k.threadPriorityLess (k.waiters s) = some sorted ∧ sorted.getLast? = some t ∧
      k'.waiters = update k.waiters s sorted.dropLast ∧ k'.condWaiters = k.condWaiters ∧
      Wakes k t k' := by
  have hstep : Lab2.step .run k = (k.popped st).semaphoreUp s := by
    simp only [Lab2.step, stepRun, hcode, Lab2.exec]
    rfl
  rw [hstep]
  exact (hk.threads.popped hcode (by simp)).semaphoreUp_wakes hne

/-! ### The waiters list over a run -/

theorem Consistent.waiters_step (hk : Consistent k) (h : Lab2.step a k = some k') :
    k'.waiters s = k.waiters s ∨ k'.waiters s = k.current :: k.waiters s ∨
      a = .run ∧ (∃ st, k.code = .semaphoreUp s :: st) ∧ ∃ sorted t,
        listSort k.threadPriorityLess (k.waiters s) = some sorted ∧
        sorted.getLast? = some t ∧ k'.waiters s = sorted.dropLast := by
  cases step_inv h with
  | call => exact .inl rfl
  | @run _ _ f st hcode hx =>
      cases hx.outcome s with
      | take _ _ _ hw => exact .inl hw
      | wait _ _ _ hw => exact .inr (.inl hw)
      | upNone _ hn _ hw => exact .inl (hw.trans (Eq.symm hn))
      | up t hu hp =>
          obtain rfl := Frame.eq_semaphoreUp hu
          have hne : k.waiters s ≠ [] := by
            intro he
            have hp : List.Perm (t :: k'.waiters s) (k.waiters s) := hp
            rw [he] at hp
            exact List.cons_ne_nil _ _ hp.eq_nil
          obtain ⟨k₁, sorted, t, h₁, hs, ht, hw, -⟩ := hk.step_semaphoreUp hcode hne
          rw [h, Option.some.injEq] at h₁
          rw [h₁, hw, Function.update_self]
          exact .inr (.inr ⟨rfl, ⟨st, hcode⟩, sorted, t, hs, ht, rfl⟩)
      | init _ hs _ hw =>
          have hs : s = .waiter k.frames := hs
          rw [hw, hs]
          exact .inl (hk.waiters_fresh le_rfl).symm
      | none _ _ _ hw => exact .inl hw
  | timer => exact .inl rfl
  | race => exact .inl rfl

/-- `x` waits on `s`, and if `s` is upped, the priority of `y` is not above that of `x`. -/
def Together (s : Semaphore) (x y : Thread) (k : Kernel) (a : Action) : Prop :=
  x ∈ k.waiters s ∧ (performsUp s (k, a) → k.priority y ≤ k.priority x)

instance : Decidable (Together s x y k a) := by
  unfold Together
  infer_instance

theorem Consistent.behind_step (hk : Consistent k) (hg : Together s x y k a)
    (hf : [y, x].Sublist (k.waiters s)) (h : Lab2.step a k = some k') (hx : x ∈ k'.waiters s) :
    [y, x].Sublist (k'.waiters s) := by
  rcases hk.waiters_step (s := s) h with he | he | ⟨rfl, ⟨st, hcode⟩, sorted, t, hs, ht, he⟩
  · rwa [he]
  · rw [he]
    exact hf.cons _
  · have hle := hg.2 (by simp [performsUp_run hcode, Frame.ups])
    have hcmp := threadPriorityLess_compares k (k.waiters s)
    have hp := listSort_perm hs
    have hf := (listSort_stable hcmp hs).pair (listSort_ordered hcmp hs) hp hle hf
    obtain ⟨init, rfl⟩ := List.getLast?_eq_some_iff.mp ht
    rw [List.dropLast_concat] at he
    rw [he] at hx ⊢
    refine (pair_sublist_concat hf).2.resolve_left ?_
    rintro rfl
    have hnd := hp.nodup_iff.mpr (hk.threads.waiting_nodup s)
    exact (List.nodup_append.mp hnd).2.2 x hx x List.mem_cons_self rfl

theorem behind_run (hr : Reachable step G (boot v) k) (hf : [y, x].Sublist (k.waiters s))
    (hr' : Reachable step (Together s x y) k k') (hx : x ∈ k'.waiters s) :
    [y, x].Sublist (k'.waiters s) := by
  have hI := hr'.invariant
    (I := fun k => Consistent k ∧ (x ∈ k.waiters s → [y, x].Sublist (k.waiters s)))
    ⟨reachable_consistent hr, fun _ => hf⟩ fun k a k' _ hi hg hs =>
      ⟨hi.1.step hs, hi.1.behind_step hg (hi.2 hg.1) hs⟩
  exact hI.2 hx

/-- **Whom `semaphore_up` wakes.**  Exactly one waiter, of the highest priority; those that are left
are in the same order within each priority.  And `y`, which began to wait when `x` waited, is not
woken before `x` if at every `semaphore_up` since then its priority was not above that of
`x`. -/
theorem semaphore_up_wakes (hr : Reachable step G (boot v) k) (s : Semaphore) :
    (∀ st, k.code = .semaphoreUp s :: st → k.waiters s ≠ [] → ∃ k' t, step .run k = some k' ∧
      Wakes k t k' ∧ List.Perm (t :: k'.waiters s) (k.waiters s) ∧
      (∀ u ∈ k.waiters s, k.priority u ≤ k.priority t) ∧
      (∀ s', s' ≠ s → k'.waiters s' = k.waiters s') ∧
      ∀ p, ((k'.waiters s).filter fun u => k.priority u = p).Sublist
        ((k.waiters s).filter fun u => k.priority u = p)) ∧
    ∀ x y a k₁ k₂, x ∈ k.waiters s → y ∉ k.waiters s → step a k = some k₁ →
      y ∈ k₁.waiters s → Reachable step (Together s x y) k₁ k₂ → x ∈ k₂.waiters s →
      y ∈ k₂.waiters s := by
  have hk := reachable_consistent hr
  constructor
  · intro st hcode hne
    obtain ⟨k', sorted, t, hstep, hs, ht, hw, -, hwakes⟩ := hk.step_semaphoreUp hcode hne
    obtain ⟨hp, hmax⟩ := pop_back_spec hs ht
    have hws : k'.waiters s = sorted.dropLast := by rw [hw, Function.update_self]
    refine ⟨k', t, hstep, hwakes, by rwa [hws], fun u hu => ?_, fun s' hs' => ?_, fun p => ?_⟩
    · rcases List.mem_cons.mp (hp.symm.subset hu) with rfl | hu
      · exact le_rfl
      · exact hmax u hu
    · rw [hw, Function.update_of_ne hs']
    · rw [hws, ← listSort_stable (threadPriorityLess_compares k _) hs p]
      exact (List.dropLast_sublist sorted).filter _
  · intro x y a k₁ k₂ hx hy hstep hy₁ hrun hx₂
    have hf : [y, x].Sublist (k₁.waiters s) := by
      rcases hk.waiters_step (s := s) hstep with he | he | ⟨-, -, sorted, t, hs, -, he⟩
      · exact absurd (he ▸ hy₁) hy
      · rw [he, List.mem_cons] at hy₁
        rw [he, hy₁.resolve_right hy]
        exact (List.singleton_sublist.mpr hx).cons_cons _
      · rw [he] at hy₁
        exact absurd ((listSort_perm hs).subset (List.dropLast_subset _ hy₁)) hy
    have hr₁ : Reachable step anyAction (boot v) k₁ := by
      obtain ⟨h, hr⟩ := hr
      exact Reachable.tail ⟨h, hr.mono fun _ _ _ => trivial⟩ trivial hstep
    exact (behind_run hr₁ hf hrun hx₂).subset List.mem_cons_self

/-- Thread `2` holds lock `0` and waits on semaphore `0`, and thread `3`, of priority `p`, is about
to wait. -/
def secondWaiter (p : ℤ) : List Action :=
  Call.steps (.threadCreate 40) 11 ++ Call.steps (.lockAcquire 0) 4 ++
  Call.steps (.semaphoreDown 0) 1 ++ Call.steps (.threadCreate p) 11 ++ [.call (.semaphoreDown 0)]

/-- Thread `4`, of priority `50`, waits too, and is woken. -/
def thirdWoken : List Action :=
  Call.steps (.threadCreate 50) 11 ++ Call.steps (.semaphoreDown 0) 1 ++
  Call.steps (.semaphoreUp 0) 2

theorem secondWaiter_coop (p : ℤ) (k : Kernel) : ∀ a ∈ secondWaiter p, coop k a :=
  coop_of_call_run (by simp [secondWaiter, Call.steps]) k

/-- All of priority `40`: thread `3` still waits after the `semaphore_up` for thread `4`, and the
next one is for one thread. -/
theorem semaphore_up_wakes_three : ∃ k k₂, Reachable step coop (boot fun _ => 0) k ∧
    k.waiters (.sema 0) = [2] ∧ 2 ∈ k₂.waiters (.sema 0) ∧ 3 ∈ k₂.waiters (.sema 0) ∧
    k₂.code = [.semaphoreUp (.sema 0)] ∧ ∃ k' t, step .run k₂ = some k' ∧ Wakes k₂ t k' := by
  have hex : (execute step (secondWaiter 40) (boot fun _ => 0)).any fun k =>
      k.waiters (.sema 0) = [2] ∧ (step .run k).any fun k₁ => 3 ∈ k₁.waiters (.sema 0) ∧
        (execute (checked (fun k a => Together (.sema 0) 2 3 k a) step)
          (thirdWoken ++ [.call (.semaphoreUp 0)]) k₁).any fun k₂ =>
            2 ∈ k₂.waiters (.sema 0) ∧ k₂.code = [.semaphoreUp (.sema 0)] := by
    decide +kernel
  obtain ⟨k, hk, he⟩ := (Option.any_eq_true _ _).mp hex
  obtain ⟨hw, he⟩ := of_decide_eq_true he
  obtain ⟨k₁, hk₁, he⟩ := (Option.any_eq_true _ _).mp he
  obtain ⟨hw₁, he⟩ := of_decide_eq_true he
  obtain ⟨k₂, hk₂, he⟩ := (Option.any_eq_true _ _).mp he
  obtain ⟨hw₂, hcode⟩ := of_decide_eq_true he
  have hr := execute_reachable (secondWaiter_coop 40) .refl hk
  have hrun := (execute_run (G := coop) (coop_of_call_run (by simp [thirdWoken, Call.steps]))
    .nil hk₂).of_checked
  have hcoop : coop k .run := trivial
  have hall : Reachable step coop (boot fun _ => 0) k₂ :=
    (hr.tail hcoop hk₁).run (fun _ _ h => h) (hrun.mono fun _ _ h => h.2)
  have hboth : Reachable step (Together (.sema 0) 2 3) k₁ k₂ :=
    ⟨_, hrun.mono fun _ _ h => of_decide_eq_true h.1⟩
  have hlater := (semaphore_up_wakes hr (.sema 0)).2 2 3 .run k₁ k₂ (by simp [hw]) (by simp [hw])
    hk₁ hw₁ hboth hw₂
  obtain ⟨k', t, hstep, hwakes, -⟩ := (semaphore_up_wakes hall (.sema 0)).1 [] hcode
    (List.ne_nil_of_mem hw₂)
  exact ⟨k, k₂, hr, hw, hw₂, hlater, hcode, k', t, hstep, hwakes⟩

/-- Thread `3` has priority `45` when thread `4` is woken, which then donates `45` to thread `2`.
The next `semaphore_up` wakes thread `3`, though thread `2` has waited since before. -/
theorem semaphore_up_overtakes : ∃ k k₁ k₂ k₃, Reachable step coop (boot fun _ => 0) k ∧
    k.waiters (.sema 0) = [2] ∧ step .run k = some k₁ ∧ k₁.waiters (.sema 0) = [3, 2] ∧
    Reachable step (fun k a => coop k a ∧ 2 ∈ k.waiters (.sema 0) ∧ 3 ∈ k.waiters (.sema 0))
      k₁ k₂ ∧
    k₂.code = [.semaphoreUp (.sema 0)] ∧ k₂.priority 3 = k₂.priority 2 ∧
    step .run k₂ = some k₃ ∧ k₃.waiters (.sema 0) = [2] ∧ k₃.priority 3 = k₃.priority 2 := by
  have hex : (execute step (secondWaiter 45) (boot fun _ => 0)).any fun k =>
      k.waiters (.sema 0) = [2] ∧ (step .run k).any fun k₁ => k₁.waiters (.sema 0) = [3, 2] ∧
        (execute (checked (fun k _ => 2 ∈ k.waiters (.sema 0) ∧ 3 ∈ k.waiters (.sema 0)) step)
          (thirdWoken ++ Call.steps (.threadSetPriority 45 0) 2 ++
            Call.steps (.lockAcquire 0) 10 ++ [.call (.semaphoreUp 0)]) k₁).any fun k₂ =>
              k₂.code = [.semaphoreUp (.sema 0)] ∧ k₂.priority 3 = k₂.priority 2 ∧
              (step .run k₂).any fun k₃ =>
                k₃.waiters (.sema 0) = [2] ∧ k₃.priority 3 = k₃.priority 2 := by
    decide +kernel
  obtain ⟨k, hk, he⟩ := (Option.any_eq_true _ _).mp hex
  obtain ⟨hw, he⟩ := of_decide_eq_true he
  obtain ⟨k₁, hk₁, he⟩ := (Option.any_eq_true _ _).mp he
  obtain ⟨hw₁, he⟩ := of_decide_eq_true he
  obtain ⟨k₂, hk₂, he⟩ := (Option.any_eq_true _ _).mp he
  obtain ⟨hcode, hp, he⟩ := of_decide_eq_true he
  obtain ⟨k₃, hk₃, he⟩ := (Option.any_eq_true _ _).mp he
  obtain ⟨hw₃, hp₃⟩ := of_decide_eq_true he
  have hrun := (execute_run (G := coop) (coop_of_call_run (by simp [thirdWoken, Call.steps]))
    .nil hk₂).of_checked
  exact ⟨k, k₁, k₂, k₃, execute_reachable (secondWaiter_coop 45) .refl hk, hw, hk₁, hw₁,
    ⟨_, hrun.mono fun _ _ h => ⟨h.2, of_decide_eq_true h.1⟩⟩, hcode, hp, hk₃, hw₃, hp₃⟩

/-! ### `condvar_signal` -/

theorem Consistent.sole_waiter (hk : Consistent k) (ht : t ∈ k.waiters (.waiter w)) :
    k.waiters (.waiter w) = [t] := by
  have howns : ∀ u ∈ k.waiters (.waiter w), k.Owns u (.waiter w) := fun u hu => by
    obtain ⟨-, st, hst⟩ := hk.threads.waiting _ u hu
    exact hk.owns_of_waits ⟨.semaphoreDownLoop (.waiter w), by simp [hst], rfl⟩
  have hsame : ∀ u ∈ k.waiters (.waiter w), u = t := fun u hu =>
    hk.control.unique u t _ (howns u hu) (howns t ht)
  have hnd := hk.threads.waiting_nodup (.waiter w)
  cases hw : k.waiters (.waiter w) with
  | nil =>
      rw [hw] at ht
      cases ht
  | cons u us =>
      rw [hw] at hsame hnd
      obtain rfl := hsame u List.mem_cons_self
      cases us with
      | nil => rfl
      | cons u' us =>
          have hu' := hsame u' (List.mem_cons_of_mem u List.mem_cons_self)
          exact absurd (hu' ▸ List.mem_cons_self) (List.nodup_cons.mp hnd).1

/-- If somebody waits on every linked semaphore, sorting them by the priorities of their front
waiters puts one of the highest at the back. -/
theorem exists_signalled (hne : k.condWaiters c ≠ [])
    (hall : ∀ w ∈ k.condWaiters c, k.waiters (.waiter w) ≠ []) : ∃ sorted w t,
      listSort k.semaphorePriorityLess (k.condWaiters c) = some sorted ∧
      sorted.getLast? = some w ∧ (k.waiters (.waiter w)).head? = some t ∧
      ∀ w' ∈ k.condWaiters c, ∀ u, (k.waiters (.waiter w')).head? = some u →
        k.priority u ≤ k.priority t := by
  have hkey : ∀ w ∈ k.condWaiters c,
      ((k.waiters (.waiter w)).head?.map k.priority).isSome := fun w hw => by
    rw [Option.isSome_map, List.isSome_head?]
    exact hall w hw
  have hcmp := lessBy_compares hkey
  obtain ⟨sorted, hs⟩ := Option.isSome_iff_exists.mp (listSort_isSome hcmp)
  have hp := listSort_perm hs
  have hsorted : sorted ≠ [] := by
    rintro rfl
    exact hne (List.nil_perm.mp hp)
  obtain ⟨w, hw⟩ := Option.isSome_iff_exists.mp (List.getLast?_isSome.mpr hsorted)
  have hmem : w ∈ k.condWaiters c := hp.subset (List.mem_of_getLast? hw)
  obtain ⟨t, ht⟩ := Option.isSome_iff_exists.mp (List.isSome_head?.mpr (hall w hmem))
  refine ⟨sorted, w, t, hs, hw, ht, fun w' hw' u hu => ?_⟩
  have hle := (listSort_ordered hcmp hs).le_getLast hw w' (hp.mem_iff.mpr hw')
  simpa [hu, ht] using hle

theorem step_condvarSignal (hcode : k.code = .condvarSignal c l :: st)
    (hh : k.holder l = some k.current) : step .run k =
      if k.condWaiters c = [] then some (k.popped st)
      else (listSort k.semaphorePriorityLess (k.condWaiters c)).bind fun sorted =>
        sorted.getLast?.bind fun w => some
          ({ k.popped st with condWaiters := update k.condWaiters c sorted.dropLast }.push
            (.semaphoreUp (.waiter w))) := by
  have hsig : step .run k = (k.popped st).condvarSignal c l := by
    simp only [step, stepRun, hcode, exec]
    rfl
  rw [hsig]
  exact if_pos hh

/-- **Whom `condvar_signal` wakes.**  If every waiter sleeps on its own semaphore, exactly one thread,
of the highest priority of those that wait; the others stay in the queue and on their
semaphores. -/
theorem condvar_signal_wakes (hr : Reachable step G (boot v) k)
    (hcode : k.code = .condvarSignal c l :: st) (hh : k.holder l = some k.current)
    (hall : ∀ w ∈ k.condWaiters c, k.waiters (.waiter w) ≠ []) :
    (k.condWaiters c = [] → step .run k = some (k.popped st)) ∧
    (k.condWaiters c ≠ [] → ∃ k₁ k₂ w t, step .run k = some k₁ ∧ step .run k₁ = some k₂ ∧
      k.waiters (.waiter w) = [t] ∧ Wakes k t k₂ ∧
      (∀ w' ∈ k.condWaiters c, ∀ u ∈ k.waiters (.waiter w'), k.priority u ≤ k.priority t) ∧
      List.Perm (w :: k₂.condWaiters c) (k.condWaiters c) ∧
      ∀ w' ∈ k₂.condWaiters c, k₂.waiters (.waiter w') = k.waiters (.waiter w')) := by
  have hk := reachable_consistent hr
  have hsig := step_condvarSignal hcode hh
  refine ⟨fun he => by rw [hsig, if_pos he], fun hne => ?_⟩
  obtain ⟨sorted, w, t, hs, hw, ht, hmax⟩ := exists_signalled hne hall
  rw [if_neg hne, hs, Option.bind_some, hw, Option.bind_some] at hsig
  have hsole := hk.sole_waiter (List.mem_of_head? ht)
  obtain ⟨k₂, sorted', t', hstep, hs', ht', hws, hcond, hwakes⟩ :=
    (hk.step hsig).step_semaphoreUp (Kernel.push_code ..) (by exact hsole ▸ List.cons_ne_nil t [])
  obtain rfl : t' = t := by
    have hmem : t' ∈ k.waiters (.waiter w) :=
      (listSort_perm hs').subset (List.mem_of_getLast? ht')
    rwa [hsole, List.mem_singleton] at hmem
  have hperm : List.Perm (w :: k₂.condWaiters c) (k.condWaiters c) := by
    obtain ⟨init, rfl⟩ := List.getLast?_eq_some_iff.mp hw
    rw [hcond]
    simp only [Kernel.push, Function.update_self, List.dropLast_concat]
    exact (List.perm_append_singleton w init).symm.trans (listSort_perm hs)
  refine ⟨_, k₂, w, t', hsig, hstep, hsole, hwakes, fun w' hw' u hu => ?_, hperm,
    fun w' hw' => ?_⟩
  · exact hmax w' hw' u (by rw [hk.sole_waiter hu, List.head?_cons])
  · obtain ⟨h, hr⟩ := hr
    have hnd := hperm.nodup_iff.mpr ((run_delivery hr).1.nodup c)
    have hne' : w' ≠ w := by
      rintro rfl
      exact (List.nodup_cons.mp hnd).1 hw'
    rw [hws]
    exact Function.update_of_ne (by simpa using hne') ..

/-- Two threads of priority `40` sleep on the condition variable. -/
theorem condvar_signal_wakes_two : ∃ k k₂ t, Reachable step coop (boot fun _ => 0) k ∧
    k.code = [.condvarSignal 0 (.user 0)] ∧ (k.condWaiters 0).length = 2 ∧
    Reachable step coop (boot fun _ => 0) k₂ ∧ Wakes k t k₂ ∧ (k₂.condWaiters 0).length = 1 := by
  have hex : (execute step signalTwo (boot fun _ => 0)).any fun k =>
      k.code = [.condvarSignal 0 (.user 0)] ∧ k.holder (.user 0) = some k.current ∧
      (k.condWaiters 0).length = 2 ∧ ∀ w ∈ k.condWaiters 0, k.waiters (.waiter w) ≠ [] := by
    decide +kernel
  obtain ⟨k, hk, he⟩ := (Option.any_eq_true _ _).mp hex
  obtain ⟨hcode, hh, hlen, hall⟩ := of_decide_eq_true he
  have hr := execute_reachable (G := coop)
    (coop_of_call_run (by simp [signalTwo, Call.steps])) .refl hk
  have hne : k.condWaiters 0 ≠ [] := by
    rintro he
    rw [he] at hlen
    cases hlen
  obtain ⟨k₁, k₂, w, t, h₁, h₂, -, hwakes, -, hperm, -⟩ :=
    (condvar_signal_wakes hr hcode hh hall).2 hne
  have hcoop (k : Kernel) : coop k .run := trivial
  refine ⟨k, k₂, t, hr, hcode, hlen, (hr.tail (hcoop k) h₁).tail (hcoop k₁) h₂, hwakes, ?_⟩
  have hlen' := hperm.length_eq
  rw [hlen, List.length_cons] at hlen'
  omega

end CSE130.Lab2
