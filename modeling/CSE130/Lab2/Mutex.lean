import CSE130.Lab2.Semaphores

/-! # Mutual exclusion of locks

`owners l h` are the threads that, by the history `h`, have completed the `semaphore_down` of a
`lock_acquire(l)` and not yet executed the `semaphore_up` of the `lock_release(l)` that follows.
The main result (`lock_mutual_exclusion`): there is at most one, whatever the order of the
steps.  The invariant behind it (`Guarded`) says that the value of the lock's semaphore and the
owner make up one unit, and that the `holder` field or the place of a thread inside the lock
functions betrays the owner. -/

namespace CSE130.Lab2

open Function (update)
open Transition

variable {k k' : Kernel} {f : Frame} {fs st : List Frame} {l : Lock} {t : Thread}
  {v : ℕ → BitVec 32} {h : List Event} {a : Action}

/-- The threads between the `semaphore_down` of `lock_acquire(l)` and the `semaphore_up` of
`lock_release(l)`. -/
def owners (l : Lock) : List Event → List Thread
  | [] => []
  | e :: h =>
      if completesDown (.lock l) e then e.1.current :: owners l h
      else if performsUp (.lock l) e then (owners l h).erase e.1.current
      else owners l h

/-- The next statement is one that only the owner of `l` executes with `holder` still or again
`NULL`. -/
def Inside (l : Lock) (st : List Frame) : Prop :=
  ∃ st', st = .lockAcquireHold l :: st' ∨ st = .lockReleaseRevoke l :: st' ∨
    st = .semaphoreUp (.lock l) :: st'

/-- One unit: it is the value of the semaphore, or it belongs to the owner. -/
structure Guarded (l : Lock) (h : List Event) (k : Kernel) : Prop where
  unit : k.value (.lock l) + (owners l h).length = 1
  holder : ∀ t, k.holder l = some t → owners l h = [t]
  inside : ∀ t, Inside l (k.stack t) → owners l h = [t] ∧ k.holder l = none

theorem Exec.holder (hx : Exec f k k') :
    (∃ l, f = .lockAcquireHold l ∧ k'.holder = update k.holder l (some k.current)) ∨
    (∃ l, f = .lockRelease l ∧ k.holder l = some k.current ∧
      k'.holder = update k.holder l none) ∨
    ((∀ l, f ≠ .lockAcquireHold l ∧ f ≠ .lockRelease l) ∧ k'.holder = k.holder) := by
  cases hx with
  | hold => exact .inl ⟨_, rfl, rfl⟩
  | release hh => exact .inr (.inl ⟨_, rfl, hh, rfl⟩)
  | take h => exact .inr (.inr ⟨fun l => by rcases h with rfl | rfl <;> exact ⟨nofun, nofun⟩, rfl⟩)
  | switch hp =>
      cases hp with
      | block h =>
          exact .inr (.inr ⟨fun l => by rcases h with rfl | rfl <;> exact ⟨nofun, nofun⟩, rfl⟩)
      | _ => exact .inr (.inr ⟨fun l => ⟨nofun, nofun⟩, rfl⟩)
  | _ => exact .inr (.inr ⟨fun l => ⟨nofun, nofun⟩, rfl⟩)

theorem reachable_holder_lt {G : Kernel → Action → Prop} (hr : Reachable step G (boot v) k) :
    ∀ l t, k.holder l = some t → t < k.threads := by
  refine hr.invariant (I := fun k => ∀ l t, k.holder l = some t → t < k.threads) nofun
    fun k a k' hr hi _ hs l t ht => ?_
  have hk := reachable_consistent hr
  cases step_inv hs with
  | @run _ _ f st hcode hx =>
      have hle : k.threads ≤ k'.threads := hx.counters.2.2.1
      rcases hx.holder with ⟨l', -, hh⟩ | ⟨l', -, -, hh⟩ | ⟨-, hh⟩
      · rw [hh, Function.update_apply] at ht
        split at ht
        · cases ht
          exact hk.threads.current_lt.trans_le hle
        · exact (hi l t ht).trans_le hle
      · rw [hh, Function.update_apply] at ht
        split at ht
        · cases ht
        · exact (hi l t ht).trans_le hle
      · rw [hh] at ht
        exact (hi l t ht).trans_le hle
  | _ => exact hi l t ht

theorem Outer.not_inside (ho : Outer st) : ¬ Inside l st := by
  rintro ⟨st', hi⟩
  obtain rfl | ⟨f, rfl, hf⟩ := ho
  · simp at hi
  · rcases hi with hi | hi | hi <;> cases hi <;> exact hf

/-- The statements after which the running thread is at one of these places. -/
theorem Flow.inside (hf : Flow k f fs) (hw : WellStacked (f :: st)) (hi : Inside l (fs ++ st)) :
    f.downs = some (.lock l) ∧ fs = [] ∨ f = .lockRelease l ∨ f = .lockReleaseRevoke l := by
  cases hf with
  | ret hne =>
      rw [List.nil_append] at hi
      cases f with
      | semaphoreDown s | semaphoreDownLoop s =>
          cases s with
          | sema i =>
              have hnil : st = [] := hw
              exact (Outer.not_inside (.inl hnil) hi).elim
          | lock l' =>
              obtain ⟨st', rfl, -⟩ := hw
              obtain ⟨st'', hi | hi | hi⟩ := hi <;> cases hi
              exact .inl ⟨rfl, rfl⟩
          | waiter w =>
              obtain ⟨l', rfl⟩ := hw
              exact (Outer.not_inside (.inr ⟨.condvarWaitAcquire l' w, rfl, trivial⟩) hi).elim
      | donate l' | donateNext l' =>
          obtain ⟨_, st', rfl, -⟩ := hw
          obtain ⟨st'', hi | hi | hi⟩ := hi <;> cases hi
      | _ => exact (hw.2.not_inside hi).elim
  | release l' =>
      obtain ⟨st', hi | hi | hi⟩ := hi <;> cases hi
      exact .inr (.inl rfl)
  | revoke l' =>
      obtain ⟨st', hi | hi | hi⟩ := hi <;> cases hi
      exact .inr (.inr rfl)
  | _ => obtain ⟨st', hi | hi | hi⟩ := hi <;> cases hi

theorem boot_guarded (v : ℕ → BitVec 32) (l : Lock) : Guarded l [] (boot v) where
  unit := rfl
  holder := nofun
  inside t hi := by
    simp only [boot] at hi
    split at hi
    · obtain ⟨st', hi | hi | hi⟩ := hi <;> cases hi
    · exact (Outer.not_inside (.inl rfl) hi).elim

namespace Guarded

theorem other (hg : Guarded l h k) (hv : k'.value (.lock l) = k.value (.lock l))
    (hh : k'.holder l = k.holder l)
    (hi : ∀ t, Inside l (k'.stack t) → Inside l (k.stack t))
    (ho : owners l ((k, a) :: h) = owners l h) : Guarded l ((k, a) :: h) k' where
  unit := by
    rw [hv, ho]
    exact hg.unit
  holder t ht := by
    rw [ho]
    exact hg.holder t (hh ▸ ht)
  inside t ht := by
    rw [ho, hh]
    exact hg.inside t (hi t ht)

/-- While the semaphore has its unit, there is no owner and no holder. -/
theorem free (hg : Guarded l h k) (hv : k.value (.lock l) ≠ 0) :
    owners l h = [] ∧ k.holder l = none := by
  have hunit := hg.unit
  have hnil : owners l h = [] := List.eq_nil_of_length_eq_zero (by omega)
  refine ⟨hnil, Option.eq_none_iff_forall_ne_some.mpr fun t ht => ?_⟩
  rw [hg.holder t ht] at hnil
  cases hnil

/-- A completed `semaphore_down` gives the unit to the running thread. -/
theorem take (hg : Guarded l h k) (hne : k.value (.lock l) ≠ 0)
    (hv : k'.value (.lock l) = k.value (.lock l) - 1) (hh : k'.holder l = k.holder l)
    (hi : ∀ t, Inside l (k'.stack t) → t = k.current ∨ Inside l (k.stack t))
    (ho : owners l ((k, a) :: h) = k.current :: owners l h) : Guarded l ((k, a) :: h) k' := by
  have hunit := hg.unit
  obtain ⟨hnil, hnone⟩ := hg.free hne
  rw [hnil, List.length_nil] at hunit
  rw [hnil] at ho
  refine ⟨by rw [ho, List.length_singleton]; omega, fun t ht => ?_, fun t ht => ?_⟩
  · rw [hh, hnone] at ht
    cases ht
  · rcases hi t ht with rfl | ht
    · exact ⟨ho, hh.trans hnone⟩
    · rw [(hg.inside t ht).1] at hnil
      cases hnil

theorem give (hg : Guarded l h k) (hin : Inside l (k.stack k.current))
    (hv : k'.value (.lock l) = (k.value (.lock l) + 1) % unsignedSize)
    (hh : k'.holder l = k.holder l)
    (hi : ∀ t, Inside l (k'.stack t) → t ≠ k.current ∧ Inside l (k.stack t))
    (ho : owners l ((k, a) :: h) = (owners l h).erase k.current) :
    Guarded l ((k, a) :: h) k' := by
  obtain ⟨hown, hnone⟩ := hg.inside _ hin
  have hunit := hg.unit
  rw [hown, List.length_singleton] at hunit
  have hz : k.value (.lock l) = 0 := by omega
  rw [hz] at hv
  rw [hown, List.erase_cons_head] at ho
  refine ⟨by rw [hv, ho]; rfl, fun t ht => ?_, fun t ht => ?_⟩
  · rw [hh, hnone] at ht
    cases ht
  · obtain ⟨hne, ht⟩ := hi t ht
    rw [(hg.inside t ht).1] at hown
    cases hown
    exact (hne rfl).elim

theorem hold (hg : Guarded l h k) (hin : Inside l (k.stack k.current))
    (hv : k'.value (.lock l) = k.value (.lock l)) (hh : k'.holder l = some k.current)
    (hi : ∀ t, Inside l (k'.stack t) → t ≠ k.current ∧ Inside l (k.stack t))
    (ho : owners l ((k, a) :: h) = owners l h) : Guarded l ((k, a) :: h) k' := by
  have hown := (hg.inside _ hin).1
  refine ⟨by rw [hv, ho]; exact hg.unit, fun t ht => ?_, fun t ht => ?_⟩
  · rw [hh] at ht
    cases ht
    exact ho.trans hown
  · obtain ⟨hne, ht⟩ := hi t ht
    rw [(hg.inside t ht).1] at hown
    cases hown
    exact (hne rfl).elim

theorem release (hg : Guarded l h k) (hcur : k.holder l = some k.current)
    (hv : k'.value (.lock l) = k.value (.lock l)) (hh : k'.holder l = none)
    (hi : ∀ t, Inside l (k'.stack t) → t = k.current ∨ Inside l (k.stack t))
    (ho : owners l ((k, a) :: h) = owners l h) : Guarded l ((k, a) :: h) k' := by
  refine ⟨by rw [hv, ho]; exact hg.unit, fun t ht => ?_, fun t ht => ?_⟩
  · rw [hh] at ht
    cases ht
  · rcases hi t ht with rfl | ht
    · exact ⟨ho.trans (hg.holder _ hcur), hh⟩
    · rw [(hg.inside t ht).2] at hcur
      cases hcur

theorem exec (hg : Guarded l h k) (hk : Consistent k) (hcode : k.code = f :: st)
    (hx : Exec f (k.popped st) k') : Guarded l ((k, .run) :: h) k' := by
  obtain ⟨fs, hf, hst⟩ := hx.flow (hk.control.fresh _ le_rfl) hk.threads.current_lt.ne
  have hwell : WellStacked (f :: st) := hcode ▸ hk.control.shape k.current
  have hcur {g : Frame} (hg : f = g) : k.stack k.current = g :: st := hg ▸ hcode
  -- who is inside after the statement
  have hi (t : Thread) (ht : Inside l (k'.stack t)) : (t ≠ k.current ∧ Inside l (k.stack t)) ∨
      (t = k.current ∧
        (f.downs = some (.lock l) ∨ f = .lockRelease l ∨ f = .lockReleaseRevoke l)) := by
    rw [hst, Function.update_apply] at ht
    split at ht
    · rename_i he
      exact .inr ⟨he, (hf.inside hwell ht).imp_left And.left⟩
    · rename_i he
      exact .inl ⟨he, ht⟩
  have hi₁ (t : Thread) (ht : Inside l (k'.stack t)) : t = k.current ∨ Inside l (k.stack t) := by
    rcases hi t ht with ⟨-, ht⟩ | ⟨ht, -⟩
    · exact .inr ht
    · exact .inl ht
  have hi₂ (hd : f.downs ≠ some (.lock l)) (hr : f ≠ .lockRelease l)
      (hr' : f ≠ .lockReleaseRevoke l) (t : Thread) (ht : Inside l (k'.stack t)) :
      t ≠ k.current ∧ Inside l (k.stack t) := by
    rcases hi t ht with ht | ⟨-, h | h | h⟩
    · exact ht
    · exact (hd h).elim
    · exact (hr h).elim
    · exact (hr' h).elim
  have hval : (∀ s, f.downs ≠ some s ∧ f.ups ≠ some s) →
      k'.value (.lock l) = k.value (.lock l) ∧ owners l ((k, .run) :: h) = owners l h := by
    intro hne
    refine ⟨?_, ?_⟩
    · cases hx.outcome (.lock l) with
      | take h' | wait h' => exact ((hne _).1 h').elim
      | upNone h' | up _ h' => exact ((hne _).2 h').elim
      | init _ h' => cases h'
      | none _ _ hv => exact hv
    · simp [owners, completesDown_run hcode, performsUp_run hcode, (hne (.lock l)).1,
        (hne (.lock l)).2]
  rcases hx.holder with ⟨l', rfl, hh⟩ | ⟨l', rfl, hheld, hh⟩ | ⟨hne, hh⟩
  · obtain ⟨hv, ho⟩ := hval fun _ => ⟨nofun, nofun⟩
    by_cases he : l' = l
    · subst he
      exact hg.hold ⟨st, .inl (hcur rfl)⟩ hv (by rw [hh, Function.update_self]; rfl)
        (hi₂ nofun nofun nofun) ho
    · exact hg.other hv (by rw [hh, Function.update_of_ne (Ne.symm he)]; rfl)
        (fun t ht => (hi₂ nofun nofun nofun t ht).2) ho
  · obtain ⟨hv, ho⟩ := hval fun _ => ⟨nofun, nofun⟩
    by_cases he : l' = l
    · subst he
      exact hg.release hheld hv (by rw [hh, Function.update_self]) hi₁ ho
    · exact hg.other hv (by rw [hh, Function.update_of_ne (Ne.symm he)]; rfl)
        (fun t ht => (hi₂ nofun (fun h => he (by injection h)) nofun t ht).2) ho
  · have hh : k'.holder l = k.holder l := by rw [hh]; rfl
    cases hx.outcome (.lock l) with
    | take hd hpos hv => 
        refine hg.take hpos hv hh hi₁ ?_
        have hpos : k.value (.lock l) ≠ 0 := hpos
        simp [owners, completesDown_run hcode, hd, hpos]
    | wait hd hz hv hw =>
        have hz : k.value (.lock l) = 0 := hz
        have hw : k'.waiters (.lock l) = k.current :: k.waiters (.lock l) := hw
        refine hg.other (hv.trans hz.symm) hh (fun t ht => ?_) ?_
        · rcases hi₁ t ht with rfl | ht
          · have hmem : k.current ∈ k'.waiters (.lock l) := hw ▸ List.mem_cons_self
            obtain ⟨-, st', hst'⟩ := (hk.exec hcode hx).threads.waiting _ _ hmem
            rw [hst'] at ht
            obtain ⟨st'', ht | ht | ht⟩ := ht <;> cases ht
          · exact ht
        · have hu : f.ups ≠ some (.lock l) := fun hu => by rw [Frame.eq_semaphoreUp hu] at hd; cases hd
          simp [owners, completesDown_run hcode, performsUp_run hcode, hz, hu]
    | upNone hu _ hv | up _ hu _ hv =>
        obtain rfl := Frame.eq_semaphoreUp hu
        refine hg.give ⟨st, .inr (.inr (hcur rfl))⟩ hv hh (hi₂ nofun nofun nofun) ?_
        simp [owners, completesDown_run hcode, performsUp_run hcode, Frame.downs, Frame.ups]
    | init _ h' => cases h'
    | none hd hu hv =>
        refine hg.other hv hh (fun t ht => ?_) ?_
        · rcases hi t ht with ⟨-, ht⟩ | ⟨rfl, h' | h' | h'⟩
          · exact ht
          · exact (hd h').elim
          · exact ((hne l).2 h').elim
          · exact ⟨st, .inr (.inl (hcur h'))⟩
        · simp [owners, completesDown_run hcode, performsUp_run hcode, hd, hu]

end Guarded

theorem run_guarded (hr : Run step anyAction (boot v) h k) (l : Lock) : Guarded l h k := by
  refine hr.invariant (boot_guarded v l) fun h k a k' hr hg _ hs => ?_
  cases step_inv hs with
  | call c hcode =>
      refine hg.other rfl rfl (fun t ht => ?_) rfl
      rw [Kernel.push_stack, Function.update_apply, hcode] at ht
      split at ht
      · obtain ⟨st', ht | ht | ht⟩ := ht <;> cases c <;> cases ht
      · exact ht
  | @run _ _ f st hcode hx =>
      exact hg.exec (reachable_consistent ⟨h, hr⟩) hcode hx
  | timer =>
      exact hg.other rfl rfl (fun _ ht => ht) rfl
  | race =>
      exact hg.other rfl rfl (fun _ ht => ht) rfl

/-- **Mutual exclusion.**  At every moment at most one thread owns the lock; the value of the
lock's semaphore is `0` or `1`, and `0` whenever there is an owner; and `holder`, if it is not
`NULL`, is the owner. -/
theorem lock_mutual_exclusion (hr : Run step anyAction (boot v) h k) (l : Lock) :
    (owners l h).length ≤ 1 ∧ (k.value (.lock l) = 0 ∨ k.value (.lock l) = 1) ∧
    (owners l h ≠ [] → k.value (.lock l) = 0) ∧
    (∀ t, k.holder l = some t → t ∈ owners l h) := by
  have hg := run_guarded hr l
  have hunit := hg.unit
  refine ⟨by omega, by omega, fun hne => ?_, fun t ht => ?_⟩
  · have := List.length_pos_iff.mpr hne
    omega
  · rw [hg.holder t ht]
    exact List.mem_singleton_self t

/-- The initial thread releases a lock that another thread waits for and takes it again before
the woken thread runs. -/
def barge : List Action :=
  Call.steps (.lockAcquire 0) 4 ++ Call.steps (.threadCreate 31) 11 ++
  Call.steps .threadYield 1 ++ Call.steps (.lockAcquire 0) 7 ++
  Call.steps (.lockRelease 0) 3 ++ Call.steps (.lockAcquire 0) 4

theorem lock_mutual_exclusion_barge : ∃ h k, Run step anyAction (boot fun _ => 0) h k ∧
    k.holder (.user 0) = some 0 ∧ k.readyList = [2] ∧
    k.stack 2 = [.semaphoreDownLoop (.lock (.user 0)), .lockAcquireHold (.user 0)] ∧
    (owners (.user 0) h).length ≤ 1 ∧ 0 ∈ owners (.user 0) h := by
  have hex : (execute step barge (boot fun _ => 0)).map
      (fun k => (k.holder (.user 0), k.readyList, k.stack 2)) = some (some 0, [2],
        [.semaphoreDownLoop (.lock (.user 0)), .lockAcquireHold (.user 0)]) := by
    decide +kernel
  obtain ⟨k, hk, he⟩ := Option.map_eq_some_iff.mp hex
  obtain ⟨hh, he⟩ := Prod.mk.inj he
  obtain ⟨hr, hs⟩ := Prod.mk.inj he
  have hrun := execute_run (G := anyAction) (fun _ _ _ => trivial) .nil hk
  obtain ⟨hlen, -, -, hin⟩ := lock_mutual_exclusion hrun (.user 0)
  exact ⟨_, k, hrun, hh, hr, hs, hlen, hin 0 hh⟩

end CSE130.Lab2
