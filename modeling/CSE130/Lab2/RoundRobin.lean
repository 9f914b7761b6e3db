import CSE130.Lab2.ThreadLists

/-! # Who is dispatched while a thread waits

`next_thread_to_run` sorts the ready list by priority and takes its back.  A thread that yields
enters the list at the front, a thread that is unblocked enters it at the back, and sorting keeps
the order of equal priorities.  So the threads ahead of a thread `T` of maximal priority are those
behind it in the list, and only `thread_unblock` can put one there.

`watch T` is the machine together with the list of the threads that have been dispatched since
`T` waits.  As long as nobody on that list is unblocked, nobody is dispatched twice
(`round_robin`). -/

namespace CSE130.Lab2

open Function (update)
open KernelList
open Transition

variable {k k' k₁ : Kernel} {f : Frame} {a : Action} {T : Thread}

/-! ### Calls of `thread_unblock` and `schedule` -/

namespace Kernel

variable (k)

/-- The thread that `f` passes to `thread_unblock`. -/
def unblocked : Frame → Option Thread
  | .semaphoreUp s => (listSort k.threadPriorityLess (k.waiters s)).bind List.getLast?
  | .threadCreateUnblock t => some t
  | _ => none

/-- `f` calls `schedule()`. -/
def schedules : Frame → Bool
  | .semaphoreDown s | .semaphoreDownLoop s => k.value s = 0
  | .semaphoreUp s =>
      (k.unblocked (.semaphoreUp s)).any fun w => k.priority k.current < k.priority w
  | .threadCreatePreempt t => k.priority k.current < k.priority t
  | .threadSetPriorityPreempt n g => (k.readyMaxPriority g).any fun m => n < m
  | .threadYield | .threadExit | .idle => true
  | _ => false

end Kernel

/-- The waiter that `semaphore_up` takes from the back of the sorted list. -/
theorem unblocked_semaphoreUp (k : Kernel) (s : Semaphore) : k.unblocked (.semaphoreUp s) =
    (listSort k.threadPriorityLess (k.waiters s)).bind List.getLast? := rfl

/-- The statement that a step executes; the timer interrupt calls `thread_yield`. -/
def Action.frame (a : Action) (k : Kernel) : Option Frame :=
  match a with
  | .run => k.code.head?
  | .timer => some .threadYield
  | _ => none

/-- `T` is READY, and no ready or running thread has a higher priority.  `ready_list` is the list
of the threads that are READY; the idle thread is never on it. -/
def AwaitsTurn (k : Kernel) (T : Thread) : Prop :=
  T ∈ k.readyList ∧ ∀ u < k.threads, k.status u = .ready ∨ k.status u = .running →
    k.priority u ≤ k.priority T

instance : Decidable (AwaitsTurn k T) := by
  unfold AwaitsTurn
  infer_instance

/-- The kernel, and the threads that have been dispatched since a thread waits. -/
structure Watched where
  kernel : Kernel
  served : List Thread

/-- A step, which adds the thread that `schedule()` switches to. -/
def watch (T : Thread) (a : Action) (w : Watched) : Option Watched := do
  let k ← step a w.kernel
  let next := if (a.frame w.kernel).any w.kernel.schedules then [k.current] else []
  some ⟨k, if AwaitsTurn k T then w.served ++ next else []⟩

/-- Nobody who has been dispatched since then is unblocked. -/
def UnblocksFresh (w : Watched) (a : Action) : Prop :=
  ∀ u ∈ (a.frame w.kernel).bind w.kernel.unblocked, u ∉ w.served

instance (w : Watched) : Decidable (UnblocksFresh w a) := by
  unfold UnblocksFresh
  infer_instance

/-! ### What a step does to the ready list -/

/-- The unblocked thread `w` enters the ready list at the back.  Where `schedule()` is called, the
running thread may have entered it at the front. -/
inductive Reorders (k : Kernel) (w : Option Thread) (k' : Kernel) : Bool → Prop
  | stay : k'.readyList = k.readyList ++ w.toList → Reorders k w k' false
  | switch {k₁ : Kernel} (front : List Thread) :
      k₁.readyList = front ++ (k.readyList ++ w.toList) → k₁.schedule = some k' →
      Reorders k w k' true

theorem threadYield_reorders {w : Option Thread} (hr : k₁.readyList = k.readyList ++ w.toList)
    (h : k₁.threadYield = some k') : Reorders k w k' true := by
  unfold Kernel.threadYield at h
  by_cases hi : k₁.current = k₁.idleThread
  · refine .switch [] ?_ h
    dsimp only
    rw [if_pos hi, hr, List.nil_append]
  · refine .switch [k₁.current] ?_ h
    dsimp only
    rw [if_neg hi, hr, List.singleton_append]

theorem semaphoreDown_reorders {s : Semaphore} (h : k.semaphoreDown s = some k') :
    Reorders k none k' (k.value s = 0) := by
  unfold Kernel.semaphoreDown at h
  split at h
  · rename_i hv
    rw [decide_eq_true hv]
    exact .switch [] (by simp [Kernel.push]) h
  · rename_i hv
    cases h
    rw [decide_eq_false hv]
    exact .stay (by simp)

theorem semaphoreUp_reorders {s : Semaphore} (h : k.semaphoreUp s = some k') :
    Reorders k (k.unblocked (.semaphoreUp s)) k' (k.schedules (.semaphoreUp s)) := by
  unfold Kernel.semaphoreUp at h
  dsimp only at h
  split at h
  · rename_i hw
    cases h
    have hnone : k.unblocked (.semaphoreUp s) = none := by
      rw [unblocked_semaphoreUp, hw]
      rfl
    rw [Kernel.schedules, hnone, Option.any_none]
    exact .stay (by simp)
  · simp only [Option.bind_eq_bind, Option.bind_eq_some_iff] at h
    obtain ⟨sorted, hs, w, hw, k₁, hu, h⟩ := h
    have hsome : k.unblocked (.semaphoreUp s) = some w := by
      have hs' : listSort k.threadPriorityLess (k.waiters s) = some sorted := hs
      rw [unblocked_semaphoreUp, hs', Option.bind_some, hw]
    rw [Kernel.schedules, hsome, Option.any_some]
    unfold Kernel.threadUnblock at hu
    split at hu
    · cases hu
      split at h
      · rename_i hp
        rw [decide_eq_true hp]
        exact threadYield_reorders rfl h
      · rename_i hp
        cases h
        rw [decide_eq_false hp]
        exact .stay rfl
    · cases hu

theorem exec_reorders (h : exec f k = some k') :
    Reorders k (k.unblocked f) k' (k.schedules f) := by
  cases f with
  | semaphoreDown s => exact semaphoreDown_reorders h
  | semaphoreDownLoop s => exact semaphoreDown_reorders h
  | semaphoreUp s => exact semaphoreUp_reorders h
  | threadCreateUnblock t =>
      cases exec_inv h with
      | unblock => exact .stay rfl
      | take hf => exact absurd hf (by simp)
      | switch hp =>
          cases hp with
          | block hf => exact absurd hf (by simp)
  | threadCreatePreempt t =>
      simp only [exec] at h
      rw [Kernel.schedules]
      split at h
      · rename_i hp
        rw [decide_eq_true hp]
        exact threadYield_reorders (by simp [Kernel.unblocked]) h
      · rename_i hp
        cases h
        rw [decide_eq_false hp]
        exact .stay (by simp [Kernel.unblocked])
  | threadSetPriorityPreempt n g =>
      simp only [exec, Option.bind_eq_bind, Option.bind_eq_some_iff] at h
      obtain ⟨m, hm, h⟩ := h
      rw [Kernel.schedules, hm, Option.any_some]
      split at h
      · rename_i hp
        rw [decide_eq_true hp]
        exact threadYield_reorders (by simp [Kernel.unblocked]) h
      · rename_i hp
        cases h
        rw [decide_eq_false hp]
        exact .stay (by simp [Kernel.unblocked])
  | threadYield => exact threadYield_reorders (by simp [Kernel.unblocked]) h
  | threadExit => exact .switch [] (by simp [Kernel.unblocked]) h
  | idle => exact .switch [] (by simp [Kernel.unblocked, Kernel.push]) h
  | _ =>
      -- nothing is unblocked, and no switch starts from these statements
      cases exec_inv h with
      | take hf => exact absurd hf (by simp)
      | switch hp =>
          cases hp with
          | block hf => exact absurd hf (by simp)
      | _ => exact .stay (List.append_nil k.readyList).symm

theorem Reorders.of_popped {st : List Frame}
    (h : Reorders (k.popped st) ((k.popped st).unblocked f) k' ((k.popped st).schedules f)) :
    Reorders k (k.unblocked f) k' (k.schedules f) := by
  have hu : (k.popped st).unblocked f = k.unblocked f := rfl
  have hs : (k.popped st).schedules f = k.schedules f := rfl
  rw [hu, hs] at h
  generalize k.unblocked f = w, k.schedules f = b at h ⊢
  cases h with
  | stay hr => exact .stay hr
  | switch front hr hsch => exact .switch front hr hsch

theorem step_reorders (h : step a k = some k') :
    Reorders k ((a.frame k).bind k.unblocked) k' ((a.frame k).any k.schedules) := by
  cases a with
  | call c =>
      cases step_inv h
      exact .stay (List.append_nil k.readyList).symm
  | run =>
      obtain ⟨f, st, hcode, -⟩ := stepRun_inv h
      have hframe : Action.frame .run k = some f := by
        rw [Action.frame, hcode, List.head?_cons]
      rw [hframe, Option.bind_some, Option.any_some]
      simp only [step, stepRun, hcode] at h
      exact .of_popped (exec_reorders h)
  | timer =>
      simp only [step] at h
      split at h
      · cases h
      · exact threadYield_reorders (List.append_nil k.readyList).symm h
  | race d p =>
      cases h
      exact .stay (List.append_nil k.readyList).symm

/-! ### Who is ahead of `T` -/

theorem schedule_sorted (h : k₁.schedule = some k') (hne : k'.readyList ≠ []) :
    listSort k₁.threadPriorityLess k₁.readyList = some (k'.readyList ++ [k'.current]) ∧
      k'.priority = k₁.priority := by
  simp only [Kernel.schedule, Kernel.nextThreadToRun, Option.bind_eq_bind,
    Option.bind_eq_some_iff, Option.some.injEq] at h
  obtain ⟨⟨t, ready⟩, hn, rfl⟩ := h
  refine ⟨?_, rfl⟩
  split at hn
  · cases hn
    exact absurd rfl hne
  · simp only [Option.bind_eq_some_iff, Option.some.injEq, Prod.mk.injEq] at hn
    obtain ⟨sorted, hs, u, hu, rfl, rfl⟩ := hn
    obtain ⟨init, rfl⟩ := List.getLast?_eq_some_iff.mp hu
    rw [hs, List.dropLast_concat]

/-- The thread that is dispatched, and those that are ahead of `T` then, were ahead of `T`. -/
theorem schedule_ahead {l₁ l₂ : List Thread} (h : k₁.schedule = some k')
    (hr : k₁.readyList = l₁ ++ T :: l₂) (hk : Scheduled k') (hT : AwaitsTurn k' T) :
    ∃ s₁ s₂, k'.readyList = s₁ ++ T :: s₂ ∧ ∀ u ∈ k'.current :: s₂, u ∈ l₂ := by
  have hne : k'.readyList ≠ [] := List.ne_nil_of_mem hT.1
  obtain ⟨hs, hp⟩ := schedule_sorted h hne
  have hcur : k'.current ∉ k'.readyList := fun hmem => by
    have hready := hk.ready _ hmem
    rw [hk.running] at hready
    cases hready
  have hc := threadPriorityLess_compares k₁ k₁.readyList
  have hperm := listSort_perm hs
  have hnd : (k'.readyList ++ [k'.current]).Nodup :=
    List.nodup_append.mpr ⟨hk.ready_nodup, List.nodup_singleton _, fun u hu v hv he =>
      hcur (List.mem_singleton.mp hv ▸ he ▸ hu)⟩
  have hstable := listSort_stable hc hs
  have hordered := listSort_ordered hc hs
  have hmax : ∀ u ∈ k₁.readyList, k₁.priority u ≤ k₁.priority T := by
    intro u hu
    rw [← hp]
    rcases List.mem_append.mp (hperm.mem_iff.mpr hu) with hu | hu
    · exact hT.2 u (hk.ready_lt u hu) (.inl (hk.ready u hu))
    · rw [List.mem_singleton.mp hu]
      exact hT.2 _ hk.current_lt (.inr hk.running)
  rw [hr] at hstable hperm hmax
  obtain ⟨s₁, s₂, hsplit, hsub⟩ := hstable.behind hordered hperm (hperm.nodup_iff.mp hnd) hmax
  -- `T` is not the back: it is still ready
  rcases List.eq_nil_or_concat s₂ with rfl | ⟨s₂, x, rfl⟩
  · obtain ⟨-, he⟩ := List.append_inj' hsplit rfl
    rw [List.cons.injEq] at he
    exact absurd hT.1 (he.1 ▸ hcur)
  · rw [List.concat_eq_append, ← List.cons_append, ← List.append_assoc] at hsplit
    obtain ⟨hready, he⟩ := List.append_inj' hsplit rfl
    rw [List.cons.injEq] at he
    refine ⟨s₁, s₂, hready, fun u hu => hsub ?_⟩
    rw [List.concat_eq_append, List.mem_append, List.mem_singleton, ← he.1]
    exact (List.mem_cons.mp hu).symm

/-! ### Runs -/

/-- Nobody has been dispatched twice since `T` waits, and nobody who has been dispatched is ahead
of it. -/
structure Fair (T : Thread) (w : Watched) : Prop where
  once : w.served.Nodup
  ahead : w.served = [] ∨
    ∃ l₁ l₂, w.kernel.readyList = l₁ ++ T :: l₂ ∧ ∀ u ∈ l₂, u ∉ w.served

/-- Threads that enter the list at the front are not ahead of `T`; the one at the back is fresh. -/
theorem Fair.reordered {w : Watched} {l : List Thread} {x : Option Thread} (hw : Fair T w)
    (front : List Thread) (hl : l = front ++ (w.kernel.readyList ++ x.toList)) (hT : T ∈ l)
    (hx : ∀ u ∈ x, u ∉ w.served) : ∃ l₁ l₂, l = l₁ ++ T :: l₂ ∧ ∀ u ∈ l₂, u ∉ w.served := by
  rcases hw.ahead with he | ⟨l₁, l₂, hr, hahead⟩
  · obtain ⟨l₁, l₂, hsplit⟩ := List.append_of_mem hT
    exact ⟨l₁, l₂, hsplit, fun u _ => by rw [he]; exact List.not_mem_nil⟩
  · refine ⟨front ++ l₁, l₂ ++ x.toList, ?_, fun u hu => ?_⟩
    · rw [hl, hr]
      simp
    · rcases List.mem_append.mp hu with hu | hu
      · exact hahead u hu
      · exact hx u (Option.mem_toList.mp hu)

theorem fair_step {w w' : Watched} (hk' : Scheduled w'.kernel) (hw : Fair T w)
    (hf : UnblocksFresh w a) (h : watch T a w = some w') : Fair T w' := by
  simp only [watch, Option.bind_eq_bind, Option.bind_eq_some_iff, Option.some.injEq] at h
  obtain ⟨k', hs, rfl⟩ := h
  by_cases hT : AwaitsTurn k' T
  swap
  · rw [if_neg hT]
    exact ⟨List.nodup_nil, .inl rfl⟩
  rw [if_pos hT]
  have hr := step_reorders hs
  unfold UnblocksFresh at hf
  generalize (a.frame w.kernel).bind w.kernel.unblocked = x,
    (a.frame w.kernel).any w.kernel.schedules = b at hr hf ⊢
  cases hr with
  | stay hr =>
      rw [if_neg Bool.false_ne_true, List.append_nil]
      obtain ⟨l₁, l₂, hsplit, hahead⟩ := hw.reordered [] hr hT.1 hf
      exact ⟨hw.once, .inr ⟨l₁, l₂, hsplit, hahead⟩⟩
  | @switch k₁ front hr hsch =>
      rw [if_pos rfl]
      have hmem : T ∈ k₁.readyList := by
        obtain ⟨t, ready, hn, rfl⟩ := schedule_spec hsch
        exact hn.mem hT.1
      obtain ⟨l₁, l₂, hsplit, hahead⟩ := hw.reordered front hr hmem hf
      obtain ⟨s₁, s₂, hready, hsub⟩ := schedule_ahead hsch hsplit hk' hT
      have hcur : k'.current ∉ w.served := hahead _ (hsub _ List.mem_cons_self)
      refine ⟨?_, .inr ⟨s₁, s₂, hready, fun u hu hserved => ?_⟩⟩
      · exact List.nodup_append.mpr ⟨hw.once, List.nodup_singleton _, fun u hu v hv he =>
          hcur (List.mem_singleton.mp hv ▸ he ▸ hu)⟩
      · rcases List.mem_append.mp hserved with hserved | hserved
        · exact hahead u (hsub u (List.mem_cons_of_mem _ hu)) hserved
        · have hur : u ∈ k'.readyList := hready ▸
            List.mem_append_right _ (List.mem_cons_of_mem _ hu)
          have hstatus := hk'.ready u hur
          rw [List.mem_singleton.mp hserved, hk'.running] at hstatus
          cases hstatus

theorem watch_reachable {G : Watched → Action → Prop} {v : ℕ → BitVec 32} {w : Watched}
    (hr : Reachable (watch T) G ⟨boot v, []⟩ w) : Reachable step anyAction (boot v) w.kernel := by
  refine hr.invariant (I := fun w => Reachable step anyAction (boot v) w.kernel) .refl
    fun w a w' _ hw _ hs => ?_
  simp only [watch, Option.bind_eq_bind, Option.bind_eq_some_iff, Option.some.injEq] at hs
  obtain ⟨k', hs, rfl⟩ := hs
  exact hw.tail (a := a) trivial hs

/-- **Round robin.**  If no thread that has been dispatched since `T` waits is unblocked, then no
thread is dispatched twice while `T` waits. -/
theorem round_robin {v : ℕ → BitVec 32} {w : Watched}
    (hr : Reachable (watch T) UnblocksFresh ⟨boot v, []⟩ w) : w.served.Nodup := by
  have hfair : Fair T w := by
    refine hr.invariant (I := Fair T) ⟨List.nodup_nil, .inl rfl⟩ fun w a w' hr hw hf hs => ?_
    have hk' := reachable_consistent (watch_reachable (hr.tail hf hs))
    exact fair_step hk'.threads hw hf hs
  exact hfair.once

/-- The initial thread creates three threads of its priority, and two time slices end. -/
def slices : List Action :=
  Call.steps (.threadCreate 31) 11 ++ Call.steps (.threadCreate 31) 11 ++
    Call.steps (.threadCreate 31) 11 ++ [.timer, .timer]

theorem round_robin_slices : ∃ w, Reachable (watch 2) UnblocksFresh ⟨boot fun _ => 0, []⟩ w ∧
    w.served = [4, 3] ∧ w.kernel.readyList = [4, 0, 2] ∧ w.served.Nodup := by
  have hex : (execute (checked (fun w a => decide (UnblocksFresh w a)) (watch 2)) slices
      ⟨boot fun _ => 0, []⟩).any fun w =>
        w.served = [4, 3] ∧ w.kernel.readyList = [4, 0, 2] := by
    decide +kernel
  obtain ⟨w, hw, he⟩ := (Option.any_eq_true _ _).mp hex
  obtain ⟨hserved, hready⟩ := of_decide_eq_true he
  have hrun := (execute_run (G := fun _ _ => True) (fun _ _ _ => trivial) Run.nil hw).of_checked
  have hr : Reachable (watch 2) UnblocksFresh ⟨boot fun _ => 0, []⟩ w :=
    ⟨_, hrun.mono fun _ _ h => of_decide_eq_true h.1⟩
  exact ⟨w, hr, hserved, hready, round_robin hr⟩

/-- The initial thread and thread `3` wake each other and block, while thread `2` is ready. -/
def alternation : List Action :=
  Call.steps (.threadCreate 31) 11 ++ Call.steps (.threadCreate 31) 11 ++
    Call.steps (.semaphoreDown 0) 1 ++ Call.steps (.semaphoreUp 0) 1 ++
    Call.steps (.semaphoreDown 1) 1 ++ [.run] ++ Call.steps (.semaphoreUp 1) 1 ++
    Call.steps (.semaphoreDown 0) 1

theorem round_robin_alternation :
    ∃ w, Reachable (watch 2) (fun _ _ => True) ⟨boot fun _ => 0, []⟩ w ∧
      w.served = [3, 0, 3] ∧ w.kernel.status 2 = .ready ∧ AwaitsTurn w.kernel 2 ∧
      w.kernel.priority 3 = w.kernel.priority 2 ∧ ¬ w.served.Nodup := by
  have hex : (execute (watch 2) alternation ⟨boot fun _ => 0, []⟩).any fun w =>
      w.served = [3, 0, 3] ∧ w.kernel.status 2 = .ready ∧ AwaitsTurn w.kernel 2 ∧
        w.kernel.priority 3 = w.kernel.priority 2 := by
    decide +kernel
  obtain ⟨w, hw, he⟩ := (Option.any_eq_true _ _).mp hex
  obtain ⟨hserved, hready, hwaits, hp⟩ := of_decide_eq_true he
  refine ⟨w, execute_reachable (fun _ _ _ => trivial) .refl hw, hserved, hready, hwaits, hp, ?_⟩
  rw [hserved]
  decide

end CSE130.Lab2
