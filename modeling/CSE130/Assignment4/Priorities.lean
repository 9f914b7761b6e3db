import CSE130.Assignment4.Scheduler
import CSE130.Lib.Comparator

/-! # The priority policies

`queue_sort` promises to sort by a comparator that is one: whose signs are those of a total preorder
on the queue (`Consistent`).  `thread_comparator` returns the difference of two unsigned priorities as
an `int`.  While the priorities of any two threads differ by less than `2 ^ 31` this is their
difference, and the policies pick the least number; once two differ by more, the thread that should
wait goes first (`priority_iff`). -/

namespace CSE130.Assignment4

open Transition Comparator
open Function (update)

variable {τ : Type} {lib : Queue ℕ} {c : Config τ} {now : ℤ} {st st' st₁ : State lib.Q τ}
  {w w' : World lib.Q τ} {a r : ℕ} {t u : τ}

/-! ### The comparator -/

/-- The priority of a thread. -/
def Config.priority (c : Config τ) (t : τ) : ℕ := (c.thread t).priority.toNat

/-- Any two priorities differ by less than `2 ^ 31`. -/
def Config.Close (c : Config τ) : Prop := ∀ t u, c.priority t < c.priority u + 2 ^ 31

theorem bmod_toNat_sub {x y : UInt32} (h : x.toNat < y.toNat + 2 ^ 31) (h' : y.toNat < x.toNat + 2 ^ 31) :
    Int.bmod (x - y).toNat (2 ^ 32) = (x.toNat : ℤ) - y.toNat := by
  have hx := x.toNat_lt
  have hy := y.toNat_lt
  have hsub := UInt32.toNat_sub x y
  have hdef := Int.bmod_def (x - y).toNat (2 ^ 32)
  omega

theorem threadComparator_of_close (h : c.Close) (st : State lib.Q τ) (a b : ℕ) :
    st.threadComparator c a b = (c.priority (st.wrappers a).t : ℤ) - c.priority (st.wrappers b).t :=
  bmod_toNat_sub (h _ _) (h _ _)

theorem pairwise_sortReady (hlib : lib.Sorts) (h : c.Close) (st : State lib.Q τ) :
    (lib.items (st.sortReady c).ready).Pairwise fun a b =>
      c.priority (st.wrappers a).t ≤ c.priority (st.wrappers b).t := by
  have hsorted := hlib st.ready _ (Consistent.of_key _ fun a _ b _ => threadComparator_of_close h st a b)
  refine hsorted.imp fun {a b} hab => ?_
  rw [threadComparator_of_close h] at hab
  omega

theorem implemented_of_priority
    (hc : c.algorithm = .preemptivePriority ∨ c.algorithm = .nonPreemptivePriority) :
    c.Implemented := by
  cases hc with
  | inl hc => exact .inr (.inr (.inr hc))
  | inr hc => exact .inr (.inr (.inl hc))

theorem ne_roundRobin
    (hc : c.algorithm = .preemptivePriority ∨ c.algorithm = .nonPreemptivePriority) :
    c.algorithm ≠ .roundRobin := by
  cases hc with
  | inl hc => simp [hc]
  | inr hc => simp [hc]

/-! ### What `tick` picks -/

theorem tick_of_ne (hc : c.algorithm ≠ .roundRobin) (hs : st.tick c now = some st') :
    (lib.items st.ready ≠ [] ∧ st.runThread c now = some st') ∨
      (lib.items st.ready = [] ∧ st'.ready = st.ready ∧ st'.dispatched = st.dispatched) := by
  unfold State.tick at hs
  obtain ⟨st₁, h₁, hst₁⟩ := Option.map_eq_some_iff.mp hs
  have hsame : st₁ = st' := by
    cases hr : st₁.running with
    | none =>
        rw [hr] at hst₁
        exact hst₁
    | some r =>
        rw [hr] at hst₁
        exact (if_neg hc).symm.trans hst₁
  subst hsame
  by_cases hready : lib.items st.ready = []
  · rw [if_neg (size_ready_nil hready)] at h₁
    refine .inr ⟨hready, ?_⟩
    cases hr : st.running with
    | none =>
        simp only [hr, Option.some.injEq] at h₁
        subst h₁
        exact ⟨rfl, rfl⟩
    | some r =>
        simp only [hr] at h₁
        split_ifs at h₁
        · obtain rfl := Option.some.inj h₁
          exact ⟨rfl, rfl⟩
        · obtain rfl := Option.some.inj h₁
          exact ⟨rfl, rfl⟩
  · rw [if_pos (size_ready_pos hready)] at h₁
    exact .inl ⟨hready, h₁⟩

theorem sortReady_ne_nil (h : lib.items st.ready ≠ []) : lib.items (st.sortReady c).ready ≠ [] :=
  ne_nil_of_perm (lib.items_sort _ _) h

theorem dispatch_least (hlib : lib.Sorts) (hclose : c.Close) (hne : lib.items st.ready ≠ [])
    (hs : ((st.sortReady c).dequeueReady fun a st => st.dispatch now a) = some st') :
    ∃ a ∈ lib.items st.ready, st'.running = some a ∧
      st'.dispatched = (st.wrappers a).t :: st.dispatched ∧
      (∀ b ∈ lib.items st.ready, c.priority (st.wrappers a).t ≤ c.priority (st.wrappers b).t) ∧
      ∀ b ∈ lib.items st'.ready, b ∈ lib.items st.ready := by
  have hperm : (lib.items (st.sortReady c).ready).Perm (lib.items st.ready) := lib.items_sort _ _
  obtain ⟨a, q, hitems, heq⟩ := dequeueReady_cases (sortReady_ne_nil (c := c) hne)
    fun a st => st.dispatch now a
  obtain rfl := Option.some.inj (hs.symm.trans heq)
  have hsorted := pairwise_sortReady hlib hclose st
  rw [hitems] at hperm hsorted
  refine ⟨a, hperm.mem_iff.mp List.mem_cons_self, rfl, ?_, fun b hb => ?_, fun b hb => ?_⟩
  · simp [State.dispatch, State.modify, State.sortReady]
  · cases List.mem_cons.mp (hperm.mem_iff.mpr hb) with
    | inl heq => rw [heq]
    | inr hb => exact (List.pairwise_cons.mp hsorted).1 b hb
  · exact hperm.mem_iff.mp (List.mem_cons_of_mem a hb)

theorem runThread_preemptive (hc : c.algorithm = .preemptivePriority) (hlib : lib.Sorts)
    (hclose : c.Close) (hne : lib.items st.ready ≠ []) (hs : st.runThread c now = some st')
    (hr' : st'.running = some r) (ha : a ∈ lib.items st'.ready) :
    c.priority (st.wrappers r).t ≤ c.priority (st.wrappers a).t := by
  unfold State.runThread at hs
  simp only [hc] at hs
  cases hr : st.running with
  | none =>
      simp only [hr] at hs
      obtain ⟨b, -, hb, -, hleast, hsub⟩ := dispatch_least hlib hclose hne hs
      obtain rfl := Option.some.inj (hb.symm.trans hr')
      exact hleast a (hsub a ha)
  | some r₀ =>
      have hsize : lib.size st.ready ≠ 0 := Nat.ne_of_gt (size_ready_pos hne)
      have hsorted := pairwise_sortReady hlib hclose st
      have hne' := sortReady_ne_nil (c := c) hne
      obtain ⟨b, q, hitems, heq⟩ := dequeueReady_cases hne' fun a st =>
        State.dispatch now (({ st with ready := lib.enqueue st.ready r₀ }.modify a id).modify r₀ fun T =>
          { T with wait := T.wait - now }) a
      have hhead : lib.head (st.sortReady c).ready = some b := by
        rw [lib.head_eq, hitems, List.head?_cons]
      rw [hitems] at hsorted
      have hfirst := (List.pairwise_cons.mp hsorted).1
      simp only [hr, hsize, ne_eq, not_false_iff, if_true, hhead] at hs
      split_ifs at hs with hlt
      · -- the running thread goes to the tail
        simp only [State.swap, heq] at hs
        obtain rfl := Option.some.inj hs
        obtain rfl : b = r := Option.some.inj hr'
        have hmem : a ∈ lib.items q ++ [r₀] := by
          rw [← lib.items_enqueue]
          exact ha
        cases List.mem_append.mp hmem with
        | inl hmem => exact hfirst a hmem
        | inr hmem =>
            obtain rfl := List.mem_singleton.mp hmem
            exact Nat.le_of_lt (UInt32.lt_iff_toNat_lt.mp hlt)
      · -- it keeps the CPU
        obtain rfl := Option.some.inj hs
        obtain rfl : r₀ = r := Option.some.inj (hr.symm.trans hr')
        have hle : c.priority (st.wrappers r₀).t ≤ c.priority (st.wrappers b).t :=
          Nat.not_lt.mp fun h => hlt (UInt32.lt_iff_toNat_lt.mpr h)
        rw [hitems] at ha
        cases List.mem_cons.mp ha with
        | inl heq => rwa [heq]
        | inr ha => exact Nat.le_trans hle (hfirst a ha)

theorem runThread_nonPreemptive (hc : c.algorithm = .nonPreemptivePriority) (hlib : lib.Sorts)
    (hclose : c.Close) (hne : lib.items st.ready ≠ []) (hs : st.runThread c now = some st') :
    st'.dispatched = st.dispatched ∨ ∃ a ∈ lib.items st.ready,
      st'.dispatched = (st.wrappers a).t :: st.dispatched ∧
      ∀ b ∈ lib.items st.ready, c.priority (st.wrappers a).t ≤ c.priority (st.wrappers b).t := by
  unfold State.runThread at hs
  simp only [hc] at hs
  cases hr : st.running with
  | none =>
      simp only [hr] at hs
      obtain ⟨a, ha, -, hd, hleast, -⟩ := dispatch_least hlib hclose hne hs
      exact .inr ⟨a, ha, hd, hleast⟩
  | some r =>
      simp only [hr] at hs
      obtain rfl := Option.some.inj hs
      exact .inl rfl

/-! ### Priorities that are far apart -/

theorem bmod_toNat_sub_neg {x y : UInt32} (h : y.toNat + 2 ^ 31 ≤ x.toNat) :
    Int.bmod (x - y).toNat (2 ^ 32) < 0 := by
  have hx := x.toNat_lt
  have hsub := UInt32.toNat_sub x y
  have hdef := Int.bmod_def (x - y).toNat (2 ^ 32)
  omega

/-- Of two ready threads the first is dispatched, though its priority number is far larger. -/
theorem tick_far {st st' : State (listQueue ℕ).Q τ}
    (hc : c.algorithm = .preemptivePriority ∨ c.algorithm = .nonPreemptivePriority)
    (hready : st.ready = ([0, 1] : List ℕ)) (hidle : st.running = none)
    (hfar : c.priority (st.wrappers 1).t + 2 ^ 31 ≤ c.priority (st.wrappers 0).t)
    (hs : st.tick c now = some st') :
    st'.running = some 0 ∧ st'.dispatched = (st.wrappers 0).t :: st.dispatched ∧
      st'.ready = ([1] : List ℕ) := by
  have hrun : st.runThread c now =
      (st.sortReady c).dequeueReady fun a st => st.dispatch now a := by
    unfold State.runThread
    cases hc with
    | inl hc => simp [hc, hidle]
    | inr hc => simp [hc, hidle]
  have hsort : (st.sortReady c).ready = ([0, 1] : List ℕ) := by
    have hle : st.threadComparator c 0 1 ≤ 0 := Int.le_of_lt (bmod_toNat_sub_neg hfar)
    change List.insertionSort (fun a b => st.threadComparator c a b ≤ 0) st.ready = _
    rw [hready]
    simp [hle]
  cases tick_of_ne (ne_roundRobin hc) hs with
  | inl h =>
      obtain ⟨a, q, hitems, heq⟩ := dequeueReady_cases (sortReady_ne_nil (c := c) h.1)
        fun a st => st.dispatch now a
      obtain rfl := Option.some.inj (h.2.symm.trans (hrun.trans heq))
      obtain ⟨rfl, rfl⟩ : 0 = a ∧ ([1] : List ℕ) = q := List.cons.inj (hsort.symm.trans hitems)
      exact ⟨rfl, by simp [State.dispatch, State.modify, State.sortReady], rfl⟩
  | inr h =>
      have hnil := h.1
      rw [hready] at hnil
      cases hnil

variable [DecidableEq τ]

/-- What the policies promise when `tick` takes the system from `w` to `w'`. -/
structure PicksLeast (c : Config τ) (w w' : World lib.Q τ) : Prop where
  preemptive : c.algorithm = .preemptivePriority → ∀ t u, w'.st.runningThread = some t →
    u ∈ w'.st.readyThreads → c.priority t ≤ c.priority u
  nonPreemptive : c.algorithm = .nonPreemptivePriority → ∀ t ∈ w'.st.dispatched,
    t ∈ w.st.readyThreads ∧ ∀ u ∈ w.st.readyThreads, c.priority t ≤ c.priority u

theorem picksLeast_of_close
    (hc : c.algorithm = .preemptivePriority ∨ c.algorithm = .nonPreemptivePriority)
    (hlib : lib.Sorts) (hclose : c.Close) (hs : step c (.tick, now) w = some w') :
    PicksLeast c w w' := by
  obtain ⟨st', hst, rfl⟩ := Option.map_eq_some_iff.mp hs
  have hne := ne_roundRobin hc
  have hthreads := tick_threads (implemented_of_priority hc) hst
  constructor
  · intro hc t u ht hu
    obtain ⟨r, hr, rfl⟩ := Option.map_eq_some_iff.mp ht
    obtain ⟨a, ha, rfl⟩ := List.mem_map.mp hu
    dsimp only at hr ha ⊢
    rw [hthreads, hthreads]
    cases tick_of_ne hne hst with
    | inl h => exact runThread_preemptive hc hlib hclose h.1 h.2 hr ha
    | inr h =>
        rw [h.2.1, h.1] at ha
        cases ha
  · intro hc t ht
    cases tick_of_ne hne hst with
    | inl h =>
        cases runThread_nonPreemptive hc hlib hclose h.1 h.2 with
        | inl hd =>
            rw [hd] at ht
            cases ht
        | inr hd =>
            obtain ⟨a, ha, hd, hleast⟩ := hd
            rw [hd] at ht
            obtain rfl := List.mem_singleton.mp ht
            refine ⟨List.mem_map_of_mem ha, fun u hu => ?_⟩
            obtain ⟨b, hb, rfl⟩ := List.mem_map.mp hu
            exact hleast b hb
    | inr h =>
        rw [h.2.2] at ht
        cases ht

/-- **The priority policies.**  After every `tick` of every run that follows the protocol no ready
thread has a smaller priority number than the running one, when priority is preemptive, and a thread
that is dispatched has the least priority number of those in the queue, when it is not.  This is so
for every queue if and only if no two priorities are `2 ^ 31` apart. -/
theorem priority_iff
    (hc : c.algorithm = .preemptivePriority ∨ c.algorithm = .nonPreemptivePriority) :
    (∀ lib : Queue ℕ, lib.Sorts → ∀ (wrappers : ℕ → TWrapper τ) (w : World lib.Q τ),
      Reachable (step c) Conforms (scheduler lib wrappers) w →
      ∀ now, ∃ w', step c (.tick, now) w = some w' ∧ PicksLeast c w w') ↔
    c.Close := by
  have himp := implemented_of_priority hc
  constructor
  · intro h t u
    by_contra hfar
    have htu : u ≠ t := by
      rintro rfl
      omega
    -- the two threads arrive, and the first `tick` picks the wrong one
    have hr₁ := (Reachable.refl : Reachable (step c) Conforms
      (scheduler (listQueue ℕ) fun _ => ⟨t, 0, 0, 0, 0, 0⟩) _).tail
      (a := (Callback.sysExec t, (0 : ℤ))) rfl rfl
    have hr := hr₁.tail (a := (Callback.sysExec u, (0 : ℤ))) (Function.update_of_ne htu _ _) rfl
    obtain ⟨w', hs, hpicks⟩ := h _ (listQueue_sorts ℕ) _ _ hr 0
    obtain ⟨st', hst, rfl⟩ := Option.map_eq_some_iff.mp hs
    have hthreads := tick_threads himp hst
    obtain ⟨hrun, hd, hready⟩ := tick_far hc rfl rfl (not_lt.mp hfar) hst
    cases hc with
    | inl hc =>
        have hle := hpicks.preemptive hc t u
          (by simp [State.runningThread, hrun, hthreads, State.sysExec, scheduler])
          (by simp [State.readyThreads, listQueue, hready, hthreads, State.sysExec, scheduler])
        omega
    | inr hc =>
        have hle := (hpicks.nonPreemptive hc t (by simp [hd, State.sysExec, scheduler])).2 u
          (by simp [State.readyThreads, listQueue, State.sysExec, scheduler])
        omega
  · intro hclose lib hlib wrappers w hr now
    obtain ⟨w', hs, -⟩ := (reachable_inv himp hr).step himp (e := (.tick, now)) trivial
    exact ⟨w', hs, picksLeast_of_close hc hlib hclose hs⟩

/-- Two threads with the priority numbers `x` and `y`. -/
def twoPriorities (a : Algorithm) (x y : UInt32) : Config Bool := ⟨a, 1, fun b => ⟨1, if b then y else x⟩⟩

/-- A thread with a smaller number arrives, and gets the CPU. -/
theorem priority_five : ∃ w,
    Reachable (step (twoPriorities .preemptivePriority 5 1)) Conforms
      (scheduler (listQueue ℕ) fun _ => ⟨false, 0, 0, 0, 0, 0⟩) w ∧
    w.cpu = some false ∧ w.st.readyThreads = [true] ∧
    ∀ now, ∃ w', step (twoPriorities .preemptivePriority 5 1) (.tick, now) w = some w' ∧
      PicksLeast (twoPriorities .preemptivePriority 5 1) w w' := by
  have hr₁ := (Reachable.refl : Reachable (step (twoPriorities .preemptivePriority 5 1)) Conforms
    (scheduler (listQueue ℕ) fun _ => ⟨false, 0, 0, 0, 0, 0⟩) _).tail
    (a := (Callback.sysExec false, (0 : ℤ))) rfl rfl
  have hr₂ := hr₁.tail (a := (Callback.tick, (0 : ℤ))) trivial rfl
  have hr := hr₂.tail (a := (Callback.sysExec true, (1 : ℤ))) rfl rfl
  refine ⟨_, hr, rfl, rfl, ?_⟩
  exact (priority_iff (.inl rfl)).mpr (fun t u => by cases t <;> cases u <;> decide) _
    (listQueue_sorts ℕ) _ _ hr

/-- The thread with the number 3000000000 goes before the one with the number 0. -/
theorem priority_far :
    (∃ w w', Reachable (step (twoPriorities .preemptivePriority 3000000000 0)) Conforms
      (scheduler (listQueue ℕ) fun _ => ⟨false, 0, 0, 0, 0, 0⟩) w ∧
      step (twoPriorities .preemptivePriority 3000000000 0) (.tick, 0) w = some w' ∧
      w'.cpu = some false ∧ w'.st.readyThreads = [true] ∧
      ¬PicksLeast (twoPriorities .preemptivePriority 3000000000 0) w w') ∧
    ∃ w w', Reachable (step (twoPriorities .nonPreemptivePriority 3000000000 0)) Conforms
      (scheduler (listQueue ℕ) fun _ => ⟨false, 0, 0, 0, 0, 0⟩) w ∧
      step (twoPriorities .nonPreemptivePriority 3000000000 0) (.tick, 0) w = some w' ∧
      w.st.readyThreads = [false, true] ∧ w'.st.dispatched = [false] ∧
      ¬PicksLeast (twoPriorities .nonPreemptivePriority 3000000000 0) w w' := by
  have arrive₁ (a : Algorithm) := (Reachable.refl :
    Reachable (step (twoPriorities a 3000000000 0)) Conforms
      (scheduler (listQueue ℕ) fun _ => ⟨false, 0, 0, 0, 0, 0⟩) _).tail
    (a := (Callback.sysExec false, (0 : ℤ))) rfl rfl
  have arrive (a : Algorithm) := (arrive₁ a).tail (a := (Callback.sysExec true, (0 : ℤ))) rfl rfl
  refine ⟨⟨_, _, arrive _, rfl, rfl, rfl, fun h => ?_⟩, _, _, arrive _, rfl, rfl, rfl, fun h => ?_⟩
  · exact absurd (h.preemptive rfl false true rfl (by decide)) (by decide)
  · exact absurd ((h.nonPreemptive rfl false (by decide)).2 true (by decide)) (by decide)

end CSE130.Assignment4
