import CSE130.Lab2.Interrupts
import Mathlib.Data.List.Rotate

/-! # Threads that only yield

`thread_yield` pushes its caller to the front of the ready list, `next_thread_to_run` sorts the
list and takes its back.  So among the threads of the caller's priority, which the caller is not
below, the list is a queue that runs from the back to the front: `cycle` is the running thread
and then this queue, and a call rotates it by one (`threadYield_turns`).

The idle thread is not pushed to the list.  It takes a turn only if nobody is ready. -/

namespace CSE130.Lab2

open Function (update)
open KernelList
open Transition

variable {k k' k'' : Kernel} {i j : ℕ} {p : ℤ} {t : Thread}

namespace Kernel

/-- Calls of `thread_yield`, one after the other, each by the thread that runs. -/
def yields (k : Kernel) : ℕ → Option Kernel
  | 0 => some k
  | n + 1 => (k.yields n).bind threadYield

/-- The ready threads of priority `p`, from front to back. -/
def level (k : Kernel) (p : ℤ) : List Thread := k.readyList.filter fun t => k.priority t = p

/-- The running thread, and the ready threads of its priority from back to front. -/
def cycle (k : Kernel) : List Thread :=
  k.current :: (k.level (k.priority k.current)).reverse

end Kernel

theorem length_cycle (k : Kernel) :
    k.cycle.length = (k.level (k.priority k.current)).length + 1 := by
  simp [Kernel.cycle]

/-- After `i` calls. -/
structure Turns (k : Kernel) (i : ℕ) (k' : Kernel) : Prop where
  priority : k'.priority = k.priority
  idle : k'.idleThread = k.idleThread
  current : k.priority k'.current = k.priority k.current
  cycle : k'.cycle = k.cycle.rotate i
  length : k'.readyList.length = k.readyList.length
  le : ∀ t ∈ k'.readyList, k.priority t ≤ k.priority k.current
  level : ∀ p, p ≠ k.priority k.current → k'.level p = k.level p

namespace Turns

theorem refl (hle : ∀ t ∈ k.readyList, k.priority t ≤ k.priority k.current) : Turns k 0 k where
  priority := rfl
  idle := rfl
  current := rfl
  cycle := (List.rotate_zero _).symm
  length := rfl
  le := hle
  level _ _ := rfl

theorem trans (h : Turns k i k') (h' : Turns k' j k'') : Turns k (i + j) k'' where
  priority := h'.priority.trans h.priority
  idle := h'.idle.trans h.idle
  current := by
    have hc := h'.current
    rw [h.priority] at hc
    exact hc.trans h.current
  cycle := by rw [h'.cycle, h.cycle, List.rotate_rotate]
  length := h'.length.trans h.length
  le t ht := by
    have hle := h'.le t ht
    rw [h.priority, h.current] at hle
    exact hle
  level p hp := by
    have hne : p ≠ k'.priority k'.current := by rwa [h.priority, h.current]
    exact (h'.level p hne).trans (h.level p hp)

theorem next (h : Turns k i k') (hidle : k.idleThread ∈ k.cycle → k.readyList = []) :
    (k'.idleThread ∈ k'.cycle → k'.readyList = []) ∧
      ∀ t ∈ k'.readyList, k'.priority t ≤ k'.priority k'.current := by
  constructor
  · intro hmem
    rw [h.idle, h.cycle, List.mem_rotate] at hmem
    apply List.eq_nil_of_length_eq_zero
    rw [h.length, hidle hmem, List.length_nil]
  · intro t ht
    rw [h.priority, h.current]
    exact h.le t ht

end Turns

theorem back_of_level {c : Thread} {ready sorted : List Thread}
    (hle : ∀ t ∈ ready, k.priority t ≤ k.priority c)
    (hs : listSort k.threadPriorityLess (c :: ready) = some sorted)
    (ht : sorted.getLast? = some t) : k.priority t = k.priority c ∧
      (sorted.dropLast.filter fun u => k.priority u = k.priority c) ++ [t] =
        c :: ready.filter fun u => k.priority u = k.priority c := by
  obtain ⟨hperm, hmax⟩ := pop_back_spec hs ht
  have htop : k.priority t = k.priority c := by
    apply le_antisymm
    · rcases List.mem_cons.mp (hperm.subset List.mem_cons_self) with rfl | h
      · exact le_rfl
      · exact hle t h
    · rcases List.mem_cons.mp (hperm.symm.subset List.mem_cons_self) with h | h
      · rw [h]
      · exact hmax c h
  refine ⟨htop, ?_⟩
  have hst := listSort_stable (threadPriorityLess_compares k _) hs (k.priority c)
  obtain ⟨init, rfl⟩ := List.getLast?_eq_some_iff.mp ht
  rw [List.filter_append, List.filter_cons_of_pos (by simpa using htop), List.filter_nil,
    List.filter_cons_of_pos (by simp)] at hst
  rw [List.dropLast_concat]
  exact hst

/-- **One call of `thread_yield`** rotates the threads of the running thread's priority. -/
theorem threadYield_turns (hidle : k.idleThread ∈ k.cycle → k.readyList = [])
    (hle : ∀ t ∈ k.readyList, k.priority t ≤ k.priority k.current) :
    ∃ k', k.threadYield = some k' ∧ Turns k 1 k' := by
  by_cases hi : k.current = k.idleThread
  · -- the idle thread is alone
    have hr : k.readyList = [] := hidle (hi ▸ List.mem_cons_self)
    have hcycle : k.cycle = [k.idleThread] := by
      simp [Kernel.cycle, Kernel.level, hr, hi]
    have hy : k.threadYield = some (k.yielding.dispatch k.idleThread []) := by
      simp [Kernel.threadYield, Kernel.schedule, Kernel.nextThreadToRun, Kernel.yielding,
        Kernel.dispatch, hi, hr]
    refine ⟨_, hy, rfl, rfl, congrArg k.priority hi.symm, ?_, by simp [Kernel.dispatch, hr],
      (fun t ht => by cases ht), fun p _ => ?_⟩
    · rw [hcycle, List.rotate_singleton]
      rfl
    · simp [Kernel.level, Kernel.dispatch, hr]
  · obtain ⟨sorted, t, hs, ht⟩ := exists_back (k := k) (List.cons_ne_nil k.current k.readyList)
    have hperm := listSort_perm hs
    have hs' : listSort k.yielding.threadPriorityLess (k.current :: k.readyList) = some sorted := hs
    have hy : k.threadYield = some (k.yielding.dispatch t sorted.dropLast) := by
      have hready : k.yielding.readyList = k.current :: k.readyList := if_neg hi
      have hsched : k.threadYield = k.yielding.schedule := rfl
      rw [hsched]
      simp only [Kernel.schedule, Kernel.nextThreadToRun, hready, if_neg (List.cons_ne_nil _ _),
        hs', ht, Option.bind_eq_bind, Option.bind_some, Kernel.dispatch]
    obtain ⟨htop, hback⟩ := back_of_level hle hs ht
    have hsub : ∀ u ∈ sorted.dropLast, k.priority u ≤ k.priority k.current := fun u hu => by
      rcases List.mem_cons.mp (hperm.subset (List.dropLast_subset _ hu)) with rfl | h
      · exact le_rfl
      · exact hle u h
    refine ⟨_, hy, rfl, rfl, htop, ?_, ?_, hsub, fun p hp => ?_⟩
    · have hlevel : (k.yielding.dispatch t sorted.dropLast).cycle =
          t :: (sorted.dropLast.filter fun u => k.priority u = k.priority k.current).reverse := by
        rw [← htop]
        rfl
      rw [hlevel, ← List.reverse_concat, hback]
      simp [Kernel.cycle, Kernel.level]
    · have hlen := hperm.length_eq
      simp only [Kernel.dispatch, List.length_dropLast, List.length_cons] at hlen ⊢
      omega
    · -- the thread taken is not of a lower level, nor is the one pushed
      have hst := listSort_stable (threadPriorityLess_compares k _) hs p
      obtain ⟨init, rfl⟩ := List.getLast?_eq_some_iff.mp ht
      rw [List.filter_append, List.filter_cons_of_neg (by simpa [htop] using hp.symm),
        List.filter_nil, List.append_nil,
        List.filter_cons_of_neg (by simpa using hp.symm)] at hst
      simp only [Kernel.level, Kernel.dispatch, List.dropLast_concat]
      exact hst

theorem yields_turns (hidle : k.idleThread ∈ k.cycle → k.readyList = [])
    (hle : ∀ t ∈ k.readyList, k.priority t ≤ k.priority k.current) (i : ℕ) :
    ∃ k', k.yields i = some k' ∧ Turns k i k' := by
  induction i with
  | zero => exact ⟨k, rfl, .refl hle⟩
  | succ i ih =>
      obtain ⟨k', hk', hturns⟩ := ih
      obtain ⟨hidle', hle'⟩ := hturns.next hidle
      obtain ⟨k'', hk'', hnext⟩ := threadYield_turns hidle' hle'
      refine ⟨k'', ?_, hturns.trans hnext⟩
      rw [Kernel.yields, hk', Option.bind_some, hk'']

theorem Turns.sorted_eq (h : Turns k k.cycle.length k') : k'.current = k.current ∧
    listSort k'.threadPriorityLess k'.readyList = listSort k.threadPriorityLess k.readyList := by
  have hcycle := h.cycle
  rw [List.rotate_length] at hcycle
  obtain ⟨hc, hlevel⟩ := List.cons.inj hcycle
  refine ⟨hc, ?_⟩
  have hless : k'.threadPriorityLess = k.threadPriorityLess := by
    unfold Kernel.threadPriorityLess
    rw [h.priority]
  rw [hc, h.priority] at hlevel
  have hstable : Stable k.priority k.readyList k'.readyList := fun p => by
    have hp : k'.level p = k.level p := by
      by_cases hp : p = k.priority k.current
      · rw [hp]
        exact List.reverse_injective hlevel
      · exact h.level p hp
    simpa only [Kernel.level, h.priority] using hp
  have hcmp := threadPriorityLess_compares k
  obtain ⟨l, hl⟩ := Option.isSome_iff_exists.mp (listSort_isSome (hcmp k.readyList))
  obtain ⟨l', hl'⟩ := Option.isSome_iff_exists.mp (listSort_isSome (hcmp k'.readyList))
  have hsame : l' = l := by
    apply Ordered.eq_of_stable (listSort_ordered (hcmp _) hl) (listSort_ordered (hcmp _) hl')
    intro p
    rw [listSort_stable (hcmp _) hl' p, hstable p, listSort_stable (hcmp _) hl p]
  rw [hless, hl, hl', hsame]

/-- **Yielding is round robin.**  Let `n` threads of the running thread's priority be ready, none of
a higher one, and the idle thread not among those `n + 1` unless nobody is ready.  After `i` calls
of `thread_yield` number `i` of the cycle runs, modulo `n + 1`, and it is of the same priority;
after `n + 1` calls the running thread is the first one, and sorting the ready list gives what it
gave at the start. -/
theorem yield_round_robin (k : Kernel) (n : ℕ)
    (hn : (k.level (k.priority k.current)).length = n)
    (hle : ∀ t ∈ k.readyList, k.priority t ≤ k.priority k.current)
    (hidle : k.idleThread ∈ k.cycle → k.readyList = []) :
    (∀ i, ∃ k', k.yields i = some k' ∧ k.cycle[i % (n + 1)]? = some k'.current ∧
      k'.priority = k.priority ∧ k.priority k'.current = k.priority k.current) ∧
    ∃ k', k.yields (n + 1) = some k' ∧ k'.current = k.current ∧
      listSort k'.threadPriorityLess k'.readyList =
        listSort k.threadPriorityLess k.readyList := by
  have hlen : k.cycle.length = n + 1 := by rw [length_cycle, hn]
  rw [← hlen]
  constructor
  · intro i
    obtain ⟨k', hk', h⟩ := yields_turns hidle hle i
    refine ⟨k', hk', ?_, h.priority, h.current⟩
    have hlt : i % k.cycle.length < k.cycle.length := by
      apply Nat.mod_lt
      omega
    have hhead : k'.cycle.head? = some k'.current := rfl
    rw [← List.head?_rotate hlt, List.rotate_mod, ← h.cycle, hhead]
  · obtain ⟨k', hk', h⟩ := yields_turns hidle hle k.cycle.length
    exact ⟨k', hk', h.sorted_eq⟩

/-- Three threads of priority `31` take turns, one of priority `5` is ready. -/
theorem yield_round_robin_three : ∃ k, Reachable step coop (boot fun _ => 0) k ∧
    k.cycle = [0, 3, 2] ∧ k.readyList = [2, 3, 4] ∧ ∃ k', k.yields 3 = some k' ∧
      k'.current = k.current ∧ listSort k'.threadPriorityLess k'.readyList =
        listSort k.threadPriorityLess k.readyList := by
  have hex : (execute step (Call.steps (.threadCreate 31) 11 ++ Call.steps (.threadCreate 31) 11 ++
      Call.steps (.threadCreate 5) 11) (boot fun _ => 0)).any fun k =>
        k.cycle = [0, 3, 2] ∧ k.readyList = [2, 3, 4] ∧ k.idleThread = 1 ∧
        (k.level (k.priority k.current)).length = 2 ∧
        ∀ t ∈ k.readyList, k.priority t ≤ k.priority k.current := by
    decide +kernel
  obtain ⟨k, hk, he⟩ := (Option.any_eq_true _ _).mp hex
  obtain ⟨hcycle, hready, hidle, hn, hle⟩ := of_decide_eq_true he
  have hr := execute_reachable (G := coop) (coop_of_call_run (by simp [Call.steps])) .refl hk
  refine ⟨k, hr, hcycle, hready, (yield_round_robin k 2 hn hle fun hmem => ?_).2⟩
  rw [hcycle, hidle] at hmem
  simp at hmem

/-- The idle thread runs when an interrupt makes thread `2` ready, which has its priority.  After
one yield each, the idle thread does not run again. -/
theorem yield_leaves_idle : ∃ k k', Reachable interruptible (fun _ _ => True) (boot fun _ => 0) k ∧
    k.current = k.idleThread ∧ k.readyList = [2] ∧ k.level (k.priority k.current) = [2] ∧
      k.yields 2 = some k' ∧ k'.current ≠ k.current := by
  have hex : (execute interruptible ((Call.steps (.threadCreate 0) 11 ++
      Call.steps (.semaphoreDown 1) 1 ++ Call.steps (.semaphoreDown 0) 1).map .act ++
        [.irq (.disk 0)]) (boot fun _ => 0)).any fun k => k.current = k.idleThread ∧
          k.readyList = [2] ∧ k.level (k.priority k.current) = [2] ∧
          (k.yields 2).any fun k' => k'.current ≠ k.current := by
    decide +kernel
  obtain ⟨k, hk, he⟩ := (Option.any_eq_true _ _).mp hex
  obtain ⟨hc, hready, hlevel, hy⟩ := of_decide_eq_true he
  obtain ⟨k', hk', hne⟩ := (Option.any_eq_true _ _).mp hy
  exact ⟨k, k', execute_reachable (fun _ _ _ => trivial) .refl hk, hc, hready, hlevel, hk',
    of_decide_eq_true hne⟩

end CSE130.Lab2
