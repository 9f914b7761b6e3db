import CSE130.Lab2.Donation
import CSE130.Lab2.ThreadLists
import Mathlib.Order.Bounds.Basic

/-! # `thread_set_priority`

The function is to set the base priority of its caller, and to leave it the highest of this base
and the priorities of the threads that are blocked on its locks (`demands`).  Whether a donation is
active it guesses from `priority == priority_old`: with a guess of no, it sets both fields, and
with a guess of yes, only `priority_old`.  `Separable` says for which states this is enough.

After the first branch the function compares with the highest priority of the ready list.  It asks
`list_max` for it, which gives the tail of an empty list, and `list_entry` takes that for a
thread (`InspectsThreads`). -/

namespace CSE130.Lab2

open Function (update)
open KernelList
open Transition

variable {k k' : Kernel} {st : List Frame} {l : Lock} {t u : Thread} {n g p : ℤ}
  {v : ℕ → BitVec 32} {G : Kernel → Action → Prop}

/-! ### The threads blocked on the locks of a thread -/

namespace Kernel

/-- The lock on which `u` is blocked in `lock_acquire`. -/
def wants (k : Kernel) (u : Thread) : Option Lock :=
  match k.status u, k.stack u with
  | .blocked, .semaphoreDownLoop (.lock l) :: _ => some l
  | _, _ => none

/-- The priorities of the threads that are blocked on a lock held by `t`. -/
def demands (k : Kernel) (t : Thread) : List ℤ :=
  ((List.range k.threads).filter fun u => (k.wants u).any fun l => k.holder l = some t).map k.priority

end Kernel

theorem wants_eq_some : k.wants u = some l ↔ k.BlockedIn u l := by
  unfold Kernel.wants Kernel.BlockedIn
  constructor
  · intro h
    split at h
    · rename_i hb hst
      cases h
      exact ⟨hb, _, hst⟩
    · cases h
  · rintro ⟨hb, st, hst⟩
    rw [hb, hst]

theorem Scheduled.demands_congr (hk : Scheduled k) (hm : k'.threads = k.threads)
    (hs : k'.status = k.status) (hh : k'.holder = k.holder)
    (hst : ∀ u, u ≠ k.current → k'.stack u = k.stack u)
    (hp : ∀ u, u ≠ k.current → k'.priority u = k.priority u) : k'.demands t = k.demands t := by
  have hwants (u : Thread) : k'.wants u = k.wants u := by
    by_cases hu : u = k.current
    · -- the running thread is not blocked
      subst hu
      unfold Kernel.wants
      rw [hs, hk.running]
    · unfold Kernel.wants
      rw [hs, hst u hu]
  unfold Kernel.demands
  rw [hm, hh]
  simp only [hwants]
  refine List.map_congr_left fun u hu => hp u ?_
  obtain ⟨l, hl, -⟩ := (Option.any_eq_true _ _).mp (List.mem_filter.mp hu).2
  exact hk.ne_of_blocked (wants_eq_some.mp hl).1

/-! ### Base and effective priority -/

namespace Kernel

/-- The base priority of `t` is `n`, and its priority the highest of `n` and the demands on it. -/
def Separates (k : Kernel) (t : Thread) (n : ℤ) : Prop :=
  k.priorityOld t = n ∧ IsGreatest {p | p = n ∨ p ∈ k.demands t} (k.priority t)

/-- What `thread_set_priority(n)` has to find.  Without a difference between the two fields of the
caller, nobody who is blocked on its locks is above `n`.  With one, the priority of the caller is
the highest of those who are blocked, and `n` is not above it. -/
def Separable (k : Kernel) (n : ℤ) : Prop :=
  if k.priorityOld k.current = k.priority k.current then ∀ p ∈ k.demands k.current, p ≤ n
  else n ≤ k.priority k.current ∧ (∀ p ∈ k.demands k.current, p ≤ k.priority k.current) ∧
    (k.priority k.current = n ∨ k.priority k.current ∈ k.demands k.current)

instance (k : Kernel) (n : ℤ) : Decidable (k.Separable n) := by
  unfold Separable
  infer_instance

end Kernel

theorem step_set_priority (hcode : k.code = .threadSetPriority n g :: st) :
    step .run k = some ((k.popped st).threadSetPriority n g) := by
  simp only [step, stepRun, hcode, exec]
  rfl

theorem Scheduled.separates_iff {q : ℤ} (hk : Scheduled k) (hm : k'.threads = k.threads)
    (hs : k'.status = k.status) (hh : k'.holder = k.holder)
    (hst : ∀ u, u ≠ k.current → k'.stack u = k.stack u)
    (hp : k'.priority = update k.priority k.current q)
    (ho : k'.priorityOld = update k.priorityOld k.current n) : k'.Separates k.current n ↔
      n ≤ q ∧ (∀ p ∈ k.demands k.current, p ≤ q) ∧ (q = n ∨ q ∈ k.demands k.current) := by
  have hdem : k'.demands k.current = k.demands k.current :=
    hk.demands_congr hm hs hh hst fun u hu => by rw [hp, Function.update_of_ne hu]
  unfold Kernel.Separates
  rw [hdem, hp, ho, Function.update_self, Function.update_self]
  constructor
  · rintro ⟨-, hmem, hub⟩
    exact ⟨hub (.inl rfl), fun p hp => hub (.inr hp), hmem⟩
  · rintro ⟨hle, hall, hmem⟩
    refine ⟨rfl, hmem, ?_⟩
    rintro p (rfl | hp)
    · exact hle
    · exact hall p hp

/-- **When `thread_set_priority` keeps base and effective priority apart.** -/
theorem set_priority_separates_iff (hr : Reachable step G (boot v) k)
    (hcode : k.code = .threadSetPriority n g :: st) :
    (∃ k', step .run k = some k' ∧ k'.Separates k.current n) ↔ k.Separable n := by
  have hk := (reachable_consistent hr).threads
  rw [step_set_priority hcode]
  simp only [Option.some.injEq, exists_eq_left']
  unfold Kernel.Separable Kernel.threadSetPriority
  have hstack (u : Thread) (hu : u ≠ k.current) : (k.popped st).stack u = k.stack u :=
    Function.update_of_ne hu ..
  by_cases he : k.priorityOld k.current = k.priority k.current
  · rw [if_pos he, if_pos (by exact he)]
    have hiff : (Kernel.push { k.popped st with
        priority := update k.priority k.current n
        priorityOld := update k.priorityOld k.current n }
          (.threadSetPriorityPreempt n g)).Separates k.current n ↔ _ :=
      hk.separates_iff rfl rfl rfl (fun u hu => (Function.update_of_ne hu ..).trans (hstack u hu))
        rfl rfl
    exact hiff.trans ⟨fun h => h.2.1, fun h => ⟨le_rfl, h, .inl rfl⟩⟩
  · rw [if_neg he, if_neg (by exact he)]
    exact hk.separates_iff rfl rfl rfl hstack (Function.update_eq_self ..).symm rfl

/-- The initial thread holds lock `0`, for which thread `2`, of priority `40`, waits. -/
def donated : List Action :=
  Call.steps (.lockAcquire 0) 4 ++ Call.steps (.threadCreate 40) 11 ++
  Call.steps (.lockAcquire 0) 10

theorem set_priority_separates_donated : ∃ k, Reachable step coop (boot fun _ => 0) k ∧
    k.code = [.threadSetPriority 20 0] ∧ k.priority k.current = 40 ∧
    ∃ k', step .run k = some k' ∧ k'.Separates k.current 20 := by
  have hex : (execute step (donated ++ Call.steps (.threadSetPriority 20 0) 0)
      (boot fun _ => 0)).any fun k => k.code = [.threadSetPriority 20 0] ∧
        k.priority k.current = 40 ∧ k.Separable 20 := by
    decide +kernel
  obtain ⟨k, hk, he⟩ := (Option.any_eq_true _ _).mp hex
  obtain ⟨hcode, hp, hs⟩ := of_decide_eq_true he
  have hr := execute_reachable (G := coop)
    (coop_of_call_run (by simp [donated, Call.steps])) .refl hk
  exact ⟨k, hr, hcode, hp, (set_priority_separates_iff hr hcode).mpr hs⟩

/-- The initial thread then sets its priority to `50`, and keeps the `40` of the donation. -/
theorem set_priority_keeps_donation : ∃ k k', Reachable step coop (boot fun _ => 0) k ∧
    k.code = [.threadSetPriority 50 0] ∧ step .run k = some k' ∧
    k'.priorityOld k.current = 50 ∧ k'.priority k.current = 40 ∧ ¬ k'.Separates k.current 50 := by
  have hex : (execute step (donated ++ Call.steps (.threadSetPriority 50 0) 0)
      (boot fun _ => 0)).any fun k => k.code = [.threadSetPriority 50 0] ∧
        (step .run k).any fun k' => k'.priorityOld k.current = 50 ∧ k'.priority k.current = 40 := by
    decide +kernel
  obtain ⟨k, hk, he⟩ := (Option.any_eq_true _ _).mp hex
  obtain ⟨hcode, hs⟩ := of_decide_eq_true he
  obtain ⟨k', hs, he'⟩ := (Option.any_eq_true _ _).mp hs
  obtain ⟨ho, hp⟩ := of_decide_eq_true he'
  have hr := execute_reachable (G := coop)
    (coop_of_call_run (by simp [donated, Call.steps])) .refl hk
  refine ⟨k, k', hr, hcode, hs, ho, hp, ?_⟩
  rintro ⟨-, -, hub⟩
  have hle : (50 : ℤ) ≤ k'.priority k.current := hub (.inl rfl)
  rw [hp] at hle
  omega

/-! ### The comparison with the ready list -/

/-- A `struct list_elem *` into the ready list: the `sharedelem` of a thread, or the tail. -/
inductive Elem where
  | thread (t : Thread)
  | tail
deriving DecidableEq

namespace Kernel

/-- `list_max(&ready_list, thread_priority_less, NULL)`. -/
def readyMax (k : Kernel) : Option Elem :=
  match k.readyList with
  | [] => some .tail
  | t :: l => (listMax k.threadPriorityLess t l).map .thread

/-- `list_entry(e, struct thread, sharedelem)->priority`; `g` is the word that lies where the tail
would have a priority. -/
def entryPriority (k : Kernel) (g : ℤ) : Elem → ℤ
  | .thread t => k.priority t
  | .tail => g

/-- The preemption test of `thread_set_priority(n)` looks at threads of the ready list, which
`list_max` chooses from; whether the caller yields does not depend on any other word. -/
def InspectsThreads (k : Kernel) (n : ℤ) : Prop :=
  (∀ t ∈ k.readyList, k.IsThread t) ∧ (∃ t ∈ k.readyList, k.readyMax = some (.thread t)) ∧
  ∀ g, exec (.threadSetPriorityPreempt n g) k =
    if ∃ t ∈ k.readyList, n < k.priority t then k.threadYield else some k

end Kernel

theorem readyMaxPriority_eq (k : Kernel) (g : ℤ) :
    k.readyMaxPriority g = k.readyMax.map (k.entryPriority g) := by
  unfold Kernel.readyMaxPriority Kernel.readyMax
  cases k.readyList with
  | nil => rfl
  | cons t l =>
      rw [Option.map_map]
      exact (Option.map_eq_bind ..).symm

theorem readyMax_eq (hne : k.readyList ≠ []) : ∃ t ∈ k.readyList,
    k.readyMax = some (.thread t) ∧ ∀ u ∈ k.readyList, k.priority u ≤ k.priority t := by
  obtain ⟨u, l, hl⟩ := List.exists_cons_of_ne_nil hne
  obtain ⟨t, ht, hmem, hmax⟩ := listMax_spec (threadPriorityLess_compares k (u :: l))
  refine ⟨t, hl ▸ hmem, ?_, hl ▸ hmax⟩
  rw [Kernel.readyMax, hl]
  simp only [ht, Option.map_some]

theorem inspectsThreads_iff (hk : Consistent k) : k.InspectsThreads n ↔ k.readyList ≠ [] := by
  constructor
  · rintro ⟨-, ⟨t, ht, -⟩, -⟩
    exact List.ne_nil_of_mem ht
  · intro hne
    obtain ⟨t, ht, hmax, hle⟩ := readyMax_eq hne
    refine ⟨fun u hu => ⟨hk.threads.ready_lt u hu, ?_⟩, ⟨t, ht, hmax⟩, fun g => ?_⟩
    · rw [hk.threads.ready u hu]
      nofun
    · have hiff : n < k.priority t ↔ ∃ u ∈ k.readyList, n < k.priority u :=
        ⟨fun h => ⟨t, ht, h⟩, fun ⟨u, hu, h⟩ => h.trans_le (hle u hu)⟩
      simp only [exec, readyMaxPriority_eq, hmax, Option.map_some, Option.bind_eq_bind,
        Option.bind_some, Kernel.entryPriority, hiff]

/-- **When `thread_set_priority` inspects threads only.**  In every state before the preemption
test, and, without a switch in between, in every state in which the function begins. -/
theorem set_priority_inspects_iff (hr : Reachable step G (boot v) k) :
    (∀ n g st, k.code = .threadSetPriorityPreempt n g :: st →
      (k.InspectsThreads n ↔ k.readyList ≠ [])) ∧
    ∀ n g st, k.code = .threadSetPriority n g :: st →
      ((∀ k', step .run k = some k' → k'.code = .threadSetPriorityPreempt n g :: st →
          k'.InspectsThreads n) ↔
        (k.priorityOld k.current = k.priority k.current → k.readyList ≠ [])) := by
  have hk := reachable_consistent hr
  refine ⟨fun n g st _ => inspectsThreads_iff hk, fun n g st hcode => ?_⟩
  have hstep := step_set_priority hcode
  have hk' := hk.step hstep
  rw [hstep]
  simp only [Option.some.injEq, forall_eq']
  rw [inspectsThreads_iff hk']
  unfold Kernel.threadSetPriority
  by_cases he : k.priorityOld k.current = k.priority k.current
  · rw [if_pos (by exact he)]
    have hto : (Kernel.push { k.popped st with
        priority := update k.priority k.current n
        priorityOld := update k.priorityOld k.current n }
          (.threadSetPriorityPreempt n g)).code = .threadSetPriorityPreempt n g :: st := by
      rw [Kernel.push_code]
      exact congrArg _ (popped_code k st)
    exact ⟨fun h _ => h hto, fun h _ => h he⟩
  · rw [if_neg (by exact he)]
    refine ⟨fun _ h => absurd h he, fun _ h => ?_⟩
    -- the function has returned
    have hst : st = .threadSetPriorityPreempt n g :: st := (popped_code k st).symm.trans h
    exact absurd (congrArg List.length hst) (by simp)

/-- Thread `2`, of priority `5`, is ready. -/
theorem set_priority_inspects_ready : ∃ k, Reachable step coop (boot fun _ => 0) k ∧
    k.code = [.threadSetPriority 10 0] ∧ k.readyList = [2] ∧
    ∀ k', step .run k = some k' → k'.code = [.threadSetPriorityPreempt 10 0] →
      k'.InspectsThreads 10 := by
  have hex : (execute step (Call.steps (.threadCreate 5) 11 ++
      Call.steps (.threadSetPriority 10 0) 0) (boot fun _ => 0)).any fun k =>
        k.code = [.threadSetPriority 10 0] ∧ k.readyList = [2] := by
    decide +kernel
  obtain ⟨k, hk, he⟩ := (Option.any_eq_true _ _).mp hex
  obtain ⟨hcode, hready⟩ := of_decide_eq_true he
  have hr := execute_reachable (G := coop) (coop_of_call_run (by simp [Call.steps])) .refl hk
  refine ⟨k, hr, hcode, hready, ?_⟩
  exact ((set_priority_inspects_iff hr).2 10 0 [] hcode).mpr fun _ => by rw [hready]; simp

/-- The initial thread is alone with the idle thread, and sets its priority to `10`. -/
theorem set_priority_takes_tail : ∃ k, Reachable step coop (boot fun _ => 0) k ∧
    k.code = [.threadSetPriorityPreempt 10 63] ∧ k.readyList = [] ∧ k.readyMax = some .tail ∧
    ¬ k.InspectsThreads 10 := by
  have hex : (execute step (Call.steps (.threadSetPriority 10 63) 1) (boot fun _ => 0)).any
      fun k => k.code = [.threadSetPriorityPreempt 10 63] ∧ k.readyList = [] := by
    decide +kernel
  obtain ⟨k, hk, he⟩ := (Option.any_eq_true _ _).mp hex
  obtain ⟨hcode, hready⟩ := of_decide_eq_true he
  have hr := execute_reachable (G := coop) (coop_of_call_run (by simp [Call.steps])) .refl hk
  refine ⟨k, hr, hcode, hready, by rw [Kernel.readyMax, hready], ?_⟩
  rw [inspectsThreads_iff (reachable_consistent hr)]
  exact not_not_intro hready

end CSE130.Lab2
