import CSE130.Lab2.Threads

/-! # External interrupts (`interrupt.c`, `ide.c`)

`intr_handler` runs the handler of an external interrupt with `in_external_intr` set.  A handler
cannot switch: `thread_yield` asserts `!intr_context()`.  It can ask `intr_handler` to yield when it
returns, as `thread_tick` does at the end of a time slice.

The disk's handler calls `semaphore_up`, whose comment allows this.  But `semaphore_up` calls
`thread_yield` when the thread it wakes is above the running one, which for an interrupt is the
thread that was interrupted.  `semaphore_up_in_interrupt_iff` is when that does not happen. -/

namespace CSE130.Lab2

open Function (update)
open KernelList
open Transition

variable {k k' : Kernel} {s : Semaphore} {t u w : Thread} {ws : List Thread}
  {v : ℕ → BitVec 32}

/-! ### The code with `in_external_intr` -/

namespace Kernel

/-- `thread_yield`, with its assertion; `intr` is `in_external_intr`. -/
def threadYieldIn (k : Kernel) (intr : Bool) : Option Kernel := if intr then none else k.threadYield

/-- `semaphore_up`. -/
def semaphoreUpIn (k : Kernel) (intr : Bool) (s : Semaphore) : Option Kernel :=
  let k := { k with value := update k.value s ((k.value s + 1) % unsignedSize) }
  if k.waiters s = [] then some k
  else do
    let sorted ← listSort k.threadPriorityLess (k.waiters s)
    let toRun ← sorted.getLast?
    let k ← threadUnblock { k with waiters := update k.waiters s sorted.dropLast } toRun
    if k.priority toRun > k.priority k.current then k.threadYieldIn intr else some k

end Kernel

theorem semaphoreUpIn_false (k : Kernel) (s : Semaphore) :
    k.semaphoreUpIn false s = k.semaphoreUp s := rfl

/-- An external interrupt: of the timer, with whether the time slice has ended, or of a disk whose
`completion_wait` is the semaphore of the program with this number. -/
inductive Irq where
  | timer (expired : Bool)
  | disk (i : ℕ)

/-- The handlers, `timer_interrupt` and `interrupt_handler`, with `yield_on_return`. -/
def Kernel.handle (k : Kernel) : Irq → Option (Kernel × Bool)
  | .timer expired => some (k, expired)
  | .disk i => (k.semaphoreUpIn true (.sema i)).map fun k => (k, false)

/-- `intr_handler` on an external interrupt. -/
def Kernel.intrHandler (k : Kernel) (irq : Irq) : Option Kernel := do
  let (k, yieldOnReturn) ← k.handle irq
  if yieldOnReturn then k.threadYieldIn false else some k

/-- The machine with external interrupts. -/
inductive Input where
  | act (a : Action)
  | irq (q : Irq)

/-- One step: an interrupt comes only while interrupts are on. -/
def interruptible : Input → Kernel → Option Kernel
  | .act a, k => step a k
  | .irq q, k => if intrOff k then none else k.intrHandler q

/-! ### `semaphore_up` in a handler -/

theorem semaphoreUpIn_true (h : k.semaphoreUpIn true s = some k') :
    (k.waiters s = [] ∧
      k' = { k with value := update k.value s ((k.value s + 1) % unsignedSize) }) ∨
    ∃ w ws, List.Perm (w :: ws) (k.waiters s) ∧ (∀ u ∈ ws, k.priority u ≤ k.priority w) ∧
      k.priority w ≤ k.priority k.current ∧ k' = k.woken s w ws := by
  unfold Kernel.semaphoreUpIn at h
  dsimp only at h
  split at h
  · rename_i hw
    cases h
    exact .inl ⟨hw, rfl⟩
  · right
    simp only [Option.bind_eq_bind, Option.bind_eq_some_iff] at h
    obtain ⟨sorted, hs, w, hw, k₁, hu, h⟩ := h
    obtain ⟨hperm, hle⟩ := pop_back_spec (k := k) hs hw
    unfold Kernel.threadUnblock at hu
    split at hu
    · cases hu
      split at h
      · cases h
      · rename_i hp
        cases h
        exact ⟨w, sorted.dropLast, hperm, hle, by simpa using hp, rfl⟩
    · cases hu

theorem Scheduled.semaphoreUpIn_isSome (hk : Scheduled k)
    (hle : ∀ w ∈ k.waiters s, k.priority w ≤ k.priority k.current) :
    (k.semaphoreUpIn true s).isSome := by
  unfold Kernel.semaphoreUpIn
  dsimp only
  by_cases he : k.waiters s = []
  · rw [if_pos he]
    rfl
  · obtain ⟨sorted, w, hs, hw⟩ := exists_back (k := k) he
    have hmem : w ∈ k.waiters s := (listSort_perm hs).subset (List.mem_of_getLast? hw)
    have hs' : listSort (Kernel.threadPriorityLess
      { k with value := update k.value s ((k.value s + 1) % unsignedSize) }) (k.waiters s) =
        some sorted := hs
    have hnot : ¬ k.priority k.current < k.priority w := not_lt.mpr (hle w hmem)
    simp only [if_neg he, hs', hw, Kernel.threadUnblock, (hk.waiting s w hmem).1, if_true,
      Option.bind_eq_bind, Option.bind_some, gt_iff_lt, if_neg hnot, Option.isSome_some]

namespace Kernel

/-- What the comment promises: called from a handler, `semaphore_up` fails no assertion, makes one
waiter of the highest priority ready if anybody waits, and does not switch. -/
def UpInInterrupt (k : Kernel) (s : Semaphore) : Prop :=
  ∃ k', k.semaphoreUpIn true s = some k' ∧ k'.current = k.current ∧
    k'.value s = (k.value s + 1) % unsignedSize ∧
    ((k.waiters s = [] ∧ k'.readyList = k.readyList) ∨
      ∃ w ws, List.Perm (w :: ws) (k.waiters s) ∧ (∀ u ∈ ws, k.priority u ≤ k.priority w) ∧
        k'.waiters s = ws ∧ k'.readyList = k.readyList ++ [w] ∧ k'.status w = .ready)

end Kernel

/-! ### Every state -/

theorem Consistent.semaphoreUpIn (hk : Consistent k) (h : k.semaphoreUpIn true s = some k') :
    Consistent k' := by
  obtain ⟨-, rfl⟩ | ⟨w, ws, hp, -, -, rfl⟩ := semaphoreUpIn_true h
  · exact ⟨⟨hk.control.shape, hk.control.idle, hk.control.fresh, hk.control.owned,
      hk.control.unique⟩, ⟨⟨hk.threads.idle, hk.threads.idle_lt, hk.threads.ready,
      hk.threads.ready_lt, hk.threads.ready_nodup, hk.threads.idle_not_ready,
      hk.threads.waiting, hk.threads.waiting_lt, hk.threads.waiting_nodup,
      hk.threads.creating⟩, hk.threads.running, hk.threads.current_lt⟩⟩
  · exact ⟨⟨hk.control.shape, hk.control.idle, hk.control.fresh, hk.control.owned,
      hk.control.unique⟩, hk.threads.woken hp⟩

theorem Consistent.interruptible {e : Input} (hk : Consistent k)
    (h : interruptible e k = some k') : Consistent k' := by
  cases e with
  | act a => exact hk.step h
  | irq q =>
      simp only [Lab2.interruptible] at h
      split at h
      · cases h
      rename_i hon
      cases q with
      | timer expired =>
          simp only [Kernel.intrHandler, Kernel.handle, Option.bind_eq_bind, Option.bind_some] at h
          split at h
          · refine hk.step (a := .timer) ?_
            rw [Lab2.step, if_neg hon]
            exact h
          · cases h
            exact hk
      | disk i =>
          simp only [Kernel.intrHandler, Kernel.handle, Option.bind_eq_bind,
            Option.bind_eq_some_iff, Option.map_eq_some_iff] at h
          obtain ⟨-, ⟨k₁, h₁, rfl⟩, h⟩ := h
          cases h
          exact hk.semaphoreUpIn h₁

theorem reachable_interruptible {G : Kernel → Input → Prop}
    (hr : Reachable interruptible G (boot v) k) : Consistent k :=
  hr.invariant ⟨boot_stacks v, boot_scheduled v⟩ fun _ _ _ _ hk _ hs => hk.interruptible hs

/-- **When `semaphore_up` is safe in an interrupt handler**: nobody who waits is above the
interrupted thread. -/
theorem semaphore_up_in_interrupt_iff {G : Kernel → Input → Prop}
    (hr : Reachable interruptible G (boot v) k) (s : Semaphore) :
    k.UpInInterrupt s ↔ ∀ w ∈ k.waiters s, k.priority w ≤ k.priority k.current := by
  have hk := (reachable_interruptible hr).threads
  constructor
  · rintro ⟨k', h, -⟩ u hu
    obtain ⟨he, -⟩ | ⟨w, ws, hp, hmax, hle, -⟩ := semaphoreUpIn_true h
    · rw [he] at hu
      cases hu
    · rcases List.mem_cons.mp (hp.symm.subset hu) with rfl | hu
      · exact hle
      · exact (hmax u hu).trans hle
  · intro hle
    obtain ⟨k', h⟩ := Option.isSome_iff_exists.mp (hk.semaphoreUpIn_isSome hle)
    refine ⟨k', h, ?_⟩
    obtain ⟨he, rfl⟩ | ⟨w, ws, hp, hmax, -, rfl⟩ := semaphoreUpIn_true h
    · exact ⟨rfl, Function.update_self .., .inl ⟨he, rfl⟩⟩
    · exact ⟨rfl, Function.update_self .., .inr ⟨w, ws, hp, hmax, Function.update_self .., rfl,
        Function.update_self ..⟩⟩

/-- Thread `2` has the initial thread's priority and waits for the disk. -/
theorem semaphore_up_in_interrupt_equal :
    ∃ k, Reachable interruptible (fun _ _ => True) (boot fun _ => 0) k ∧
      k.waiters (.sema 0) = [2] ∧ k.current = 0 ∧ k.UpInInterrupt (.sema 0) := by
  have hex : (execute interruptible ((Call.steps (.threadCreate 31) 11 ++
      Call.steps .threadYield 1 ++ Call.steps (.semaphoreDown 0) 1).map .act)
        (boot fun _ => 0)).any fun k => k.waiters (.sema 0) = [2] ∧ k.current = 0 ∧
          k.priority 2 ≤ k.priority 0 := by
    decide +kernel
  obtain ⟨k, hk, he⟩ := (Option.any_eq_true _ _).mp hex
  obtain ⟨hw, hc, hp⟩ := of_decide_eq_true he
  have hr : Reachable interruptible (fun _ _ => True) (boot fun _ => 0) k :=
    execute_reachable (fun _ _ _ => trivial) .refl hk
  refine ⟨k, hr, hw, hc, (semaphore_up_in_interrupt_iff hr (.sema 0)).mpr fun w hw' => ?_⟩
  rw [hw, List.mem_singleton] at hw'
  rw [hw', hc]
  exact hp

/-- The initial thread waits for the disk and the idle thread runs: the interrupt that is to wake
the initial thread fails the assertion of `thread_yield`. -/
theorem semaphore_up_in_interrupt_asserts :
    ∃ k, Reachable interruptible (fun _ _ => True) (boot fun _ => 0) k ∧
      k.waiters (.sema 0) = [0] ∧ k.current = k.idleThread ∧ intrOff k = false ∧
      interruptible (.irq (.disk 0)) k = none ∧ ¬ k.UpInInterrupt (.sema 0) := by
  have hex : (execute interruptible ((Call.steps (.semaphoreDown 0) 1).map .act)
      (boot fun _ => 0)).any fun k => k.waiters (.sema 0) = [0] ∧ k.current = k.idleThread ∧
        intrOff k = false ∧ (interruptible (.irq (.disk 0)) k).isNone ∧
          (k.semaphoreUpIn true (.sema 0)).isNone := by
    decide +kernel
  obtain ⟨k, hk, he⟩ := (Option.any_eq_true _ _).mp hex
  obtain ⟨hw, hc, hoff, hirq, hup⟩ := of_decide_eq_true he
  refine ⟨k, execute_reachable (fun _ _ _ => trivial) .refl hk, hw, hc, hoff,
    Option.isNone_iff_eq_none.mp hirq, ?_⟩
  rintro ⟨k', hk', -⟩
  rw [Option.isNone_iff_eq_none.mp hup] at hk'
  cases hk'

end CSE130.Lab2
