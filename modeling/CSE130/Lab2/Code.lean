import CSE130.Lab2.State

/-! # The code of the Lab 2 kernel (`thread.c`, `semaphore.c`, `lock.c`, `condvar.c`)

`exec f k` executes the statement named by frame `f`, which has already been taken off the
running thread's stack, and `none` is a failed `ASSERT` or a null pointer that is dereferenced.
Statements that run with interrupts on are separate frames; a stretch of code between
`intr_disable` and the matching `intr_set_level` is one step, up to the `schedule()` it may
reach.

A step of the machine (`step`) is one of

* `call c`: the running thread, outside the modelled functions, calls one of them;
* `run`: the running thread executes its next statement;
* `timer`: the timer interrupt makes the running thread yield, at a point where interrupts are
  on;
* `race d p`: what operations on a `donators` list that preempted one another in the middle of
  a statement may leave behind: any contents of these lists, hence any priorities recomputed
  from them.

With `call` and `run` alone (`coop`), control moves to another thread only in `schedule()`. -/

namespace CSE130.Lab2

open Function (update)
open KernelList

namespace Kernel

/-! ### `thread.c` -/

/-- `thread_priority_less`. -/
def threadPriorityLess (k : Kernel) : Thread → Thread → Option Bool :=
  lessBy fun t => some (k.priority t)

/-- `next_thread_to_run`: the thread, and the ready list it leaves. -/
def nextThreadToRun (k : Kernel) : Option (Thread × List Thread) :=
  if k.readyList = [] then some (k.idleThread, [])
  else do
    let sorted ← listSort k.threadPriorityLess k.readyList
    let next ← sorted.getLast?
    some (next, sorted.dropLast)

/-- `schedule` and `thread_schedule_tail`. -/
def schedule (k : Kernel) : Option Kernel := do
  let (next, ready) ← k.nextThreadToRun
  some { k with
    readyList := ready
    current := next
    status := update k.status next .running }

/-- `thread_block`. -/
def threadBlock (k : Kernel) : Option Kernel :=
  schedule { k with status := update k.status k.current .blocked }

/-- `thread_unblock`. -/
def threadUnblock (k : Kernel) (t : Thread) : Option Kernel :=
  if k.status t = .blocked then
    some { k with readyList := k.readyList ++ [t], status := update k.status t .ready }
  else none

/-- `thread_yield`. -/
def threadYield (k : Kernel) : Option Kernel :=
  schedule { k with
    readyList := if k.current = k.idleThread then k.readyList else k.current :: k.readyList
    status := update k.status k.current .ready }

/-- `init_thread` on the page of a new thread. -/
def initThread (k : Kernel) (p : ℤ) : Kernel :=
  { k with
    status := update k.status k.threads .blocked
    priority := update k.priority k.threads p
    priorityOld := update k.priorityOld k.threads p
    donators := update k.donators k.threads []
    blocker := update k.blocker k.threads none
    stack := update k.stack k.threads []
    threads := k.threads + 1 }

/-- `thread_create`, up to the call of `lock_acquire` in `allocate_tid`. -/
def threadCreate (k : Kernel) (p : ℤ) : Option Kernel :=
  if priMin ≤ p ∧ p ≤ priMax then
    some (((k.initThread p).push (.allocateTid k.threads)).push (.lockAcquire .tid))
  else none

/-- `allocate_tid` with `tid_lock` held. -/
def allocateTid (k : Kernel) (t : Thread) : Kernel :=
  ({ k with tid := update k.tid t k.nextTid, nextTid := k.nextTid + 1 }.push
    (.threadCreateUnblock t)).push (.lockRelease .tid)

/-- `thread_set_priority`: the test and the assignments. -/
def threadSetPriority (k : Kernel) (n g : ℤ) : Kernel :=
  if k.priorityOld k.current = k.priority k.current then
    { k with
      priority := update k.priority k.current n
      priorityOld := update k.priorityOld k.current n }.push (.threadSetPriorityPreempt n g)
  else { k with priorityOld := update k.priorityOld k.current n }

/-- The priority that `thread_set_priority` finds for `ready_max`: `list_max` of an empty list
is its tail, and `g` the word that `list_entry` then takes for the priority. -/
def readyMaxPriority (k : Kernel) (g : ℤ) : Option ℤ :=
  match k.readyList with
  | [] => some g
  | t :: l => do
      let m ← listMax k.threadPriorityLess t l
      some (k.priority m)

/-! ### `semaphore.c` -/

/-- The loop of `semaphore_down`: decrement a positive value, or wait and block. -/
def semaphoreDown (k : Kernel) (s : Semaphore) : Option Kernel :=
  if k.value s = 0 then
    threadBlock ({ k with waiters := update k.waiters s (k.current :: k.waiters s) }.push
      (.semaphoreDownLoop s))
  else some { k with value := update k.value s (k.value s - 1) }

/-- `semaphore_up`. -/
def semaphoreUp (k : Kernel) (s : Semaphore) : Option Kernel :=
  let k := { k with value := update k.value s ((k.value s + 1) % unsignedSize) }
  if k.waiters s = [] then some k
  else do
    let sorted ← listSort k.threadPriorityLess (k.waiters s)
    let toRun ← sorted.getLast?
    let k ← threadUnblock { k with waiters := update k.waiters s sorted.dropLast } toRun
    if k.priority toRun > k.priority k.current then k.threadYield else some k

/-- `semaphore_priority_less`: the priorities of the front waiters. -/
def semaphorePriorityLess (k : Kernel) : ℕ → ℕ → Option Bool :=
  lessBy fun w => (k.waiters (.waiter w)).head?.map k.priority

/-! ### `lock.c` -/

/-- `lock_donator_less`: the priorities of the donators. -/
def lockDonatorLess (k : Kernel) : Lock → Lock → Option Bool :=
  lessBy fun l => (k.donator l).map k.priority

/-- `list_remove(&lock->lockelem)`, which is undefined if the element is in no list. -/
def removeLockelem (k : Kernel) (l : Lock) : Option Kernel :=
  if (List.range k.threads).any fun t => l ∈ k.donators t then
    some { k with donators := fun t => (k.donators t).erase l }
  else none

/-- The body of `if (lock->donator != NULL)` in `lock_release`. -/
def revoke (k : Kernel) (l : Lock) : Option Kernel := do
  let k ← k.removeLockelem l
  let k := { k with donator := update k.donator l none }
  if k.donators k.current = [] then
    some { k with priority := update k.priority k.current (k.priorityOld k.current) }
  else
    let sorted ← listSort k.lockDonatorLess (k.donators k.current)
    let k := { k with donators := update k.donators k.current sorted }
    let back ← sorted.getLast?
    let donator ← k.donator back
    let maxPriority := k.priority donator
    some { k with
      priority := update k.priority k.current
        (if maxPriority > k.priorityOld k.current then maxPriority
         else k.priorityOld k.current) }

/-- `lock_release` after `lock->holder = NULL`, up to the call of `semaphore_up`. -/
def lockReleaseRevoke (k : Kernel) (l : Lock) : Option Kernel :=
  (if k.donator l = none then some k else k.revoke l).map fun k =>
    { k with donator := update k.donator l none }.push (.semaphoreUp (.lock l))

/-! ### `condvar.c` -/

/-- `condvar_wait`, up to the call of `lock_release`. -/
def condvarWait (k : Kernel) (c : Condvar) (l : Lock) : Option Kernel :=
  if k.holder l = some k.current then
    some (({ k with
      frames := k.frames + 1
      value := update k.value (.waiter k.frames) 0
      waiters := update k.waiters (.waiter k.frames) []
      condWaiters := update k.condWaiters c (k.condWaiters c ++ [k.frames]) }.push
        (.condvarWaitDown c l k.frames)).push (.lockRelease l))
  else none

/-- `condvar_signal`, up to the call of `semaphore_up`. -/
def condvarSignal (k : Kernel) (c : Condvar) (l : Lock) : Option Kernel :=
  if k.holder l = some k.current then
    if k.condWaiters c = [] then some k
    else do
      let sorted ← listSort k.semaphorePriorityLess (k.condWaiters c)
      let w ← sorted.getLast?
      some ({ k with condWaiters := update k.condWaiters c sorted.dropLast }.push
        (.semaphoreUp (.waiter w)))
  else none

end Kernel

/-! ### One statement -/

/-- Execute the statement that `f` names. -/
def exec (f : Frame) (k : Kernel) : Option Kernel :=
  match f with
  | .lockAcquire l =>
      if k.holder l = some k.current then none
      else if k.holder l = none then some (k.push (.lockAcquireDown l))
      else some (k.push (.lockAcquireContains l))
  | .lockAcquireContains l => do
      let h ← k.holder l
      if l ∈ k.donators h then some (k.push (.lockAcquireDonator l))
      else some (k.push (.lockAcquirePush l))
  | .lockAcquirePush l => do
      let h ← k.holder l
      some ({ k with donators := update k.donators h (k.donators h ++ [l]) }.push
        (.lockAcquireDonator l))
  | .lockAcquireDonator l =>
      some ({ k with donator := update k.donator l (some k.current) }.push
        (.lockAcquireCompare l))
  | .lockAcquireCompare l => do
      let h ← k.holder l
      if k.priority k.current > k.priority h then some (k.push (.lockAcquireBlocker l))
      else some (k.push (.lockAcquireDown l))
  | .lockAcquireBlocker l =>
      some (({ k with blocker := update k.blocker k.current (some l) }.push
        (.lockAcquireDown l)).push (.donate l))
  | .lockAcquireDown l =>
      some ((k.push (.lockAcquireHold l)).push (.semaphoreDown (.lock l)))
  | .lockAcquireHold l => some { k with holder := update k.holder l (some k.current) }
  | .donate l => do
      let h ← k.holder l
      some ({ k with priority := update k.priority h (k.priority k.current) }.push
        (.donateNext l))
  | .donateNext l => do
      let h ← k.holder l
      match k.blocker h with
      | none => some k
      | some m => do
          let g ← k.holder m
          if k.priority g < k.priority k.current then some (k.push (.donate m)) else some k
  | .lockRelease l =>
      if k.holder l = some k.current then
        some ({ k with holder := update k.holder l none }.push (.lockReleaseRevoke l))
      else none
  | .lockReleaseRevoke l => k.lockReleaseRevoke l
  | .semaphoreDown s => k.semaphoreDown s
  | .semaphoreDownLoop s => k.semaphoreDown s
  | .semaphoreUp s => k.semaphoreUp s
  | .condvarWait c l => k.condvarWait c l
  | .condvarWaitDown _ l w => some ((k.push (.condvarWaitAcquire l w)).push (.semaphoreDown (.waiter w)))
  | .condvarWaitAcquire l w => some ((k.push (.condvarWaitReturn w)).push (.lockAcquire l))
  | .condvarWaitReturn _ => some k
  | .condvarSignal c l => k.condvarSignal c l
  | .condvarBroadcast c l =>
      if k.condWaiters c = [] then some k
      else some ((k.push (.condvarBroadcast c l)).push (.condvarSignal c l))
  | .threadCreate p => k.threadCreate p
  | .allocateTid t => some (k.allocateTid t)
  | .threadCreateUnblock t => do
      let k ← k.threadUnblock t
      some (k.push (.threadCreatePreempt t))
  | .threadCreatePreempt t =>
      if k.priority k.current < k.priority t then k.threadYield else some k
  | .threadSetPriority n g => some (k.threadSetPriority n g)
  | .threadSetPriorityPreempt n g => do
      let m ← k.readyMaxPriority g
      if n < m then k.threadYield else some k
  | .threadYield => k.threadYield
  | .threadExit => Kernel.schedule { k with status := update k.status k.current .dying }
  | .idle => (k.push .idle).threadBlock

/-! ### The machine -/

/-- The functions a thread calls. -/
inductive Call where
  | lockAcquire (i : ℕ)
  | lockRelease (i : ℕ)
  | semaphoreDown (i : ℕ)
  | semaphoreUp (i : ℕ)
  | condvarWait (c : Condvar) (i : ℕ)
  | condvarSignal (c : Condvar) (i : ℕ)
  | condvarBroadcast (c : Condvar) (i : ℕ)
  | threadCreate (p : ℤ)
  | threadSetPriority (n g : ℤ)
  | threadYield
  | threadExit
deriving DecidableEq

/-- The first statement of a call. -/
def Call.frame : Call → Frame
  | lockAcquire i => .lockAcquire (.user i)
  | lockRelease i => .lockRelease (.user i)
  | semaphoreDown i => .semaphoreDown (.sema i)
  | semaphoreUp i => .semaphoreUp (.sema i)
  | condvarWait c i => .condvarWait c (.user i)
  | condvarSignal c i => .condvarSignal c (.user i)
  | condvarBroadcast c i => .condvarBroadcast c (.user i)
  | threadCreate p => .threadCreate p
  | threadSetPriority n g => .threadSetPriority n g
  | threadYield => .threadYield
  | threadExit => .threadExit

/-- What may happen next. -/
inductive Action where
  | call (c : Call)
  | run
  | timer
  | race (d : Thread → List Lock) (p : Thread → ℤ)

/-- The running thread is inside the interrupts-off stretch of `semaphore_down`. -/
def intrOff (k : Kernel) : Bool :=
  match k.code with
  | .semaphoreDownLoop _ :: _ => true
  | _ => false

/-- The running thread executes its next statement. -/
def stepRun (k : Kernel) : Option Kernel :=
  match k.code with
  | [] => none
  | f :: rest => exec f { k with stack := update k.stack k.current rest }

/-- One step of the machine. -/
def step : Action → Kernel → Option Kernel
  | .call c, k => if k.code = [] then some (k.push c.frame) else none
  | .run, k => stepRun k
  | .timer, k => if intrOff k then none else k.threadYield
  | .race d p, k => some { k with donators := d, priority := p }

/-- The running thread calls `c`, and `n` statements are executed. -/
def Call.steps (c : Call) (n : ℕ) : List Action := .call c :: List.replicate n .run

/-- Control moves to another thread only in `schedule()`. -/
def coop (_ : Kernel) : Action → Prop
  | .call _ => True
  | .run => True
  | .timer => False
  | .race _ _ => False

theorem coop_of_call_run {as : List Action} (h : ∀ a ∈ as, (∃ c, a = .call c) ∨ a = .run)
    (k : Kernel) : ∀ a ∈ as, coop k a := by
  intro a ha
  rcases h a ha with ⟨c, rfl⟩ | rfl <;> trivial

/-- No restriction on the actions of a run. -/
def anyAction (_ : Kernel) (_ : Action) : Prop := True

end CSE130.Lab2
