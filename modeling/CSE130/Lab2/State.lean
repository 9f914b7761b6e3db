import Mathlib.Logic.Function.Basic
import CSE130.Lab2.List
import Mathlib.Algebra.Ring.Nat

/-! # The state of the Lab 2 kernel

The heap is split by struct field: a pointer to a `struct thread`, `struct lock` or
`struct semaphore` is an identifier, and every field is a map from identifiers.  Identifiers
are never reused, so a thread that has exited keeps its (stale) fields.

* **Threads** are numbered in the order of their creation; `0` is the initial thread and `1`
  the idle thread.
* **Semaphores** are those of the program (`sema`), the ones inside locks (`lock`) and the
  ones that `condvar_wait` keeps on the waiting thread's stack (`waiter`).
* **Lists** (`ready_list`, `sema->waiters`, `t->donators`, `cond->waiters`) are Lean lists from
  front to back.
* **Control.**  What a thread has still to execute is a stack of `Frame`s, one per C function
  it is inside of; a frame says which statement of the function comes next and carries its
  arguments.  An empty stack is a thread that is outside the modelled functions.

`kernel_thread`'s bookkeeping, thread names, `all_list`, tick statistics and the saved stack
pointer are left out: no modelled function reads them. -/

namespace CSE130.Lab2

open Function (update)

/-- A pointer to a `struct thread`. -/
abbrev Thread := ℕ

/-- A pointer to a `struct lock`: `tid_lock` of `thread.c`, or a lock of the program. -/
inductive Lock where
  | tid
  | user (i : ℕ)
deriving DecidableEq

/-- A pointer to a `struct condvar`. -/
abbrev Condvar := ℕ

/-- A pointer to a `struct semaphore`. -/
inductive Semaphore where
  | sema (i : ℕ)
  | lock (l : Lock)
  | waiter (i : ℕ)
deriving DecidableEq

/-- `enum thread_status`. -/
inductive ThreadStatus where
  | running
  | ready
  | blocked
  | dying
deriving DecidableEq

/-- `PRI_MIN`. -/
def priMin : ℤ := 0
/-- `PRI_DEFAULT`. -/
def priDefault : ℤ := 31
/-- `PRI_MAX`. -/
def priMax : ℤ := 63
/-- The values of an `unsigned`. -/
def unsignedSize : ℕ := 2 ^ 32

/-- Where a thread is inside a function of the kernel: the statement it executes next. -/
inductive Frame where
  /-- `lock_acquire`: the assertions and `if (lock->holder != NULL)`. -/
  | lockAcquire (l : Lock)
  /-- `if (!list_contains(&lock->holder->donators, &lock->lockelem))`. -/
  | lockAcquireContains (l : Lock)
  /-- `list_push_back(&lock->holder->donators, &lock->lockelem)`. -/
  | lockAcquirePush (l : Lock)
  /-- `lock->donator = thread_current()`. -/
  | lockAcquireDonator (l : Lock)
  /-- `if (thread_current()->priority > lock->holder->priority)`. -/
  | lockAcquireCompare (l : Lock)
  /-- `thread_current()->blocker = lock`, then the call of `donate`. -/
  | lockAcquireBlocker (l : Lock)
  /-- The call of `semaphore_down`. -/
  | lockAcquireDown (l : Lock)
  /-- `lock->holder = thread_current()`. -/
  | lockAcquireHold (l : Lock)
  /-- `donate`: `lock->holder->priority = thread_current()->priority`. -/
  | donate (l : Lock)
  /-- The test of `donate` and its recursive call. -/
  | donateNext (l : Lock)
  /-- `lock_release`: the assertion and `lock->holder = NULL`. -/
  | lockRelease (l : Lock)
  /-- From `if (lock->donator != NULL)` to the call of `semaphore_up`. -/
  | lockReleaseRevoke (l : Lock)
  /-- `semaphore_down`, at its first test of the value. -/
  | semaphoreDown (s : Semaphore)
  /-- `semaphore_down`, back from `thread_block`: the value is tested again. -/
  | semaphoreDownLoop (s : Semaphore)
  /-- `semaphore_up`. -/
  | semaphoreUp (s : Semaphore)
  /-- `condvar_wait`: the assertions, `semaphore_init` and `list_push_back`. -/
  | condvarWait (c : Condvar) (l : Lock)
  /-- Back from `lock_release`: the call of `semaphore_down(&waiter)`; `waiter` is number
  `w`. -/
  | condvarWaitDown (c : Condvar) (l : Lock) (w : ℕ)
  /-- Back from `semaphore_down`: the call of `lock_acquire`. -/
  | condvarWaitAcquire (l : Lock) (w : ℕ)
  /-- Back from `lock_acquire`: the return, which ends the life of `waiter`. -/
  | condvarWaitReturn (w : ℕ)
  /-- `condvar_signal`. -/
  | condvarSignal (c : Condvar) (l : Lock)
  /-- `condvar_broadcast`, at the test of its loop. -/
  | condvarBroadcast (c : Condvar) (l : Lock)
  /-- `thread_create`: allocation of the page and `init_thread`. -/
  | threadCreate (p : ℤ)
  /-- `allocate_tid`, the lock acquired: `tid = next_tid++`. -/
  | allocateTid (t : Thread)
  /-- Back in `thread_create` with the tid: `thread_unblock(t)`. -/
  | threadCreateUnblock (t : Thread)
  /-- `if (thread_current()->priority < t->priority) thread_yield()`. -/
  | threadCreatePreempt (t : Thread)
  /-- `thread_set_priority`: the test and the assignments.  The second argument is the word
  that the preemption test reads when `ready_list` is empty. -/
  | threadSetPriority (n g : ℤ)
  /-- The preemption test of `thread_set_priority`. -/
  | threadSetPriorityPreempt (n g : ℤ)
  /-- `thread_yield`. -/
  | threadYield
  /-- `thread_exit`. -/
  | threadExit
  /-- The loop of `idle`: `thread_block()`. -/
  | idle
deriving DecidableEq

/-- The kernel: one map for every struct field, the globals of `thread.c`, and the control of
every thread. -/
structure Kernel where
  status : Thread → ThreadStatus
  priority : Thread → ℤ
  priorityOld : Thread → ℤ
  donators : Thread → List Lock
  blocker : Thread → Option Lock
  tid : Thread → ℕ
  stack : Thread → List Frame
  holder : Lock → Option Thread
  donator : Lock → Option Thread
  value : Semaphore → ℕ
  waiters : Semaphore → List Thread
  /-- `cond->waiters`: the numbers of the `waiter` semaphores linked in it. -/
  condWaiters : Condvar → List ℕ
  readyList : List Thread
  /-- The running thread. -/
  current : Thread
  idleThread : Thread
  nextTid : ℕ
  /-- Threads created so far. -/
  threads : ℕ
  /-- Semaphores that `condvar_wait` has put on a stack so far. -/
  frames : ℕ

/-- The kernel after `thread_start`: the initial thread runs, the idle thread is blocked in its
loop, all locks are free, and semaphore `i` of the program has been initialised to `v i`. -/
def boot (v : ℕ → BitVec 32) : Kernel where
  status t := if t = 0 then .running else .blocked
  priority t := if t = 0 then priDefault else priMin
  priorityOld t := if t = 0 then priDefault else priMin
  donators _ := []
  blocker _ := none
  tid t := t + 1
  stack t := if t = 1 then [.idle] else []
  holder _ := none
  donator _ := none
  value
    | .sema i => (v i).toNat
    | .lock _ => 1
    | .waiter _ => 0
  waiters _ := []
  condWaiters _ := []
  readyList := []
  current := 0
  idleThread := 1
  nextTid := 3
  threads := 2
  frames := 0

namespace Kernel

/-- Enter a function, or go to its next statement: `f` is on top of the running thread's
stack. -/
def push (k : Kernel) (f : Frame) : Kernel :=
  { k with stack := update k.stack k.current (f :: k.stack k.current) }

/-- What the running thread has still to execute. -/
def code (k : Kernel) : List Frame := k.stack k.current

@[simp] theorem push_stack (k : Kernel) (f : Frame) :
    (k.push f).stack = update k.stack k.current (f :: k.code) := rfl

@[simp] theorem push_current (k : Kernel) (f : Frame) : (k.push f).current = k.current := rfl

@[simp] theorem push_code (k : Kernel) (f : Frame) : (k.push f).code = f :: k.code := by
  simp [push, code]

end Kernel

end CSE130.Lab2
