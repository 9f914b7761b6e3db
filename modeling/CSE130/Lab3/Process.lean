import CSE130.Lib.Transition
import Mathlib.Data.Int.Notation
import Mathlib.Logic.Function.Basic

/-! # Processes of Lab 3: `process_execute`, `process_wait` and `thread_exit`

A `struct thread` is at the start of a page of the kernel pool, and lives as long as the page:
`thread_create` takes a page and `thread_schedule_tail` frees the page of a dying thread.  The
memory of the kernel is therefore a map from pages to their contents, and a page that holds no
thread keeps the word that is read through a stale pointer to the `value` of the semaphore in it
(`palloc_free_page` fills it with `0xcc`, and whoever gets the page next may write it).

Interrupts are on between any two statements that are modelled, so the timer may preempt
between any two steps.  `semaphore_down`, `semaphore_up` and the switch to another thread are
single steps: they run with interrupts off.  A thread that waits for a device or for a lock
of another part of the kernel is asleep until it is woken.

`none` is a kernel panic or an access through a wild pointer.

Names, priorities (which this scheduler does not look at), page directories, descriptors and
saved stack pointers are left out. -/

namespace CSE130.Lab3

open Function (update)

/-- The number of a page of the kernel pool. -/
abbrev Page := ℕ

/-- `TID_ERROR`. -/
abbrev tidError : ℤ := -1

/-- `enum thread_status`, without `THREAD_DYING`: a dying thread is gone at the end of the step
that sets it. -/
inductive ThreadStatus where
  | running
  | ready
  | blocked
deriving DecidableEq

/-- The statement that a thread executes next. -/
inductive Statement where
  /-- `start_process`, up to the result of `elf_load`. -/
  | load
  /-- Outside the functions below: in user mode, in other system calls, or, for the initial
  thread, in `run_actions`. -/
  | outside
  /-- `thread_create`: the call of `thread_unblock(t)`. -/
  | unblock (t : Page) (tid : ℤ)
  /-- Back in `process_execute`: `thread_current()->child_tid = tid`. -/
  | setChildTid (tid : ℤ)
  /-- `process_execute`: the test of `semaphore_down`. -/
  | executeDown (tid : ℤ)
  /-- `process_wait`: the test of `semaphore_down`. -/
  | waitDown (tid : ℤ)
  /-- `int exit = thread_current()->child_exit`. -/
  | waitRead (tid : ℤ)
  /-- `thread_current()->child_exit = -1`, and the return of `exit`. -/
  | waitReset (tid : ℤ) (exit : ℤ)
  /-- `process_exit`: `semaphore_up(&cur->parent_lock)`. -/
  | exitUp
  /-- `thread_exit`: from `intr_disable()` to the switch that frees the page. -/
  | exitSchedule
  /-- The loop of `idle`. -/
  | idle
deriving DecidableEq

/-- `struct semaphore`. -/
structure Semaphore where
  value : UInt32
  waiters : List Page
deriving DecidableEq

/-- `struct thread`, without its status. -/
structure Thread where
  tid : ℤ
  childTid : ℤ
  childExit : ℤ
  parent : Option Page
  /-- The page whose `parent_lock` the pointer refers to. -/
  childLock : Option Page
  parentLock : Semaphore
  next : Statement
deriving DecidableEq

/-- What is in a page: a thread, or bytes among which is the word at the offset of
`parent_lock.value`. -/
inductive Contents where
  | thread (t : Thread)
  | other (word : UInt32)
deriving DecidableEq

/-- The memory and the globals of `thread.c`.  The statuses are kept apart from the other fields
of the threads: they are all that a switch to another thread changes in the memory. -/
structure Kernel where
  page : Page → Contents
  status : Page → ThreadStatus
  readyList : List Page
  current : Page
  nextTid : ℤ
  /-- Threads that are blocked in parts of the kernel outside the model. -/
  asleep : List Page

/-- `initial_thread`. -/
abbrev initialThread : Page := 0

/-- `idle_thread`. -/
abbrev idleThread : Page := 1

/-- What `palloc_free_multiple` leaves of a page. -/
abbrev freedWord : UInt32 := 0xcccccccc

/-- The kernel after `thread_start`.  The idle thread was created by the initial thread. -/
def boot (w : Page → UInt32) : Kernel where
  page p :=
    if p = initialThread then
      .thread ⟨1, -1, 0, none, some idleThread, ⟨0, []⟩, .outside⟩
    else if p = idleThread then
      .thread ⟨2, 0, 0, some initialThread, none, ⟨0, []⟩, .idle⟩
    else .other (w p)
  status p := if p = initialThread then .running else .blocked
  readyList := []
  current := initialThread
  nextTid := 3
  asleep := []

namespace Kernel

/-- The thread in a page. -/
def thread? (k : Kernel) (p : Page) : Option Thread :=
  match k.page p with
  | .thread t => some t
  | .other _ => none

/-- Assign to a thread. -/
def setThread (k : Kernel) (p : Page) (t : Thread) : Kernel :=
  { k with page := update k.page p (.thread t) }

/-- Assign to the status of a thread. -/
def setStatus (k : Kernel) (p : Page) (s : ThreadStatus) : Kernel :=
  { k with status := update k.status p s }

/-- `schedule`, after the status of the running thread was set: the front of `ready_list`, or
the idle thread, goes on. -/
def schedule (k : Kernel) : Option Kernel :=
  match k.readyList with
  | [] =>
      if (k.thread? idleThread).isSome then
        some { k.setStatus idleThread .running with current := idleThread }
      else none
  | p :: l =>
      if (k.thread? p).isSome then
        some { k.setStatus p .running with readyList := l, current := p }
      else none

/-- `thread_block`. -/
def threadBlock (k : Kernel) : Option Kernel := (k.setStatus k.current .blocked).schedule

/-- `thread_unblock`. -/
def threadUnblock (k : Kernel) (p : Page) : Option Kernel :=
  if (k.thread? p).isSome ∧ k.status p = .blocked then
    some { k.setStatus p .ready with readyList := k.readyList ++ [p] }
  else none

/-- `thread_yield`. -/
def threadYield (k : Kernel) : Option Kernel :=
  if k.current = idleThread then (k.setStatus k.current .ready).schedule
  else schedule { k.setStatus k.current .ready with readyList := k.readyList ++ [k.current] }

/-- Go on to another statement of the running thread. -/
def goto (k : Kernel) (s : Statement) : Option Kernel := do
  let t ← k.thread? k.current
  some (k.setThread k.current { t with next := s })

/-- `semaphore_down(thread_current()->child_lock)`, from the test of `value` on; `s` is the
statement after it.  A thread that blocks comes back to the test. -/
def semaphoreDown (k : Kernel) (s : Statement) : Option Kernel := do
  let t ← k.thread? k.current
  let p ← t.childLock
  match k.page p with
  | .thread u =>
      if u.parentLock.value = 0 then
        (k.setThread p { u with
          parentLock := ⟨0, u.parentLock.waiters ++ [k.current]⟩ }).threadBlock
      else
        (k.setThread p { u with
          parentLock := ⟨u.parentLock.value - 1, u.parentLock.waiters⟩ }).goto s
  | .other w =>
      -- no list of waiters is there to be pushed on
      if w = 0 then none
      else goto { k with page := update k.page p (.other (w - 1)) } s

/-- `semaphore_up(&thread_current()->parent_lock)`; `s` is the statement after it. -/
def semaphoreUp (k : Kernel) (s : Statement) : Option Kernel := do
  let t ← k.thread? k.current
  match t.parentLock.waiters with
  | [] => some (k.setThread k.current { t with
      parentLock := ⟨t.parentLock.value + 1, []⟩, next := s })
  | p :: l => (k.setThread k.current { t with
      parentLock := ⟨t.parentLock.value + 1, l⟩, next := s }).threadUnblock p

/-- `thread_create` up to the call of `thread_unblock`, with the page that `palloc_get_page`
found. -/
def threadCreate (k : Kernel) (p : Page) : Option Kernel := do
  let t ← k.thread? k.current
  let tid := k.nextTid
  match k.page p with
  | .thread _ => none
  | .other _ =>
      let k := { k with nextTid := tid + 1 }
      let k := (k.setThread p ⟨tid, 0, 0, some k.current, none, ⟨0, []⟩, .load⟩).setStatus p .blocked
      some (k.setThread k.current { t with
        childTid := -1, childLock := some p, next := .unblock p tid })

/-- `thread_exit` from `intr_disable()` on: the next thread frees the page. -/
def exitSchedule (k : Kernel) : Option Kernel := do
  let k' ← k.schedule
  some { k' with page := update k'.page k.current (.other freedWord) }

end Kernel

/-- The allocations of `process_execute`. -/
inductive Allocation where
  /-- No page for the copy of the command line. -/
  | noCopy
  /-- No page in `thread_create`. -/
  | noThread
  /-- A page for the new thread. -/
  | thread (p : Page)
deriving DecidableEq

/-- What may happen next. -/
inductive Action where
  /-- The running thread calls `process_execute`. -/
  | execute (a : Allocation)
  /-- It calls `process_wait`. -/
  | wait (tid : ℤ)
  /-- A user process calls `sys_exit`, on its own behalf or from `kill`. -/
  | sysExit (exitcode : ℤ)
  /-- A user process makes an unknown system call, or `elf_load` has failed: `thread_exit`. -/
  | threadExit
  /-- `elf_load` has succeeded. -/
  | loaded
  /-- The running thread executes its next statement. -/
  | run
  | timer
  /-- The running thread blocks outside the model. -/
  | sleep
  /-- A thread that is blocked outside the model is unblocked. -/
  | wake (p : Page)
  /-- A page without a thread is allocated, written or freed. -/
  | scribble (p : Page) (word : UInt32)
deriving DecidableEq

namespace Kernel

/-- The first statements of `process_execute`. -/
def processExecute (k : Kernel) : Allocation → Option Kernel
  | .noCopy => some k
  | .noThread => k.goto (.setChildTid tidError)
  | .thread p => k.threadCreate p

/-- The first test of `process_wait`; if it fails, `-1` is returned. -/
def processWait (k : Kernel) (tid : ℤ) : Option Kernel := do
  let t ← k.thread? k.current
  if t.childTid = tid then k.goto (.waitDown tid) else some k

/-- `thread_current()->parent->child_exit = exitcode`. -/
def sysExit (k : Kernel) (exitcode : ℤ) : Option Kernel := do
  let t ← k.thread? k.current
  let q ← t.parent
  match k.page q with
  | .thread u => (k.setThread q { u with childExit := exitcode }).goto .exitUp
  -- a word of some other object is overwritten
  | .other _ => k.goto .exitUp

/-- The next statement of the running thread. -/
def run (k : Kernel) : Option Kernel := do
  let t ← k.thread? k.current
  match t.next with
  | .load => none
  | .outside => none
  | .unblock p tid => (← k.threadUnblock p).goto (.setChildTid tid)
  | .setChildTid tid => some (k.setThread k.current { t with
      childTid := tid, next := .executeDown tid })
  | .executeDown _ => k.semaphoreDown .outside
  | .waitDown tid => k.semaphoreDown (.waitRead tid)
  | .waitRead tid => k.goto (.waitReset tid t.childExit)
  | .waitReset _ _ => some (k.setThread k.current { t with childExit := -1, next := .outside })
  | .exitUp => k.semaphoreUp .exitSchedule
  | .exitSchedule => k.exitSchedule
  | .idle => k.threadBlock

end Kernel

/-- The running thread is at statement `s`. -/
def Kernel.at? (k : Kernel) (s : Statement) : Bool := (k.thread? k.current).map Thread.next == some s

/-- One step.  Only processes make system calls; the initial thread's `thread_exit` comes
after `shutdown`. -/
def step : Action → Kernel → Option Kernel
  | .execute a, k => if k.at? .outside then k.processExecute a else none
  | .wait tid, k => if k.at? .outside then k.processWait tid else none
  | .sysExit e, k => if k.at? .outside ∧ k.current ≠ initialThread then k.sysExit e else none
  | .threadExit, k =>
      if (k.at? .outside ∨ k.at? .load) ∧ k.current ≠ initialThread then k.goto .exitUp else none
  | .loaded, k => if k.at? .load then k.goto .outside else none
  | .run, k => k.run
  | .timer, k => k.threadYield
  | .sleep, k =>
      if k.at? .outside ∨ k.at? .load ∨ k.at? .exitUp then
        Kernel.threadBlock { k with asleep := k.asleep ++ [k.current] }
      else none
  | .wake p, k =>
      if p ∈ k.asleep then Kernel.threadUnblock { k with asleep := k.asleep.erase p } p else none
  | .scribble p w, k =>
      match k.page p with
      | .thread _ => none
      | .other _ => some { k with page := update k.page p (.other w) }

end CSE130.Lab3
