import CSE130.Lib.Transition
import CSE130.Lib.Queue
import Mathlib.Data.List.Perm.Basic
import Mathlib.Data.List.Nodup
import Mathlib.Data.List.Sort
import Mathlib.Data.Int.Basic
import Mathlib.Tactic.SplitIfs
import Mathlib.Algebra.Ring.Nat
import Mathlib.Algebra.Ring.Int.Defs

/-! # The scheduler of Assignment 4 (`scheduler.c`)

The simulator calls the scheduler back.  A thread that has arrived has a record (`TWrapper`), at
an address of its own, in the queue `all`; it is also in the queue `ready`, or `running` is its
address, or it waits for the simulator.

The queues are those of `queue.h`, which comes without its source: the library's `Queue` is its
contract.  Times are integers, and every callback says what `sim_time ()` is. -/

namespace CSE130.Assignment4

open Transition
open Function (update)

/-- `enum algorithm`. -/
inductive Algorithm where
  | firstComeFirstServed
  | roundRobin
  | nonPreemptivePriority
  | preemptivePriority
  | nonPreemptiveShortestJobFirst
  | preemptiveShortestJobFirst
  | nonPreemptiveShortestRemainingTimeFirst
  | preemptiveShortestRemainingTimeFirst
deriving DecidableEq

/-- The fields of a `thread_t` that are read; a thread is named by its address. -/
structure Thread where
  tid : UInt32
  priority : UInt32

/-- `twrapper_t`. -/
structure TWrapper (τ : Type) where
  t : τ
  wait : ℤ
  arrive : ℤ
  start : ℤ
  «end» : ℤ
  tick : ℤ

/-- The static variables, the records by address, with the next address that `calloc` returns,
and the calls of `sim_dispatch` during a callback. -/
structure State (Q τ : Type) where
  ready : Q
  all : Q
  running : Option ℕ
  wrappers : ℕ → TWrapper τ
  fresh : ℕ
  dispatched : List τ

/-- `a_type`, `gquantum`, and the threads of the simulator. -/
structure Config (τ : Type) where
  algorithm : Algorithm
  quantum : UInt32
  thread : τ → Thread

variable {τ : Type} {lib : Queue ℕ}

/-- `gquantum` as an `int`. -/
def Config.gquantum (c : Config τ) : ℤ := Int.bmod c.quantum.toNat (2 ^ 32)

namespace State

variable (c : Config τ) (now : ℤ) (st : State lib.Q τ)

/-- Change the record at an address. -/
def modify (a : ℕ) (f : TWrapper τ → TWrapper τ) : State lib.Q τ :=
  { st with wrappers := update st.wrappers a (f (st.wrappers a)) }

/-- `thread_comparator`: the difference of two unsigned numbers, as an `int`. -/
def threadComparator (a b : ℕ) : ℤ :=
  Int.bmod ((c.thread (st.wrappers a).t).priority - (c.thread (st.wrappers b).t).priority).toNat
    (2 ^ 32)

/-- `queue_sort (ready, thread_comparator)`. -/
def sortReady : State lib.Q τ := { st with ready := lib.sort st.ready (st.threadComparator c) }

/-- The end of `run_thread`: the thread at the address `a` is put in `running`. -/
def dispatch (a : ℕ) : State lib.Q τ :=
  let st := { st with running := some a }.modify a fun T => { T with wait := T.wait + now }
  { st with dispatched := (st.wrappers a).t :: st.dispatched }

/-- `running = queue_dequeue (ready)`, and on with `k`; `none` is a null pointer. -/
def dequeueReady (k : ℕ → State lib.Q τ → State lib.Q τ) : Option (State lib.Q τ) :=
  (lib.dequeue st.ready).1.map fun a => k a { st with ready := (lib.dequeue st.ready).2 }

/-- The thread `r` gives way to the next one: `f` is done to the record of that one. -/
def swap (r : ℕ) (f : TWrapper τ → TWrapper τ) : Option (State lib.Q τ) :=
  st.dequeueReady fun a st =>
    dispatch now
      (({ st with ready := lib.enqueue st.ready r }.modify a f).modify r fun T =>
        { T with wait := T.wait - now }) a

/-- `run_thread`. -/
def runThread : Option (State lib.Q τ) :=
  match c.algorithm with
  | .nonPreemptivePriority =>
      match st.running with
      | none => (st.sortReady c).dequeueReady fun a st => st.dispatch now a
      | some _ => some st
  | .preemptivePriority =>
      match st.running with
      | none => (st.sortReady c).dequeueReady fun a st => st.dispatch now a
      | some r =>
          if lib.size st.ready ≠ 0 then
            let st := st.sortReady c
            match lib.head st.ready with
            | none => none
            | some a =>
                if (c.thread (st.wrappers a).t).priority < (c.thread (st.wrappers r).t).priority then
                  st.swap now r id
                else some st
          else some (st.dispatch now r)
  | .firstComeFirstServed =>
      match st.running with
      | none => st.dequeueReady fun a st => st.dispatch now a
      | some _ => some st
  | .roundRobin =>
      match st.running with
      | none =>
          st.dequeueReady fun a st => (st.modify a fun T => { T with tick := c.gquantum }).dispatch now a
      | some r =>
          if (st.wrappers r).tick ≤ 0 then st.swap now r fun T => { T with tick := c.gquantum }
          else some st
  | _ => some st

/-- `tick`. -/
def tick : Option (State lib.Q τ) :=
  (if lib.size st.ready > 0 then st.runThread c now
  else
    match st.running with
    | none => some st
    | some r =>
        if (st.wrappers r).tick ≤ 0 then some (st.modify r fun T => { T with tick := c.gquantum })
        else some st).map fun st =>
  match st.running with
  | none => st
  | some r =>
      if c.algorithm = .roundRobin then st.modify r fun T => { T with tick := T.tick - 1 } else st

/-- `sys_exec`. -/
def sysExec (t : τ) : State lib.Q τ :=
  { st with
    wrappers := update st.wrappers st.fresh ⟨t, -now, now, 0, 0, c.gquantum⟩
    fresh := st.fresh + 1
    all := lib.enqueue st.all st.fresh
    ready := lib.enqueue st.ready st.fresh }

/-- `sys_exit`. -/
def sysExit : Option (State lib.Q τ) :=
  st.running.map fun r => { st.modify r fun T => { T with «end» := now + 1 } with running := none }

/-- `sys_read`, and `sys_write`, which calls it. -/
def sysRead : Option (State lib.Q τ) :=
  st.running.map fun r =>
    { st.modify r fun T => { T with wait := T.wait - (now + 1) } with running := none }

/-- `queue_find (all, thread_equalitor, t)`. -/
def findAll [DecidableEq τ] (t : τ) : Option ℕ := lib.find st.all fun a => (st.wrappers a).t = t

/-- `io_complete`. -/
def ioComplete [DecidableEq τ] (t : τ) : Option (State lib.Q τ) :=
  (st.findAll t).map fun a =>
    { st.modify a fun T => { T with wait := T.wait - (now + 1) } with
      ready := lib.enqueue st.ready a }

/-- `io_starting`. -/
def ioStarting [DecidableEq τ] (t : τ) : Option (State lib.Q τ) :=
  (st.findAll t).map fun a => st.modify a fun T => { T with wait := T.wait + now }

end State

/-- The callbacks. -/
inductive Callback (τ : Type) where
  | sysExec (t : τ)
  | tick
  | sysExit (t : τ)
  | sysRead (t : τ)
  | sysWrite (t : τ)
  | ioComplete (t : τ)
  | ioStarting (t : τ)

/-- A callback when `sim_time ()` is `now`. -/
def State.call [DecidableEq τ] (c : Config τ) (st : State lib.Q τ) (now : ℤ) :
    Callback τ → Option (State lib.Q τ)
  | .sysExec t => some (st.sysExec c now t)
  | .tick => st.tick c now
  | .sysExit _ => st.sysExit now
  | .sysRead _ => st.sysRead now
  | .sysWrite _ => st.sysRead now
  | .ioComplete t => st.ioComplete now t
  | .ioStarting t => st.ioStarting now t

/-! ### The simulator -/

/-- Where the simulator has a thread. -/
inductive Phase where
  /-- It has not arrived. -/
  | new
  /-- It has arrived, and is the scheduler's. -/
  | scheduled
  /-- It has requested an I/O operation. -/
  | requested
  /-- Its I/O operation has started. -/
  | started
  | exited
deriving DecidableEq

/-- The simulator with its scheduler; `cpu` is the thread that was dispatched last, until it makes
a system call. -/
structure World (Q τ : Type) where
  st : State Q τ
  phase : τ → Phase
  cpu : Option τ

/-- The phase of the thread that a callback is about. -/
def Callback.next : Callback τ → Option (τ × Phase)
  | .sysExec t => some (t, .scheduled)
  | .tick => none
  | .sysExit t => some (t, .exited)
  | .sysRead t => some (t, .requested)
  | .sysWrite t => some (t, .requested)
  | .ioComplete t => some (t, .scheduled)
  | .ioStarting t => some (t, .started)

/-- The thread on the CPU, when it has made a system call or not. -/
def Callback.leaves : Callback τ → Bool
  | .sysExit _ => true
  | .sysRead _ => true
  | .sysWrite _ => true
  | _ => false

/-- A callback of the simulator. -/
def step [DecidableEq τ] (c : Config τ) (e : Callback τ × ℤ) (w : World lib.Q τ) :
    Option (World lib.Q τ) :=
  (State.call c { w.st with dispatched := [] } e.2 e.1).map fun st =>
    { st := st
      phase := match e.1.next with
        | some (t, p) => update w.phase t p
        | none => w.phase
      cpu := st.dispatched.head?.or (if e.1.leaves then none else w.cpu) }

/-- The simulator's protocol. -/
def Conforms (w : World lib.Q τ) (e : Callback τ × ℤ) : Prop :=
  match e.1 with
  | .sysExec t => w.phase t = .new
  | .tick => True
  | .sysExit t => w.cpu = some t
  | .sysRead t => w.cpu = some t
  | .sysWrite t => w.cpu = some t
  | .ioComplete t => w.phase t = .started
  | .ioStarting t => w.phase t = .requested

/-- `scheduler`: two empty queues; the memory that `calloc` will hand out is arbitrary. -/
def scheduler (lib : Queue ℕ) (wrappers : ℕ → TWrapper τ) : World lib.Q τ :=
  ⟨⟨lib.create, lib.create, none, wrappers, 0, []⟩, fun _ => .new, none⟩

/-! ### What the callbacks do -/

/-- `a_type` is one of the four algorithms that are implemented. -/
def Config.Implemented (c : Config τ) : Prop :=
  c.algorithm = .firstComeFirstServed ∨ c.algorithm = .roundRobin ∨
    c.algorithm = .nonPreemptivePriority ∨ c.algorithm = .preemptivePriority

variable {c : Config τ} {now : ℤ} {st st' st₁ : State lib.Q τ} {f g : ℕ → ℤ} {a r : ℕ} {t : τ}

theorem sysExit_eq (h : st.running = some r) : st.sysExit now =
    some { st.modify r (fun T => { T with «end» := now + 1 }) with running := none } := by
  rw [State.sysExit, h, Option.map_some]

theorem sysRead_eq (h : st.running = some r) : st.sysRead now =
    some { st.modify r (fun T => { T with wait := T.wait - (now + 1) }) with running := none } := by
  rw [State.sysRead, h, Option.map_some]

theorem ioComplete_eq [DecidableEq τ] (h : st.findAll t = some a) : st.ioComplete now t =
    some { st.modify a (fun T => { T with wait := T.wait - (now + 1) }) with
      ready := lib.enqueue st.ready a } := by
  rw [State.ioComplete, h, Option.map_some]

theorem ioStarting_eq [DecidableEq τ] (h : st.findAll t = some a) : st.ioStarting now t =
    some (st.modify a fun T => { T with wait := T.wait + now }) := by
  rw [State.ioStarting, h, Option.map_some]

/-- `f` is added to the waiting times; the records do not change otherwise, but for `tick`. -/
structure Charges (f : ℕ → ℤ) (st st' : State lib.Q τ) : Prop where
  all : st'.all = st.all
  fresh : st'.fresh = st.fresh
  t : ∀ a, (st'.wrappers a).t = (st.wrappers a).t
  wait : ∀ a, (st'.wrappers a).wait = (st.wrappers a).wait + f a
  arrive : ∀ a, (st'.wrappers a).arrive = (st.wrappers a).arrive
  «end» : ∀ a, (st'.wrappers a).«end» = (st.wrappers a).«end»

theorem Charges.refl (st : State lib.Q τ) : Charges (fun _ => 0) st st :=
  ⟨rfl, rfl, fun _ => rfl, fun _ => (Int.add_zero _).symm, fun _ => rfl, fun _ => rfl⟩

theorem Charges.trans (h : Charges f st st₁) (h' : Charges g st₁ st') :
    Charges (fun a => f a + g a) st st' where
  all := h'.all.trans h.all
  fresh := h'.fresh.trans h.fresh
  t a := (h'.t a).trans (h.t a)
  wait a := by rw [h'.wait, h.wait, Int.add_assoc]
  arrive a := (h'.arrive a).trans (h.arrive a)
  «end» a := (h'.end a).trans (h.end a)

/-- A record keeps a field that its change leaves alone. -/
theorem field_update {α : Type} (g : TWrapper τ → α) {m : ℕ → TWrapper τ} (a : ℕ) {T : TWrapper τ}
    (hT : g T = g (m a)) (b : ℕ) : g (update m a T b) = g (m b) := by
  by_cases hb : b = a
  · subst hb
    rw [Function.update_self, hT]
  · rw [Function.update_of_ne hb]

theorem t_update {m : ℕ → TWrapper τ} (a : ℕ) {T : TWrapper τ} (ht : T.t = (m a).t) (b : ℕ) :
    (update m a T b).t = (m b).t := field_update TWrapper.t a ht b

theorem charges_modify (a : ℕ) {u : TWrapper τ → TWrapper τ} {x : ℤ} (ht : ∀ T, (u T).t = T.t)
    (hw : ∀ T, (u T).wait = T.wait + x) (ha : ∀ T, (u T).arrive = T.arrive)
    (he : ∀ T, (u T).«end» = T.«end») : Charges (fun b => if b = a then x else 0) st (st.modify a u) where
  all := rfl
  fresh := rfl
  t := t_update a (ht _)
  wait b := by
    by_cases hb : b = a
    · subst hb
      simp [State.modify, hw]
    · simp [State.modify, hb]
  arrive b := by
    by_cases hb : b = a
    · subst hb
      simp [State.modify, ha]
    · simp [State.modify, hb]
  «end» b := by
    by_cases hb : b = a
    · subst hb
      simp [State.modify, he]
    · simp [State.modify, hb]

theorem charges_modify_zero (a : ℕ) {u : TWrapper τ → TWrapper τ} (ht : ∀ T, (u T).t = T.t)
    (hw : ∀ T, (u T).wait = T.wait) (ha : ∀ T, (u T).arrive = T.arrive)
    (he : ∀ T, (u T).«end» = T.«end») : Charges (fun _ => 0) st (st.modify a u) := by
  have h : Charges _ st (st.modify a u) :=
    charges_modify a (x := 0) ht (fun T => by rw [hw, Int.add_zero]) ha he
  simpa using h

theorem charges_dispatch (now : ℤ) (a : ℕ) (st : State lib.Q τ) :
    Charges (fun b => if b = a then now else 0) st (st.dispatch now a) := by
  have h : Charges _ { st with running := some a } _ := charges_modify a (x := now)
    (u := fun T => { T with wait := T.wait + now }) (fun _ => rfl) (fun _ => rfl) (fun _ => rfl)
    fun _ => rfl
  exact ⟨h.all, h.fresh, h.t, h.wait, h.arrive, h.end⟩

/-- What `run_thread` and `tick` can do: nothing, or a thread gets the idle CPU, or the running
thread gives way to another one. -/
inductive Outcome (now : ℤ) (st st' : State lib.Q τ) : Prop
  | stay : Charges (fun _ => 0) st st' → (lib.items st'.ready).Perm (lib.items st.ready) →
      st'.running = st.running → st'.dispatched = st.dispatched → Outcome now st st'
  | start (a : ℕ) : Charges (fun b => if b = a then now else 0) st st' → st.running = none →
      (lib.items st.ready).Perm (a :: lib.items st'.ready) → st'.running = some a →
      st'.dispatched = (st.wrappers a).t :: st.dispatched → Outcome now st st'
  | preempt (r a : ℕ) (rest : List ℕ) :
      Charges (fun b => (if b = r then -now else 0) + if b = a then now else 0) st st' →
      st.running = some r → (lib.items st.ready).Perm (a :: rest) →
      (lib.items st'.ready).Perm (r :: rest) → st'.running = some a →
      st'.dispatched = (st.wrappers a).t :: st.dispatched → Outcome now st st'

theorem ne_nil_of_perm {l l' : List ℕ} (h : l.Perm l') (hne : l' ≠ []) : l ≠ [] := by
  intro hnil
  rw [hnil] at h
  exact hne h.nil_eq.symm

theorem size_ready_pos (h : lib.items st.ready ≠ []) : lib.size st.ready > 0 := by
  rw [lib.size_eq]
  exact List.length_pos_iff.mpr h

theorem size_ready_nil (h : lib.items st.ready = []) : ¬lib.size st.ready > 0 := by
  rw [lib.size_eq, h]
  exact Nat.lt_irrefl 0

theorem dequeueReady_cases (h : lib.items st.ready ≠ []) (k : ℕ → State lib.Q τ → State lib.Q τ) :
    ∃ a q, lib.items st.ready = a :: lib.items q ∧
      st.dequeueReady k = some (k a { st with ready := q }) := by
  obtain ⟨a, l, hl⟩ := List.exists_cons_of_ne_nil h
  refine ⟨a, (lib.dequeue st.ready).2, ?_, ?_⟩
  · rw [lib.items_dequeue, hl, List.tail_cons]
  · simp [State.dequeueReady, lib.fst_dequeue, hl]

/-- The CPU is idle; `u` is done to the record of the next thread. -/
theorem start_outcome (now : ℤ) {u : ℕ → TWrapper τ → TWrapper τ}
    (hu : ∀ a, Charges (fun _ => 0) st₁ (st₁.modify a (u a))) (hs : Charges (fun _ => 0) st st₁)
    (hq : (lib.items st₁.ready).Perm (lib.items st.ready)) (hd : st₁.dispatched = st.dispatched)
    (hnone : st.running = none)
    (hne : lib.items st.ready ≠ []) :
    ∃ st', (st₁.dequeueReady fun a st => (st.modify a (u a)).dispatch now a) = some st' ∧
      Outcome now st st' ∧ st'.running ≠ none := by
  obtain ⟨a, q, hitems, heq⟩ :=
    dequeueReady_cases (ne_nil_of_perm hq hne) fun a st => (st.modify a (u a)).dispatch now a
  have h := (hs.trans (hu a)).trans (charges_dispatch now a (st₁.modify a (u a)))
  simp only [Int.zero_add] at h
  refine ⟨_, heq, .start a ⟨h.all, h.fresh, h.t, h.wait, h.arrive, h.end⟩ hnone ?_ rfl ?_, nofun⟩
  · rw [hitems] at hq
    exact hq.symm
  · rw [← h.t a, ← hd]
    rfl

/-- The running thread gives way; `u` is done to the record of the next one. -/
theorem swap_outcome {u : TWrapper τ → TWrapper τ}
    (hu : ∀ (st : State lib.Q τ) a, Charges (fun _ => 0) st (st.modify a u))
    (hs : Charges (fun _ => 0) st st₁) (hq : (lib.items st₁.ready).Perm (lib.items st.ready))
    (hd : st₁.dispatched = st.dispatched) (hr : st.running = some r)
    (hne : lib.items st.ready ≠ []) :
    ∃ st', st₁.swap now r u = some st' ∧ Outcome now st st' ∧ st'.running ≠ none := by
  obtain ⟨a, q, hitems, heq⟩ := dequeueReady_cases (ne_nil_of_perm hq hne) fun a st =>
    State.dispatch now (({ st with ready := lib.enqueue st.ready r }.modify a u).modify r fun T =>
      { T with wait := T.wait - now }) a
  let st₂ : State lib.Q τ := { st₁ with ready := lib.enqueue q r }
  have hgive : Charges (fun b => if b = r then -now else 0) (st₂.modify a u) _ :=
    charges_modify r (x := -now) (u := fun T => { T with wait := T.wait - now }) (fun _ => rfl)
      (fun _ => rfl) (fun _ => rfl) fun _ => rfl
  have h₂ : Charges (fun _ => 0) st st₂ := ⟨hs.all, hs.fresh, hs.t, hs.wait, hs.arrive, hs.end⟩
  have h := ((h₂.trans (hu st₂ a)).trans hgive).trans (charges_dispatch now a _)
  simp only [Int.zero_add] at h
  refine ⟨_, heq, .preempt r a (lib.items q) ⟨h.all, h.fresh, h.t, h.wait, h.arrive, h.end⟩ hr ?_ ?_
    rfl ?_, nofun⟩
  · rw [hitems] at hq
    exact hq.symm
  · change (lib.items (lib.enqueue q r)).Perm _
    rw [lib.items_enqueue]
    exact List.perm_append_singleton r _
  · rw [← h.t a, ← hd]
    rfl

theorem charges_id (st : State lib.Q τ) (a : ℕ) : Charges (fun _ => 0) st (st.modify a id) :=
  charges_modify_zero a (fun _ => rfl) (fun _ => rfl) (fun _ => rfl) fun _ => rfl

theorem charges_tick (st : State lib.Q τ) (a : ℕ) (f : TWrapper τ → ℤ) :
    Charges (fun _ => 0) st (st.modify a fun T => { T with tick := f T }) :=
  charges_modify_zero a (fun _ => rfl) (fun _ => rfl) (fun _ => rfl) fun _ => rfl

theorem runThread_outcome (hc : c.Implemented) (hne : lib.items st.ready ≠ []) :
    ∃ st', st.runThread c now = some st' ∧ Outcome now st st' ∧ st'.running ≠ none := by
  have hsort : (lib.items (st.sortReady c).ready).Perm (lib.items st.ready) := lib.items_sort _ _
  have hsorted : Charges (fun _ => 0) st (st.sortReady c) :=
    ⟨rfl, rfl, fun _ => rfl, fun _ => (Int.add_zero _).symm, fun _ => rfl, fun _ => rfl⟩
  have hmodify : ∀ (st : State lib.Q τ) a, st.modify a id = st := by
    intro st a
    simp [State.modify]
  have hstart : ∀ {st₁ : State lib.Q τ}, Charges (fun _ => 0) st st₁ →
      (lib.items st₁.ready).Perm (lib.items st.ready) → st₁.dispatched = st.dispatched →
      st.running = none →
      ∃ st', (st₁.dequeueReady fun a st => st.dispatch now a) = some st' ∧ Outcome now st st' ∧
        st'.running ≠ none := by
    intro st₁ hs hq hd hnone
    have h := start_outcome now (u := fun _ => id) (charges_id st₁) hs hq hd hnone hne
    simpa only [hmodify] using h
  unfold State.runThread
  rcases hc with hc | hc | hc | hc <;> simp only [hc]
  · cases hr : st.running with
    | none => exact hstart (.refl st) (.refl _) rfl hr
    | some r => exact ⟨st, rfl, .stay (.refl st) (.refl _) rfl rfl, by rw [hr]; nofun⟩
  · cases hr : st.running with
    | none =>
        exact start_outcome now (u := fun _ T => { T with tick := c.gquantum })
          (fun a => charges_tick st a _) (.refl st) (.refl _) rfl hr hne
    | some r =>
        dsimp only
        split_ifs with htick
        · exact swap_outcome (fun st a => charges_tick st a _) (.refl st) (.refl _) rfl hr hne
        · exact ⟨st, rfl, .stay (.refl st) (.refl _) rfl rfl, by rw [hr]; nofun⟩
  · cases hr : st.running with
    | none => exact hstart hsorted hsort rfl hr
    | some r => exact ⟨st, rfl, .stay (.refl st) (.refl _) rfl rfl, by rw [hr]; nofun⟩
  · cases hr : st.running with
    | none => exact hstart hsorted hsort rfl hr
    | some r =>
        have hsize : lib.size st.ready ≠ 0 := Nat.ne_of_gt (size_ready_pos hne)
        obtain ⟨a, l, hl⟩ := List.exists_cons_of_ne_nil (ne_nil_of_perm hsort hne)
        have hhead : lib.head (st.sortReady c).ready = some a := by
          rw [lib.head_eq, hl, List.head?_cons]
        simp only [hsize, ne_eq, not_false_iff, if_true, hhead]
        split_ifs with hlt
        · exact swap_outcome charges_id hsorted hsort rfl hr hne
        · exact ⟨_, rfl, .stay hsorted hsort rfl rfl, by
            change st.running ≠ none
            rw [hr]
            nofun⟩

theorem Outcome.trans_tick (h : Outcome now st st₁) (hs : Charges (fun _ => 0) st₁ st')
    (hq : st'.ready = st₁.ready) (hr : st'.running = st₁.running)
    (hd : st'.dispatched = st₁.dispatched) : Outcome now st st' := by
  cases h with
  | stay hc hp hrun hdis =>
      have h := hc.trans hs
      simp only [Int.add_zero] at h
      exact .stay h (by rw [hq]; exact hp) (hr.trans hrun) (hd.trans hdis)
  | start a hc hnone hp hrun hdis =>
      have h := hc.trans hs
      simp only [Int.add_zero] at h
      exact .start a h hnone (by rw [hq]; exact hp) (hr.trans hrun) (hd.trans hdis)
  | preempt r a rest hc hsome hp hp' hrun hdis =>
      have h := hc.trans hs
      simp only [Int.add_zero] at h
      exact .preempt r a rest h hsome hp (by rw [hq]; exact hp') (hr.trans hrun) (hd.trans hdis)

/-- **After `tick ()` the CPU is idle only if no thread is ready.** -/
theorem tick_outcome (st : State lib.Q τ) (hc : c.Implemented) :
    ∃ st', st.tick c now = some st' ∧ Outcome now st st' ∧
      (st'.running = none → lib.items st'.ready = []) := by
  have hfirst : ∃ st₁, (if lib.size st.ready > 0 then st.runThread c now
      else match st.running with
        | none => some st
        | some r =>
            if (st.wrappers r).tick ≤ 0 then some (st.modify r fun T => { T with tick := c.gquantum })
            else some st) = some st₁ ∧ Outcome now st st₁ ∧
      (st₁.running = none → lib.items st₁.ready = []) := by
    by_cases hne : lib.items st.ready = []
    · rw [if_neg (size_ready_nil hne)]
      cases hr : st.running with
      | none => exact ⟨st, rfl, .stay (.refl st) (.refl _) rfl rfl, fun _ => hne⟩
      | some r =>
          dsimp only
          split_ifs with htick
          · exact ⟨_, rfl, .stay (charges_tick st r _) (.refl _) rfl rfl, fun _ => hne⟩
          · exact ⟨st, rfl, .stay (.refl st) (.refl _) rfl rfl, fun _ => hne⟩
    · rw [if_pos (size_ready_pos hne)]
      obtain ⟨st₁, h₁, hout, hrun⟩ := runThread_outcome hc hne
      exact ⟨st₁, h₁, hout, fun hnone => absurd hnone hrun⟩
  obtain ⟨st₁, h₁, hout, hidle⟩ := hfirst
  unfold State.tick
  rw [h₁, Option.map_some]
  refine ⟨_, rfl, ?_⟩
  cases hr : st₁.running with
  | none =>
      refine ⟨hout, fun _ => hidle hr⟩
  | some r =>
      dsimp only
      split_ifs with hrr
      · refine ⟨hout.trans_tick (charges_tick st₁ r _) rfl rfl rfl, fun hnone => ?_⟩
        exact hidle hnone
      · refine ⟨hout, hidle⟩

theorem tick_threads (hc : c.Implemented) (hs : st.tick c now = some st') (a : ℕ) :
    (st'.wrappers a).t = (st.wrappers a).t := by
  obtain ⟨st₁, h₁, hout, -⟩ := tick_outcome st hc
  obtain rfl := Option.some.inj (hs.symm.trans h₁)
  cases hout with
  | stay h => exact h.t a
  | start _ h => exact h.t a
  | preempt _ _ _ h => exact h.t a

/-! ### Every thread is in one place -/

/-- The thread whose record is `running`. -/
def State.runningThread (st : State lib.Q τ) : Option τ :=
  st.running.map fun a => (st.wrappers a).t

/-- The threads whose records are in `ready`. -/
def State.readyThreads (st : State lib.Q τ) : List τ :=
  (lib.items st.ready).map fun a => (st.wrappers a).t

theorem readyThreads_of (h : ∀ a, (st'.wrappers a).t = (st.wrappers a).t) :
    st'.readyThreads = (lib.items st'.ready).map fun a => (st.wrappers a).t :=
  List.map_congr_left fun a _ => h a

/-- `sim_dispatch` is called for a thread that is put in `running`, and for no other. -/
def Dispatches [DecidableEq τ] (st st' : State lib.Q τ) : Prop :=
  st'.dispatched = if st'.runningThread = st.runningThread then [] else st'.runningThread.toList

theorem dispatches_of_same [DecidableEq τ] (hd : st'.dispatched = [])
    (h : st'.runningThread = st.runningThread) : Dispatches st st' := by
  unfold Dispatches
  rw [if_pos h, hd]

theorem dispatches_of_idle [DecidableEq τ] (hd : st'.dispatched = []) (h : st'.running = none) :
    Dispatches st st' := by
  have hidle : st'.runningThread = none := Option.map_eq_none_iff.mpr h
  unfold Dispatches
  rw [hd, hidle]
  split_ifs
  · rfl
  · rfl

/-- In how many of these places a thread is: running, each occurrence in the ready queue, I/O, and
exited. -/
def World.places [DecidableEq τ] (w : World lib.Q τ) (t : τ) : ℕ :=
  (if w.st.runningThread = some t then 1 else 0) + w.st.readyThreads.count t +
    (if w.phase t = .requested ∨ w.phase t = .started then 1 else 0) +
    if w.phase t = .exited then 1 else 0

/-- The invariant: the records of the threads that have arrived are those in `all`, and exactly the
threads that are the scheduler's are in `ready`, once, or running. -/
structure Inv (w : World lib.Q τ) : Prop where
  all : lib.items w.st.all = List.range w.st.fresh
  arrived : ∀ t, w.phase t ≠ .new ↔ ∃ a < w.st.fresh, (w.st.wrappers a).t = t
  distinct : ∀ a b, a < w.st.fresh → b < w.st.fresh →
    (w.st.wrappers a).t = (w.st.wrappers b).t → a = b
  nodup : (lib.items w.st.ready).Nodup
  ready : ∀ a ∈ lib.items w.st.ready, a < w.st.fresh ∧
    w.phase (w.st.wrappers a).t = .scheduled ∧ w.st.running ≠ some a
  running : ∀ a, w.st.running = some a → a < w.st.fresh ∧ w.phase (w.st.wrappers a).t = .scheduled
  cpu : w.cpu = w.st.running.map fun a => (w.st.wrappers a).t
  placed : ∀ a < w.st.fresh, w.phase (w.st.wrappers a).t = .scheduled →
    a ∈ lib.items w.st.ready ∨ w.st.running = some a

variable {w w' : World lib.Q τ}

theorem step_of_call [DecidableEq τ] {cb : Callback τ}
    (h : State.call c { w.st with dispatched := [] } now cb = some st') :
    step c (cb, now) w = some
      { st := st'
        phase := match cb.next with
          | some (t, p) => update w.phase t p
          | none => w.phase
        cpu := st'.dispatched.head?.or (if cb.leaves then none else w.cpu) } := by
  simp only [step, h, Option.map_some]

theorem inv_scheduler (wrappers : ℕ → TWrapper τ) : Inv (scheduler lib wrappers) where
  all := lib.items_create
  arrived t := by simp [scheduler]
  distinct a b ha := absurd ha (Nat.not_lt_zero a)
  nodup := by simp [scheduler, lib.items_create]
  ready a ha := by simp [scheduler, lib.items_create] at ha
  running a ha := by simp [scheduler] at ha
  cpu := rfl
  placed a ha := absurd ha (Nat.not_lt_zero a)

namespace Inv

theorem outcome (h : Inv w) {st : State lib.Q τ} (hst : st = { w.st with dispatched := [] })
    (ho : Outcome now st st') :
    Inv { st := st', phase := w.phase, cpu := st'.dispatched.head?.or w.cpu } := by
  have key : ∀ (g : ℕ → ℤ), Charges g st st' → (lib.items st'.ready).Nodup →
      (∀ a ∈ lib.items st'.ready, a < w.st.fresh ∧ w.phase (w.st.wrappers a).t = .scheduled ∧
        st'.running ≠ some a) →
      (∀ a, st'.running = some a → a < w.st.fresh ∧ w.phase (w.st.wrappers a).t = .scheduled) →
      st'.dispatched.head?.or w.cpu = st'.running.map (fun a => (w.st.wrappers a).t) →
      (∀ a < w.st.fresh, w.phase (w.st.wrappers a).t = .scheduled →
        a ∈ lib.items st'.ready ∨ st'.running = some a) →
      Inv { st := st', phase := w.phase, cpu := st'.dispatched.head?.or w.cpu } := by
    intro g hc hnodup hready hrunning hcpu hplaced
    have hfresh : st'.fresh = w.st.fresh := by rw [hc.fresh, hst]
    have ht : ∀ a, (st'.wrappers a).t = (w.st.wrappers a).t := fun a => by rw [hc.t, hst]
    refine ⟨?_, fun t => ?_, fun a b => ?_, hnodup, fun a => ?_, fun a => ?_, ?_, fun a => ?_⟩
    all_goals simp only [hfresh, ht]
    · rw [hc.all, hst]
      exact h.all
    · exact h.arrived t
    · exact h.distinct a b
    · exact hready a
    · exact hrunning a
    · exact hcpu
    · exact hplaced a
  cases ho with
  | stay hc hp hr hd =>
      subst hst
      refine key _ hc (hp.nodup_iff.mpr h.nodup) (fun a ha => ?_) (fun a ha => ?_) ?_ fun a ha hph => ?_
      · rw [hr]
        exact h.ready a (hp.mem_iff.mp ha)
      · rw [hr] at ha
        exact h.running a ha
      · rw [hd, hr]
        exact h.cpu
      · rw [hr, hp.mem_iff]
        exact h.placed a ha hph
  | start b hc hnone hp hr hd =>
      subst hst
      have hnodup := hp.nodup_iff.mp h.nodup
      have hb := h.ready b (hp.mem_iff.mpr List.mem_cons_self)
      refine key _ hc (List.nodup_cons.mp hnodup).2 (fun a ha => ?_) (fun a ha => ?_) ?_
        fun a ha hph => ?_
      · obtain ⟨h1, h2, -⟩ := h.ready a (hp.mem_iff.mpr (List.mem_cons_of_mem b ha))
        refine ⟨h1, h2, fun heq => ?_⟩
        rw [hr] at heq
        exact (List.nodup_cons.mp hnodup).1 (Option.some.inj heq ▸ ha)
      · rw [hr] at ha
        obtain rfl := Option.some.inj ha
        exact ⟨hb.1, hb.2.1⟩
      · rw [hd, hr]
        rfl
      · rcases h.placed a ha hph with hmem | hrun
        · rcases List.mem_cons.mp (hp.mem_iff.mp hmem) with rfl | hmem
          · exact .inr hr
          · exact .inl hmem
        · exact absurd (hrun.symm.trans hnone) nofun
  | preempt r b rest hc hsome hp hp' hr hd =>
      subst hst
      have hnodup := List.nodup_cons.mp (hp.nodup_iff.mp h.nodup)
      have hb := h.ready b (hp.mem_iff.mpr List.mem_cons_self)
      have hrest : ∀ a ∈ rest, a < w.st.fresh ∧ w.phase (w.st.wrappers a).t = .scheduled ∧ a ≠ r :=
        fun a ha => by
          obtain ⟨h1, h2, h3⟩ := h.ready a (hp.mem_iff.mpr (List.mem_cons_of_mem b ha))
          exact ⟨h1, h2, fun heq => h3 (heq ▸ hsome)⟩
      have hrun := h.running r hsome
      have hbr : b ≠ r := fun heq => hb.2.2 (heq ▸ hsome)
      refine key _ hc (hp'.nodup_iff.mpr (List.nodup_cons.mpr ⟨fun hm => (hrest r hm).2.2 rfl, hnodup.2⟩))
        (fun a ha => ?_) (fun a ha => ?_) ?_ fun a ha hph => ?_
      · rw [hr]
        rcases List.mem_cons.mp (hp'.mem_iff.mp ha) with rfl | hm
        · exact ⟨hrun.1, hrun.2, fun heq => hbr (Option.some.inj heq)⟩
        · exact ⟨(hrest a hm).1, (hrest a hm).2.1, fun heq => hnodup.1 (Option.some.inj heq ▸ hm)⟩
      · rw [hr] at ha
        obtain rfl := Option.some.inj ha
        exact ⟨hb.1, hb.2.1⟩
      · rw [hd, hr]
        rfl
      · rcases h.placed a ha hph with hmem | hrun
        · rcases List.mem_cons.mp (hp.mem_iff.mp hmem) with rfl | hmem
          · exact .inr hr
          · exact .inl (hp'.mem_iff.mpr (List.mem_cons_of_mem r hmem))
        · obtain rfl := Option.some.inj (hsome.symm.trans hrun)
          exact .inl (hp'.mem_iff.mpr List.mem_cons_self)

theorem on_cpu (h : Inv w) (hc : w.cpu = some t) :
    ∃ r, w.st.running = some r ∧ r < w.st.fresh ∧ (w.st.wrappers r).t = t ∧ w.phase t = .scheduled := by
  rw [h.cpu] at hc
  obtain ⟨r, hr, rfl⟩ := Option.map_eq_some_iff.mp hc
  obtain ⟨hlt, hph⟩ := h.running r hr
  exact ⟨r, hr, hlt, rfl, hph⟩

theorem runningThread_eq_some (h : Inv w) {a : ℕ} (ha : a < w.st.fresh) :
    w.st.runningThread = some (w.st.wrappers a).t ↔ w.st.running = some a := by
  unfold State.runningThread
  constructor
  · intro hr
    obtain ⟨r, hr, hra⟩ := Option.map_eq_some_iff.mp hr
    rw [hr, h.distinct r a (h.running r hr).1 ha hra]
  · intro hr
    rw [hr, Option.map_some]

/-- `tick` dispatches the thread that it puts in `running`. -/
theorem outcome_dispatches [DecidableEq τ] (h : Inv w) {st : State lib.Q τ}
    (hst : st = { w.st with dispatched := [] }) (ho : Outcome now st st') :
    Dispatches w.st st' := by
  have hrunning : ∀ {g : ℕ → ℤ}, Charges g st st' → ∀ a, st'.running = some a →
      st'.runningThread = some (w.st.wrappers a).t := by
    intro g hc a hr
    unfold State.runningThread
    rw [hr, Option.map_some, hc.t, hst]
  unfold Dispatches
  cases ho with
  | stay hc hp hr hd =>
      have hsame : st'.runningThread = w.st.runningThread := by
        unfold State.runningThread
        rw [hr, hst]
        refine Option.map_congr fun a _ => ?_
        rw [hc.t, hst]
      rw [if_pos hsame, hd, hst]
  | start a hc hnone hp hr hd =>
      rw [hst] at hnone hd
      have hidle : w.st.runningThread = none := by
        unfold State.runningThread
        exact Option.map_eq_none_iff.mpr hnone
      rw [hrunning hc a hr, hidle, if_neg nofun, hd]
      rfl
  | preempt r a rest hc hsome hp hp' hr hd =>
      rw [hst] at hsome hp hd
      have ha := h.ready a (hp.mem_iff.mpr List.mem_cons_self)
      have hne : w.st.runningThread ≠ some (w.st.wrappers a).t :=
        fun heq => ha.2.2 ((h.runningThread_eq_some ha.1).mp heq)
      rw [hrunning hc a hr, if_neg fun heq => hne heq.symm, hd]
      rfl

theorem apart (h : Inv w) (hp : w.phase t ≠ .scheduled) :
    (∀ a ∈ lib.items w.st.ready, (w.st.wrappers a).t ≠ t) ∧
      ∀ a, w.st.running = some a → (w.st.wrappers a).t ≠ t :=
  ⟨fun a ha heq => hp (heq ▸ (h.ready a ha).2.1), fun a ha heq => hp (heq ▸ (h.running a ha).2)⟩

variable [DecidableEq τ]

/-- `queue_find` finds the record of a thread that has arrived. -/
theorem findAll_eq (h : Inv w) (hp : w.phase t ≠ .new) :
    ∃ a, w.st.findAll t = some a ∧ a < w.st.fresh ∧ (w.st.wrappers a).t = t := by
  unfold State.findAll
  rw [lib.find_eq, h.all]
  obtain ⟨a, ha, hat⟩ := (h.arrived t).mp hp
  cases hf : (List.range w.st.fresh).find? fun a => decide ((w.st.wrappers a).t = t) with
  | none =>
      have hno := List.find?_eq_none.mp hf a (List.mem_range.mpr ha)
      simp [hat] at hno
  | some b =>
      refine ⟨b, rfl, List.mem_range.mp (List.mem_of_find?_eq_some hf), ?_⟩
      simpa using List.find?_some hf

theorem exec (now : ℤ) (h : Inv w) (hp : w.phase t = .new) :
    Inv { st := { w.st with dispatched := [] }.sysExec c now t
          phase := update w.phase t .scheduled
          cpu := w.cpu } := by
  have hne : ∀ a < w.st.fresh, (w.st.wrappers a).t ≠ t := by
    intro a ha hat
    exact (h.arrived t).mpr ⟨a, ha, hat⟩ hp
  have hold : ∀ a < w.st.fresh, a ≠ w.st.fresh := fun a ha => Nat.ne_of_lt ha
  have hready : ∀ a, a ∈ lib.items (lib.enqueue w.st.ready w.st.fresh) ↔
      a ∈ lib.items w.st.ready ∨ a = w.st.fresh := by
    intro a
    rw [lib.items_enqueue, List.mem_append, List.mem_singleton]
  have hnot : w.st.fresh ∉ lib.items w.st.ready := fun hm => absurd (h.ready _ hm).1 (Nat.lt_irrefl _)
  refine ⟨?_, fun u => ?_, fun a b ha hb heq => ?_, ?_, fun a ha => ?_, fun a ha => ?_, ?_,
    fun a ha hph => ?_⟩
  · change lib.items (lib.enqueue w.st.all w.st.fresh) = List.range (w.st.fresh + 1)
    rw [lib.items_enqueue, h.all, List.range_succ]
  · by_cases hu : u = t
    · subst hu
      simp only [Function.update_self]
      refine iff_of_true nofun ⟨w.st.fresh, Nat.lt_succ_self _, ?_⟩
      simp [State.sysExec]
    · simp only [Function.update_of_ne hu]
      rw [h.arrived]
      constructor
      · rintro ⟨a, ha, hau⟩
        refine ⟨a, Nat.lt_succ_of_lt ha, ?_⟩
        simp [State.sysExec, hold a ha, hau]
      · rintro ⟨a, ha, hau⟩
        rcases Nat.lt_succ_iff_lt_or_eq.mp ha with ha | rfl
        · refine ⟨a, ha, ?_⟩
          simpa [State.sysExec, hold a ha] using hau
        · simp [State.sysExec] at hau
          exact absurd hau.symm hu
  · rcases Nat.lt_succ_iff_lt_or_eq.mp ha with ha | rfl <;>
      rcases Nat.lt_succ_iff_lt_or_eq.mp hb with hb | rfl
    · simp [State.sysExec, hold a ha, hold b hb] at heq
      exact h.distinct a b ha hb heq
    · simp [State.sysExec, hold a ha] at heq
      exact absurd heq (hne a ha)
    · simp [State.sysExec, hold b hb] at heq
      exact absurd heq.symm (hne b hb)
    · rfl
  · change (lib.items (lib.enqueue w.st.ready w.st.fresh)).Nodup
    rw [lib.items_enqueue]
    refine List.nodup_append.mpr ⟨h.nodup, List.nodup_singleton _, fun a ha b hb heq => ?_⟩
    rw [List.mem_singleton.mp hb] at heq
    exact hnot (heq ▸ ha)
  · rcases (hready a).mp ha with ha | rfl
    · obtain ⟨hlt, hph, hrun⟩ := h.ready a ha
      refine ⟨Nat.lt_succ_of_lt hlt, ?_, hrun⟩
      simp [State.sysExec, hold a hlt, hne a hlt, hph]
    · refine ⟨Nat.lt_succ_self _, by simp [State.sysExec], fun hrun => ?_⟩
      exact absurd (h.running _ hrun).1 (Nat.lt_irrefl _)
  · obtain ⟨hlt, hph⟩ := h.running a ha
    refine ⟨Nat.lt_succ_of_lt hlt, ?_⟩
    simp [State.sysExec, hold a hlt, hne a hlt, hph]
  · change w.cpu = w.st.running.map _
    rw [h.cpu]
    cases hr : w.st.running with
    | none => rfl
    | some r => simp [State.sysExec, hold r (h.running r hr).1]
  · change a ∈ lib.items (lib.enqueue w.st.ready w.st.fresh) ∨ _
    rw [hready]
    rcases Nat.lt_succ_iff_lt_or_eq.mp ha with ha | rfl
    · simp [State.sysExec, hold a ha, hne a ha] at hph
      rcases h.placed a ha hph with hm | hrun
      · exact .inl (.inl hm)
      · exact .inr hrun
    · exact .inl (.inr rfl)

/-- The records keep their threads; the phase of one thread changes. -/
theorem move (h : Inv w) {p : Phase} (hp : w.phase t ≠ .new) (hp' : p ≠ .new) {st : State lib.Q τ}
    (hall : st.all = w.st.all) (hfresh : st.fresh = w.st.fresh)
    (ht : ∀ a, (st.wrappers a).t = (w.st.wrappers a).t) (hnodup : (lib.items st.ready).Nodup)
    (hready : ∀ a ∈ lib.items st.ready, a < w.st.fresh ∧
      update w.phase t p (w.st.wrappers a).t = .scheduled ∧ st.running ≠ some a)
    (hrunning : ∀ a, st.running = some a → w.st.running = some a ∧ (w.st.wrappers a).t ≠ t)
    (hplaced : ∀ a < w.st.fresh, update w.phase t p (w.st.wrappers a).t = .scheduled →
      a ∈ lib.items st.ready ∨ st.running = some a) :
    Inv { st := st, phase := update w.phase t p, cpu := st.running.map fun a => (w.st.wrappers a).t } := by
  refine ⟨?_, fun u => ?_, fun a b => ?_, hnodup, fun a => ?_, fun a ha => ?_, ?_, fun a => ?_⟩
  all_goals simp only [hfresh, ht]
  · rw [hall]
    exact h.all
  · rw [← h.arrived]
    by_cases hu : u = t
    · subst hu
      rw [Function.update_self]
      exact iff_of_true hp' hp
    · rw [Function.update_of_ne hu]
  · exact h.distinct a b
  · exact hready a
  · obtain ⟨hrun, hne⟩ := hrunning a ha
    rw [Function.update_of_ne hne]
    exact h.running a hrun
  · exact hplaced a

theorem leave (h : Inv w) (hc : w.cpu = some t) {p : Phase} (hp : p ≠ .new) (hp' : p ≠ .scheduled)
    {st : State lib.Q τ} (hall : st.all = w.st.all) (hfresh : st.fresh = w.st.fresh)
    (ht : ∀ a, (st.wrappers a).t = (w.st.wrappers a).t) (hready : st.ready = w.st.ready)
    (hrun : st.running = none) : Inv { st := st, phase := update w.phase t p, cpu := none } := by
  obtain ⟨r, hr, hlt, rfl, hph⟩ := h.on_cpu hc
  have hother : ∀ a < w.st.fresh, a ≠ r → (w.st.wrappers a).t ≠ (w.st.wrappers r).t :=
    fun a ha hne heq => hne (h.distinct a r ha hlt heq)
  have hinv := h.move (p := p) (t := (w.st.wrappers r).t) (by rw [hph]; nofun) hp hall
    hfresh ht (by rw [hready]; exact h.nodup) (fun a ha => ?_) (fun a ha => ?_) fun a ha hph => ?_
  · rw [hrun] at hinv
    exact hinv
  · rw [hready] at ha
    obtain ⟨ha, hph, hnr⟩ := h.ready a ha
    rw [Function.update_of_ne (hother a ha fun heq => hnr (heq ▸ hr)), hrun]
    exact ⟨ha, hph, nofun⟩
  · rw [hrun] at ha
    cases ha
  · by_cases har : a = r
    · subst har
      rw [Function.update_self] at hph
      exact absurd hph hp'
    · rw [Function.update_of_ne (hother a ha har)] at hph
      rw [hready]
      refine .inl ((h.placed a ha hph).resolve_right fun heq => har ?_)
      exact (Option.some.inj (hr.symm.trans heq)).symm

theorem starting (h : Inv w) (st : State lib.Q τ) (hp : w.phase t = .requested)
    (hall : st.all = w.st.all) (hfresh : st.fresh = w.st.fresh)
    (ht : ∀ a, (st.wrappers a).t = (w.st.wrappers a).t) (hready : st.ready = w.st.ready)
    (hrun : st.running = w.st.running) :
    Inv { st := st, phase := update w.phase t .started, cpu := w.cpu } := by
  obtain ⟨happart, happart'⟩ := h.apart (t := t) (by rw [hp]; nofun)
  have hinv := h.move (p := .started) (t := t) (by rw [hp]; nofun) nofun hall hfresh ht
    (by rw [hready]; exact h.nodup) (fun a ha => ?_) (fun a ha => ?_) fun a ha hph => ?_
  · rw [hrun, ← h.cpu] at hinv
    exact hinv
  · rw [hready] at ha
    rw [Function.update_of_ne (happart a ha), hrun]
    exact h.ready a ha
  · rw [hrun] at ha
    exact ⟨ha, happart' a ha⟩
  · have hne : (w.st.wrappers a).t ≠ t := by
      intro heq
      rw [heq, Function.update_self] at hph
      cases hph
    rw [Function.update_of_ne hne] at hph
    rw [hready, hrun]
    exact h.placed a ha hph

theorem complete (h : Inv w) (st : State lib.Q τ) (hp : w.phase t = .started) {a : ℕ}
    (ha : a < w.st.fresh) (hat : (w.st.wrappers a).t = t) (hall : st.all = w.st.all)
    (hfresh : st.fresh = w.st.fresh) (ht : ∀ a, (st.wrappers a).t = (w.st.wrappers a).t)
    (hready : st.ready = lib.enqueue w.st.ready a) (hrun : st.running = w.st.running) :
    Inv { st := st, phase := update w.phase t .scheduled, cpu := w.cpu } := by
  obtain ⟨happart, happart'⟩ := h.apart (t := t) (by rw [hp]; nofun)
  have hmem : ∀ b, b ∈ lib.items st.ready ↔ b ∈ lib.items w.st.ready ∨ b = a := by
    intro b
    rw [hready, lib.items_enqueue, List.mem_append, List.mem_singleton]
  have hinv := h.move (p := .scheduled) (t := t) (by rw [hp]; nofun) nofun hall hfresh ht
    ?_ (fun b hb => ?_) (fun b hb => ?_) fun b hb hph => ?_
  · rw [hrun, ← h.cpu] at hinv
    exact hinv
  · rw [hready, lib.items_enqueue]
    refine List.nodup_append.mpr ⟨h.nodup, List.nodup_singleton _, fun b hb b' hb' heq => ?_⟩
    rw [List.mem_singleton.mp hb'] at heq
    exact happart b hb (heq ▸ hat)
  · rw [hrun]
    rcases (hmem b).mp hb with hb | rfl
    · rw [Function.update_of_ne (happart b hb)]
      exact h.ready b hb
    · rw [hat, Function.update_self]
      exact ⟨ha, rfl, fun heq => happart' b heq hat⟩
  · rw [hrun] at hb
    exact ⟨hb, happart' b hb⟩
  · rw [hmem, hrun]
    by_cases hbt : (w.st.wrappers b).t = t
    · exact .inl (.inr (h.distinct b a hb ha (hbt.trans hat.symm)))
    · rw [Function.update_of_ne hbt] at hph
      rcases h.placed b hb hph with hb | hb
      · exact .inl (.inl hb)
      · exact .inr hb

/-- Every callback of the protocol succeeds and keeps the invariant. -/
theorem step (h : Inv w) (hc : c.Implemented) {e : Callback τ × ℤ} (he : Conforms w e) :
    ∃ w', Assignment4.step c e w = some w' ∧ Inv w' ∧ Dispatches w.st w'.st ∧
      (e.1 = .tick → w'.st.running = none → lib.items w'.st.ready = []) := by
  obtain ⟨cb, now⟩ := e
  cases cb with
  | sysExec t =>
      have hinv := h.exec (c := c) now he
      refine ⟨_, rfl, hinv, ?_, nofun⟩
      exact dispatches_of_same rfl (hinv.cpu.symm.trans h.cpu)
  | tick =>
      obtain ⟨st', hst', hout, hidle⟩ :=
        tick_outcome { w.st with dispatched := [] } hc
      exact ⟨_, step_of_call hst', h.outcome rfl hout, h.outcome_dispatches rfl hout, fun _ => hidle⟩
  | sysExit t =>
      obtain ⟨r, hr, -⟩ := h.on_cpu he
      refine ⟨_, step_of_call (sysExit_eq hr), ?_, dispatches_of_idle rfl rfl, nofun⟩
      exact h.leave he (p := .exited) nofun nofun rfl rfl (t_update r (by rfl)) rfl rfl
  | sysRead t =>
      obtain ⟨r, hr, -⟩ := h.on_cpu he
      refine ⟨_, step_of_call (sysRead_eq hr), ?_, dispatches_of_idle rfl rfl, nofun⟩
      exact h.leave he (p := .requested) nofun nofun rfl rfl (t_update r (by rfl)) rfl rfl
  | sysWrite t =>
      obtain ⟨r, hr, -⟩ := h.on_cpu he
      refine ⟨_, step_of_call (sysRead_eq hr), ?_, dispatches_of_idle rfl rfl, nofun⟩
      exact h.leave he (p := .requested) nofun nofun rfl rfl (t_update r (by rfl)) rfl rfl
  | ioComplete t =>
      have hp : w.phase t = .started := he
      obtain ⟨a, hf, ha, hat⟩ := h.findAll_eq (t := t) (by rw [hp]; nofun)
      have hinv := h.complete { { w.st with dispatched := [] }.modify a
        (fun T => { T with wait := T.wait - (now + 1) }) with ready := lib.enqueue w.st.ready a }
        hp ha hat rfl rfl (t_update a (by rfl)) rfl rfl
      exact ⟨_, step_of_call (ioComplete_eq hf), hinv,
        dispatches_of_same rfl (hinv.cpu.symm.trans h.cpu), nofun⟩
  | ioStarting t =>
      have hp : w.phase t = .requested := he
      obtain ⟨a, hf, -⟩ := h.findAll_eq (t := t) (by rw [hp]; nofun)
      have hinv := h.starting ({ w.st with dispatched := [] }.modify a
        (fun T => { T with wait := T.wait + now })) hp rfl rfl (t_update a (by rfl)) rfl rfl
      exact ⟨_, step_of_call (ioStarting_eq hf), hinv,
        dispatches_of_same rfl (hinv.cpu.symm.trans h.cpu), nofun⟩

/-- The thread of a record is in `ready` as often as the record is. -/
theorem count_readyThreads (h : Inv w) {a : ℕ} (ha : a < w.st.fresh) :
    w.st.readyThreads.count (w.st.wrappers a).t = (lib.items w.st.ready).count a := by
  unfold State.readyThreads
  rw [List.count_eq_countP, List.count_eq_countP, List.countP_map]
  refine List.countP_congr fun b hb => ?_
  simp only [Function.comp_apply, beq_iff_eq]
  exact ⟨fun heq => h.distinct b a (h.ready b hb).1 ha heq, fun heq => by rw [heq]⟩

/-- A thread that has arrived is in one place, and one that has not is in none. -/
theorem places_eq (h : Inv w) (t : τ) : w.places t = if w.phase t = .new then 0 else 1 := by
  by_cases hnew : w.phase t = .new
  · have hapart := h.apart (t := t) (by rw [hnew]; nofun)
    have hrun : w.st.runningThread ≠ some t := by
      intro hr
      obtain ⟨r, hr, hrt⟩ := Option.map_eq_some_iff.mp hr
      exact hapart.2 r hr hrt
    have hready : w.st.readyThreads.count t = 0 := by
      rw [List.count_eq_zero]
      intro hm
      obtain ⟨a, ha, hat⟩ := List.mem_map.mp hm
      exact hapart.1 a ha hat
    simp [World.places, hrun, hready, hnew]
  · obtain ⟨a, ha, rfl⟩ := (h.arrived t).mp hnew
    unfold World.places
    rw [if_neg hnew, h.count_readyThreads ha]
    simp only [h.runningThread_eq_some ha]
    by_cases hrun : w.st.running = some a
    · have hph := (h.running a hrun).2
      have hcount : (lib.items w.st.ready).count a = 0 :=
        List.count_eq_zero.mpr fun hm => (h.ready a hm).2.2 hrun
      simp [hrun, hph, hcount]
    · by_cases hm : a ∈ lib.items w.st.ready
      · have hph := (h.ready a hm).2.1
        have hcount := List.count_eq_one_of_mem h.nodup hm
        simp [hrun, hph, hcount]
      · have hcount := List.count_eq_zero.mpr hm
        have hph : w.phase (w.st.wrappers a).t ≠ .scheduled := by
          intro hph
          rcases h.placed a ha hph with hm' | hrun'
          · exact hm hm'
          · exact hrun hrun'
        cases hp : w.phase (w.st.wrappers a).t <;> simp_all

end Inv

theorem reachable_inv [DecidableEq τ] (hc : c.Implemented) {wrappers : ℕ → TWrapper τ}
    (hr : Reachable (step c) Conforms (scheduler lib wrappers) w) : Inv w := by
  refine hr.invariant (inv_scheduler wrappers) fun w e w' _ h he hs => ?_
  obtain ⟨w₁, hs₁, h₁, -⟩ := h.step hc he
  obtain rfl := Option.some.inj (hs.symm.trans hs₁)
  exact h₁

/-- **No thread is lost or duplicated.**  In every state of every run that follows the protocol, a
thread that has arrived is in one place, and no other thread is in any.  Every callback then
returns; it calls `sim_dispatch` for the thread that it puts in `running`, if it puts a new one
there, and not otherwise; and `tick` leaves the CPU idle only when no thread is ready. -/
theorem scheduler_conserves [DecidableEq τ] (hc : c.Implemented) {wrappers : ℕ → TWrapper τ}
    (hr : Reachable (step c) Conforms (scheduler lib wrappers) w) :
    (∀ t, w.places t = if w.phase t = .new then 0 else 1) ∧
    ∀ e, Conforms w e → ∃ w', step c e w = some w' ∧ Dispatches w.st w'.st ∧
      (e.1 = .tick → w'.st.running = none → lib.items w'.st.ready = []) := by
  have h := reachable_inv hc hr
  refine ⟨h.places_eq, fun e he => ?_⟩
  obtain ⟨w', hs, -, hd, hidle⟩ := h.step hc he
  exact ⟨w', hs, hd, hidle⟩

/-- Round robin with a quantum of one, and two threads. -/
def twoThreads : Config Bool := ⟨.roundRobin, 1, fun _ => ⟨1, 1⟩⟩

/-- A thread arrives and is dispatched; then a second thread arrives, and preempts it. -/
theorem scheduler_conserves_preempted : ∃ w,
    Reachable (step twoThreads) Conforms (scheduler (listQueue ℕ) fun _ => ⟨false, 0, 0, 0, 0, 0⟩) w ∧
      w.cpu = some true ∧ w.st.readyThreads = [false] ∧ (∀ t, w.places t = 1) ∧
      ∃ w', step twoThreads (.sysRead true, 1) w = some w' ∧ Dispatches w.st w'.st := by
  have hr₁ := (Reachable.refl : Reachable (step twoThreads) Conforms
    (scheduler (listQueue ℕ) fun _ => ⟨false, 0, 0, 0, 0, 0⟩) _).tail (a := (Callback.sysExec false, (0 : ℤ))) (G := Conforms) rfl rfl
  have hr₂ := hr₁.tail (a := (Callback.tick, (0 : ℤ))) trivial rfl
  have hr₃ := hr₂.tail (a := (Callback.sysExec true, (1 : ℤ))) rfl rfl
  have hr := hr₃.tail (a := (Callback.tick, (1 : ℤ))) trivial rfl
  obtain ⟨hplaces, hstep⟩ := scheduler_conserves (.inr (.inl rfl)) hr
  obtain ⟨w', hs, hd, -⟩ := hstep (.sysRead true, 1) rfl
  refine ⟨_, hr, rfl, rfl, fun t => (hplaces t).trans ?_, w', hs, hd⟩
  cases t <;> rfl

end CSE130.Assignment4
