import CSE130.Lib.Ring
import CSE130.Lib.Transition
import Mathlib.Data.List.Nodup

/-! # The interrupt queue

Any number of threads call `intq_getc` and `intq_putc`, and an interrupt handler calls `intq_putc`
when the queue is not full.  Interrupts are off in each call, so a thread runs until it blocks or
its call returns, and one action of the kernel is such a piece of a call.  A function returns `none`
if an assertion fails.

A thread that has to wait takes the lock of the queue first.  If it has slept on the lock, others
have run since it has tested the queue, but `wait` asserts that nothing has changed.  `Undisturbed`
says when this is so; `intq_correct` is about the runs in which it always is. -/

namespace CSE130.Lab3.Intq

open Function (update)
open Transition

variable {τ : Type*}

def intqBufsize : ℕ := 64

/-- A lock with its semaphore. -/
structure Lock (τ : Type*) where
  holder : Option τ
  value : ℕ
  waiters : List τ

/-- The two members of `struct intq` whose address is given to `wait` and `signal`. -/
inductive Waiter where
  | notFull
  | notEmpty
  deriving DecidableEq

inductive Call where
  | getc
  | putc (byte : BitVec 8)
  deriving DecidableEq

/-- What the call waits for. -/
def Call.waiter : Call → Waiter
  | .getc => .notEmpty
  | .putc _ => .notFull

/-- Where a thread is between actions: outside of the queue's functions, or at `thread_block` in
`semaphore_down` or in `wait`. -/
inductive Frame where
  | outside
  | acquiring (c : Call)
  | waiting (c : Call)
  deriving DecidableEq

structure Kernel (τ : Type*) where
  lock : Lock τ
  waiter : Waiter → Option τ
  buf : ℕ → BitVec 8
  head : ℕ
  tail : ℕ
  frame : τ → Frame
  /-- The status is `THREAD_BLOCKED`. -/
  blocked : τ → Bool
  /-- The bytes that were put and those that were delivered, the oldest first. -/
  sent : List (BitVec 8)
  received : List (BitVec 8)

/-- `intq_init`; `buf` is what the memory holds. -/
def intqInit (buf : ℕ → BitVec 8) : Kernel τ where
  lock := ⟨none, 1, []⟩
  waiter _ := none
  buf := buf
  head := 0
  tail := 0
  frame _ := .outside
  blocked _ := false
  sent := []
  received := []

/-- The position after `pos`. -/
def next (pos : ℕ) : ℕ := (pos + 1) % intqBufsize

namespace Kernel

variable [DecidableEq τ] (k : Kernel τ)

def intqEmpty : Bool := k.head == k.tail

def intqFull : Bool := next k.head == k.tail

/-- The condition that `wait` asserts, and `signal` denies. -/
def mustWait : Waiter → Bool
  | .notEmpty => k.intqEmpty
  | .notFull => k.intqFull

/-- `thread_block`; the thread `t` will go on at `f`. -/
def threadBlock (t : τ) (f : Frame) : Kernel τ :=
  { k with frame := update k.frame t f, blocked := update k.blocked t true }

def threadUnblock (t : τ) : Option (Kernel τ) :=
  if k.blocked t then some { k with blocked := update k.blocked t false } else none

/-- `wait`, by the thread `t`. -/
def wait (t : τ) (c : Call) : Option (Kernel τ) :=
  if k.mustWait c.waiter then
    let k := { k with waiter := update k.waiter c.waiter (some t) }
    some (k.threadBlock t (.waiting c))
  else none

def signal (w : Waiter) : Option (Kernel τ) :=
  if k.mustWait w then none
  else
    match k.waiter w with
    | some t => (k.threadUnblock t).map fun k => { k with waiter := update k.waiter w none }
    | none => some k

/-- `semaphore_down` on the lock, from the test in its loop on, and what follows it in the call. -/
def semaphoreDown (t : τ) (c : Call) : Option (Kernel τ) :=
  if k.lock.value = 0 then
    let k := { k with lock.waiters := k.lock.waiters ++ [t] }
    some (k.threadBlock t (.acquiring c))
  else
    let k := { k with lock.value := k.lock.value - 1, lock.holder := some t }
    k.wait t c

def lockAcquire (t : τ) (c : Call) : Option (Kernel τ) :=
  if k.lock.holder = some t then none else k.semaphoreDown t c

def semaphoreUp : Option (Kernel τ) :=
  match k.lock.waiters with
  | u :: rest =>
      let k := { k with lock.waiters := rest }
      (k.threadUnblock u).map fun k => { k with lock.value := k.lock.value + 1 }
  | [] => some { k with lock.value := k.lock.value + 1 }

def lockRelease (t : τ) : Option (Kernel τ) :=
  if k.lock.holder = some t then
    let k := { k with lock.holder := none }
    k.semaphoreUp
  else none

/-- The body of the loop, in the thread `t` or in the interrupt handler. -/
def sleep (t : Option τ) (c : Call) : Option (Kernel τ) :=
  match t with
  | some t => k.lockAcquire t c
  -- `ASSERT (!intr_context ())`
  | none => none

/-- `intq_getc`, from the test in its loop on. -/
def intqGetc (t : Option τ) : Option (Kernel τ) :=
  if k.intqEmpty then k.sleep t .getc
  else
    let byte := k.buf k.tail
    let k := { k with tail := next k.tail }
    (k.signal .notFull).map fun k => { k with received := k.received ++ [byte] }

/-- `intq_putc`, from the test in its loop on. -/
def intqPutc (t : Option τ) (byte : BitVec 8) : Option (Kernel τ) :=
  if k.intqFull then k.sleep t (.putc byte)
  else
    let k := { k with buf := update k.buf k.head byte, head := next k.head }
    (k.signal .notEmpty).map fun k => { k with sent := k.sent ++ [byte] }

def enter (t : Option τ) : Call → Option (Kernel τ)
  | .getc => k.intqGetc t
  | .putc byte => k.intqPutc t byte

/-- A thread that was unblocked goes on. -/
def resume (t : τ) : Option (Kernel τ) :=
  match k.frame t with
  | .outside => none
  | .acquiring c => k.semaphoreDown t c
  | .waiting c => (k.lockRelease t).bind fun k =>
      let k := { k with frame := update k.frame t .outside }
      k.enter (some t) c

end Kernel

variable [DecidableEq τ]

inductive Action (τ : Type*) where
  | call (t : τ) (c : Call)
  | resume (t : τ)
  | interrupt (byte : BitVec 8)

def step : Action τ → Kernel τ → Option (Kernel τ)
  | .call t c, k => k.enter (some t) c
  | .resume t, k => k.resume t
  | .interrupt byte, k => k.intqPutc none byte

/-- Which actions may come: a thread calls one function at a time and goes on when it is not
blocked, and the handler puts a byte when the queue is not full. -/
def Allowed (k : Kernel τ) : Action τ → Prop
  | .call t _ => k.frame t = .outside
  | .resume t => k.blocked t = false ∧ k.frame t ≠ .outside
  | .interrupt _ => k.intqFull = false

instance (k : Kernel τ) : ∀ a, Decidable (Allowed k a)
  | .call _ _ => inferInstanceAs (Decidable (_ = _))
  | .resume _ => inferInstanceAs (Decidable (_ ∧ _))
  | .interrupt _ => inferInstanceAs (Decidable (_ = _))

/-- A thread that has slept on the lock and gets it still has to wait. -/
def Undisturbed (k : Kernel τ) : Action τ → Prop
  | .resume t => ∀ c, k.frame t = .acquiring c → k.lock.value ≠ 0 → k.mustWait c.waiter
  | _ => True

/-! ### Threads and bytes -/

/-- What the lock and the waiters say of the threads: the holder of the lock is in `wait`, the
others that are in a call sleep on the lock or have been woken there; `waiter` is the holder, until
it is woken. -/
structure Sync (lock : Lock τ) (waiter : Waiter → Option τ) (frame : τ → Frame)
    (blocked : τ → Bool) : Prop where
  value : lock.value = if lock.holder = none then 1 else 0
  holder : ∀ t, lock.holder = some t ↔ ∃ c, frame t = .waiting c
  nodup : lock.waiters.Nodup
  waiters : ∀ t, t ∈ lock.waiters ↔ blocked t = true ∧ ∃ c, frame t = .acquiring c
  waiter : ∀ w t, waiter w = some t ↔ blocked t = true ∧ ∃ c, c.waiter = w ∧ frame t = .waiting c
  outside : ∀ t, frame t = .outside → blocked t = false

/-- What was put is what was delivered, followed by what is in the queue. -/
structure Bytes (buf : ℕ → BitVec 8) (head tail : ℕ) (sent received : List (BitVec 8)) : Prop where
  head_lt : head < intqBufsize
  tail_lt : tail < intqBufsize
  order : sent = received ++ Ring.contents intqBufsize buf tail head

/-- The invariant. -/
structure Kept (k : Kernel τ) : Prop where
  sync : Sync k.lock k.waiter k.frame k.blocked
  bytes : Bytes k.buf k.head k.tail k.sent k.received

variable {lock : Lock τ} {waiter : Waiter → Option τ} {frame : τ → Frame} {blocked : τ → Bool}
  {buf : ℕ → BitVec 8} {head tail : ℕ} {sent received : List (BitVec 8)} {k k' : Kernel τ} {t u : τ}
  {c : Call} {w : Waiter} {a : Action τ}

omit [DecidableEq τ] in
theorem kept_intqInit (buf : ℕ → BitVec 8) : Kept (intqInit buf : Kernel τ) where
  sync :=
    { value := rfl
      holder := fun t => iff_of_false nofun nofun
      nodup := List.nodup_nil
      waiters := fun t => iff_of_false nofun nofun
      waiter := fun w t => iff_of_false nofun nofun
      outside := fun t _ => rfl }
  bytes :=
    { head_lt := Nat.zero_lt_succ _
      tail_lt := Nat.zero_lt_succ _
      order := by
        dsimp only [intqInit]
        rw [Ring.contents_self (by decide), List.append_nil] }

omit [DecidableEq τ] in
theorem Bytes.getc (h : Bytes buf head tail sent received) (hne : head ≠ tail) :
    Bytes buf head (next tail) sent (received ++ [buf tail]) where
  head_lt := h.head_lt
  tail_lt := Ring.next_lt (by decide) tail
  order := by
    rw [h.order, Ring.contents_pop h.tail_lt h.head_lt hne, List.append_assoc]
    rfl

theorem Bytes.putc (h : Bytes buf head tail sent received) (hne : next head ≠ tail)
    (byte : BitVec 8) :
    Bytes (update buf head byte) (next head) tail (sent ++ [byte]) received where
  head_lt := Ring.next_lt (by decide) head
  tail_lt := h.tail_lt
  order := by
    rw [h.order, List.append_assoc]
    exact congrArg _ (Ring.contents_push h.tail_lt h.head_lt hne byte).symm

/-! ### Waiting and waking up -/

namespace Sync

theorem semaphoreDown (h : Sync lock waiter frame blocked) (ht : blocked t = false)
    (hframe : ∀ c, frame t ≠ .waiting c) (c : Call) :
    Sync { lock with waiters := lock.waiters ++ [t] } waiter (update frame t (.acquiring c))
      (update blocked t true) where
  value := h.value
  holder u := by
    rw [h.holder]
    by_cases hut : u = t
    · subst hut
      rw [Function.update_self]
      exact iff_of_false (fun ⟨c, hc⟩ => hframe c hc) nofun
    · rw [Function.update_of_ne hut]
  nodup := by
    refine List.nodup_append.mpr ⟨h.nodup, List.nodup_singleton t, fun u hu v hv => ?_⟩
    rintro rfl
    rw [List.mem_singleton.mp hv, h.waiters, ht] at hu
    cases hu.1
  waiters u := by
    rw [List.mem_append, List.mem_singleton, h.waiters]
    by_cases hut : u = t
    · subst hut
      rw [Function.update_self, Function.update_self]
      exact iff_of_true (.inr rfl) ⟨rfl, c, rfl⟩
    · rw [Function.update_of_ne hut, Function.update_of_ne hut, or_iff_left hut]
  waiter w u := by
    rw [h.waiter]
    by_cases hut : u = t
    · subst hut
      rw [Function.update_self, Function.update_self, ht]
      exact iff_of_false (fun hu => nomatch hu.1) fun ⟨_, _, _, hc⟩ => nomatch hc
    · rw [Function.update_of_ne hut, Function.update_of_ne hut]
  outside u hu := by
    by_cases hut : u = t
    · subst hut
      rw [Function.update_self] at hu
      cases hu
    · rw [Function.update_of_ne hut] at hu ⊢
      exact h.outside u hu

theorem wait (h : Sync lock waiter frame blocked) (ht : blocked t = false)
    (hframe : ∀ c, frame t ≠ .waiting c) (hvalue : lock.value ≠ 0) (c : Call) :
    Sync { lock with value := lock.value - 1, holder := some t } (update waiter c.waiter (some t))
      (update frame t (.waiting c)) (update blocked t true) := by
  have hfree : lock.holder = none ∧ lock.value = 1 := by
    have hval := h.value
    split at hval
    · rename_i hnone
      exact ⟨hnone, hval⟩
    · exact absurd hval hvalue
  have hnone : ∀ u c, frame u ≠ .waiting c := by
    intro u c hc
    have hu := (h.holder u).mpr ⟨c, hc⟩
    rw [hfree.1] at hu
    cases hu
  constructor
  case value => simp [hfree.2]
  case holder =>
    intro u
    by_cases hut : u = t
    · subst hut
      rw [Function.update_self]
      exact iff_of_true rfl ⟨c, rfl⟩
    · rw [Function.update_of_ne hut]
      exact iff_of_false (fun htu => hut (Option.some.inj htu).symm) fun ⟨c, hc⟩ => hnone u c hc
  case nodup => exact h.nodup
  case waiters =>
    intro u
    rw [h.waiters]
    by_cases hut : u = t
    · subst hut
      rw [Function.update_self, Function.update_self, ht]
      exact iff_of_false (fun hu => nomatch hu.1) fun ⟨_, _, hc⟩ => nomatch hc
    · rw [Function.update_of_ne hut, Function.update_of_ne hut]
  case waiter =>
    intro w u
    have hwas : waiter w ≠ some u := fun hu => by
      obtain ⟨-, c, -, hc⟩ := (h.waiter w u).mp hu
      exact hnone u c hc
    by_cases hut : u = t
    · subst hut
      rw [Function.update_self, Function.update_self]
      by_cases hw : w = c.waiter
      · subst hw
        rw [Function.update_self]
        exact iff_of_true rfl ⟨rfl, c, rfl, rfl⟩
      · rw [Function.update_of_ne hw]
        refine iff_of_false hwas ?_
        rintro ⟨-, c', rfl, hc⟩
        exact hw (congrArg _ (Frame.waiting.inj hc)).symm
    · rw [Function.update_of_ne hut, Function.update_of_ne hut]
      refine iff_of_false ?_ fun ⟨_, c, _, hc⟩ => hnone u c hc
      rw [Function.update_apply]
      split
      · exact fun htu => hut (Option.some.inj htu).symm
      · exact hwas
  case outside =>
    intro u hu
    by_cases hut : u = t
    · subst hut
      rw [Function.update_self] at hu
      cases hu
    · rw [Function.update_of_ne hut] at hu ⊢
      exact h.outside u hu

theorem signal (h : Sync lock waiter frame blocked) (hw : waiter w = some t) :
    blocked t = true ∧ Sync lock (update waiter w none) frame (update blocked t false) := by
  obtain ⟨hblocked, c, hcw, hframe⟩ := (h.waiter w t).mp hw
  refine ⟨hblocked, h.value, h.holder, h.nodup, fun u => ?_, fun w' u => ?_, fun u hu => ?_⟩
  · rw [h.waiters]
    by_cases hut : u = t
    · subst hut
      rw [hframe]
      exact iff_of_false (fun ⟨_, _, hc⟩ => nomatch hc) fun ⟨_, _, hc⟩ => nomatch hc
    · rw [Function.update_of_ne hut]
  · by_cases hww : w' = w
    · subst hww
      rw [Function.update_self]
      refine iff_of_false nofun fun ⟨hu, hc⟩ => ?_
      by_cases hut : u = t
      · subst hut
        rw [Function.update_self] at hu
        cases hu
      · rw [Function.update_of_ne hut] at hu
        have htu := hw.symm.trans ((h.waiter w' u).mpr ⟨hu, hc⟩)
        exact hut (Option.some.inj htu).symm
    · rw [Function.update_of_ne hww, h.waiter]
      by_cases hut : u = t
      · subst hut
        rw [hframe]
        have hno : ¬ ∃ c', c'.waiter = w' ∧ Frame.waiting c = .waiting c' := by
          rintro ⟨c', rfl, hc⟩
          rw [← Frame.waiting.inj hc] at hww
          exact hww hcw
        exact iff_of_false (fun hu => hno hu.2) fun hu => hno hu.2
      · rw [Function.update_of_ne hut]
  · by_cases hut : u = t
    · subst hut
      exact Function.update_self ..
    · rw [Function.update_of_ne hut]
      exact h.outside u hu

theorem unblock {rest : List τ} (h : Sync lock waiter frame blocked)
    (hl : lock.waiters = u :: rest) :
    blocked u = true ∧
      Sync { lock with waiters := rest } waiter frame (update blocked u false) := by
  have hu : u ∈ lock.waiters := hl ▸ List.mem_cons_self
  obtain ⟨hblocked, c, hframe⟩ := (h.waiters u).mp hu
  have hnodup := h.nodup
  rw [hl, List.nodup_cons] at hnodup
  refine ⟨hblocked, h.value, h.holder, hnodup.2, fun v => ?_, fun w v => ?_, fun v hv => ?_⟩
  · by_cases hvu : v = u
    · subst hvu
      rw [Function.update_self]
      exact iff_of_false hnodup.1 fun hv => nomatch hv.1
    · rw [Function.update_of_ne hvu, ← h.waiters, hl]
      exact (List.mem_cons.trans (or_iff_right hvu)).symm
  · rw [h.waiter]
    by_cases hvu : v = u
    · subst hvu
      rw [hframe]
      exact iff_of_false (fun ⟨_, _, _, hc⟩ => nomatch hc) fun ⟨_, _, _, hc⟩ => nomatch hc
    · rw [Function.update_of_ne hvu]
  · by_cases hvu : v = u
    · subst hvu
      exact Function.update_self ..
    · rw [Function.update_of_ne hvu]
      exact h.outside v hv

theorem release (h : Sync lock waiter frame blocked) (ht : blocked t = false)
    (hframe : frame t = .waiting c) :
    lock.holder = some t ∧ Sync { lock with holder := none, value := lock.value + 1 } waiter
      (update frame t .outside) blocked := by
  have hholder := (h.holder t).mpr ⟨c, hframe⟩
  have hother : ∀ u ≠ t, ∀ c, frame u ≠ .waiting c := by
    intro u hut c hc
    have htu := hholder.symm.trans ((h.holder u).mpr ⟨c, hc⟩)
    exact hut (Option.some.inj htu).symm
  refine ⟨hholder, ?_, fun u => ?_, h.nodup, fun u => ?_, fun w u => ?_, fun u hu => ?_⟩
  · simp [h.value, hholder]
  · refine iff_of_false nofun ?_
    by_cases hut : u = t
    · subst hut
      rw [Function.update_self]
      exact fun ⟨_, hc⟩ => nomatch hc
    · rw [Function.update_of_ne hut]
      exact fun ⟨c, hc⟩ => hother u hut c hc
  · rw [h.waiters]
    by_cases hut : u = t
    · subst hut
      rw [ht]
      exact iff_of_false (fun hu => nomatch hu.1) fun hu => nomatch hu.1
    · rw [Function.update_of_ne hut]
  · rw [h.waiter]
    by_cases hut : u = t
    · subst hut
      rw [ht]
      exact iff_of_false (fun hu => nomatch hu.1) fun hu => nomatch hu.1
    · rw [Function.update_of_ne hut]
  · by_cases hut : u = t
    · subst hut
      exact ht
    · rw [Function.update_of_ne hut] at hu
      exact h.outside u hu

end Sync

/-! ### The calls -/

theorem signal_eq (h : Sync k.lock k.waiter k.frame k.blocked) (hw : k.mustWait w = false) :
    ∃ waiter blocked, k.signal w = some { k with waiter, blocked } ∧
      Sync k.lock waiter k.frame blocked := by
  rw [Kernel.signal, if_neg (by simp [hw])]
  cases hwaiter : k.waiter w with
  | none => exact ⟨k.waiter, k.blocked, rfl, h⟩
  | some t =>
      obtain ⟨hblocked, hsync⟩ := h.signal hwaiter
      refine ⟨_, _, ?_, hsync⟩
      dsimp only
      rw [Kernel.threadUnblock, if_pos hblocked]
      rfl

namespace Kept

/-- `semaphore_down` goes wrong only where the lock is free and `wait` finds no reason to wait. -/
theorem semaphoreDown (hk : Kept k) (ht : k.blocked t = false)
    (hframe : ∀ c, k.frame t ≠ .waiting c) (c : Call) :
    (k.lock.value ≠ 0 ∧ k.mustWait c.waiter = false ∧ k.semaphoreDown t c = none) ∨
    ((k.lock.value ≠ 0 → k.mustWait c.waiter) ∧
      ∃ k', k.semaphoreDown t c = some k' ∧ Kept k') := by
  rw [Kernel.semaphoreDown]
  by_cases hvalue : k.lock.value = 0
  · rw [if_pos hvalue]
    exact .inr ⟨fun h => absurd hvalue h, _, rfl, hk.sync.semaphoreDown ht hframe c, hk.bytes⟩
  · have hsame : Kernel.mustWait { k with
        lock.value := k.lock.value - 1, lock.holder := some t } c.waiter = k.mustWait c.waiter := by
      cases c <;> rfl
    rw [if_neg hvalue, Kernel.wait, hsame]
    cases hmust : k.mustWait c.waiter with
    | false => exact .inl ⟨hvalue, rfl, rfl⟩
    | true => exact .inr ⟨fun _ => rfl, _, rfl, hk.sync.wait ht hframe hvalue c, hk.bytes⟩

theorem sleep (hk : Kept k) (hframe : k.frame t = .outside) (hmust : k.mustWait c.waiter) :
    ∃ k', k.sleep (some t) c = some k' ∧ Kept k' := by
  have hnot : ∀ c, k.frame t ≠ .waiting c := by
    intro c hc
    rw [hframe] at hc
    cases hc
  have hholder : k.lock.holder ≠ some t := by
    intro h
    obtain ⟨c, hc⟩ := (hk.sync.holder t).mp h
    exact hnot c hc
  obtain ⟨-, hmust', -⟩ | ⟨-, hok⟩ := hk.semaphoreDown (hk.sync.outside t hframe) hnot c
  · rw [hmust] at hmust'
    cases hmust'
  · rw [Kernel.sleep, Kernel.lockAcquire, if_neg hholder]
    exact hok

theorem intqPutc (hk : Kept k) (hfull : k.intqFull = false) (t : Option τ) (byte : BitVec 8) :
    ∃ k', k.intqPutc t byte = some k' ∧ Kept k' := by
  have hne : next k.head ≠ k.tail := by
    rw [← beq_eq_false_iff_ne]
    exact hfull
  have hbytes := hk.bytes.putc hne byte
  let k₁ : Kernel τ := { k with buf := update k.buf k.head byte, head := next k.head }
  have hmust : k₁.mustWait .notEmpty = false := beq_eq_false_iff_ne.mpr hne
  have hsync₁ : Sync k₁.lock k₁.waiter k₁.frame k₁.blocked := hk.sync
  obtain ⟨waiter, blocked, hsignal, hsync⟩ := signal_eq hsync₁ hmust
  rw [Kernel.intqPutc, if_neg (by simp [hfull])]
  dsimp only
  rw [hsignal]
  exact ⟨_, rfl, hsync, hbytes⟩

theorem intqGetc (hk : Kept k) (hempty : k.intqEmpty = false) (t : Option τ) :
    ∃ k', k.intqGetc t = some k' ∧ Kept k' := by
  have hne : k.head ≠ k.tail := by
    rw [← beq_eq_false_iff_ne]
    exact hempty
  have hbytes := hk.bytes.getc hne
  let k₁ : Kernel τ := { k with tail := next k.tail }
  have hmust : k₁.mustWait .notFull = false :=
    beq_eq_false_iff_ne.mpr fun h =>
      hne (Ring.next_injective hk.bytes.head_lt hk.bytes.tail_lt h)
  have hsync₁ : Sync k₁.lock k₁.waiter k₁.frame k₁.blocked := hk.sync
  obtain ⟨waiter, blocked, hsignal, hsync⟩ := signal_eq hsync₁ hmust
  rw [Kernel.intqGetc, if_neg (by simp [hempty])]
  dsimp only
  rw [hsignal]
  exact ⟨_, rfl, hsync, hbytes⟩

/-- A call, or the rest of one from the test in its loop on. -/
theorem enter (hk : Kept k) (hframe : k.frame t = .outside) (c : Call) :
    ∃ k', k.enter (some t) c = some k' ∧ Kept k' := by
  cases c with
  | getc =>
      cases hempty : k.intqEmpty with
      | false => exact hk.intqGetc hempty (some t)
      | true =>
          rw [Kernel.enter, Kernel.intqGetc, if_pos hempty]
          exact hk.sleep hframe hempty
  | putc byte =>
      cases hfull : k.intqFull with
      | false => exact hk.intqPutc hfull (some t) byte
      | true =>
          rw [Kernel.enter, Kernel.intqPutc, if_pos hfull]
          exact hk.sleep hframe hfull

theorem lockRelease (hk : Kept k) (ht : k.blocked t = false) (hframe : k.frame t = .waiting c) :
    ∃ k', k.lockRelease t = some k' ∧ Kept { k' with frame := update k'.frame t .outside } := by
  rw [Kernel.lockRelease, if_pos (hk.sync.release ht hframe).1, Kernel.semaphoreUp]
  dsimp only
  cases hwaiters : k.lock.waiters with
  | nil =>
      refine ⟨_, rfl, ?_, hk.bytes⟩
      have hsync := (hk.sync.release ht hframe).2
      rwa [hwaiters] at hsync
  | cons u rest =>
      obtain ⟨hblocked, hsync⟩ := hk.sync.unblock hwaiters
      have ht' : update k.blocked u false t = false := by
        rw [Function.update_apply]
        split
        · rfl
        · exact ht
      dsimp only
      rw [Kernel.threadUnblock, if_pos hblocked]
      exact ⟨_, rfl, (hsync.release ht' hframe).2, hk.bytes⟩

/-- **One action**: an assertion fails if and only if a thread that has slept on the lock is
disturbed. -/
theorem step (hk : Kept k) (ha : Allowed k a) :
    (¬ Undisturbed k a ∧ Intq.step a k = none) ∨
      Undisturbed k a ∧ ∃ k', Intq.step a k = some k' ∧ Kept k' := by
  cases a with
  | call t c => exact .inr ⟨trivial, hk.enter ha c⟩
  | interrupt byte => exact .inr ⟨trivial, hk.intqPutc ha none byte⟩
  | resume t =>
      obtain ⟨ht, hout⟩ := ha
      rw [Intq.step, Kernel.resume]
      cases hframe : k.frame t with
      | outside => exact absurd hframe hout
      | acquiring c =>
          have hnot : ∀ c, k.frame t ≠ .waiting c := by
            intro c' hc
            rw [hframe] at hc
            cases hc
          obtain ⟨hvalue, hmust, hnone⟩ | ⟨hmust, hok⟩ := hk.semaphoreDown ht hnot c
          · refine .inl ⟨fun hu => ?_, hnone⟩
            have htrue := hu c hframe hvalue
            rw [hmust] at htrue
            cases htrue
          · refine .inr ⟨fun c' hc' => ?_, hok⟩
            obtain rfl := Frame.acquiring.inj (hframe.symm.trans hc')
            exact hmust
      | waiting c =>
          obtain ⟨k₁, hrelease, hk₁⟩ := hk.lockRelease ht hframe
          refine .inr ⟨fun c' hc' => ?_, ?_⟩
          · cases hframe.symm.trans hc'
          · dsimp only
            rw [hrelease]
            exact hk₁.enter (Function.update_self ..) c

end Kept

/-! ### The queue -/

/-- What the queue is for, in the runs whose actions meet `G`.  No assertion fails; the bytes that
were put are those that were delivered and then those in the queue, in this order; and `not_full`
and `not_empty` name only threads that are blocked in `wait`. -/
def Correct (G : Kernel τ → Action τ → Prop) : Prop :=
  ∀ buf k, Reachable step (fun k a => Allowed k a ∧ G k a) (intqInit buf) k →
    (∀ a, Allowed k a → G k a → (step a k).isSome) ∧
    k.sent = k.received ++ Ring.contents intqBufsize k.buf k.tail k.head ∧
    ∀ w t, k.waiter w = some t → k.blocked t ∧ ∃ c, c.waiter = w ∧ k.frame t = .waiting c

theorem reachable_kept {start : Kernel τ} (h₀ : Kept start)
    (hr : Reachable step (fun k a => Allowed k a ∧ Undisturbed k a) start k) : Kept k := by
  refine hr.invariant (I := Kept) h₀ fun k a k' _ hk hg hs => ?_
  obtain ⟨hnot, -⟩ | ⟨-, k₁, hok, hk₁⟩ := hk.step hg.1
  · exact absurd hg.2 hnot
  · obtain rfl := Option.some.inj (hok.symm.trans hs)
    exact hk₁

/-- **The interrupt queue** is correct in every run of undisturbed actions. -/
theorem intq_correct : Correct (Undisturbed (τ := τ)) := by
  intro buf k hr
  have hk := reachable_kept (kept_intqInit buf) hr
  refine ⟨fun a ha hu => ?_, hk.bytes.order, fun w t => (hk.sync.waiter w t).mp⟩
  obtain ⟨hnot, -⟩ | ⟨-, k', hok, -⟩ := hk.step ha
  · exact absurd hu hnot
  · rw [hok]
    rfl

/-- Two threads wait for a byte, and two bytes arrive before the first of them runs.  It takes one;
the other has slept on the lock, and there is a byte left when it comes to `wait`. -/
theorem intq_fails : ¬ Correct fun (_ : Kernel Bool) (_ : Action Bool) => True := by
  intro h
  let allowed : Kernel Bool → Action Bool → Bool := fun k a => decide (Allowed k a)
  have hfail : ((execute (checked allowed step) [.call false .getc, .call true .getc, .interrupt 7,
      .interrupt 8, .resume false] (intqInit fun _ => 0)).map fun k =>
        allowed k (.resume true) && (step (.resume true) k).isNone) = some true := rfl
  obtain ⟨k, hk, hk'⟩ := Option.map_eq_some_iff.mp hfail
  obtain ⟨hist, hrun⟩ : Reachable (checked allowed step) (fun _ _ => True) _ k :=
    execute_reachable (fun _ _ _ => trivial) .refl hk
  have hr : Reachable step (fun k a => Allowed k a ∧ True) (intqInit fun _ => 0) k :=
    ⟨hist, hrun.of_checked.mono fun k a hg => ⟨of_decide_eq_true hg.1, trivial⟩⟩
  obtain ⟨hallowed, hnone⟩ := Bool.and_eq_true_iff.mp hk'
  have hsome := (h _ k hr).1 (.resume true) (of_decide_eq_true hallowed) trivial
  rw [Option.isNone_iff_eq_none.mp hnone] at hsome
  cases hsome

end CSE130.Lab3.Intq
