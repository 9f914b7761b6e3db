import CSE130.Lab3.Intq
import Mathlib.Data.UInt

/-! # The serial port

`devices/serial.c` with `devices/input.c`, and the 16550A that it drives.  The processor has interrupts
off in each function, but the UART goes on: it sends the byte in the transmitter holding register at any
time, and a byte may arrive at any time.  So the busy waiting of `putc_poll` and each round of a loop in
`serial_interrupt` is an action of its own.  A function returns `none` if an assertion fails, if it would
sleep where it must not, or if it writes the holding register when that is not empty.

`serial_putc` is called with the console lock held when interrupts are on, so at most one thread sleeps in
it.  What the UART says in the interrupt identification register is only that it is read.  Its transmit
interrupt is pending from when the holding register becomes empty, or from when the interrupt is enabled
and the register is empty, until the register is written or the identification is read; it is the latter
that makes it possible to miss one. -/

namespace CSE130.Lab3.Serial

open Transition Intq
open Function (update)

/-! ### Queues -/

/-- `struct intq` without its waiters. -/
structure Queue where
  buf : ℕ → UInt8
  head : ℕ
  tail : ℕ
  head_lt : head < intqBufsize
  tail_lt : tail < intqBufsize

namespace Queue

/-- `intq_init`. -/
def init (buf : ℕ → UInt8) : Queue := ⟨buf, 0, 0, by decide, by decide⟩

variable (q : Queue)

/-- `intq_empty`. -/
def empty : Bool := q.head == q.tail

/-- `intq_full`. -/
def full : Bool := next q.head == q.tail

/-- The byte that `intq_getc` returns. -/
def byte : UInt8 := q.buf q.tail

/-- The queue behind `intq_getc`. -/
def getc : Queue := { q with tail := next q.tail, tail_lt := Ring.next_lt (by decide) q.tail }

/-- The queue behind `intq_putc`. -/
def putc (b : UInt8) : Queue :=
  { q with buf := update q.buf q.head b, head := next q.head, head_lt := Ring.next_lt (by decide) q.head }

/-- The bytes in the queue, the oldest first. -/
def contents : List UInt8 := Ring.contents intqBufsize q.buf q.tail q.head

variable {q : Queue} {b : UInt8}

@[simp] theorem contents_init (buf : ℕ → UInt8) : (init buf).contents = [] :=
  Ring.contents_self (init buf).tail_lt

theorem contents_getc (h : q.empty = false) : q.contents = q.byte :: q.getc.contents :=
  Ring.contents_pop q.tail_lt q.head_lt (beq_eq_false_iff_ne.mp h)

theorem contents_putc (h : q.full = false) : (q.putc b).contents = q.contents ++ [b] :=
  Ring.contents_push q.tail_lt q.head_lt (beq_eq_false_iff_ne.mp h) b

theorem length_contents : q.contents.length = Ring.count intqBufsize q.tail q.head := by
  simp [contents, Ring.contents]

theorem empty_iff : q.empty = true ↔ q.contents = [] := by
  have hhead := q.head_lt
  have htail := q.tail_lt
  rw [← List.length_eq_zero_iff, length_contents, Ring.count_eq htail hhead, empty, beq_iff_eq]
  split <;> omega

theorem full_iff : q.full = true ↔ q.contents.length + 1 = intqBufsize := by
  have hhead := q.head_lt
  have htail := q.tail_lt
  have hnext : next q.head = if q.head + 1 < intqBufsize then q.head + 1 else 0 := Ring.next_eq hhead
  rw [length_contents, Ring.count_eq htail hhead, full, beq_iff_eq, hnext]
  split <;> split <;> omega

theorem empty_eq_false_iff : q.empty = false ↔ q.contents ≠ [] := by
  rw [Ne, ← empty_iff, Bool.not_eq_true]

theorem full_getc (h : q.empty = false) : q.getc.full = false := by
  have hcontents := contents_getc h
  have hlt : q.contents.length < intqBufsize := by
    rw [length_contents]
    exact Nat.mod_lt _ (by decide)
  rw [← Bool.not_eq_true, full_iff]
  rw [hcontents, List.length_cons] at hlt
  omega

theorem empty_of_full (h : q.full = true) : q.empty = false := by
  rw [full_iff] at h
  rw [empty_eq_false_iff]
  intro hnil
  rw [hnil] at h
  exact absurd h (by decide)

end Queue

/-! ### The driver -/

inductive Mode where
  | uninit
  | poll
  | queue
  deriving DecidableEq

/-- What is left to do behind a `putc_poll`. -/
inductive Next where
  | done
  | put (byte : UInt8)
  | flush
  deriving DecidableEq

/-- What the processor is about: no call of the driver, the loop of `putc_poll`, or one of the two loops
of `serial_interrupt`. -/
inductive Cpu where
  | idle
  | polling (byte : UInt8) (rest : Next)
  | receiving
  | transmitting
  deriving DecidableEq

/-- A thread that sleeps in `intq_putc`, and whether it was woken. -/
structure Sleeper where
  byte : UInt8
  ready : Bool

/-- What `signal` does to it. -/
def Sleeper.woken (s : Sleeper) : Sleeper := { s with ready := true }

structure Machine where
  mode : Mode
  txq : Queue
  sleeper : Option Sleeper
  /-- The buffer of `devices/input.c`. -/
  buffer : Queue
  /-- `IER_RECV` and `IER_XMIT` in the interrupt enable register. -/
  ierRecv : Bool
  ierXmit : Bool
  /-- The transmitter holding register, the transmit interrupt, and the receiver buffer register. -/
  thr : Option UInt8
  pending : Bool
  rbr : Option UInt8
  cpu : Cpu
  /-- Whether interrupts are on outside of the driver. -/
  level : Bool
  /-- The bytes given to `serial_putc`; those of them that were polled or put into the queue; those on the
  line; those put into the input buffer; and those taken from it. -/
  given : List UInt8
  sent : List UInt8
  line : List UInt8
  received : List UInt8
  delivered : List UInt8

/-- The machine at boot; nothing is known about the interrupts of the UART. -/
def boot (buf : ℕ → UInt8) (ierRecv ierXmit pending : Bool) : Machine where
  mode := .uninit
  txq := .init buf
  sleeper := none
  buffer := .init buf
  ierRecv := ierRecv
  ierXmit := ierXmit
  thr := none
  pending := pending
  rbr := none
  cpu := .idle
  level := false
  given := []
  sent := []
  line := []
  received := []
  delivered := []

namespace Machine

variable (m : Machine)

/-- `outb (IER_REG, ...)`. -/
def outIer (recv xmit : Bool) : Machine :=
  { m with ierRecv := recv, ierXmit := xmit, pending := m.pending || xmit && !m.ierXmit && m.thr.isNone }

/-- `outb (THR_REG, byte)`. -/
def outThr (byte : UInt8) : Option Machine :=
  if m.thr.isNone then some { m with thr := some byte, pending := false } else none

/-- `write_ier`. -/
def writeIer : Machine := m.outIer (!m.buffer.full) (!m.txq.empty)

/-- `serial_notify`. -/
def serialNotify : Machine := if m.mode = .queue then m.writeIer else m

/-- `input_putc`. -/
def inputPutc (key : UInt8) : Option Machine :=
  if m.buffer.full then none
  else
    let m := { m with buffer := m.buffer.putc key, received := m.received ++ [key] }
    some m.serialNotify

/-- `input_getc`, when there is a key. -/
def inputGetc : Option Machine :=
  if m.buffer.empty then none
  else
    let m := { m with delivered := m.delivered ++ [m.buffer.byte], buffer := m.buffer.getc }
    some m.serialNotify

/-- `putc_poll (intq_getc (&txq))`, up to its loop. -/
def pollGetc (rest : Next) : Option Machine :=
  if m.txq.empty then none
  else some { m with
    cpu := .polling m.txq.byte rest
    txq := m.txq.getc
    sleeper := m.sleeper.map Sleeper.woken }

/-- `intq_putc (&txq, byte)` when there is room, and `write_ier`. -/
def txPutc (byte : UInt8) : Option Machine :=
  if m.txq.full then none
  else
    let m := { m with txq := m.txq.putc byte, sent := m.sent ++ [byte] }
    some m.writeIer

/-- `init_poll`. -/
def initPoll : Option Machine :=
  if m.mode = .uninit then
    let m := m.outIer false false
    some { m with txq := .init m.txq.buf, mode := .poll }
  else none

/-- `serial_init_queue`. -/
def serialInitQueue : Option Machine :=
  let init := if m.mode = .uninit then m.initPoll else some m
  init.bind fun m =>
    if m.mode = .poll then
      let m := { m with mode := .queue }
      some m.writeIer
    else none

/-- `serial_putc`, up to where it waits. -/
def serialPutc (byte : UInt8) : Option Machine :=
  if m.mode = .queue then
    let m := { m with given := m.given ++ [byte] }
    if m.txq.full then
      if m.level then
        -- no second thread comes here
        if m.sleeper.isSome then none else some { m with sleeper := some ⟨byte, false⟩ }
      else m.pollGetc (.put byte)
    else m.txPutc byte
  else
    let init := if m.mode = .uninit then m.initPoll else some m
    init.map fun m =>
      { m with given := m.given ++ [byte], cpu := .polling byte .done, sent := m.sent ++ [byte] }

/-- The loop of `serial_flush`. -/
def serialFlush : Option Machine :=
  if m.txq.empty then some { m with cpu := .idle } else m.pollGetc .flush

/-- What follows a `putc_poll`. -/
def goOn : Next → Option Machine
  | .done => some { m with cpu := .idle }
  | .put byte =>
      let m := { m with cpu := .idle }
      m.txPutc byte
  | .flush => m.serialFlush

/-- The thread that slept in `intq_putc` tests the queue again. -/
def wake : Option Machine :=
  match m.sleeper with
  | some ⟨byte, true⟩ =>
      if m.txq.full then some { m with sleeper := some ⟨byte, false⟩ }
      else
        let m := { m with sleeper := none }
        m.txPutc byte
  | _ => none

/-- The UART asks for an interrupt. -/
def asks : Bool := m.ierXmit && m.pending || m.ierRecv && m.rbr.isSome

/-- `serial_interrupt` begins with the interrupt identification register.  To read it takes back the
transmit interrupt, if the register does not report that data are received. -/
def serialInterrupt : Machine :=
  { m with cpu := .receiving, pending := m.pending && (m.ierRecv && m.rbr.isSome) }

/-- The first loop of `serial_interrupt`. -/
def receive : Option Machine :=
  match m.rbr with
  | some byte =>
      if m.buffer.full then some { m with cpu := .transmitting }
      else
        let m := { m with rbr := none }
        m.inputPutc byte
  | none => some { m with cpu := .transmitting }

/-- The second loop of `serial_interrupt`, and what follows it. -/
def transmit : Option Machine :=
  if m.txq.empty || m.thr.isSome then
    let m := m.writeIer
    some { m with cpu := .idle }
  else
    let byte := m.txq.byte
    let m := { m with txq := m.txq.getc, sleeper := m.sleeper.map Sleeper.woken }
    m.outThr byte

/-- The processor goes on in the driver. -/
def run : Option Machine :=
  match m.cpu with
  | .idle => none
  | .polling byte rest => (m.outThr byte).bind fun m => m.goOn rest
  | .receiving => m.receive
  | .transmitting => m.transmit

/-- The UART sends the byte in the holding register. -/
def shift : Option Machine :=
  m.thr.map fun byte => { m with line := m.line ++ [byte], thr := none, pending := true }

/-- `keyboard_interrupt`, when the key has the character `key`. -/
def keyboard (key : UInt8) : Option Machine := if m.buffer.full then some m else m.inputPutc key

end Machine

inductive Action where
  | putc (byte : UInt8)
  | flush
  | initQueue
  | setLevel (level : Bool)
  | getc
  | key (byte : UInt8)
  | arrive (byte : UInt8)
  | shift
  | interrupt
  | run
  | wake

/-- The last four go on with what was asked for before. -/
def Action.Internal : Action → Prop
  | .shift | .interrupt | .run | .wake => True
  | _ => False

def step : Action → Machine → Option Machine
  | .putc byte, m => m.serialPutc byte
  | .flush, m => m.serialFlush
  | .initQueue, m => m.serialInitQueue
  | .setLevel level, m => some { m with level := level }
  | .getc, m => m.inputGetc
  | .key byte, m => m.keyboard byte
  | .arrive byte, m => some { m with rbr := some byte }
  | .shift, m => m.shift
  | .interrupt, m => some m.serialInterrupt
  | .run, m => m.run
  | .wake, m => m.wake

/-- Which actions may come.  Outside of the driver the processor does whatever it likes, but a thread that
calls `serial_putc` when another one sleeps there has interrupts off. -/
def Allowed (m : Machine) : Action → Prop
  | .putc _ => m.cpu = .idle ∧ (m.sleeper = none ∨ m.level = false)
  | .flush | .setLevel _ => m.cpu = .idle
  | .initQueue => m.cpu = .idle ∧ m.mode ≠ .queue
  | .getc => m.cpu = .idle ∧ m.buffer.empty = false
  | .key _ => m.cpu = .idle ∧ m.level = true
  | .arrive _ => True
  | .shift => m.thr.isSome = true
  | .interrupt => m.cpu = .idle ∧ m.level = true ∧ m.mode = .queue ∧ m.asks = true
  | .run => match m.cpu with
      | .idle => False
      | .polling _ _ => m.thr.isNone = true
      | _ => True
  | .wake => m.cpu = .idle ∧ ∃ byte, m.sleeper = some ⟨byte, true⟩

/-- `Allowed`, as a test. -/
def allowed (m : Machine) : Action → Bool
  | .putc _ => m.cpu = .idle && (m.sleeper.isNone || !m.level)
  | .flush | .setLevel _ => m.cpu = .idle
  | .initQueue => m.cpu = .idle && m.mode ≠ .queue
  | .getc => m.cpu = .idle && !m.buffer.empty
  | .key _ => m.cpu = .idle && m.level
  | .arrive _ => true
  | .shift => m.thr.isSome
  | .interrupt => m.cpu = .idle && (m.level && (m.mode = .queue && m.asks))
  | .run => match m.cpu with
      | .idle => false
      | .polling _ _ => m.thr.isNone
      | _ => true
  | .wake => m.cpu = .idle && m.sleeper.any Sleeper.ready

theorem allowed_iff {m : Machine} {a : Action} : allowed m a = true ↔ Allowed m a := by
  cases a with
  | run =>
      unfold allowed Allowed
      cases m.cpu <;> simp
  | wake =>
      simp only [allowed, Allowed, Bool.and_eq_true, decide_eq_true_eq]
      cases m.sleeper with
      | none => simp
      | some s =>
          obtain ⟨byte, ready⟩ := s
          simp
  | putc _ | flush | initQueue | setLevel _ | getc | key _ | arrive _ | shift | interrupt =>
      simp [allowed, Allowed]

/-! ### The invariant -/

/-- The byte that waits to be sent in `putc_poll`. -/
def Cpu.hand : Cpu → List UInt8
  | .polling byte _ => [byte]
  | _ => []

/-- The byte that goes into the queue behind a `putc_poll`. -/
def Cpu.later : Cpu → List UInt8
  | .polling _ (.put byte) => [byte]
  | _ => []

/-- The byte of the thread that sleeps. -/
def Machine.slept (m : Machine) : List UInt8 := m.sleeper.toList.map Sleeper.byte

def Cpu.Handling (c : Cpu) : Prop := c = .receiving ∨ c = .transmitting

/-- What the driver is about before its queue is used. -/
def Cpu.Early (c : Cpu) : Prop := c = .idle ∨ ∃ byte, c = .polling byte .done

/-- The transmit interrupt is still to come, or its handler runs. -/
def Armed (m : Machine) : Prop := m.thr.isSome = true ∨ m.pending = true ∨ m.cpu.Handling

/-- What holds even before `write_ier`. -/
structure Core (m : Machine) : Prop where
  fifo : m.line ++ m.thr.toList ++ m.cpu.hand ++ m.txq.contents = m.sent
  given : ∀ b, m.given.count b = m.sent.count b + m.slept.count b + m.cpu.later.count b
  input : m.delivered ++ m.buffer.contents = m.received
  early : m.mode ≠ .queue → m.txq.contents = [] ∧ m.sleeper = none ∧ m.cpu.Early
  sleeps : ∀ byte, m.sleeper = some ⟨byte, false⟩ → m.txq.full = true
  room : ∀ byte c, m.cpu = .polling byte (.put c) → m.txq.full = false
  off : m.mode = .poll → m.ierXmit = false
  armed : m.mode = .queue → m.ierXmit = true → Armed m

/-- **The invariant**: nothing is lost or comes twice, and an interrupt that is needed is enabled. -/
structure Valid (m : Machine) : Prop extends Core m where
  recv : m.mode = .queue → m.ierRecv = !m.buffer.full
  xmit : m.mode = .queue → m.txq.contents ≠ [] → m.ierXmit = true

variable {m m' : Machine} {a : Action} {byte : UInt8}

theorem valid_boot {buf : ℕ → UInt8} {recv xmit pending : Bool} : Valid (boot buf recv xmit pending) where
  fifo := by simp [boot, Cpu.hand]
  given _ := rfl
  input := by simp [boot]
  early _ := ⟨Queue.contents_init buf, rfl, .inl rfl⟩
  sleeps _ h := by cases h
  room _ _ h := by cases h
  off h := by cases h
  armed h := by cases h
  recv h := by cases h
  xmit h := by cases h

/-- What `write_ier` is for. -/
theorem Core.writeIer (h : Core m) : Valid m.writeIer where
  fifo := h.fifo
  given := h.given
  input := h.input
  early := h.early
  sleeps := h.sleeps
  room := h.room
  off hmode := by
    have hempty : m.txq.empty = true :=
      Queue.empty_iff.mpr (h.early (show m.mode ≠ .queue by rw [show m.mode = .poll from hmode]; simp)).1
    simp [Machine.writeIer, Machine.outIer, hempty]
  armed hmode hxmit := by
    simp only [Machine.writeIer, Machine.outIer, Armed] at hmode hxmit ⊢
    cases hwas : m.ierXmit with
    | true =>
        obtain hthr | hpending | hcpu := h.armed hmode hwas
        · exact .inl hthr
        · exact .inr (.inl (by simp [hpending]))
        · exact .inr (.inr hcpu)
    | false =>
        cases hthr : m.thr with
        | none => exact .inr (.inl (by simp [hxmit]))
        | some b => exact .inl rfl
  recv _ := rfl
  xmit _ hne := by
    have hempty : m.txq.empty = false := Queue.empty_eq_false_iff.mpr hne
    simp [Machine.writeIer, Machine.outIer, hempty]

theorem Core.not_sleeping (h : Core m) (hroom : m.txq.full = false) : m.sleeper ≠ some ⟨byte, false⟩ := by
  intro hs
  rw [h.sleeps byte hs] at hroom
  cases hroom

theorem slept_woken {s : Option Sleeper} : (s.map Sleeper.woken).toList.map Sleeper.byte =
    s.toList.map Sleeper.byte := by
  cases s <;> rfl

/-- A byte that is still to be put is put into the queue. -/
theorem Core.txPutc (h : Core m) (byte : UInt8) (given : List UInt8) (hcpu : m.cpu = .idle)
    (hmode : m.mode = .queue) (hroom : m.txq.full = false)
    (hgiven : ∀ b, given.count b = m.sent.count b + [byte].count b + m.slept.count b) :
    ∃ m', { m with given := given }.txPutc byte = some m' ∧ Valid m' := by
  unfold Machine.txPutc
  rw [if_neg (by simp only [hroom, Bool.false_eq_true, not_false_eq_true])]
  refine ⟨_, rfl, Core.writeIer ?_⟩
  exact {
    fifo := by simp [← h.fifo, hcpu, Cpu.hand, Queue.contents_putc hroom]
    given := fun b => by
      have := hgiven b
      simp only [Machine.slept, hcpu, Cpu.later, List.count_append, List.count_nil] at this ⊢
      omega
    input := h.input
    early := fun hne => absurd hmode hne
    sleeps := fun b hs => absurd hs (h.not_sleeping hroom)
    room := fun b c hp => by simp [hcpu] at hp
    off := fun hpoll => by simp [hmode] at hpoll
    armed := h.armed }

theorem not_sleeping_woken {s : Option Sleeper} : s.map Sleeper.woken ≠ some ⟨byte, false⟩ := by
  cases s <;> simp [Sleeper.woken]

theorem Valid.queue_of_ne (h : Valid m) (hne : m.txq.empty = false) : m.mode = .queue := by
  by_contra hmode
  exact Queue.empty_eq_false_iff.mp hne (h.early hmode).1

/-- A byte is taken out of the queue to be polled. -/
theorem Valid.pollGetc (h : Valid m) (hcpu : m.cpu = .idle) (hne : m.txq.empty = false) {rest : Next}
    {given : List UInt8}
    (hgiven : ∀ b, given.count b = m.given.count b + (Cpu.polling m.txq.byte rest).later.count b) :
    ∃ m', { m with given := given }.pollGetc rest = some m' ∧ Valid m' := by
  unfold Machine.pollGetc
  rw [if_neg (by simp only [hne, Bool.false_eq_true, not_false_eq_true])]
  have hcontents := Queue.contents_getc hne
  have hmode := h.queue_of_ne hne
  refine ⟨_, rfl, ?_⟩
  exact {
    fifo := by simp [← h.fifo, hcpu, Cpu.hand, hcontents]
    given := fun b => by
      have hgiven := hgiven b
      have hwas := h.given b
      simp only [Machine.slept, slept_woken, hcpu, Cpu.later, List.count_nil] at hgiven hwas ⊢
      omega
    input := h.input
    early := fun hmode' => absurd hmode hmode'
    sleeps := fun b hs => absurd hs not_sleeping_woken
    room := fun _ _ _ => Queue.full_getc hne
    off := h.off
    armed := fun _ hxmit => by
      obtain hthr | hpending | hhandling := h.armed hmode hxmit
      · exact .inl hthr
      · exact .inr (.inl hpending)
      · rw [hcpu] at hhandling
        obtain hhandling | hhandling := hhandling <;> cases hhandling
    recv := h.recv
    xmit := fun _ hne' => h.xmit hmode (by simp [hcontents]) }

theorem Valid.serialFlush (h : Valid m) (hcpu : m.cpu = .idle) :
    ∃ m', m.serialFlush = some m' ∧ Valid m' := by
  unfold Machine.serialFlush
  by_cases hempty : m.txq.empty = true
  · rw [if_pos hempty, ← hcpu]
    exact ⟨m, rfl, h⟩
  · rw [if_neg hempty]
    exact h.pollGetc hcpu (Bool.not_eq_true _ ▸ hempty) (fun _ => rfl)

theorem Valid.initPoll (h : Valid m) (hmode : m.mode = .uninit) :
    ∃ m', m.initPoll = some m' ∧ Valid m' ∧ m'.mode = .poll ∧ m'.cpu = m.cpu := by
  unfold Machine.initPoll
  rw [if_pos hmode]
  obtain ⟨hnil, halone, hearly⟩ := h.early (by simp [hmode])
  refine ⟨_, rfl, ?_, rfl, rfl⟩
  exact {
    fifo := by
      rw [Queue.contents_init, ← hnil]
      exact h.fifo
    given := h.given
    input := h.input
    early := fun _ => ⟨Queue.contents_init _, halone, hearly⟩
    sleeps := fun b hs => by
      simp only [Machine.outIer, halone] at hs
      cases hs
    room := fun b c hp => by
      obtain hidle | ⟨d, hd⟩ := hearly
      · simp [Machine.outIer, hidle] at hp
      · simp [Machine.outIer, hd] at hp
    off := fun _ => rfl
    armed := fun hq => by cases hq
    recv := fun hq => by cases hq
    xmit := fun hq => by cases hq }

theorem Valid.serialInitQueue (h : Valid m) (hcpu : m.cpu = .idle) (hmode : m.mode ≠ .queue) :
    ∃ m', m.serialInitQueue = some m' ∧ Valid m' := by
  have hpoll : ∀ m₁ : Machine, Valid m₁ → m₁.mode = .poll → m₁.cpu = .idle →
      Valid { m₁ with mode := Mode.queue }.writeIer := by
    intro m₁ h₁ hmode₁ hcpu₁
    apply Core.writeIer
    exact {
      fifo := h₁.fifo
      given := h₁.given
      input := h₁.input
      early := fun hne => absurd rfl hne
      sleeps := h₁.sleeps
      room := h₁.room
      off := fun hq => by cases hq
      armed := fun _ hxmit => by
        have hoff := h₁.off hmode₁
        simp only [hoff] at hxmit
        cases hxmit }
  unfold Machine.serialInitQueue
  cases hm : m.mode with
  | uninit =>
      obtain ⟨m₁, hinit, h₁, hmode₁, hcpu₁⟩ := h.initPoll hm
      simp only [if_pos, hinit, Option.bind_some, hmode₁]
      exact ⟨_, rfl, hpoll m₁ h₁ hmode₁ (hcpu₁.trans hcpu)⟩
  | poll =>
      simp only [reduceCtorEq, if_false, Option.bind_some, hm, if_pos]
      exact ⟨_, rfl, hpoll m h hm hcpu⟩
  | queue => exact absurd hm hmode

/-- A byte is polled before the queue is in use. -/
theorem Valid.pollByte (h : Valid m) (hcpu : m.cpu = .idle) (hmode : m.mode = .poll) : Valid { m with
    given := m.given ++ [byte], cpu := .polling byte .done, sent := m.sent ++ [byte] } := by
  obtain ⟨hnil, halone, -⟩ := h.early (by simp [hmode])
  exact {
    fifo := by simp [← h.fifo, hcpu, Cpu.hand, hnil]
    given := fun b => by
      have hwas := h.given b
      simp only [Machine.slept, hcpu, Cpu.later, List.count_append, List.count_nil] at hwas ⊢
      omega
    input := h.input
    early := fun _ => ⟨hnil, halone, .inr ⟨byte, rfl⟩⟩
    sleeps := h.sleeps
    room := fun b c hp => by cases hp
    off := h.off
    armed := fun hq => by simp [hmode] at hq
    recv := fun hq => by simp [hmode] at hq
    xmit := fun hq => by simp [hmode] at hq }

/-- The thread that waits for room goes to sleep, or to sleep again. -/
theorem Valid.sleep (h : Valid m) (given : List UInt8) (hmode : m.mode = .queue) (hfull : m.txq.full = true)
    (hgiven : ∀ b, given.count b = m.sent.count b + [byte].count b + m.cpu.later.count b) :
    Valid { m with given := given, sleeper := some ⟨byte, false⟩ } where
  fifo := h.fifo
  given := hgiven
  input := h.input
  early hne := absurd hmode hne
  sleeps _ _ := hfull
  room := h.room
  off := h.off
  armed := h.armed
  recv := h.recv
  xmit := h.xmit

theorem Valid.serialPutc (h : Valid m) (hcpu : m.cpu = .idle)
    (halone : m.sleeper = none ∨ m.level = false) : ∃ m', m.serialPutc byte = some m' ∧ Valid m' := by
  unfold Machine.serialPutc
  have hwas := h.given
  simp only [hcpu, Cpu.later, List.count_nil] at hwas
  by_cases hqueue : m.mode = .queue
  · simp only [if_pos hqueue]
    by_cases hfull : m.txq.full = true
    · simp only [if_pos hfull]
      by_cases hlevel : m.level = true
      · have hnone : m.sleeper = none := halone.resolve_right (by simp [hlevel])
        simp only [if_pos hlevel, hnone, Option.isSome_none, Bool.false_eq_true, if_false]
        refine ⟨_, rfl, h.sleep _ hqueue hfull fun b => ?_⟩
        have hwas := hwas b
        simp only [Machine.slept, hnone, Option.toList_none, List.map_nil, List.count_nil, hcpu, Cpu.later,
          List.count_append] at hwas ⊢
        omega
      · simp only [if_neg hlevel]
        exact h.pollGetc hcpu (Queue.empty_of_full hfull) (fun b => List.count_append)
    · simp only [if_neg hfull]
      refine h.txPutc byte _ hcpu hqueue (Bool.not_eq_true _ ▸ hfull) fun b => ?_
      have hwas := hwas b
      rw [List.count_append]
      omega
  · rw [if_neg hqueue]
    by_cases hm : m.mode = .uninit
    · obtain ⟨m₁, hinit, h₁, hmode₁, hcpu₁⟩ := h.initPoll hm
      simp only [if_pos hm, hinit, Option.map_some]
      exact ⟨_, rfl, h₁.pollByte (hcpu₁.trans hcpu) hmode₁⟩
    · have hpoll : m.mode = .poll := by cases hmode : m.mode <;> simp_all
      simp only [if_neg hm, Option.map_some]
      exact ⟨_, rfl, h.pollByte hcpu hpoll⟩

/-- A byte is written to the holding register from the loop of `putc_poll`. -/
theorem Valid.polled (h : Valid m) (given : List UInt8) {rest : Next} (hcpu : m.cpu = .polling byte rest)
    (hthr : m.thr = none)
    (hgiven : ∀ b, given.count b = m.sent.count b + m.slept.count b) :
    Valid { m with given := given, thr := some byte, pending := false, cpu := .idle } where
  fifo := by simp [← h.fifo, hcpu, hthr, Cpu.hand]
  given := hgiven
  input := h.input
  early hne := ⟨(h.early hne).1, (h.early hne).2.1, .inl rfl⟩
  sleeps := h.sleeps
  room _ _ hp := by cases hp
  off := h.off
  armed _ _ := .inl rfl
  recv := h.recv
  xmit := h.xmit

theorem Core.serialNotify (h : Core m) : Valid m.serialNotify := by
  unfold Machine.serialNotify
  by_cases hmode : m.mode = .queue
  · rw [if_pos hmode]
    exact h.writeIer
  · rw [if_neg hmode]
    exact { h with
      recv := fun hq => absurd hq hmode
      xmit := fun hq => absurd hq hmode }

theorem Valid.inputPutc (h : Valid m) (hroom : m.buffer.full = false) (key : UInt8) :
    ∃ m', m.inputPutc key = some m' ∧ Valid m' := by
  unfold Machine.inputPutc
  rw [if_neg (by simp only [hroom, Bool.false_eq_true, not_false_eq_true])]
  refine ⟨_, rfl, Core.serialNotify ?_⟩
  exact { h with input := by simp [← h.input, Queue.contents_putc hroom] }

theorem Valid.inputGetc (h : Valid m) (hne : m.buffer.empty = false) :
    ∃ m', m.inputGetc = some m' ∧ Valid m' := by
  unfold Machine.inputGetc
  rw [if_neg (by simp only [hne, Bool.false_eq_true, not_false_eq_true])]
  refine ⟨_, rfl, Core.serialNotify ?_⟩
  exact { h with input := by simp [← h.input, Queue.contents_getc hne] }

theorem Valid.keyboard (h : Valid m) (key : UInt8) : ∃ m', m.keyboard key = some m' ∧ Valid m' := by
  unfold Machine.keyboard
  by_cases hfull : m.buffer.full = true
  · rw [if_pos hfull]
    exact ⟨m, rfl, h⟩
  · rw [if_neg hfull]
    exact h.inputPutc (Bool.not_eq_true _ ▸ hfull) key

/-- The handler of the interrupt is only run when the queue is in use. -/
theorem Valid.queue_of_handling (h : Valid m) (hcpu : m.cpu.Handling) : m.mode = .queue := by
  by_contra hmode
  obtain ⟨-, -, hidle | ⟨byte, hpolling⟩⟩ := h.early hmode
  · obtain hcpu | hcpu := hcpu <;> simp [hidle] at hcpu
  · obtain hcpu | hcpu := hcpu <;> simp [hpolling] at hcpu

theorem Valid.receive (h : Valid m) (hcpu : m.cpu = .receiving) :
    ∃ m', m.receive = some m' ∧ Valid m' := by
  have hmode := h.queue_of_handling (.inl hcpu)
  have hnext : Valid { m with cpu := .transmitting } := by
    exact { h with
      fifo := by
        rw [← h.fifo, hcpu]
        rfl
      given := by
        intro b
        rw [h.given b, hcpu]
        rfl
      early := fun hne => absurd hmode hne
      room := fun _ _ hp => by cases hp
      armed := fun _ _ => .inr (.inr (.inr rfl)) }
  unfold Machine.receive
  cases hrbr : m.rbr with
  | none => exact ⟨_, rfl, hrbr ▸ hnext⟩
  | some byte =>
      by_cases hfull : m.buffer.full = true
      · simp only [if_pos hfull]
        exact ⟨_, rfl, hrbr ▸ hnext⟩
      · simp only [if_neg hfull]
        have hread : Valid { m with rbr := none } := by exact { h with }
        exact hread.inputPutc (Bool.not_eq_true _ ▸ hfull) byte

theorem Valid.transmit (h : Valid m) (hcpu : m.cpu = .transmitting) :
    ∃ m', m.transmit = some m' ∧ Valid m' := by
  have hmode := h.queue_of_handling (.inr hcpu)
  unfold Machine.transmit
  by_cases hend : (m.txq.empty || m.thr.isSome) = true
  · rw [if_pos hend]
    refine ⟨_, rfl, ?_⟩
    have hdone := h.toCore.writeIer
    exact { hdone with
      fifo := by
        rw [← hdone.fifo, show m.writeIer.cpu = .transmitting from hcpu]
        rfl
      given := by
        intro b
        rw [hdone.given b, show m.writeIer.cpu = .transmitting from hcpu]
        rfl
      early := fun hne => absurd hmode hne
      room := fun _ _ hp => by cases hp
      armed := fun _ hxmit => by
        simp only [Machine.writeIer, Machine.outIer, Bool.not_eq_eq_eq_not, Bool.not_true] at hxmit
        rw [hxmit, Bool.false_or] at hend
        exact .inl hend }
  · rw [Bool.or_eq_true, not_or, Bool.not_eq_true, Bool.not_eq_true, Option.isSome_eq_false_iff,
      Option.isNone_iff_eq_none] at hend
    obtain ⟨hne, hthr⟩ := hend
    have hcontents := Queue.contents_getc hne
    simp only [hne, hthr, Machine.outThr, Option.isSome_none, Bool.or_self, Bool.false_eq_true, if_false,
      Option.isNone_none, if_true]
    refine ⟨_, rfl, ?_⟩
    exact {
      fifo := by simp [← h.fifo, hcpu, hthr, Cpu.hand, hcontents]
      given := fun b => by
        rw [h.given b]
        simp only [Machine.slept, slept_woken]
      input := h.input
      early := fun hne => absurd hmode hne
      sleeps := fun b hs => absurd hs not_sleeping_woken
      room := fun b c hp => by simp [hcpu] at hp
      off := h.off
      armed := fun _ _ => .inl rfl
      recv := h.recv
      xmit := fun _ _ => h.xmit hmode (by simp [hcontents]) }

theorem Valid.run (h : Valid m) (hallowed : Allowed m .run) : ∃ m', m.run = some m' ∧ Valid m' := by
  unfold Machine.run
  cases hcpu : m.cpu with
  | idle => simp [Allowed, hcpu] at hallowed
  | receiving => exact h.receive hcpu
  | transmitting => exact h.transmit hcpu
  | polling byte rest =>
      simp only [Allowed, hcpu, Option.isNone_iff_eq_none] at hallowed
      have hgiven := h.given
      simp only [Machine.outThr, hallowed, Option.isNone_none, if_true, Option.bind_some]
      cases rest with
      | done =>
          simp only [hcpu, Cpu.later, List.count_nil] at hgiven
          exact ⟨_, rfl, h.polled m.given hcpu hallowed hgiven⟩
      | flush =>
          simp only [hcpu, Cpu.later, List.count_nil] at hgiven
          exact (h.polled m.given hcpu hallowed hgiven).serialFlush rfl
      | put c =>
          have hroom := h.room byte c hcpu
          have hmode : m.mode = .queue := by
            by_contra hmode
            obtain ⟨-, -, hidle | ⟨d, hd⟩⟩ := h.early hmode
            · simp [hcpu] at hidle
            · simp [hcpu] at hd
          -- for a moment the byte that is still to be put is not counted
          have hpolled := h.polled (m.sent ++ m.slept) hcpu hallowed (fun _ => List.count_append)
          have hput := hpolled.txPutc c m.given rfl hmode hroom
          refine hput fun b => ?_
          have hgiven := hgiven b
          simp only [Machine.slept, hcpu, Cpu.later] at hgiven ⊢
          omega

theorem Valid.wake (h : Valid m) (hallowed : Allowed m .wake) : ∃ m', m.wake = some m' ∧ Valid m' := by
  obtain ⟨hcpu, byte, hsleeper⟩ := hallowed
  have hgiven := h.given
  simp only [Machine.slept, hsleeper, hcpu, Cpu.later, List.count_nil] at hgiven
  have hmode : m.mode = .queue := by
    by_contra hmode
    rw [(h.early hmode).2.1] at hsleeper
    cases hsleeper
  unfold Machine.wake
  simp only [hsleeper]
  by_cases hfull : m.txq.full = true
  · rw [if_pos hfull]
    refine ⟨_, rfl, h.sleep m.given hmode hfull fun b => ?_⟩
    simp only [hcpu, Cpu.later, List.count_nil]
    exact hgiven b
  · rw [if_neg hfull]
    have hawake : Valid { m with given := m.sent, sleeper := none } := by
      exact { h with
        given := by
          intro b
          simp only [Machine.slept, hcpu, Cpu.later, Option.toList_none, List.map_nil, List.count_nil,
            Nat.add_zero]
        early := fun hne => absurd hmode hne
        sleeps := fun _ hs => by cases hs }
    refine hawake.txPutc byte m.given hcpu hmode (Bool.not_eq_true _ ▸ hfull) fun b => ?_
    have hgiven := hgiven b
    simp only [Machine.slept, Option.toList_some, Option.toList_none, List.map_cons, List.map_nil,
      List.count_nil] at hgiven ⊢
    omega

theorem Valid.shift (h : Valid m) (hthr : m.thr.isSome = true) : ∃ m', m.shift = some m' ∧ Valid m' := by
  obtain ⟨byte, hthr⟩ := Option.isSome_iff_exists.mp hthr
  unfold Machine.shift
  rw [hthr]
  refine ⟨_, rfl, ?_⟩
  exact { h with
    fifo := by simp [← h.fifo, hthr]
    armed := fun _ _ => .inr (.inl rfl) }

theorem Valid.serialInterrupt (h : Valid m) (hcpu : m.cpu = .idle) (hmode : m.mode = .queue) :
    Valid m.serialInterrupt := by
  exact { h with
    fifo := by
      have hfifo := h.fifo
      rw [hcpu] at hfifo
      exact hfifo
    given := by
      intro b
      have hgiven := h.given b
      rw [hcpu] at hgiven
      exact hgiven
    early := fun hne => absurd hmode hne
    room := fun _ _ hp => by cases hp
    armed := fun _ _ => .inr (.inr (.inl rfl)) }

/-- **No assertion fails, and every action keeps the invariant.** -/
theorem Valid.step (h : Valid m) (ha : Allowed m a) : ∃ m', step a m = some m' ∧ Valid m' := by
  cases a with
  | putc byte => exact h.serialPutc ha.1 ha.2
  | flush => exact h.serialFlush ha
  | initQueue => exact h.serialInitQueue ha.1 ha.2
  | setLevel level => exact ⟨_, rfl, { h with }⟩
  | getc => exact h.inputGetc ha.2
  | key byte => exact h.keyboard byte
  | arrive byte => exact ⟨_, rfl, { h with }⟩
  | shift => exact h.shift ha
  | interrupt => exact ⟨_, rfl, h.serialInterrupt ha.1 ha.2.2.1⟩
  | run => exact h.run ha
  | wake => exact h.wake ha

/-! ### Runs -/

/-- The states that the machine can get into. -/
abbrev Reached (m : Machine) : Prop :=
  ∃ buf recv xmit pending, Reachable step Allowed (boot buf recv xmit pending) m

theorem Reached.valid (hm : Reached m) : Valid m := by
  obtain ⟨buf, recv, xmit, pending, hm⟩ := hm
  refine hm.invariant valid_boot fun s a s' _ hs ha hstep => ?_
  obtain ⟨t, ht, hvalid⟩ := hs.step ha
  rw [hstep, Option.some_inj] at ht
  exact ht ▸ hvalid

/-- **In every state that is reached, whatever the order of calls and interrupts: the bytes accepted are on
the line, in the holding register, in the processor's hands and in the queue, in order; every byte that was
given to `serial_putc` is one of them, or waits in a call; what was read from the input buffer and what is in
it is what was put into it; in queue mode a byte in the queue has the transmit interrupt enabled and yet to
come, and bytes are received as long as there is room for them; and no assertion fails.** -/
theorem reached_safe (hm : Reached m) :
    m.sent = m.line ++ m.thr.toList ++ m.cpu.hand ++ m.txq.contents ∧
      m.given.Perm (m.sent ++ m.slept ++ m.cpu.later) ∧
      m.received = m.delivered ++ m.buffer.contents ∧
      (m.mode = .queue → m.txq.contents ≠ [] → m.ierXmit = true ∧ Armed m) ∧
      (m.mode = .queue → (m.ierRecv = true ↔ m.buffer.full = false)) ∧
      ∀ a, Allowed m a → (step a m).isSome = true := by
  have h := hm.valid
  refine ⟨h.fifo.symm, ?_, h.input.symm, ?_, ?_, ?_⟩
  · rw [List.perm_iff_count]
    intro b
    rw [h.given b, List.count_append, List.count_append]
  · intro hmode hne
    have hxmit := h.xmit hmode hne
    exact ⟨hxmit, h.armed hmode hxmit⟩
  · intro hmode
    rw [h.recv hmode, Bool.not_eq_true']
  · intro a ha
    obtain ⟨m', hstep, -⟩ := h.step ha
    rw [hstep]
    rfl

/-- The queue is filled with the interrupts of the UART on, and one more thread sleeps. -/
def filling : List Action := [.initQueue, .setLevel true] ++ List.replicate 64 (.putc 65)

/-- A byte has come for the input buffer, and then the first byte of the queue is sent.  The thread has
been woken and has not run yet. -/
theorem reached_safe_asleep : ∃ m,
    execute (checked allowed step)
      (filling ++ [.arrive 66, .interrupt, .run, .run, .run]) (boot (fun _ => 0) true true true) = some m ∧
    m.thr = some 65 ∧ m.txq.contents.length = 62 ∧ m.slept = [65] ∧ m.buffer.contents = [66] ∧
    m.sent = m.line ++ m.thr.toList ++ m.cpu.hand ++ m.txq.contents ∧
    m.given.Perm (m.sent ++ m.slept ++ m.cpu.later) ∧ m.ierXmit = true ∧ Armed m := by
  have h : (execute (checked allowed step)
      (filling ++ [.arrive 66, .interrupt, .run, .run, .run]) (boot (fun _ => 0) true true true)).map
        (fun m => (m.mode, m.thr, m.txq.contents.length, m.slept, m.buffer.contents)) =
      some (.queue, some 65, 62, [65], [66]) := by
    decide +kernel
  obtain ⟨m, hm, hfacts⟩ := Option.map_eq_some_iff.mp h
  simp only [Prod.mk.injEq] at hfacts
  obtain ⟨hmode, hthr, hlength, hslept, hbuffer⟩ := hfacts
  obtain ⟨hsent, hgiven, -, hxmit, -⟩ :=
    reached_safe ⟨_, _, _, _, exists_run_of_checked (fun _ _ => allowed_iff.mp) hm⟩
  have hne : m.txq.contents ≠ [] := List.ne_nil_of_length_pos (by rw [hlength]; decide)
  exact ⟨m, hm, hthr, hlength, hslept, hbuffer, hsent, hgiven, hxmit hmode hne⟩

/-! ### Nothing is stuck -/

/-- What is left to do for a thread that sleeps. -/
def sleeperWork : Option Sleeper → ℕ
  | none => 0
  | some s => if s.ready then 13 else 12

def Cpu.work : Cpu → ℕ
  | .idle => 0
  | .polling _ (.put _) => 18
  | .polling _ _ => 6
  | .receiving => 2
  | .transmitting => 1

/-- What is left to do for a byte that can be received. -/
def receiveWork (m : Machine) : ℕ :=
  if m.rbr.isSome = true ∧ m.buffer.full = false then if m.cpu = .receiving then 1 else 4 else 0

/-- How many actions of the UART and the driver can follow before all is sent, at most. -/
def work (m : Machine) : ℕ :=
  sleeperWork m.sleeper + m.cpu.work + 7 * m.txq.contents.length + (if m.thr.isSome = true then 4 else 0) +
    (if m.pending = true then 3 else 0) + receiveWork m

theorem sleeperWork_woken {s : Option Sleeper} : sleeperWork (s.map Sleeper.woken) ≤ sleeperWork s + 1 := by
  cases s with
  | none => simp [sleeperWork]
  | some s =>
      simp only [sleeperWork, Option.map_some, Sleeper.woken, if_true]
      split <;> omega

theorem work_writeIer_le : work m.writeIer ≤ work m + 3 := by
  have hpending : (if m.writeIer.pending = true then 3 else 0) ≤ (if m.pending = true then 3 else 0) + 3 := by
    split_ifs <;> omega
  have hwork : work m.writeIer = sleeperWork m.sleeper + m.cpu.work + 7 * m.txq.contents.length +
      (if m.thr.isSome = true then 4 else 0) + (if m.writeIer.pending = true then 3 else 0) +
      receiveWork m := rfl
  rw [hwork, work]
  omega

/-- `write_ier` does not ask for a new interrupt when that for the bytes in the queue is enabled. -/
theorem work_writeIer (hxmit : m.txq.contents ≠ [] → m.ierXmit = true) : work m.writeIer = work m := by
  have hpending : m.writeIer.pending = m.pending := by
    simp only [Machine.writeIer, Machine.outIer]
    cases hempty : m.txq.empty with
    | true => simp
    | false => simp [hxmit (Queue.empty_eq_false_iff.mp hempty)]
  unfold work
  rw [hpending]
  rfl

theorem work_serialNotify (hxmit : m.mode = .queue → m.txq.contents ≠ [] → m.ierXmit = true) :
    work m.serialNotify = work m := by
  unfold Machine.serialNotify
  by_cases hmode : m.mode = .queue
  · rw [if_pos hmode, work_writeIer (hxmit hmode)]
  · rw [if_neg hmode]

theorem work_txPutc (h : m.txPutc byte = some m') : work m' ≤ work m + 10 := by
  unfold Machine.txPutc at h
  split_ifs at h with hfull
  rw [← Option.some.inj h]
  have hle := work_writeIer_le (m := { m with txq := m.txq.putc byte, sent := m.sent ++ [byte] })
  refine hle.trans ?_
  simp only [work, Queue.contents_putc (Bool.not_eq_true _ ▸ hfull), List.length_append,
    List.length_singleton]
  simp only [receiveWork]
  omega

theorem work_shift (h : m.shift = some m') : work m' < work m := by
  unfold Machine.shift at h
  cases hthr : m.thr with
  | none => simp [hthr] at h
  | some b =>
      simp only [hthr, Option.map_some, Option.some.injEq] at h
      subst h
      simp only [work, receiveWork, hthr, Option.isSome_none, Option.isSome_some, Bool.false_eq_true,
        if_false, if_true]
      split_ifs <;> omega

theorem work_wake (h : m.wake = some m') : work m' < work m := by
  unfold Machine.wake at h
  split at h
  · rename_i byte hsleeper
    have hwork : work m = 13 + work { m with sleeper := none } := by
      simp only [work, hsleeper, sleeperWork, if_true, receiveWork]
      omega
    by_cases hfull : m.txq.full = true
    · rw [if_pos hfull, Option.some.injEq] at h
      subst h
      simp only [work, hsleeper, sleeperWork, if_true, receiveWork, Bool.false_eq_true, if_false]
      omega
    · rw [if_neg hfull] at h
      have hle := work_txPutc h
      omega
  · cases h

theorem work_serialInterrupt (hvalid : Valid m) (hcpu : m.cpu = .idle) (hmode : m.mode = .queue)
    (hasks : m.asks = true) : work m.serialInterrupt < work m := by
  have hrecv := hvalid.recv hmode
  simp only [Machine.asks, Bool.or_eq_true, Bool.and_eq_true] at hasks
  by_cases hdata : m.rbr.isSome = true ∧ m.buffer.full = false
  · simp only [work, Machine.serialInterrupt, receiveWork, hcpu, Cpu.work, reduceCtorEq, if_false, if_true,
      hrecv, hdata.1, hdata.2, Bool.not_false, Bool.and_self, Bool.and_true, and_self]
    omega
  · have hquiet : (m.ierRecv && m.rbr.isSome) = false := by
      rw [hrecv]
      cases hfull : m.buffer.full <;> simp_all
    have hpending : m.pending = true := by
      obtain hxmit | hrecv := hasks
      · exact hxmit.2
      · simp [hrecv] at hquiet
    simp only [work, Machine.serialInterrupt, receiveWork, hcpu, Cpu.work, if_neg hdata, hquiet, hpending,
      Bool.and_false, Bool.false_eq_true, if_false, if_true]
    omega

theorem work_receive (hvalid : Valid m) (hcpu : m.cpu = .receiving) (h : m.receive = some m') :
    work m' < work m := by
  unfold Machine.receive at h
  cases hrbr : m.rbr with
  | none =>
      simp only [hrbr, Option.some.injEq] at h
      subst h
      simp only [work, receiveWork, hcpu, Cpu.work, hrbr, Option.isSome_none, Bool.false_eq_true, false_and,
        if_false]
      omega
  | some byte =>
      simp only [hrbr] at h
      by_cases hfull : m.buffer.full = true
      · rw [if_pos hfull, Option.some.injEq] at h
        subst h
        simp only [work, receiveWork, hcpu, Cpu.work, hfull, Bool.true_eq_false, and_false, if_false]
        omega
      · rw [if_neg hfull, Machine.inputPutc, if_neg hfull, Option.some.injEq] at h
        subst h
        rw [Bool.not_eq_true] at hfull
        refine lt_of_eq_of_lt (work_serialNotify fun hmode => hvalid.xmit hmode) ?_
        simp only [work, receiveWork, hcpu, hrbr, hfull, Option.isSome_none, Option.isSome_some,
          Bool.false_eq_true, false_and, and_self, if_false, if_true]
        omega

theorem work_transmit (hvalid : Valid m) (hcpu : m.cpu = .transmitting) (h : m.transmit = some m') :
    work m' < work m := by
  have hmode := hvalid.queue_of_handling (.inr hcpu)
  unfold Machine.transmit at h
  by_cases hend : (m.txq.empty || m.thr.isSome) = true
  · rw [if_pos hend, Option.some.injEq] at h
    have hwork := work_writeIer (hvalid.xmit hmode)
    subst h
    rw [← hwork]
    have hcpu' : m.writeIer.cpu = .transmitting := hcpu
    simp only [work, receiveWork, hcpu', Cpu.work, reduceCtorEq, if_false]
    omega
  · rw [if_neg hend] at h
    rw [Bool.or_eq_true, not_or, Bool.not_eq_true, Bool.not_eq_true, Option.isSome_eq_false_iff,
      Option.isNone_iff_eq_none] at hend
    obtain ⟨hne, hthr⟩ := hend
    simp only [Machine.outThr, hthr, Option.isNone_none, if_true, Option.some.injEq] at h
    subst h
    have hwoken := sleeperWork_woken (s := m.sleeper)
    simp only [work, receiveWork, hthr, Queue.contents_getc hne, List.length_cons, Option.isSome_none,
      Option.isSome_some, Bool.false_eq_true, if_false, if_true]
    omega

/-- The byte at hand in `putc_poll` is written. -/
theorem work_polled {rest : Next} (hcpu : m.cpu = .polling byte rest) (hthr : m.thr = none) :
    work { m with thr := some byte, pending := false, cpu := .idle } + (Cpu.polling byte rest).work ≤
      work m + 4 := by
  simp only [work, receiveWork, hthr, hcpu, Cpu.work, reduceCtorEq, Option.isSome_none, Option.isSome_some,
    Bool.false_eq_true, if_false, if_true]
  split_ifs <;> omega

theorem work_pollGetc (hcpu : m.cpu = .idle) (h : m.pollGetc .flush = some m') : work m' ≤ work m := by
  unfold Machine.pollGetc at h
  split_ifs at h with hne
  rw [← Option.some.inj h]
  have hwoken := sleeperWork_woken (s := m.sleeper)
  simp only [work, receiveWork, hcpu, Cpu.work, reduceCtorEq, if_false,
    Queue.contents_getc (Bool.not_eq_true _ ▸ hne), List.length_cons]
  omega

theorem work_run (hvalid : Valid m) (hallowed : Allowed m .run) (h : m.run = some m') : work m' < work m := by
  unfold Machine.run at h
  cases hcpu : m.cpu with
  | idle => simp [Allowed, hcpu] at hallowed
  | receiving =>
      rw [hcpu] at h
      exact work_receive hvalid hcpu h
  | transmitting =>
      rw [hcpu] at h
      exact work_transmit hvalid hcpu h
  | polling byte rest =>
      simp only [Allowed, hcpu, Option.isNone_iff_eq_none] at hallowed
      have hpolled := work_polled hcpu hallowed
      simp only [hcpu, Machine.outThr, hallowed, Option.isNone_none, if_true, Option.bind_some] at h
      cases rest with
      | done =>
          rw [Machine.goOn, Option.some.injEq] at h
          simp only [Cpu.work] at hpolled
          rw [← h]
          exact Nat.lt_of_add_lt_add_right (Nat.lt_of_le_of_lt hpolled (by omega))
      | put c =>
          have hput := work_txPutc (m := { m with thr := some byte, pending := false, cpu := .idle }) h
          simp only [Cpu.work] at hpolled
          omega
      | flush =>
          simp only [Cpu.work] at hpolled
          rw [Machine.goOn, Machine.serialFlush] at h
          split_ifs at h
          · rw [← Option.some.inj h]
            exact Nat.lt_of_add_lt_add_right (Nat.lt_of_le_of_lt hpolled (by omega))
          · have hget := work_pollGetc
              (m := { m with thr := some byte, pending := false, cpu := .idle }) rfl h
            omega

theorem work_internal (hvalid : Valid m) (ha : Allowed m a) (hinternal : a.Internal)
    (h : step a m = some m') : work m' < work m := by
  cases a with
  | shift => exact work_shift h
  | interrupt =>
      rw [← Option.some.inj h]
      exact work_serialInterrupt hvalid ha.1 ha.2.2.1 ha.2.2.2
  | run => exact work_run hvalid ha h
  | wake => exact work_wake h
  | putc _ | flush | initQueue | setLevel _ | getc | key _ | arrive _ => cases hinternal

/-- No byte is given by the driver itself, nor does it leave interrupts in another state. -/
def Kept (m m' : Machine) : Prop := m'.given = m.given ∧ m'.level = m.level

theorem kept_pollGetc {rest : Next} (h : m.pollGetc rest = some m') : Kept m m' := by
  unfold Machine.pollGetc at h
  split_ifs at h
  rw [← Option.some.inj h]
  exact ⟨rfl, rfl⟩

theorem kept_txPutc (h : m.txPutc byte = some m') : Kept m m' := by
  unfold Machine.txPutc at h
  split_ifs at h
  rw [← Option.some.inj h]
  exact ⟨rfl, rfl⟩

theorem kept_outThr (h : m.outThr byte = some m') : Kept m m' := by
  unfold Machine.outThr at h
  split_ifs at h
  rw [← Option.some.inj h]
  exact ⟨rfl, rfl⟩

theorem kept_serialFlush (h : m.serialFlush = some m') : Kept m m' := by
  unfold Machine.serialFlush at h
  split_ifs at h
  · rw [← Option.some.inj h]
    exact ⟨rfl, rfl⟩
  · exact kept_pollGetc h

theorem kept_serialNotify : Kept m m.serialNotify := by
  unfold Machine.serialNotify
  split <;> exact ⟨rfl, rfl⟩

theorem kept_inputPutc (h : m.inputPutc byte = some m') : Kept m m' := by
  unfold Machine.inputPutc at h
  split_ifs at h
  rw [← Option.some.inj h]
  exact kept_serialNotify (m := { m with buffer := m.buffer.putc byte, received := m.received ++ [byte] })

theorem kept_receive (h : m.receive = some m') : Kept m m' := by
  unfold Machine.receive at h
  split at h
  · split_ifs at h
    · rw [← Option.some.inj h]
      exact ⟨rfl, rfl⟩
    · exact kept_inputPutc (m := { m with rbr := none }) h
  · rw [← Option.some.inj h]
    exact ⟨rfl, rfl⟩

theorem kept_transmit (h : m.transmit = some m') : Kept m m' := by
  unfold Machine.transmit at h
  split_ifs at h
  · rw [← Option.some.inj h]
    exact ⟨rfl, rfl⟩
  · exact kept_outThr
      (m := { m with txq := m.txq.getc, sleeper := m.sleeper.map Sleeper.woken }) h

theorem kept_run (h : m.run = some m') : Kept m m' := by
  unfold Machine.run at h
  split at h
  · cases h
  · rename_i byte rest hcpu
    obtain ⟨m₁, hout, hgo⟩ := Option.bind_eq_some_iff.mp h
    have hkept := kept_outThr hout
    have hrest : Kept m₁ m' := by
      cases rest with
      | done =>
          rw [← Option.some.inj hgo]
          exact ⟨rfl, rfl⟩
      | put c => exact kept_txPutc (m := { m₁ with cpu := .idle }) hgo
      | flush => exact kept_serialFlush hgo
    exact ⟨hrest.1.trans hkept.1, hrest.2.trans hkept.2⟩
  · exact kept_receive h
  · exact kept_transmit h

theorem kept_wake (h : m.wake = some m') : Kept m m' := by
  unfold Machine.wake at h
  split at h
  · split_ifs at h
    · rw [← Option.some.inj h]
      exact ⟨rfl, rfl⟩
    · exact kept_txPutc (m := { m with sleeper := none }) h
  · cases h

theorem kept_internal (hinternal : a.Internal) (h : step a m = some m') : Kept m m' := by
  cases a with
  | shift =>
      obtain ⟨byte, -, rfl⟩ := Option.map_eq_some_iff.mp h
      exact ⟨rfl, rfl⟩
  | interrupt =>
      rw [← Option.some.inj h]
      exact ⟨rfl, rfl⟩
  | run => exact kept_run h
  | wake => exact kept_wake h
  | putc _ | flush | initQueue | setLevel _ | getc | key _ | arrive _ => cases hinternal

/-- When neither the UART nor the driver can go on, nothing is left to send. -/
theorem Valid.all_sent (h : Valid m) (hlevel : m.level = true) (hstuck : ∀ a, a.Internal → ¬Allowed m a) :
    m.line = m.sent ∧ m.given.Perm m.sent ∧ m.cpu = .idle ∧ m.sleeper = none := by
  have hthr : m.thr = none := by
    by_contra hthr
    exact hstuck .shift trivial (Option.isSome_iff_ne_none.mpr hthr)
  have hcpu : m.cpu = .idle := by
    by_contra hcpu
    refine hstuck .run trivial ?_
    cases hcase : m.cpu with
    | idle => exact absurd hcase hcpu
    | polling _ _ => simp [Allowed, hcase, hthr]
    | receiving => simp [Allowed, hcase]
    | transmitting => simp [Allowed, hcase]
  have hnil : m.txq.contents = [] := by
    by_contra hne
    have hmode : m.mode = .queue := h.queue_of_ne (Queue.empty_eq_false_iff.mpr hne)
    have hxmit := h.xmit hmode hne
    refine hstuck .interrupt trivial ⟨hcpu, hlevel, hmode, ?_⟩
    obtain hsome | hpending | hhandling := h.armed hmode hxmit
    · simp [hthr] at hsome
    · simp [Machine.asks, hxmit, hpending]
    · rw [hcpu] at hhandling
      obtain hhandling | hhandling := hhandling <;> cases hhandling
  have hsleeper : m.sleeper = none := by
    cases hs : m.sleeper with
    | none => rfl
    | some s =>
        obtain ⟨byte, ready⟩ := s
        cases ready with
        | false =>
            have hne := Queue.empty_eq_false_iff.mp (Queue.empty_of_full (h.sleeps byte hs))
            exact absurd hnil hne
        | true => exact absurd ⟨hcpu, byte, hs⟩ (hstuck .wake trivial)
  have hfifo := h.fifo
  have hgiven := h.given
  simp only [Machine.slept, hcpu, hthr, hnil, hsleeper, Cpu.hand, Cpu.later, Option.toList_none, List.map_nil,
    List.append_nil, List.count_nil, Nat.add_zero] at hfifo hgiven
  exact ⟨hfifo, List.perm_iff_count.mpr hgiven, hcpu, hsleeper⟩

/-- **From whatever state is reached, the UART, the interrupts and the threads woken end after so many
actions, and when they cannot go on with interrupts on, every byte that was given to `serial_putc` is on the
line once.** -/
theorem reached_drains {hist : List (Machine × Action)} (hm : Reached m)
    (hrun : Run step (fun s a => Allowed s a ∧ a.Internal) m hist m') :
    hist.length + work m' ≤ work m ∧
      (m.level = true → (∀ a, a.Internal → ¬Allowed m' a) → m'.line.Perm m.given ∧ m'.sent = m'.line ∧
        m'.cpu = .idle ∧ m'.sleeper = none) := by
  obtain ⟨buf, recv, xmit, pending, hreach⟩ := hm
  have hvalid : ∀ {h₁ m₁}, Run step (fun s a => Allowed s a ∧ a.Internal) m h₁ m₁ → Valid m₁ := by
    intro h₁ m₁ hrun₁
    exact Reached.valid ⟨buf, recv, xmit, pending, hreach.run (fun _ _ hand => hand.1) hrun₁⟩
  have hall : hist.length + work m' ≤ work m ∧ Kept m m' := by
    refine hrun.invariant (I := fun hist m' => hist.length + work m' ≤ work m ∧ Kept m m')
      ⟨Nat.le_of_eq (Nat.zero_add _), rfl, rfl⟩ fun h₁ m₁ a m₂ hrun₁ hi ha hstep => ?_
    have hless := work_internal (hvalid hrun₁) ha.1 ha.2 hstep
    have hkept := kept_internal ha.2 hstep
    refine ⟨?_, hkept.1.trans hi.2.1, hkept.2.trans hi.2.2⟩
    have hle := hi.1
    rw [List.length_cons]
    omega
  refine ⟨hall.1, fun hlevel hstuck => ?_⟩
  obtain ⟨hline, hgiven, hcpu, hsleeper⟩ := (hvalid hrun).all_sent (hall.2.2.trans hlevel) hstuck
  refine ⟨?_, hline.symm, hcpu, hsleeper⟩
  rw [hline, ← hall.2.1]
  exact hgiven.symm

/-- `Action.Internal`, as a test. -/
def Action.internal : Action → Bool
  | .shift | .interrupt | .run | .wake => true
  | _ => false

theorem Action.internal_iff : a.internal = true ↔ a.Internal := by
  cases a <;> simp [Action.internal, Action.Internal]

/-- What the UART, the interrupts and the thread do until nothing is left: sixty-four bytes are sent. -/
def draining : List Action := [.interrupt, .run, .run, .run, .wake] ++
  (List.replicate 63 [Action.shift, .interrupt, .run, .run, .run]).flatten ++ [.shift]

theorem reached_drains_asleep : ∃ m m',
    execute (checked allowed step) filling
      (boot (fun _ => 0) true true true) = some m ∧ m.slept = [65] ∧
    execute (checked (fun m a => allowed m a && a.internal) step) draining m = some m' ∧
    m'.line.Perm m.given ∧ m'.line.length = 64 ∧ m'.sleeper = none := by
  have h : ((execute (checked allowed step) filling
      (boot (fun _ => 0) true true true)).map fun m => (m.slept, m.level,
        (execute (checked (fun m a => allowed m a && a.internal) step) draining m).map fun m' =>
          (m'.line.length, [Action.shift, .interrupt, .run, .wake].any (allowed m')))) =
      some ([65], true, some (64, false)) := by
    decide +kernel
  obtain ⟨m, hm, hfacts⟩ := Option.map_eq_some_iff.mp h
  simp only [Prod.mk.injEq] at hfacts
  obtain ⟨hslept, hlevel, hdrain⟩ := hfacts
  obtain ⟨m', hm', hfacts'⟩ := Option.map_eq_some_iff.mp hdrain
  simp only [Prod.mk.injEq] at hfacts'
  obtain ⟨hlength, hstuck⟩ := hfacts'
  obtain ⟨hist, hrun⟩ : ∃ hist, Run step (fun m a => Allowed m a ∧ a.Internal) m hist m' := by
    refine exists_run_of_checked (fun m a ha => ?_) hm'
    rw [Bool.and_eq_true, allowed_iff, Action.internal_iff] at ha
    exact ha
  have hend : ∀ a : Action, a.Internal → ¬Allowed m' a := by
    intro a hinternal hallowed
    rw [List.any_eq_false] at hstuck
    refine hstuck a ?_ (allowed_iff.mpr hallowed)
    cases a with
    | shift | interrupt | run | wake => simp
    | putc _ | flush | initQueue | setLevel _ | getc | key _ | arrive _ => cases hinternal
  obtain ⟨hline, -, -, hsleeper⟩ := (reached_drains
    ⟨_, _, _, _, exists_run_of_checked (fun _ _ => allowed_iff.mp) hm⟩ hrun).2 hlevel hend
  exact ⟨m, m', hm, hslept, hm', hline, hlength, hsleeper⟩

end CSE130.Lab3.Serial
