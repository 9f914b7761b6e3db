import CSE130.Lib.Transition
import Mathlib.Data.Nat.Notation
import Mathlib.Logic.Function.Basic
import Mathlib.Algebra.Order.Ring.Nat

/-! # The disk driver

`ide_read` and `ide_write` (`devices/ide.c`) on a channel with its two disks, called by any number of
threads, and the controller that they drive.  An action is a piece of a call up to where it waits, an action
of the controller, or an interrupt.  A function returns `none` if an assertion fails, if the kernel panics,
or if a register is written while the controller is busy with a command.

A wait for the status register can be given up.  That of `wait_until_idle` is after 10 ms (its comment has
10 s), and the registers are written all the same; that of `wait_while_busy` is after 30 s, and the kernel
panics.  `expecting_interrupt` is never reset, so an interrupt that no command has caused counts as a
completion; what is on the disks is right all the same (`reached_legal`), but that a call of `ide_write` has
returned means that the data are on the disk only where there is no such interrupt (`reached_durable`). -/

namespace CSE130.Lab3.Ide

open Transition
open Function (update)

variable {τ β : Type*}

/-! ### The controller -/

/-- The registers that select a sector. -/
structure Registers where
  lbal : ℕ
  lbam : ℕ
  lbah : ℕ
  device : ℕ

/-- The device that is selected; `true` is the slave. -/
def Registers.devNo (r : Registers) : Bool := r.device / 16 % 2 == 1

/-- The sector that is selected. -/
def Registers.lba (r : Registers) : ℕ := r.device % 16 * 2 ^ 24 + r.lbah * 2 ^ 16 + r.lbam * 2 ^ 8 + r.lbal

/-- What `outb` writes of a number. -/
def outb (n : ℕ) : ℕ := n % 2 ^ 8

/-- The second write of `select_device`. -/
def selectDevice (dev : Bool) (r : Registers) : Registers :=
  { r with device := outb (0xa0 ||| if dev then 0x10 else 0) }

/-- The writes of `select_sector` behind `select_device_wait`. -/
def selectSector (dev : Bool) (sec : ℕ) : Registers where
  lbal := outb sec
  lbam := outb (sec / 2 ^ 8)
  lbah := outb (sec / 2 ^ 16)
  device := outb (0xa0 ||| 0x40 ||| (if dev then 0x10 else 0) ||| sec / 2 ^ 24)

/-- What the controller is doing with a sector of a device. -/
inductive Phase (β : Type*) where
  | idle
  /-- `STA_BSY`, then `STA_DRQ`, of a read. -/
  | reading (dev : Bool) (sec : ℕ)
  | ready (data : β)
  /-- `STA_BSY`, then `STA_DRQ`, then `STA_BSY`, of a write. -/
  | writing (dev : Bool) (sec : ℕ)
  | wanting (dev : Bool) (sec : ℕ)
  | storing (dev : Bool) (sec : ℕ) (data : β)

/-- `STA_BSY`. -/
def Phase.busy : Phase β → Bool
  | .reading _ _ | .writing _ _ | .storing _ _ _ => true
  | _ => false

/-- Neither `STA_BSY` nor `STA_DRQ`. -/
def Phase.isIdle : Phase β → Bool
  | .idle => true
  | _ => false

/-! ### The driver -/

inductive Op (β : Type*) where
  | read
  | write (data : β)
  deriving DecidableEq

/-- Where a call is: at `lock_acquire`, at the two calls of `wait_until_idle`, at `issue_pio_command`, at
its first and its second wait behind it, and at `lock_release`, with what is in the buffer. -/
inductive Stage (β : Type*) where
  | acquire
  | idle₁
  | idle₂
  | issue
  | first
  | second
  | release (data : β)

structure Call (β : Type*) where
  dev : Bool
  sec : ℕ
  op : Op β
  stage : Stage β

/-- An operation that was carried out, with what was transferred. -/
structure Entry (τ β : Type*) where
  thread : τ
  dev : Bool
  sec : ℕ
  op : Op β
  data : β

structure Channel (τ β : Type*) where
  /-- The holder of `c->lock`. -/
  holder : Option τ
  expectingInterrupt : Bool
  completionWait : ℕ
  regs : Registers
  phase : Phase β
  /-- The interrupt that is pending. -/
  intrq : Bool
  disk : Bool → ℕ → β
  calls : τ → Option (Call β)
  /-- The transfers, the latest first. -/
  log : List (Entry τ β)

/-- The channel as `ide_init` leaves it. -/
def start (disk : Bool → ℕ → β) (regs : Registers) : Channel τ β :=
  ⟨none, false, 0, regs, .idle, false, disk, fun _ => none, []⟩

namespace Channel

variable [DecidableEq τ] (k : Channel τ β)

def goOn (t : τ) (c : Call β) (stage : Stage β) : Channel τ β :=
  { k with calls := update k.calls t (some { c with stage := stage }) }

/-- The registers are written. -/
def outRegs (regs : Registers) : Option (Channel τ β) :=
  if k.phase.isIdle then some { k with regs := regs } else none

/-- `issue_pio_command`. -/
def issuePioCommand (op : Op β) : Option (Channel τ β) :=
  if k.phase.isIdle then
    some { k with
      expectingInterrupt := true
      phase := match op with
        | .read => .reading k.regs.devNo k.regs.lba
        | .write _ => .writing k.regs.devNo k.regs.lba }
  else none

/-- `semaphore_down (&c->completion_wait)`, where it does not wait. -/
def semaphoreDown : Option (Channel τ β) :=
  if 0 < k.completionWait then some { k with completionWait := k.completionWait - 1 } else none

/-- `wait_while_busy` at its end, and `input_sector`. -/
def inputSector (t : τ) (c : Call β) : Option (Channel τ β) :=
  match k.phase with
  | .ready data =>
      let k := { k with phase := .idle, log := ⟨t, c.dev, c.sec, c.op, data⟩ :: k.log }
      some (k.goOn t c (.release data))
  | _ => none

/-- `wait_while_busy` at its end, and `output_sector`. -/
def outputSector (t : τ) (c : Call β) (data : β) : Option (Channel τ β) :=
  match k.phase with
  | .wanting dev sec =>
      let k := { k with phase := .storing dev sec data, log := ⟨t, c.dev, c.sec, c.op, data⟩ :: k.log }
      some (k.goOn t c .second)
  | _ => none

/-- The next piece of a call. -/
def run (t : τ) (c : Call β) : Option (Channel τ β) :=
  match c.stage, c.op with
  | .acquire, _ =>
      let k := { k with holder := some t }
      some (k.goOn t c .idle₁)
  | .idle₁, _ =>
      let k := { k with intrq := false }
      (k.outRegs (selectDevice c.dev k.regs)).map fun k => k.goOn t c .idle₂
  | .idle₂, _ =>
      let k := { k with intrq := false }
      (k.outRegs (selectSector c.dev c.sec)).map fun k => k.goOn t c .issue
  | .issue, op => (k.issuePioCommand op).map fun k => k.goOn t c .first
  | .first, .read => k.semaphoreDown.map fun k => k.goOn t c .second
  | .second, .read => k.inputSector t c
  | .first, .write data => k.outputSector t c data
  | .second, .write data => k.semaphoreDown.map fun k => k.goOn t c (.release data)
  | .release _, _ =>
      if k.holder = some t then some { k with holder := none, calls := update k.calls t none } else none

/-- The controller goes on with a command. -/
def work : Option (Channel τ β) :=
  match k.phase with
  | .reading dev sec => some { k with phase := .ready (k.disk dev sec), intrq := true }
  | .writing dev sec => some { k with phase := .wanting dev sec }
  | .storing dev sec data =>
      some { k with disk := update k.disk dev (update (k.disk dev) sec data), phase := .idle, intrq := true }
  | _ => none

/-- `interrupt_handler`. -/
def interruptHandler : Channel τ β :=
  if k.expectingInterrupt then { k with intrq := false, completionWait := k.completionWait + 1 } else k

/-- A call of `ide_read` or `ide_write`; `select_sector` has the assertion. -/
def call (t : τ) (dev : Bool) (sec : ℕ) (op : Op β) : Option (Channel τ β) :=
  if sec < 2 ^ 28 then some { k with calls := update k.calls t (some ⟨dev, sec, op, .acquire⟩) } else none

end Channel

variable [DecidableEq τ]

/-- What is waited for in front of the next piece of a call. -/
def Call.Ready (c : Call β) (k : Channel τ β) : Prop :=
  match c.stage, c.op with
  | .acquire, _ => k.holder = none
  | .idle₁, _ | .idle₂, _ => k.phase.isIdle = true
  | .first, .read | .second, .write _ => 0 < k.completionWait
  | .second, .read | .first, .write _ => k.phase.busy = false
  | .issue, _ | .release _, _ => True

/-- A call polls the status register, which takes back a pending interrupt. -/
def Call.Polls (c : Call β) : Prop := c.stage = .idle₁ ∨ c.stage = .idle₂

/-- A call waits in `wait_until_idle` or in `wait_while_busy`, which give up. -/
def Call.Limited (c : Call β) : Prop :=
  match c.stage, c.op with
  | .idle₁, _ | .idle₂, _ | .second, .read | .first, .write _ => True
  | _, _ => False

inductive Action (τ β : Type*) where
  | call (t : τ) (dev : Bool) (sec : ℕ) (op : Op β)
  | poll (t : τ)
  | run (t : τ)
  | giveUp (t : τ)
  | work
  | interrupt
  | spurious
  deriving DecidableEq

def step : Action τ β → Channel τ β → Option (Channel τ β)
  | .call t dev sec op, k => k.call t dev sec op
  | .poll _, k => some { k with intrq := false }
  | .run t, k | .giveUp t, k => (k.calls t).bind (k.run t)
  | .work, k => k.work
  | .interrupt, k | .spurious, k => some k.interruptHandler

def Allowed (k : Channel τ β) : Action τ β → Prop
  | .call t _ sec _ => (k.calls t).isNone = true ∧ sec < 2 ^ 28
  | .poll t => ∃ c, k.calls t = some c ∧ c.Polls
  | .run t => ∃ c, k.calls t = some c ∧ c.Ready k
  | .giveUp t => ∃ c, k.calls t = some c ∧ c.Limited ∧ ¬c.Ready k
  | .work => k.phase.busy = true
  | .interrupt => k.intrq = true
  | .spurious => True

instance (k : Channel τ β) : ∀ c : Call β, Decidable (c.Ready k)
  | ⟨_, _, _, .acquire⟩ => inferInstanceAs (Decidable (k.holder = none))
  | ⟨_, _, _, .idle₁⟩ | ⟨_, _, _, .idle₂⟩ => inferInstanceAs (Decidable (k.phase.isIdle = true))
  | ⟨_, _, .read, .first⟩ | ⟨_, _, .write _, .second⟩ => inferInstanceAs (Decidable (0 < k.completionWait))
  | ⟨_, _, .write _, .first⟩ | ⟨_, _, .read, .second⟩ => inferInstanceAs (Decidable (k.phase.busy = false))
  | ⟨_, _, _, .issue⟩ | ⟨_, _, _, .release _⟩ => .isTrue trivial

instance : ∀ c : Call β, Decidable c.Polls
  | ⟨_, _, _, .idle₁⟩ => .isTrue (.inl rfl)
  | ⟨_, _, _, .idle₂⟩ => .isTrue (.inr rfl)
  | ⟨_, _, _, .acquire⟩ | ⟨_, _, _, .issue⟩ | ⟨_, _, _, .first⟩ | ⟨_, _, _, .second⟩
  | ⟨_, _, _, .release _⟩ => .isFalse (by simp [Call.Polls])

instance : ∀ c : Call β, Decidable c.Limited
  | ⟨_, _, _, .idle₁⟩ | ⟨_, _, _, .idle₂⟩ | ⟨_, _, .read, .second⟩ | ⟨_, _, .write _, .first⟩ => .isTrue trivial
  | ⟨_, _, _, .acquire⟩ | ⟨_, _, _, .issue⟩ | ⟨_, _, .read, .first⟩ | ⟨_, _, .write _, .second⟩
  | ⟨_, _, _, .release _⟩ => .isFalse id

instance (k : Channel τ β) : ∀ a, Decidable (Allowed k a)
  | .call t _ sec _ => inferInstanceAs (Decidable ((k.calls t).isNone = true ∧ sec < 2 ^ 28))
  | .poll t => inferInstanceAs (Decidable (∃ c ∈ k.calls t, c.Polls))
  | .run t => inferInstanceAs (Decidable (∃ c ∈ k.calls t, c.Ready k))
  | .giveUp t => inferInstanceAs (Decidable (∃ c ∈ k.calls t, c.Limited ∧ ¬c.Ready k))
  | .work => inferInstanceAs (Decidable (k.phase.busy = true))
  | .interrupt => inferInstanceAs (Decidable (k.intrq = true))
  | .spurious => .isTrue trivial

/-! ### Registers -/

theorem devNo_lba_selectSector {dev : Bool} {sec : ℕ} (hsec : sec < 2 ^ 28) :
    (selectSector dev sec).devNo = dev ∧ (selectSector dev sec).lba = sec := by
  have hbits : ∀ high < 16, ∀ d : Bool,
      outb (0xa0 ||| 0x40 ||| (if d then 0x10 else 0) ||| high) / 16 % 2 = (if d then 1 else 0) ∧
        outb (0xa0 ||| 0x40 ||| (if d then 0x10 else 0) ||| high) % 16 = high := by
    decide
  have hhigh := hbits (sec / 2 ^ 24) (by omega) dev
  constructor
  · simp only [Registers.devNo, selectSector, hhigh.1]
    cases dev <;> rfl
  · simp only [Registers.lba, selectSector, hhigh.2]
    simp only [outb]
    omega

/-! ### What the disks hold -/

/-- The contents of the disks behind an operation. -/
def Entry.apply (e : Entry τ β) (disk : Bool → ℕ → β) : Bool → ℕ → β :=
  match e.op with
  | .read => disk
  | .write data => update disk e.dev (update (disk e.dev) e.sec data)

/-- The contents behind all the operations of a log, the latest first. -/
def replay (init : Bool → ℕ → β) : List (Entry τ β) → Bool → ℕ → β
  | [] => init
  | e :: log => e.apply (replay init log)

/-- Every operation has transferred what a disk that does one operation after the other transfers. -/
def Legal (init : Bool → ℕ → β) : List (Entry τ β) → Prop
  | [] => True
  | e :: log => Legal init log ∧ e.data = match e.op with
      | .read => replay init log e.dev e.sec
      | .write data => data

/-- The contents when the controller has done what it has the data for. -/
def Channel.contents (k : Channel τ β) : Bool → ℕ → β :=
  match k.phase with
  | .storing dev sec data => update k.disk dev (update (k.disk dev) sec data)
  | _ => k.disk

/-! ### The invariant -/

/-- The transfer of a call is the last one. -/
def Last (k : Channel τ β) (t : τ) (c : Call β) (data : β) : Prop :=
  k.log.head? = some ⟨t, c.dev, c.sec, c.op, data⟩

/-- Nothing but a write that was given its data may be under way. -/
def Phase.Quiet (p : Phase β) : Prop := p.isIdle = true ∨ ∃ dev sec data, p = .storing dev sec data

/-- A completion is still to come, or it is there. -/
def Awaited (k : Channel τ β) : Prop := k.phase.busy = true ∨ k.intrq = true ∨ 0 < k.completionWait

/-- What is known of the channel when the holder of its lock is at `c`. -/
def Holds (k : Channel τ β) (t : τ) (c : Call β) : Prop :=
  match c.stage, c.op with
  | .acquire, _ => False
  | .idle₁, _ => k.phase.Quiet
  | .idle₂, _ => k.phase.isIdle = true
  | .issue, _ => k.phase.isIdle = true ∧ k.regs.devNo = c.dev ∧ k.regs.lba = c.sec
  | .first, .read => (k.phase = .reading c.dev c.sec ∨ k.phase = .ready (k.disk c.dev c.sec)) ∧ Awaited k
  | .second, .read => k.phase = .reading c.dev c.sec ∨ k.phase = .ready (k.disk c.dev c.sec)
  | .first, .write _ => k.phase = .writing c.dev c.sec ∨ k.phase = .wanting c.dev c.sec
  | .second, .write data => k.phase.Quiet ∧ Awaited k ∧ Last k t c data
  | .release data, _ => k.phase.Quiet ∧ Last k t c data

structure Valid (init : Bool → ℕ → β) (k : Channel τ β) : Prop where
  legal : Legal init k.log
  contents : k.contents = replay init k.log
  expects : k.intrq = true ∨ k.phase.isIdle = false → k.expectingInterrupt = true
  free : k.holder = none → k.phase.Quiet
  waits : ∀ t c, k.calls t = some c → k.holder ≠ some t → c.stage = .acquire
  holds : ∀ t, k.holder = some t → ∃ c, k.calls t = some c ∧ Holds k t c
  bound : ∀ t c, k.calls t = some c → c.sec < 2 ^ 28

variable {init : Bool → ℕ → β} {k k₁ k' : Channel τ β} {t : τ} {c : Call β} {a : Action τ β}

omit [DecidableEq τ] in
theorem valid_start {disk : Bool → ℕ → β} {regs : Registers} :
    Valid disk (start disk regs : Channel τ β) where
  legal := trivial
  contents := rfl
  expects h := by obtain h | h := h <;> cases h
  free _ := .inl rfl
  waits _ _ h := by cases h
  holds _ h := by cases h
  bound _ _ h := by cases h

theorem of_update {f : τ → Option (Call β)} {o : Option (Call β)} {u : τ} {d : Call β}
    (h : update f t o u = some d) : u = t ∧ o = some d ∨ u ≠ t ∧ f u = some d := by
  by_cases hu : u = t
  · rw [hu, Function.update_self] at h
    exact .inl ⟨hu, h⟩
  · rw [Function.update_of_ne hu] at h
    exact .inr ⟨hu, h⟩

/-- From `k` the thread `t`, which holds the lock then, gets to `c` and the channel to `k₁`. -/
structure Moves (init : Bool → ℕ → β) (k k₁ : Channel τ β) (t : τ) (c : Call β) : Prop where
  calls : k₁.calls = k.calls
  was : k.holder = some t ∨ k.holder = none
  holder : k₁.holder = some t
  legal : Legal init k₁.log
  contents : k₁.contents = replay init k₁.log
  expects : k₁.intrq = true ∨ k₁.phase.isIdle = false → k₁.expectingInterrupt = true
  holds : Holds k₁ t c

theorem Valid.goOn (h : Valid init k) (hc : k.calls t = some c) {stage : Stage β}
    (hm : Moves init k k₁ t { c with stage := stage }) : Valid init (k₁.goOn t c stage) where
  legal := hm.legal
  contents := hm.contents
  expects := hm.expects
  free hnone := by
    rw [show (k₁.goOn t c stage).holder = some t from hm.holder] at hnone
    cases hnone
  waits u d hd hu := by
    obtain ⟨rfl, -⟩ | ⟨hne, hd⟩ := of_update hd
    · exact absurd hm.holder hu
    · refine h.waits u d (hm.calls ▸ hd) fun hu' => ?_
      have hwas := hm.was
      rw [hu'] at hwas
      obtain hwas | hwas := hwas
      · exact hne (Option.some.inj hwas)
      · cases hwas
  holds u hu := by
    have heq : t = u := Option.some.inj (hm.holder.symm.trans hu)
    subst heq
    exact ⟨{ c with stage := stage }, Function.update_self t _ k₁.calls, hm.holds⟩
  bound u d hd := by
    obtain ⟨-, hd⟩ | ⟨-, hd⟩ := of_update hd
    · rw [← Option.some.inj hd]
      exact h.bound t c hc
    · exact h.bound u d (hm.calls ▸ hd)

theorem Valid.holder_eq (h : Valid init k) (hc : k.calls t = some c) (hne : c.stage ≠ .acquire) :
    k.holder = some t ∧ Holds k t c := by
  have hholder : k.holder = some t := by
    by_contra hholder
    exact hne (h.waits t c hc hholder)
  obtain ⟨d, hd, hholds⟩ := h.holds t hholder
  rw [hc, Option.some_inj] at hd
  exact ⟨hholder, hd ▸ hholds⟩

omit [DecidableEq τ] in
theorem contents_of_idle (h : k.phase.isIdle = true) : k.contents = k.disk := by
  unfold Channel.contents
  cases hp : k.phase <;> simp [hp, Phase.isIdle] at h ⊢

omit [DecidableEq τ] in
theorem idle_of_quiet (h : k.phase.Quiet) (hbusy : k.phase.busy = false) : k.phase.isIdle = true := by
  obtain h | ⟨dev, sec, data, h⟩ := h
  · exact h
  · simp [h, Phase.busy] at hbusy

theorem Valid.run (h : Valid init k) (hc : k.calls t = some c) (hready : c.Ready k) :
    ∃ k', k.run t c = some k' ∧ Valid init k' := by
  obtain ⟨dev, sec, op, stage⟩ := c
  have hheld := h.holder_eq hc
  unfold Channel.run
  cases stage with
  | acquire =>
      refine ⟨_, rfl, ?_⟩
      apply h.goOn hc
      exact ⟨rfl, .inr hready, rfl, h.legal, h.contents, h.expects, h.free hready⟩
  | idle₁ =>
      obtain ⟨hholder, hholds⟩ := hheld (by simp)
      simp only [Call.Ready] at hready
      simp only [Channel.outRegs, hready, if_true, Option.map_some]
      refine ⟨_, rfl, ?_⟩
      apply h.goOn hc
      exact ⟨rfl, .inl hholder, hholder, h.legal, h.contents, fun hi => (by simp [hready] at hi), hready⟩
  | idle₂ =>
      obtain ⟨hholder, hholds⟩ := hheld (by simp)
      simp only [Call.Ready] at hready
      simp only [Channel.outRegs, hready, if_true, Option.map_some]
      refine ⟨_, rfl, ?_⟩
      apply h.goOn hc
      exact ⟨rfl, .inl hholder, hholder, h.legal, h.contents, fun hi => (by simp [hready] at hi), hready,
        devNo_lba_selectSector (h.bound t _ hc)⟩
  | issue =>
      obtain ⟨hholder, hidle, hdev, hlba⟩ := hheld (by simp)
      have hcontents := h.contents
      rw [contents_of_idle hidle] at hcontents
      simp only at hdev hlba
      simp only [Channel.issuePioCommand, hidle, if_true, Option.map_some, hdev, hlba]
      refine ⟨_, rfl, ?_⟩
      cases op with
      | read =>
          apply h.goOn hc
          exact ⟨rfl, .inl hholder, hholder, h.legal, hcontents, fun _ => rfl, .inl rfl, .inl rfl⟩
      | write data =>
          apply h.goOn hc
          exact ⟨rfl, .inl hholder, hholder, h.legal, hcontents, fun _ => rfl, .inl rfl⟩
  | first =>
      obtain ⟨hholder, hholds⟩ := hheld (by simp)
      cases op with
      | read =>
          simp only [Call.Ready] at hready
          simp only [Channel.semaphoreDown, hready, if_true, Option.map_some]
          refine ⟨_, rfl, ?_⟩
          apply h.goOn hc
          exact ⟨rfl, .inl hholder, hholder, h.legal, h.contents, h.expects, hholds.1⟩
      | write data =>
          obtain hwriting | hwanting := hholds
          · simp [Call.Ready, hwriting, Phase.busy] at hready
          · have hcontents : k.disk = replay init k.log := by
              rw [← h.contents, Channel.contents, hwanting]
            simp only [Channel.outputSector, hwanting]
            refine ⟨_, rfl, ?_⟩
            have hexpects := h.expects (.inr (by simp [hwanting, Phase.isIdle]))
            apply h.goOn hc
            refine ⟨rfl, .inl hholder, hholder, ⟨h.legal, rfl⟩, ?_, fun _ => hexpects,
              .inr ⟨_, _, _, rfl⟩, .inl rfl, rfl⟩
            simp only [Channel.contents, replay, Entry.apply, hcontents]
  | second =>
      obtain ⟨hholder, hholds⟩ := hheld (by simp)
      cases op with
      | read =>
          obtain hreading | hdata := hholds
          · simp [Call.Ready, hreading, Phase.busy] at hready
          · have hcontents : k.disk = replay init k.log := by
              rw [← h.contents, Channel.contents, hdata]
            simp only [Channel.inputSector, hdata]
            refine ⟨_, rfl, ?_⟩
            have hexpects := h.expects (.inr (by simp [hdata, Phase.isIdle]))
            apply h.goOn hc
            refine ⟨rfl, .inl hholder, hholder, ⟨h.legal, ?_⟩, hcontents, fun _ => hexpects, .inl rfl, rfl⟩
            simp only [hcontents]
      | write data =>
          obtain ⟨hquiet, -, hlast⟩ := hholds
          simp only [Call.Ready] at hready
          simp only [Channel.semaphoreDown, hready, if_true, Option.map_some]
          refine ⟨_, rfl, ?_⟩
          apply h.goOn hc
          exact ⟨rfl, .inl hholder, hholder, h.legal, h.contents, h.expects, hquiet, hlast⟩
  | release data =>
      obtain ⟨hholder, hquiet, -⟩ := hheld (by simp)
      simp only [hholder, if_true]
      refine ⟨_, rfl, ?_⟩
      exact {
        legal := h.legal
        contents := h.contents
        expects := h.expects
        free := fun _ => hquiet
        waits := fun u d hd _ => by
          obtain ⟨-, hd⟩ | ⟨hne, hd⟩ := of_update hd
          · cases hd
          · exact h.waits u d hd fun hu => hne (Option.some.inj (hu.symm.trans hholder))
        holds := fun u hu => by cases hu
        bound := fun u d hd => by
          obtain ⟨-, hd⟩ | ⟨-, hd⟩ := of_update hd
          · cases hd
          · exact h.bound u d hd }

theorem Valid.call (h : Valid init k) (hc : k.calls t = none) {dev : Bool} {sec : ℕ} {op : Op β}
    (hsec : sec < 2 ^ 28) : ∃ k', k.call t dev sec op = some k' ∧ Valid init k' := by
  unfold Channel.call
  rw [if_pos hsec]
  refine ⟨_, rfl, ?_⟩
  exact {
    legal := h.legal
    contents := h.contents
    expects := h.expects
    free := h.free
    waits := fun u d hd hu => by
      obtain ⟨-, hd⟩ | ⟨-, hd⟩ := of_update hd
      · rw [← Option.some.inj hd]
      · exact h.waits u d hd hu
    holds := fun u hu => by
      obtain ⟨d, hd, hholds⟩ := h.holds u hu
      have hne : u ≠ t := by
        intro heq
        rw [heq, hc] at hd
        cases hd
      exact ⟨d, (Function.update_of_ne hne _ _).trans hd, hholds⟩
    bound := fun u d hd => by
      obtain ⟨-, hd⟩ | ⟨-, hd⟩ := of_update hd
      · rw [← Option.some.inj hd]
        exact hsec
      · exact h.bound u d hd }

omit [DecidableEq τ] in
/-- The controller or an interrupt changes the state of the channel, but of no call. -/
theorem Valid.changed (h : Valid init k) (k₁ : Channel τ β) (hcalls : k₁.calls = k.calls)
    (hholder : k₁.holder = k.holder) (hlog : k₁.log = k.log) (hcontents : k₁.contents = k.contents)
    (hexpects : k₁.intrq = true ∨ k₁.phase.isIdle = false → k₁.expectingInterrupt = true)
    (hfree : k.phase.Quiet → k₁.phase.Quiet) (hholds : ∀ t c, k.calls t = some c → k.holder = some t →
      Holds k t c → Holds k₁ t c) : Valid init k₁ where
  legal := hlog ▸ h.legal
  contents := by rw [hcontents, hlog, h.contents]
  expects := hexpects
  free hnone := hfree (h.free (hholder ▸ hnone))
  waits u d hd hu := h.waits u d (hcalls ▸ hd) (hholder ▸ hu)
  holds u hu := by
    rw [hholder] at hu
    obtain ⟨d, hd, hholds'⟩ := h.holds u hu
    exact ⟨d, hcalls ▸ hd, hholds u d hd hu hholds'⟩
  bound u d hd := h.bound u d (hcalls ▸ hd)

theorem Valid.poll (h : Valid init k) (hc : k.calls t = some c) (hpolls : c.Polls) :
    Valid init { k with intrq := false } := by
  refine h.changed _ rfl rfl rfl rfl (fun hi => h.expects (.inr (by simpa using hi))) id ?_
  intro u d hd hu hholds
  have hstage : c.stage ≠ .acquire := by obtain hp | hp := hpolls <;> simp [hp]
  have hut : u = t := Option.some.inj (hu.symm.trans (h.holder_eq hc hstage).1)
  rw [hut, hc, Option.some_inj] at hd
  subst hd
  obtain hp | hp := hpolls <;> simpa only [Holds, hp] using hholds

omit [DecidableEq τ] in
theorem Holds.counted (h : Holds k t c) :
    Holds { k with intrq := false, completionWait := k.completionWait + 1 } t c := by
  have hcounted : Awaited { k with intrq := false, completionWait := k.completionWait + 1 } :=
    .inr (.inr (Nat.succ_pos _))
  obtain ⟨dev, sec, op, stage⟩ := c
  cases stage with
  | acquire => exact h
  | idle₁ => exact h
  | idle₂ => exact h
  | issue => exact h
  | first =>
      cases op with
      | read => exact ⟨h.1, hcounted⟩
      | write data => exact h
  | second =>
      cases op with
      | read => exact h
      | write data => exact ⟨h.1, hcounted, h.2.2⟩
  | release data => exact h

omit [DecidableEq τ] in
theorem Valid.interruptHandler (h : Valid init k) : Valid init k.interruptHandler := by
  unfold Channel.interruptHandler
  by_cases hexpecting : k.expectingInterrupt = true
  · rw [if_pos hexpecting]
    exact h.changed _ rfl rfl rfl rfl (fun _ => hexpecting) id fun _ _ _ _ hholds => hholds.counted
  · rw [if_neg hexpecting]
    exact h

omit [DecidableEq τ] in
theorem not_quiet (hbusy : k.phase.busy = true) (hstoring : ∀ dev sec data, k.phase ≠ .storing dev sec data) :
    ¬k.phase.Quiet := by
  rintro (hidle | ⟨dev, sec, data, hp⟩)
  · cases hp : k.phase <;> simp [hp, Phase.busy, Phase.isIdle] at hbusy hidle
  · exact hstoring dev sec data hp

omit [DecidableEq τ] in
theorem Holds.fetched (h : Holds k t c) {dev : Bool} {sec : ℕ} (hp : k.phase = .reading dev sec) :
    Holds { k with phase := .ready (k.disk dev sec), intrq := true } t c := by
  have hquiet : ¬k.phase.Quiet := not_quiet (by simp [hp, Phase.busy]) (by simp [hp])
  obtain ⟨cdev, csec, op, stage⟩ := c
  cases stage with
  | acquire => exact h
  | idle₁ => exact absurd h hquiet
  | idle₂ => exact absurd (.inl h) hquiet
  | issue => exact absurd (.inl h.1) hquiet
  | first =>
      cases op with
      | read =>
          obtain ⟨hreading | hready, -⟩ := h
          · rw [hp, Phase.reading.injEq] at hreading
            exact ⟨.inr (by rw [hreading.1, hreading.2]), .inr (.inl rfl)⟩
          · simp [hp] at hready
      | write data => obtain h | h := h <;> simp [hp] at h
  | second =>
      cases op with
      | read =>
          obtain hreading | hready := h
          · rw [hp, Phase.reading.injEq] at hreading
            exact .inr (by rw [hreading.1, hreading.2])
          · simp [hp] at hready
      | write data => exact absurd h.1 hquiet
  | release data => exact absurd h.1 hquiet

omit [DecidableEq τ] in
/-- The controller is ready for the data of a write. -/
theorem Holds.asked (h : Holds k t c) {dev : Bool} {sec : ℕ} (hp : k.phase = .writing dev sec) :
    Holds { k with phase := .wanting dev sec } t c := by
  have hquiet : ¬k.phase.Quiet := not_quiet (by simp [hp, Phase.busy]) (by simp [hp])
  obtain ⟨cdev, csec, op, stage⟩ := c
  cases stage with
  | acquire => exact h
  | idle₁ => exact absurd h hquiet
  | idle₂ => exact absurd (.inl h) hquiet
  | issue => exact absurd (.inl h.1) hquiet
  | first =>
      cases op with
      | read => obtain ⟨h | h, -⟩ := h <;> simp [hp] at h
      | write data =>
          obtain hwriting | hwanting := h
          · rw [hp, Phase.writing.injEq] at hwriting
            exact .inr (by rw [hwriting.1, hwriting.2])
          · simp [hp] at hwanting
  | second =>
      cases op with
      | read => obtain h | h := h <;> simp [hp] at h
      | write data => exact absurd h.1 hquiet
  | release data => exact absurd h.1 hquiet

omit [DecidableEq τ] in
/-- The data of a write are on the disk. -/
theorem Holds.stored (h : Holds k t c) {dev : Bool} {sec : ℕ} {data : β} {disk : Bool → ℕ → β}
    (hp : k.phase = .storing dev sec data) :
    Holds { k with disk := disk, phase := .idle, intrq := true } t c := by
  obtain ⟨cdev, csec, op, stage⟩ := c
  cases stage with
  | acquire => exact h
  | idle₁ => exact .inl rfl
  | idle₂ => simp [Holds, hp, Phase.isIdle] at h
  | issue => simp [Holds, hp, Phase.isIdle] at h
  | first =>
      cases op with
      | read => obtain ⟨h | h, -⟩ := h <;> simp [hp] at h
      | write data => obtain h | h := h <;> simp [hp] at h
  | second =>
      cases op with
      | read => obtain h | h := h <;> simp [hp] at h
      | write data => exact ⟨.inl rfl, .inr (.inl rfl), h.2.2⟩
  | release data => exact ⟨.inl rfl, h.2⟩

omit [DecidableEq τ] in
theorem Valid.work (h : Valid init k) (hbusy : k.phase.busy = true) :
    ∃ k', k.work = some k' ∧ Valid init k' := by
  have hexpects : k.expectingInterrupt = true := by
    apply h.expects
    cases hp : k.phase <;> simp [hp, Phase.busy, Phase.isIdle] at hbusy ⊢
  unfold Channel.work
  cases hp : k.phase with
  | idle => simp [hp, Phase.busy] at hbusy
  | ready _ => simp [hp, Phase.busy] at hbusy
  | wanting _ _ => simp [hp, Phase.busy] at hbusy
  | reading dev sec =>
      refine ⟨_, rfl, h.changed _ rfl rfl rfl ?_ (fun _ => hexpects) (fun hquiet => ?_)
        fun _ _ _ _ hholds => hholds.fetched hp⟩
      · simp only [Channel.contents, hp]
      · exact absurd hquiet (not_quiet hbusy (by simp [hp]))
  | writing dev sec =>
      refine ⟨_, rfl, h.changed _ rfl rfl rfl ?_ (fun _ => hexpects) (fun hquiet => ?_)
        fun _ _ _ _ hholds => hholds.asked hp⟩
      · simp only [Channel.contents, hp]
      · exact absurd hquiet (not_quiet hbusy (by simp [hp]))
  | storing dev sec data =>
      refine ⟨_, rfl, h.changed _ rfl rfl rfl ?_ (fun _ => hexpects) (fun _ => .inl rfl)
        fun _ _ _ _ hholds => hholds.stored hp⟩
      simp only [Channel.contents, hp]

/-- A wait is given up only where the controller is not ready for what follows. -/
theorem run_of_limited (hc : c.Limited) (hready : ¬c.Ready k) : k.run t c = none := by
  obtain ⟨dev, sec, op, stage⟩ := c
  unfold Channel.run
  cases stage with
  | acquire => exact hc.elim
  | idle₁ | idle₂ =>
      simp only [Call.Ready, Bool.not_eq_true] at hready
      simp [Channel.outRegs, hready]
  | issue => exact hc.elim
  | first =>
      cases op with
      | read => exact hc.elim
      | write data =>
          simp only [Call.Ready, Bool.not_eq_false] at hready
          cases hp : k.phase <;> simp [hp, Phase.busy, Channel.outputSector] at hready ⊢
  | second =>
      cases op with
      | read =>
          simp only [Call.Ready, Bool.not_eq_false] at hready
          cases hp : k.phase <;> simp [hp, Phase.busy, Channel.inputSector] at hready ⊢
      | write data => exact hc.elim
  | release data => exact hc.elim

theorem step_giveUp (ha : Allowed k (.giveUp t)) : step (.giveUp t) k = none := by
  obtain ⟨c, hc, hlimited, hready⟩ := ha
  rw [step, hc, Option.bind_some, run_of_limited hlimited hready]

theorem Valid.step (h : Valid init k) (ha : Allowed k a) (hwaits : ∀ t, a ≠ .giveUp t) :
    ∃ k', step a k = some k' ∧ Valid init k' := by
  cases a with
  | call t dev sec op => exact h.call (Option.isNone_iff_eq_none.mp ha.1) ha.2
  | poll t =>
      obtain ⟨c, hc, hpolls⟩ := ha
      exact ⟨_, rfl, h.poll hc hpolls⟩
  | run t =>
      obtain ⟨c, hc, hready⟩ := ha
      obtain ⟨k', hrun, hvalid⟩ := h.run hc hready
      refine ⟨k', ?_, hvalid⟩
      rw [Ide.step, hc]
      exact hrun
  | giveUp t => exact absurd rfl (hwaits t)
  | work => exact h.work ha
  | interrupt => exact ⟨_, rfl, h.interruptHandler⟩
  | spurious => exact ⟨_, rfl, h.interruptHandler⟩

/-! ### Reads return what was written last -/

/-- The states that the channel gets into when interrupts that no command has caused may come. -/
abbrev Reached (disk : Bool → ℕ → β) (k : Channel τ β) : Prop :=
  ∃ regs, Reachable step Allowed (start disk regs) k

theorem Valid.of_step (h : Valid init k) (ha : Allowed k a) (hstep : Ide.step a k = some k') :
    Valid init k' := by
  have hwaits : ∀ t, a ≠ .giveUp t := by
    rintro t rfl
    rw [step_giveUp ha] at hstep
    cases hstep
  obtain ⟨k₁, hk₁, hvalid⟩ := h.step ha hwaits
  rw [hstep, Option.some_inj] at hk₁
  exact hk₁ ▸ hvalid

theorem Reached.valid (hk : Reached init k) : Valid init k := by
  obtain ⟨regs, hk⟩ := hk
  exact hk.invariant valid_start fun s a s' _ hs ha hstep => hs.of_step ha hstep

/-- What a call returns with. -/
def Call.result (c : Call β) : Option β :=
  match c.stage with
  | .release data => some data
  | _ => none

omit [DecidableEq τ] in
theorem Call.stage_eq {data : β} (h : c.result = some data) : c.stage = .release data := by
  obtain ⟨dev, sec, op, stage⟩ := c
  cases stage <;> simp_all [Call.result]

/-- A write up to where it releases the lock. -/
def writeActions : List (Action Unit ℕ) :=
  [.call () true 5 (.write 7), .run (), .run (), .run (), .run (), .work, .run (), .work, .interrupt, .run ()]

def written : Option (Channel Unit ℕ) :=
  execute (checked (fun k a => decide (Allowed k a)) step) writeActions (start (fun _ _ => 0) ⟨0, 0, 0, 0⟩)

theorem reachable_write {k : Channel Unit ℕ} (hk : written = some k) : Reachable step
    (fun k a => Allowed k a ∧ a ≠ .spurious) (start (fun _ _ => 0) ⟨0, 0, 0, 0⟩) k := by
  obtain ⟨hist, hrun⟩ : Reachable (checked (fun k a => decide (Allowed k a)) step)
      (fun _ a => a ≠ .spurious) (start (fun _ _ => 0) ⟨0, 0, 0, 0⟩) k :=
    execute_reachable (fun _ => by decide) .refl hk
  exact ⟨hist, hrun.of_checked.mono fun k a hg => ⟨of_decide_eq_true hg.1, hg.2⟩⟩

/-- **Whatever the order of calls, of what the controller does and of interrupts, also of ones that no command
has caused: every transfer is that of a disk which does one operation after the other, the disks with what
the controller has the data for hold what these operations leave, and a call returns with the data of its own
transfer, which is the last one.  No assertion fails and nothing panics, unless a wait is given up while the
controller is not ready: then registers are written while it is busy, or the kernel panics.** -/
theorem reached_legal (hk : Reached init k) :
    Legal init k.log ∧ k.contents = replay init k.log ∧
      (∀ t c data, k.calls t = some c → c.stage = .release data →
        k.log.head? = some ⟨t, c.dev, c.sec, c.op, data⟩) ∧
      ∀ a, Allowed k a → ((step a k).isSome = true ↔ ∀ t, a ≠ .giveUp t) := by
  have h := hk.valid
  refine ⟨h.legal, h.contents, ?_, ?_⟩
  · intro t c data hc hstage
    have hholds := (h.holder_eq hc (by simp [hstage])).2
    simp only [Holds, hstage] at hholds
    exact hholds.2
  · intro a ha
    constructor
    · rintro hsome t rfl
      rw [step_giveUp ha] at hsome
      cases hsome
    · intro hwaits
      obtain ⟨k', hstep, -⟩ := h.step ha hwaits
      rw [hstep]
      rfl

/-- The write has been carried out. -/
theorem reached_legal_write : ∃ k : Channel Unit ℕ,
    written = some k ∧ Legal (fun _ _ => 0) k.log ∧ k.log.length = 1 := by
  have hend : (written.map fun k => k.log.length) = some 1 := rfl
  obtain ⟨k, hk, hlog⟩ := Option.map_eq_some_iff.mp hend
  obtain ⟨hist, hrun⟩ := reachable_write hk
  exact ⟨k, hk, (reached_legal ⟨_, hist, hrun.mono fun _ _ hg => hg.1⟩).1, hlog⟩

/-! ### Writes are on the disk -/

/-- No command is under way, and no completion is left over. -/
def Channel.Rests (k : Channel τ β) : Prop := k.phase.isIdle = true ∧ k.intrq = false ∧ k.completionWait = 0

/-- The completion of a command comes once. -/
def Counted (k : Channel τ β) (c : Call β) : Prop :=
  match c.stage, c.op with
  | .first, .read | .second, .write _ =>
      (k.phase.busy = true ∧ k.intrq = false ∧ k.completionWait = 0) ∨
        (k.phase.busy = false ∧ k.intrq.toNat + k.completionWait = 1)
  | .second, .read => k.phase.busy = false ∧ k.intrq = false ∧ k.completionWait = 0
  | .first, .write _ => k.intrq = false ∧ k.completionWait = 0
  | _, _ => k.Rests

structure Exact (k : Channel τ β) : Prop where
  free : k.holder = none → k.Rests
  counted : ∀ t c, k.holder = some t → k.calls t = some c → Counted k c

omit [DecidableEq τ] in
theorem exact_start {disk : Bool → ℕ → β} {regs : Registers} : Exact (start disk regs : Channel τ β) where
  free _ := ⟨rfl, rfl, rfl⟩
  counted _ _ h := by cases h

theorem Exact.goOn {stage : Stage β} (h : k₁.holder = some t ∧ Counted k₁ { c with stage := stage }) :
    Exact (k₁.goOn t c stage) where
  free hnone := by
    rw [show (k₁.goOn t c stage).holder = some t from h.1] at hnone
    cases hnone
  counted u d hu hd := by
    have hut : t = u := Option.some.inj (h.1.symm.trans hu)
    subst hut
    obtain ⟨-, hd'⟩ | ⟨hne, -⟩ := of_update hd
    · rw [← Option.some.inj hd']
      exact h.2
    · exact absurd rfl hne

theorem Exact.run (hvalid : Valid init k) (h : Exact k) (hc : k.calls t = some c) (hready : c.Ready k)
    (hrun : k.run t c = some k') : Exact k' := by
  obtain ⟨dev, sec, op, stage⟩ := c
  have hheld := hvalid.holder_eq hc
  unfold Channel.run at hrun
  cases stage with
  | acquire =>
      rw [← Option.some.inj hrun]
      apply Exact.goOn
      exact ⟨rfl, h.free hready⟩
  | idle₁ =>
      obtain ⟨hholder, -⟩ := hheld (by simp)
      have hcounted := h.counted t _ hholder hc
      simp only [Call.Ready] at hready
      simp only [Channel.outRegs, hready, if_true, Option.map_some, Option.some.injEq] at hrun
      rw [← hrun]
      apply Exact.goOn
      exact ⟨hholder, hready, rfl, hcounted.2.2⟩
  | idle₂ =>
      obtain ⟨hholder, -⟩ := hheld (by simp)
      have hcounted := h.counted t _ hholder hc
      simp only [Call.Ready] at hready
      simp only [Channel.outRegs, hready, if_true, Option.map_some, Option.some.injEq] at hrun
      rw [← hrun]
      apply Exact.goOn
      exact ⟨hholder, hready, rfl, hcounted.2.2⟩
  | issue =>
      obtain ⟨hholder, -⟩ := hheld (by simp)
      have hcounted := h.counted t _ hholder hc
      simp only [Channel.issuePioCommand, hcounted.1, if_true, Option.map_some, Option.some.injEq] at hrun
      rw [← hrun]
      apply Exact.goOn
      cases op with
      | read => exact ⟨hholder, .inl ⟨rfl, hcounted.2⟩⟩
      | write data => exact ⟨hholder, hcounted.2⟩
  | first =>
      obtain ⟨hholder, hholds⟩ := hheld (by simp)
      have hcounted := h.counted t _ hholder hc
      cases op with
      | read =>
          simp only [Call.Ready] at hready
          simp only [Channel.semaphoreDown, hready, if_true, Option.map_some, Option.some.injEq] at hrun
          rw [← hrun]
          apply Exact.goOn
          simp only [Counted] at hcounted ⊢
          obtain ⟨-, -, hzero⟩ | ⟨hbusy, hone⟩ := hcounted
          · omega
          · refine ⟨hholder, hbusy, ?_, by omega⟩
            cases hi : k.intrq with
            | false => rfl
            | true =>
                rw [hi, Bool.toNat_true] at hone
                omega
      | write data =>
          obtain hwriting | hwanting := hholds
          · simp [Call.Ready, hwriting, Phase.busy] at hready
          · simp only [Channel.outputSector, hwanting, Option.some.injEq] at hrun
            rw [← hrun]
            apply Exact.goOn
            exact ⟨hholder, .inl ⟨rfl, hcounted⟩⟩
  | second =>
      obtain ⟨hholder, hholds⟩ := hheld (by simp)
      have hcounted := h.counted t _ hholder hc
      cases op with
      | read =>
          obtain hreading | hdata := hholds
          · simp [Call.Ready, hreading, Phase.busy] at hready
          · simp only [Channel.inputSector, hdata, Option.some.injEq] at hrun
            rw [← hrun]
            apply Exact.goOn
            exact ⟨hholder, rfl, hcounted.2⟩
      | write data =>
          obtain ⟨hquiet, -⟩ := hholds
          simp only [Call.Ready] at hready
          simp only [Channel.semaphoreDown, hready, if_true, Option.map_some, Option.some.injEq] at hrun
          rw [← hrun]
          apply Exact.goOn
          simp only [Counted] at hcounted ⊢
          obtain ⟨-, -, hzero⟩ | ⟨hbusy, hone⟩ := hcounted
          · omega
          · refine ⟨hholder, idle_of_quiet hquiet hbusy, ?_, by simp only; omega⟩
            cases hi : k.intrq with
            | false => rfl
            | true =>
                rw [hi, Bool.toNat_true] at hone
                omega
  | release data =>
      obtain ⟨hholder, -⟩ := hheld (by simp)
      have hcounted := h.counted t _ hholder hc
      simp only [hholder, if_true, Option.some.injEq] at hrun
      rw [← hrun]
      exact ⟨fun _ => hcounted, fun u d hu => by cases hu⟩

omit [DecidableEq τ] in
theorem not_rests (hintrq : k.intrq = true ∨ k.phase.busy = true) : ¬k.Rests := by
  rintro ⟨hidle, hquiet, -⟩
  obtain hi | hb := hintrq
  · rw [hquiet] at hi
    cases hi
  · cases hp : k.phase <;> simp [hp, Phase.busy, Phase.isIdle] at hidle hb

omit [DecidableEq τ] in
theorem Counted.interrupted (h : Counted k c) (hintrq : k.intrq = true) :
    Counted { k with intrq := false, completionWait := k.completionWait + 1 } c := by
  have hrests : ¬k.Rests := not_rests (.inl hintrq)
  have hcount : (k.phase.busy = true ∧ k.intrq = false ∧ k.completionWait = 0) ∨
      (k.phase.busy = false ∧ k.intrq.toNat + k.completionWait = 1) →
      k.phase.busy = false ∧ false.toNat + (k.completionWait + 1) = 1 := by
    rintro (⟨-, hfalse, -⟩ | ⟨hbusy, hone⟩)
    · rw [hintrq] at hfalse
      cases hfalse
    · rw [hintrq, Bool.toNat_true] at hone
      exact ⟨hbusy, by rw [Bool.toNat_false]; omega⟩
  obtain ⟨dev, sec, op, stage⟩ := c
  cases stage with
  | acquire => exact absurd h hrests
  | idle₁ => exact absurd h hrests
  | idle₂ => exact absurd h hrests
  | issue => exact absurd h hrests
  | first =>
      cases op with
      | read => exact .inr (hcount h)
      | write data => simp [Counted, hintrq] at h
  | second =>
      cases op with
      | read => simp [Counted, hintrq] at h
      | write data => exact .inr (hcount h)
  | release data => exact absurd h hrests

omit [DecidableEq τ] in
/-- The controller is done with a piece of its work. -/
theorem Counted.worked (h : Counted k c) (hbusy : k.phase.busy = true) {phase : Phase β} {intrq : Bool}
    {disk : Bool → ℕ → β} (hdone : phase.busy = false)
    (hintrq : ¬(c.stage = .first ∧ ∃ data, c.op = .write data) → intrq = true)
    (hfirst : c.stage = .first ∧ (∃ data, c.op = .write data) → intrq = false) :
    Counted { k with phase := phase, intrq := intrq, disk := disk } c := by
  have hrests : ¬k.Rests := not_rests (.inr hbusy)
  have hcount : (k.phase.busy = true ∧ k.intrq = false ∧ k.completionWait = 0) ∨
      (k.phase.busy = false ∧ k.intrq.toNat + k.completionWait = 1) →
      phase.busy = false ∧ true.toNat + k.completionWait = 1 := by
    rintro (⟨-, -, hzero⟩ | ⟨hfree, -⟩)
    · exact ⟨hdone, by rw [hzero]; rfl⟩
    · rw [hbusy] at hfree
      cases hfree
  obtain ⟨dev, sec, op, stage⟩ := c
  cases stage with
  | acquire => exact absurd h hrests
  | idle₁ => exact absurd h hrests
  | idle₂ => exact absurd h hrests
  | issue => exact absurd h hrests
  | first =>
      cases op with
      | read => exact .inr (hintrq (by simp) ▸ hcount h)
      | write data => exact ⟨hfirst ⟨rfl, data, rfl⟩, h.2⟩
  | second =>
      cases op with
      | read => simp [Counted, hbusy] at h
      | write data => exact .inr (hintrq (by simp) ▸ hcount h)
  | release data => exact absurd h hrests

omit [DecidableEq τ] in
/-- The first piece of the work for a write is done when its call waits for the first time. -/
theorem Holds.writing_iff (h : Holds k t c) (hbusy : k.phase.busy = true) :
    (∃ dev sec, k.phase = .writing dev sec) ↔ c.stage = .first ∧ ∃ data, c.op = .write data := by
  have hquiet : k.phase.Quiet → ¬∃ dev sec, k.phase = .writing dev sec := by
    rintro hquiet ⟨dev, sec, hp⟩
    exact not_quiet hbusy (by simp [hp]) hquiet
  obtain ⟨cdev, csec, op, stage⟩ := c
  cases stage with
  | acquire => cases h
  | idle₁ => simpa using hquiet h
  | idle₂ => simpa using hquiet (.inl h)
  | issue => simpa using hquiet (.inl h.1)
  | first =>
      cases op with
      | read => obtain ⟨h | h, -⟩ := h <;> simp [h]
      | write data =>
          obtain h | h := h
          · simp [h]
          · simp [h, Phase.busy] at hbusy
  | second =>
      cases op with
      | read => obtain h | h := h <;> simp [h]
      | write data => simpa using hquiet h.1
  | release data => simpa using hquiet h.1

omit [DecidableEq τ] in
theorem Exact.work (hvalid : Valid init k) (h : Exact k) (hbusy : k.phase.busy = true)
    (hwork : k.work = some k') : Exact k' := by
  have hnone : k.holder ≠ none := fun hnone => not_rests (.inr hbusy) (h.free hnone)
  have hstage : ∀ u d, k.holder = some u → k.calls u = some d →
      ((∃ dev sec, k.phase = .writing dev sec) ↔ d.stage = .first ∧ ∃ data, d.op = .write data) := by
    intro u d hu hd
    obtain ⟨d', hd', hholds⟩ := hvalid.holds u hu
    rw [hd, Option.some_inj] at hd'
    exact (hd' ▸ hholds).writing_iff hbusy
  unfold Channel.work at hwork
  cases hp : k.phase with
  | idle => simp [hp] at hwork
  | ready _ => simp [hp] at hwork
  | wanting _ _ => simp [hp] at hwork
  | reading dev sec =>
      simp only [hp, Option.some.injEq] at hwork
      rw [← hwork]
      refine ⟨fun hfree => absurd hfree hnone, fun u d hu hd => ?_⟩
      refine (h.counted u d hu hd).worked hbusy rfl (fun _ => rfl) fun hfirst => ?_
      simpa [hp] using (hstage u d hu hd).mpr hfirst
  | writing dev sec =>
      simp only [hp, Option.some.injEq] at hwork
      rw [← hwork]
      refine ⟨fun hfree => absurd hfree hnone, fun u d hu hd => ?_⟩
      have hwriting := (hstage u d hu hd).mp ⟨dev, sec, hp⟩
      refine (h.counted u d hu hd).worked hbusy rfl (fun hnot => absurd hwriting hnot) fun _ => ?_
      have hcounted := h.counted u d hu hd
      obtain ⟨hfirst, data, hop⟩ := hwriting
      simp only [Counted, hfirst, hop] at hcounted
      exact hcounted.1
  | storing dev sec data =>
      simp only [hp, Option.some.injEq] at hwork
      rw [← hwork]
      refine ⟨fun hfree => absurd hfree hnone, fun u d hu hd => ?_⟩
      refine (h.counted u d hu hd).worked hbusy rfl (fun _ => rfl) fun hfirst => ?_
      simpa [hp] using (hstage u d hu hd).mpr hfirst

theorem Exact.step (hvalid : Valid init k) (h : Exact k) (ha : Allowed k a) (hne : a ≠ .spurious)
    (hstep : step a k = some k') : Exact k' := by
  cases a with
  | call t dev sec op =>
      rw [Ide.step, Channel.call, if_pos ha.2, Option.some.injEq] at hstep
      rw [← hstep]
      refine ⟨h.free, fun u d hu hd => ?_⟩
      obtain ⟨hut, -⟩ | ⟨-, hd⟩ := of_update hd
      · obtain ⟨d', hd', -⟩ := hvalid.holds u hu
        rw [hut, Option.isNone_iff_eq_none.mp ha.1] at hd'
        cases hd'
      · exact h.counted u d hu hd
  | poll t =>
      obtain ⟨c, hc, hpolls⟩ := ha
      have hstage : c.stage ≠ .acquire := by obtain hp | hp := hpolls <;> simp [hp]
      have hholder := (hvalid.holder_eq hc hstage).1
      have hrests : k.Rests := by
        have hcounted := h.counted t c hholder hc
        obtain hp | hp := hpolls <;> simpa only [Counted, hp] using hcounted
      have hsame : { k with intrq := false } = k := by
        rw [← hrests.2.1]
      rw [Ide.step, hsame, Option.some.injEq] at hstep
      exact hstep ▸ h
  | run t =>
      obtain ⟨c, hc, hready⟩ := ha
      rw [Ide.step, hc] at hstep
      exact h.run hvalid hc hready hstep
  | giveUp t =>
      rw [step_giveUp ha] at hstep
      cases hstep
  | work => exact h.work hvalid ha hstep
  | interrupt =>
      have hexpecting := hvalid.expects (.inl ha)
      rw [Ide.step, Channel.interruptHandler, if_pos hexpecting, Option.some.injEq] at hstep
      rw [← hstep]
      exact ⟨fun hnone => absurd (h.free hnone) (not_rests (.inl ha)),
        fun u d hu hd => (h.counted u d hu hd).interrupted ha⟩
  | spurious => exact absurd rfl hne

/-- **Where only commands cause interrupts, the data of a write are on the disk before its call returns: when
no call has the lock, or one is about to release it, the controller is idle, the disks hold what the
operations leave, and no completion is left over for the next command.** -/
theorem reached_durable {regs : Registers}
    (hk : Reachable step (fun k a => Allowed k a ∧ a ≠ .spurious) (start init regs) k)
    (hdone : k.holder = none ∨ ∃ t c data, k.calls t = some c ∧ c.stage = .release data) :
    k.disk = replay init k.log ∧ k.phase.isIdle = true ∧ k.intrq = false ∧ k.completionWait = 0 := by
  have hboth : Valid init k ∧ Exact k := by
    refine hk.invariant (I := fun k => Valid init k ∧ Exact k) ⟨valid_start, exact_start⟩ ?_
    intro s a s' _ hs ha hstep
    exact ⟨hs.1.of_step ha.1 hstep, hs.2.step hs.1 ha.1 ha.2 hstep⟩
  have hrests : k.Rests := by
    obtain hfree | ⟨t, c, data, hc, hstage⟩ := hdone
    · exact hboth.2.free hfree
    · have hholder := (hboth.1.holder_eq hc (by simp [hstage])).1
      have hcounted := hboth.2.counted t c hholder hc
      simpa only [Counted, hstage] using hcounted
  refine ⟨?_, hrests⟩
  rw [← hboth.1.contents, contents_of_idle hrests.1]

/-- The call returns with the data on the disk. -/
theorem reached_durable_write : ∃ k : Channel Unit ℕ,
    written = some k ∧ k.disk = replay (fun _ _ => 0) k.log ∧ k.disk true 5 = 7 := by
  have hend : (written.map fun k =>
        ((k.calls ()).bind Call.result, k.disk true 5)) = some (some 7, 7) := by
    decide +kernel
  obtain ⟨k, hk, hk'⟩ := Option.map_eq_some_iff.mp hend
  obtain ⟨hresult, hdisk⟩ := Prod.mk.inj hk'
  obtain ⟨c, hc, hc'⟩ := Option.bind_eq_some_iff.mp hresult
  exact ⟨k, hk, (reached_durable (reachable_write hk) (.inr ⟨(), c, 7, hc, Call.stage_eq hc'⟩)).1, hdisk⟩

/-- With an interrupt that no command has caused, a write returns before its data are on the disk. -/
example : ((execute (checked (fun k a => decide (Allowed k a)) step)
    [.call () true 5 (.write 7), .run (), .run (), .run (), .run (), .work, .run (), .spurious, .run ()]
    (start (fun _ _ => 0) ⟨0, 0, 0, 0⟩ : Channel Unit ℕ)).map fun k =>
      ((k.calls ()).bind Call.result, k.disk true 5)) = some (some 7, 0) := by
  decide +kernel

/-! ### Calls return -/

def Phase.toDo : Phase β → ℕ
  | .reading _ _ | .storing _ _ _ => 2
  | .writing _ _ => 1
  | _ => 0

def Stage.toDo : Stage β → ℕ
  | .acquire => 11
  | .idle₁ => 10
  | .idle₂ => 9
  | .issue => 8
  | .first => 5
  | .second => 2
  | .release _ => 1

/-- How many actions of the thread, the controller and the handler can follow, at most. -/
def toDo (t : τ) (k : Channel τ β) : ℕ :=
  ((k.calls t).elim 0 fun c => c.stage.toDo) + k.phase.toDo + k.intrq.toNat

/-- What brings a call of `t` to its end. -/
def Action.Serves (t : τ) (a : Action τ β) : Prop := a = .run t ∨ a = .work ∨ a = .interrupt

theorem toDo_goOn {stage : Stage β} :
    toDo t (k.goOn t c stage) = stage.toDo + k.phase.toDo + k.intrq.toNat := by
  simp [toDo, Channel.goOn]

omit [DecidableEq τ] in
theorem toDo_work (h : k.work = some k') : toDo t k' < toDo t k := by
  have hle := Bool.toNat_le k.intrq
  unfold Channel.work at h
  cases hp : k.phase with
  | idle => simp [hp] at h
  | ready _ => simp [hp] at h
  | wanting _ _ => simp [hp] at h
  | reading dev sec =>
      simp only [hp, Option.some.injEq] at h
      subst h
      simp only [toDo, hp, Phase.toDo, Bool.toNat_true]
      omega
  | writing dev sec =>
      simp only [hp, Option.some.injEq] at h
      subst h
      simp only [toDo, hp, Phase.toDo]
      omega
  | storing dev sec data =>
      simp only [hp, Option.some.injEq] at h
      subst h
      simp only [toDo, hp, Phase.toDo, Bool.toNat_true]
      omega

theorem toDo_run (hvalid : Valid init k) (hc : k.calls t = some c) (hready : c.Ready k)
    (hrun : k.run t c = some k') : toDo t k' < toDo t k := by
  have hheld := hvalid.holder_eq hc
  have htoDo : toDo t k = c.stage.toDo + k.phase.toDo + k.intrq.toNat := by
    simp only [toDo, hc, Option.elim_some]
  rw [htoDo]
  obtain ⟨dev, sec, op, stage⟩ := c
  unfold Channel.run at hrun
  cases stage with
  | acquire =>
      rw [← Option.some.inj hrun, toDo_goOn]
      simp only [Stage.toDo]
      omega
  | idle₁ =>
      simp only [Call.Ready] at hready
      simp only [Channel.outRegs, hready, if_true, Option.map_some, Option.some.injEq] at hrun
      rw [← hrun, toDo_goOn]
      simp only [Stage.toDo, Bool.toNat_false]
      omega
  | idle₂ =>
      simp only [Call.Ready] at hready
      simp only [Channel.outRegs, hready, if_true, Option.map_some, Option.some.injEq] at hrun
      rw [← hrun, toDo_goOn]
      simp only [Stage.toDo, Bool.toNat_false]
      omega
  | issue =>
      obtain ⟨-, hidle, -⟩ := hheld (by simp)
      simp only [Channel.issuePioCommand, hidle, if_true, Option.map_some, Option.some.injEq] at hrun
      rw [← hrun, toDo_goOn]
      cases op <;> simp only [Stage.toDo, Phase.toDo] <;> omega
  | first =>
      cases op with
      | read =>
          simp only [Call.Ready] at hready
          simp only [Channel.semaphoreDown, hready, if_true, Option.map_some, Option.some.injEq] at hrun
          rw [← hrun, toDo_goOn]
          simp only [Stage.toDo]
          omega
      | write data =>
          unfold Channel.outputSector at hrun
          cases hp : k.phase with
          | wanting dev' sec' =>
              simp only [hp, Option.some.injEq] at hrun
              rw [← hrun, toDo_goOn]
              simp only [Stage.toDo, Phase.toDo]
              omega
          | idle | ready _ | reading _ _ | writing _ _ | storing _ _ _ => simp [hp] at hrun
  | second =>
      cases op with
      | read =>
          unfold Channel.inputSector at hrun
          cases hp : k.phase with
          | ready data =>
              simp only [hp, Option.some.injEq] at hrun
              rw [← hrun, toDo_goOn]
              simp only [Stage.toDo, Phase.toDo]
              omega
          | idle | wanting _ _ | reading _ _ | writing _ _ | storing _ _ _ => simp [hp] at hrun
      | write data =>
          simp only [Call.Ready] at hready
          simp only [Channel.semaphoreDown, hready, if_true, Option.map_some, Option.some.injEq] at hrun
          rw [← hrun, toDo_goOn]
          simp only [Stage.toDo]
          omega
  | release data =>
      obtain ⟨hholder, -⟩ := hheld (by simp)
      simp only [hholder, if_true, Option.some.injEq] at hrun
      rw [← hrun]
      simp only [toDo, Function.update_self, Option.elim_none, Stage.toDo]
      omega

theorem toDo_step (hvalid : Valid init k) (ha : Allowed k a) (hserves : a.Serves t)
    (hstep : step a k = some k') : toDo t k' < toDo t k := by
  obtain rfl | rfl | rfl := hserves
  · obtain ⟨c, hc, hready⟩ := ha
    rw [step, hc] at hstep
    exact toDo_run hvalid hc hready hstep
  · exact toDo_work hstep
  · have hintrq : k.intrq = true := ha
    rw [step, Channel.interruptHandler, if_pos (hvalid.expects (.inl hintrq)), Option.some.injEq] at hstep
    rw [← hstep]
    simp only [toDo, hintrq, Bool.toNat_true, Bool.toNat_false]
    omega

omit [DecidableEq τ] in
theorem Valid.served (h : Valid init k) (hholder : k.holder = some t) : ∃ a, a.Serves t ∧ Allowed k a := by
  obtain ⟨c, hc, hholds⟩ := h.holds t hholder
  have hrun : c.Ready k → ∃ a, a.Serves t ∧ Allowed k a := fun hready => ⟨.run t, .inl rfl, c, hc, hready⟩
  by_cases hbusy : k.phase.busy = true
  · exact ⟨.work, .inr (.inl rfl), hbusy⟩
  · rw [Bool.not_eq_true] at hbusy
    have hawaited : Awaited k → 0 < k.completionWait ∨ ∃ a, a.Serves t ∧ Allowed k a := by
      rintro (hb | hi | hw)
      · rw [hbusy] at hb
        cases hb
      · exact .inr ⟨.interrupt, .inr (.inr rfl), hi⟩
      · exact .inl hw
    obtain ⟨dev, sec, op, stage⟩ := c
    cases stage with
    | acquire => cases hholds
    | idle₁ => exact hrun (idle_of_quiet hholds hbusy)
    | idle₂ => exact hrun hholds
    | issue => exact hrun trivial
    | first =>
        cases op with
        | read => exact (hawaited hholds.2).elim hrun id
        | write data => exact hrun hbusy
    | second =>
        cases op with
        | read => exact hrun hbusy
        | write data => exact (hawaited hholds.2.1).elim hrun id
    | release data => exact hrun trivial

/-- **A call that has the lock returns, unless a wait of it is given up: the actions of its thread, of the
controller and of its interrupts end after so many, none of them stops the system, and where none of them is
possible, the lock is free or another thread has taken it.** -/
theorem reached_returns {hist : List (Channel τ β × Action τ β)} (hk : Reached init k)
    (hrun : Run step (fun k a => Allowed k a ∧ a.Serves t) k hist k') :
    hist.length + toDo t k' ≤ toDo t k ∧
      (∀ a, a.Serves t → Allowed k' a → (step a k').isSome = true) ∧
      ((∀ a, a.Serves t → ¬Allowed k' a) → k'.holder ≠ some t) := by
  obtain ⟨regs, hreach⟩ := hk
  have hvalid : ∀ {h₁ k₁}, Run step (fun k a => Allowed k a ∧ a.Serves t) k h₁ k₁ → Valid init k₁ := by
    intro h₁ k₁ hrun₁
    exact Reached.valid ⟨regs, hreach.run (fun _ _ hand => hand.1) hrun₁⟩
  refine ⟨?_, fun a hserves ha => ?_, fun hstuck hholder => ?_⟩
  · refine hrun.invariant (I := fun hist k' => hist.length + toDo t k' ≤ toDo t k)
      (Nat.le_of_eq (Nat.zero_add _)) fun h₁ k₁ a k₂ hrun₁ hi ha hstep => ?_
    have hless := toDo_step (hvalid hrun₁) ha.1 ha.2 hstep
    rw [List.length_cons]
    omega
  · have hwaits : ∀ u, a ≠ .giveUp u := by
      rintro u rfl
      obtain hs | hs | hs := hserves <;> cases hs
    obtain ⟨k₁, hstep, -⟩ := (hvalid hrun).step ha hwaits
    rw [hstep]
    rfl
  · obtain ⟨a, hserves, hallowed⟩ := (hvalid hrun).served hholder
    exact hstuck a hserves hallowed

/-- The write releases the lock. -/
theorem reached_returns_write : ∃ k k' : Channel Unit ℕ,
    written = some k ∧ step (.run ()) k = some k' ∧ 1 + toDo () k' ≤ toDo () k := by
  have hend : (written.map fun k =>
        (decide (Allowed k (.run ())), (step (.run ()) k).isSome)) = some (true, true) := by
    decide +kernel
  obtain ⟨k, hk, hk'⟩ := Option.map_eq_some_iff.mp hend
  obtain ⟨hallowed, hsome⟩ := Prod.mk.inj hk'
  obtain ⟨k', hstep⟩ := Option.isSome_iff_exists.mp hsome
  obtain ⟨hist, hrun⟩ := reachable_write hk
  refine ⟨k, k', hk, hstep, (reached_returns (t := ()) ⟨_, hist, hrun.mono fun _ _ hg => hg.1⟩
    (.cons .nil ⟨of_decide_eq_true hallowed, .inl rfl⟩ hstep)).1⟩

end CSE130.Lab3.Ide
