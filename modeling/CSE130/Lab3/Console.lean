import CSE130.Lib.Transition
import Mathlib.Data.UInt
import Mathlib.Logic.Function.Basic
import Mathlib.Data.List.Basic

/-! # The console lock

`lib/kernel/console.c`: any number of threads print, and a thread that prints may get to print something
else before it is done, even between the two halves of `putchar_have_lock`; interrupt handlers print without
the lock.  The lock is made recursive by one counter for all threads.  An action is a piece of a call in which
the processor is not given to another thread.  A function returns `none` if an assertion fails.

The texts of the outermost calls do not mix on the serial port, nor on the display (`reached_unmixed`). -/

namespace CSE130.Lab3.Console

open Transition
open Function (update update_self update_of_ne)

variable {τ : Type*}

/-- The texts that a thread has sent to the serial port and to the display since its outermost call. -/
structure Text where
  serial : List UInt8
  vga : List UInt8

/-- The variables of `console.c`; for each thread its calls, the innermost first, with the character that
`serial_putc` has and `vga_putc` has not; what went to the devices and who has sent it, `none` for a handler;
and the texts of the threads and of the outermost calls that have returned. -/
structure Kernel (τ : Type*) where
  /-- The holder of `console_lock`. -/
  holder : Option τ
  consoleLockDepth : ℕ
  useConsoleLock : Bool
  calls : τ → List (Option UInt8)
  serial : List (Option τ × UInt8)
  vga : List (Option τ × UInt8)
  texts : τ → Text
  done : List (τ × Text)

/-- `console_init`. -/
def consoleInit : Kernel τ := ⟨none, 0, true, fun _ => [], [], [], fun _ => ⟨[], []⟩, []⟩

namespace Kernel

variable [DecidableEq τ] (k : Kernel τ)

/-- `console_panic`. -/
def consolePanic : Kernel τ := { k with useConsoleLock := false }

/-- `acquire_console`, where the thread does not wait. -/
def acquireConsole (t : τ) : Option (Kernel τ) :=
  if k.useConsoleLock then
    if k.holder = some t then some { k with consoleLockDepth := k.consoleLockDepth + 1 }
    else if k.holder = none then some { k with holder := some t }
    else none
  else some k

/-- `release_console`; `lock_release` has an assertion. -/
def releaseConsole (t : τ) : Option (Kernel τ) :=
  if k.useConsoleLock then
    if k.consoleLockDepth > 0 then some { k with consoleLockDepth := k.consoleLockDepth - 1 }
    else if k.holder = some t then some { k with holder := none }
    else none
  else some k

/-- `console_locked_by_current_thread`, outside of an interrupt handler. -/
def consoleLocked (t : τ) : Bool := !k.useConsoleLock || k.holder == some t

/-- A function that prints is called. -/
def enter (t : τ) : Option (Kernel τ) :=
  (k.acquireConsole t).map fun k => { k with calls := update k.calls t (none :: k.calls t) }

/-- `putchar_have_lock` up to `serial_putc`. -/
def serialPutc (t : τ) (c : UInt8) : Option (Kernel τ) :=
  if k.consoleLocked t then
    some { k with
      calls := update k.calls t (some c :: (k.calls t).tail)
      serial := k.serial ++ [(some t, c)]
      texts := update k.texts t { k.texts t with serial := (k.texts t).serial ++ [c] } }
  else none

/-- `putchar_have_lock` from `vga_putc` on. -/
def vgaPutc (t : τ) (c : UInt8) : Kernel τ :=
  { k with
    calls := update k.calls t (none :: (k.calls t).tail)
    vga := k.vga ++ [(some t, c)]
    texts := update k.texts t { k.texts t with vga := (k.texts t).vga ++ [c] } }

/-- A function that prints returns; if it was the outermost one, its text is complete. -/
def leave (t : τ) : Option (Kernel τ) :=
  (k.releaseConsole t).map fun k =>
    let k := { k with calls := update k.calls t (k.calls t).tail }
    if k.calls t = [] then
      { k with done := k.done ++ [(t, k.texts t)], texts := update k.texts t ⟨[], []⟩ }
    else k

/-- A handler prints a character. -/
def interrupt (c : UInt8) : Kernel τ :=
  { k with serial := k.serial ++ [(none, c)], vga := k.vga ++ [(none, c)] }

end Kernel

inductive Action (τ : Type*) where
  | enter (t : τ)
  | serialPutc (t : τ) (c : UInt8)
  | vgaPutc (t : τ)
  | leave (t : τ)
  | interrupt (c : UInt8)
  | panic

variable [DecidableEq τ]

def step : Action τ → Kernel τ → Option (Kernel τ)
  | .enter t, k => k.enter t
  | .serialPutc t c, k => k.serialPutc t c
  | .vgaPutc t, k => (k.calls t).head?.join.map (k.vgaPutc t)
  | .leave t, k => k.leave t
  | .interrupt c, k => some (k.interrupt c)
  | .panic, k => some k.consolePanic

/-- A thread waits for the lock if another one has it; it sends a character only in a call, and one after the
other; and it returns from a call when the last one is on both devices. -/
def Allowed (k : Kernel τ) : Action τ → Prop
  | .enter t => k.useConsoleLock = true → k.holder = none ∨ k.holder = some t
  | .serialPutc t _ | .leave t => ∃ rest, k.calls t = none :: rest
  | .vgaPutc t => ∃ c rest, k.calls t = some c :: rest
  | .interrupt _ | .panic => True

/-- `Allowed`, as a test. -/
def allowed (k : Kernel τ) : Action τ → Bool
  | .enter t => !k.useConsoleLock || (k.holder.isNone || k.holder == some t)
  | .serialPutc t _ | .leave t => (k.calls t).head? == some none
  | .vgaPutc t => (k.calls t).head?.join.isSome
  | .interrupt _ | .panic => true

theorem allowed_iff {k : Kernel τ} {a : Action τ} : allowed k a = true ↔ Allowed k a := by
  cases a with
  | enter t =>
      simp only [allowed, Allowed, Bool.or_eq_true, Bool.not_eq_true', Option.isNone_iff_eq_none, beq_iff_eq]
      cases k.useConsoleLock <;> simp
  | serialPutc t c =>
      simp only [allowed, Allowed, beq_iff_eq]
      cases k.calls t <;> simp
  | leave t =>
      simp only [allowed, Allowed, beq_iff_eq]
      cases k.calls t <;> simp
  | vgaPutc t =>
      simp only [allowed, Allowed]
      cases k.calls t with
      | nil => simp
      | cons c rest => simp [Option.isSome_iff_exists]
  | interrupt c => simp [allowed, Allowed]
  | panic => simp [allowed, Allowed]

/-! ### The invariant -/

/-- What the threads have sent of what is on a device. -/
def threadText (l : List (Option τ × UInt8)) : List UInt8 := (l.filter (·.1.isSome)).map (·.2)

omit [DecidableEq τ] in
theorem threadText_append (l l' : List (Option τ × UInt8)) :
    threadText (l ++ l') = threadText l ++ threadText l' := by
  simp [threadText]

/-- The lock and its counter say which thread is in how many calls. -/
structure Locked (k : Kernel τ) : Prop where
  outside : ∀ t, k.holder ≠ some t → k.calls t = []
  silent : ∀ t, k.holder ≠ some t → k.texts t = ⟨[], []⟩
  nested : ∀ t, k.holder = some t → (k.calls t).length = k.consoleLockDepth + 1
  free : k.holder = none → k.consoleLockDepth = 0
  serial : threadText k.serial = (k.done.map (·.2.serial)).flatten ++
    k.holder.elim [] fun t => (k.texts t).serial
  vga : threadText k.vga = (k.done.map (·.2.vga)).flatten ++ k.holder.elim [] fun t => (k.texts t).vga

/-- What holds even after a panic. -/
structure Valid (k : Kernel τ) : Prop where
  locked : k.useConsoleLock = true → Locked k
  /-- A character that has gone to the serial port goes to the display. -/
  same : ∀ t b, (k.texts t).serial.count b = (k.texts t).vga.count b + (k.calls t).count (some b)
  done : ∀ e ∈ k.done, e.2.vga.Perm e.2.serial

variable {k k' : Kernel τ} {t : τ} {c : UInt8} {a : Action τ}

omit [DecidableEq τ] in
theorem valid_consoleInit : Valid (consoleInit : Kernel τ) where
  locked _ := {
    outside := fun _ _ => rfl
    silent := fun _ _ => rfl
    nested := fun _ h => by cases h
    free := fun _ => rfl
    serial := rfl
    vga := rfl }
  same _ _ := rfl
  done _ h := by cases h

theorem Valid.enter (h : Valid k) (hallowed : Allowed k (.enter t)) :
    ∃ k', k.enter t = some k' ∧ Valid k' := by
  have hsame : ∀ u b, (k.texts u).serial.count b =
      (k.texts u).vga.count b + (update k.calls t (none :: k.calls t) u).count (some b) := by
    intro u b
    rw [h.same u b]
    by_cases hu : u = t
    · subst hu
      rw [update_self, List.count_cons_of_ne (by simp)]
    · rw [update_of_ne hu]
  unfold Kernel.enter Kernel.acquireConsole
  by_cases huse : k.useConsoleLock = true
  · have hl := h.locked huse
    rw [if_pos huse]
    by_cases hheld : k.holder = some t
    · rw [if_pos hheld]
      refine ⟨_, rfl, fun _ => ?_, hsame, h.done⟩
      exact { hl with
        outside := by
          intro u hu
          have hne : u ≠ t := fun heq => hu (heq ▸ hheld)
          exact (update_of_ne hne _ _).trans (hl.outside u hu)
        nested := by
          intro u hu
          obtain rfl : t = u := Option.some.inj (hheld.symm.trans hu)
          simp only [update_self, List.length_cons, hl.nested t hheld]
        free := by
          intro hfree
          rw [show k.holder = none from hfree] at hheld
          cases hheld }
    · have hfree : k.holder = none := (hallowed huse).resolve_right hheld
      have hnot : ∀ u, k.holder ≠ some u := by simp [hfree]
      have hserial := hl.serial
      have hvga := hl.vga
      rw [hfree] at hserial hvga
      rw [if_neg hheld, if_pos hfree]
      refine ⟨_, rfl, fun _ => ?_, hsame, h.done⟩
      exact {
        outside := by
          intro u hu
          have hne : u ≠ t := fun heq => hu (heq ▸ rfl)
          exact (update_of_ne hne _ _).trans (hl.outside u (hnot u))
        silent := fun u _ => hl.silent u (hnot u)
        nested := by
          intro u hu
          obtain rfl : t = u := Option.some.inj hu
          simp only [update_self, hl.outside t hheld, hl.free hfree, List.length_singleton]
        free := fun hu => by cases hu
        serial := by
          simp only [hserial, hl.silent t hheld, Option.elim_some, Option.elim_none]
        vga := by
          simp only [hvga, hl.silent t hheld, Option.elim_some, Option.elim_none] }
  · rw [if_neg huse]
    exact ⟨_, rfl, fun h => absurd h huse, hsame, h.done⟩

/-- With the lock in use, only its holder is in a call. -/
theorem Locked.holder_eq (h : Locked k) {call : Option UInt8} {rest : List (Option UInt8)}
    (hcalls : k.calls t = call :: rest) : k.holder = some t := by
  by_contra hne
  rw [h.outside t hne] at hcalls
  cases hcalls

theorem Locked.sent (h : Locked k) {call : Option UInt8} {rest : List (Option UInt8)}
    (hcalls : k.calls t = call :: rest) (call' : Option UInt8) (l l' : List (Option τ × UInt8)) :
    Locked { k with
      calls := update k.calls t (call' :: rest)
      serial := k.serial ++ l
      vga := k.vga ++ l'
      texts := update k.texts t
        ⟨(k.texts t).serial ++ threadText l, (k.texts t).vga ++ threadText l'⟩ } := by
  have hheld := h.holder_eq hcalls
  have hserial := h.serial
  have hvga := h.vga
  simp only [hheld, Option.elim_some] at hserial hvga
  exact {
    outside := by
      intro u hu
      have hne : u ≠ t := fun heq => hu (heq ▸ hheld)
      exact (update_of_ne hne _ _).trans (h.outside u hu)
    silent := by
      intro u hu
      have hne : u ≠ t := fun heq => hu (heq ▸ hheld)
      exact (update_of_ne hne _ _).trans (h.silent u hu)
    nested := by
      intro u hu
      obtain rfl : t = u := Option.some.inj (hheld.symm.trans hu)
      rw [← h.nested t hheld, hcalls]
      simp only [update_self, List.length_cons]
    free := h.free
    serial := by
      simp only [threadText_append, hserial, hheld, Option.elim_some, update_self, List.append_assoc]
    vga := by
      simp only [threadText_append, hvga, hheld, Option.elim_some, update_self, List.append_assoc] }

theorem Valid.serialPutc (h : Valid k) {rest : List (Option UInt8)} (hcalls : k.calls t = none :: rest) :
    ∃ k', k.serialPutc t c = some k' ∧ Valid k' := by
  have hlocked : k.consoleLocked t = true := by
    unfold Kernel.consoleLocked
    cases huse : k.useConsoleLock with
    | false => rfl
    | true => simp [(h.locked huse).holder_eq hcalls]
  unfold Kernel.serialPutc
  rw [if_pos hlocked]
  refine ⟨_, rfl, fun huse => ?_, fun u b => ?_, h.done⟩
  · simpa [threadText, hcalls] using (h.locked huse).sent hcalls (some c) [(some t, c)] []
  · by_cases hu : u = t
    · subst hu
      have hsame := h.same u b
      rw [hcalls, List.count_cons_of_ne (by simp)] at hsame
      simp only [update_self, hcalls, List.tail_cons, List.count_append, hsame, List.count_cons,
        List.count_nil, beq_iff_eq, Option.some.injEq]
      omega
    · simp only [update_of_ne hu]
      exact h.same u b

theorem Valid.vgaPutc (h : Valid k) {rest : List (Option UInt8)} (hcalls : k.calls t = some c :: rest) :
    Valid (k.vgaPutc t c) := by
  unfold Kernel.vgaPutc
  refine ⟨fun huse => ?_, fun u b => ?_, h.done⟩
  · simpa [threadText, hcalls] using (h.locked huse).sent hcalls none [] [(some t, c)]
  · by_cases hu : u = t
    · subst hu
      have hsame := h.same u b
      simp only [hcalls, List.count_cons, beq_iff_eq, Option.some.injEq] at hsame
      simp only [update_self, hcalls, List.tail_cons, List.count_append, hsame, List.count_cons,
        List.count_nil, beq_iff_eq, reduceCtorEq, if_false]
      omega
    · simp only [update_of_ne hu]
      exact h.same u b

omit [DecidableEq τ] in
/-- The last call of a thread returns, its text on both devices. -/
theorem Valid.finished (h : Valid k) (hcalls : k.calls t = [none]) :
    (k.texts t).vga.Perm (k.texts t).serial := by
  rw [List.perm_iff_count]
  intro b
  have hsame := h.same t b
  rw [hcalls, List.count_cons_of_ne (by simp), List.count_nil] at hsame
  exact hsame.symm

/-- A call returns to the one that it was nested in. -/
theorem Valid.inner (h : Valid k) {call : Option UInt8} {rest : List (Option UInt8)}
    (hcalls : k.calls t = none :: call :: rest) :
    Valid { k with
      consoleLockDepth := if k.useConsoleLock then k.consoleLockDepth - 1 else k.consoleLockDepth
      calls := update k.calls t (call :: rest) } := by
  refine ⟨fun huse => ?_, fun u b => ?_, h.done⟩
  · have hl := h.locked huse
    have hheld := hl.holder_eq hcalls
    have hdepth := hl.nested t hheld
    simp only [show k.useConsoleLock = true from huse, if_true]
    exact { hl with
      outside := by
        intro u hu
        have hne : u ≠ t := fun heq => hu (heq ▸ hheld)
        exact (update_of_ne hne _ _).trans (hl.outside u hu)
      nested := by
        intro u hu
        obtain rfl : t = u := Option.some.inj (hheld.symm.trans hu)
        rw [hcalls, List.length_cons, List.length_cons] at hdepth
        simp only [update_self, List.length_cons]
        omega
      free := by
        intro hfree
        rw [show k.holder = none from hfree] at hheld
        cases hheld }
  · have hsame := h.same u b
    by_cases hu : u = t
    · subst hu
      rw [hcalls, List.count_cons_of_ne (by simp)] at hsame
      simp only [update_self, hsame]
    · simp only [update_of_ne hu]
      exact hsame

theorem Valid.outer (h : Valid k) (hcalls : k.calls t = [none]) : Valid { k with
    holder := if k.useConsoleLock then none else k.holder
    calls := update k.calls t []
    done := k.done ++ [(t, k.texts t)]
    texts := update k.texts t ⟨[], []⟩ } := by
  refine ⟨fun huse => ?_, fun u b => ?_, fun e he => ?_⟩
  · have hl := h.locked huse
    have hheld := hl.holder_eq hcalls
    have hserial := hl.serial
    have hvga := hl.vga
    have hdepth := hl.nested t hheld
    simp only [hheld, Option.elim_some] at hserial hvga
    simp only [show k.useConsoleLock = true from huse, if_true]
    have hother : ∀ u, u ≠ t → k.holder ≠ some u := by
      intro u hu heq
      exact hu (Option.some.inj (heq.symm.trans hheld))
    exact {
      outside := by
        intro u _
        by_cases hu : u = t
        · simp only [hu, update_self]
        · simp only [update_of_ne hu, hl.outside u (hother u hu)]
      silent := by
        intro u _
        by_cases hu : u = t
        · simp only [hu, update_self]
        · simp only [update_of_ne hu, hl.silent u (hother u hu)]
      nested := fun u hu => by cases hu
      free := by
        intro _
        rw [hcalls, List.length_singleton] at hdepth
        simp only
        omega
      serial := by simp [hserial]
      vga := by simp [hvga] }
  · by_cases hu : u = t
    · subst hu
      simp only [update_self, List.count_nil]
    · simp only [update_of_ne hu]
      exact h.same u b
  · obtain he | he := List.mem_append.mp he
    · exact h.done e he
    · rw [List.mem_singleton.mp he]
      exact h.finished hcalls

theorem Valid.leave (h : Valid k) {rest : List (Option UInt8)} (hcalls : k.calls t = none :: rest) :
    ∃ k', k.leave t = some k' ∧ Valid k' := by
  have hdepth : k.useConsoleLock = true → k.consoleLockDepth = rest.length ∧ k.holder = some t := by
    intro huse
    have hl := h.locked huse
    have hheld := hl.holder_eq hcalls
    have hnested := hl.nested t hheld
    rw [hcalls, List.length_cons] at hnested
    exact ⟨by omega, hheld⟩
  unfold Kernel.leave Kernel.releaseConsole
  cases rest with
  | nil =>
      have houter := h.outer hcalls
      by_cases huse : k.useConsoleLock = true
      · obtain ⟨hzero, hheld⟩ := hdepth huse
        rw [if_pos huse] at houter
        rw [if_pos huse, if_neg (by rw [hzero]; simp), if_pos hheld, Option.map_some]
        simp only [hcalls, List.tail_cons, update_self, if_true]
        exact ⟨_, rfl, houter⟩
      · rw [if_neg huse] at houter
        rw [if_neg huse, Option.map_some]
        simp only [hcalls, List.tail_cons, update_self, if_true]
        exact ⟨_, rfl, houter⟩
  | cons call rest =>
      have hinner := h.inner hcalls
      by_cases huse : k.useConsoleLock = true
      · obtain ⟨hpos, -⟩ := hdepth huse
        rw [if_pos huse] at hinner
        rw [if_pos huse, if_pos (by rw [hpos]; simp), Option.map_some]
        simp only [hcalls, List.tail_cons, update_self, reduceCtorEq, if_false]
        exact ⟨_, rfl, hinner⟩
      · rw [if_neg huse] at hinner
        rw [if_neg huse, Option.map_some]
        simp only [hcalls, List.tail_cons, update_self, reduceCtorEq, if_false]
        exact ⟨_, rfl, hinner⟩

omit [DecidableEq τ] in
theorem Valid.interrupt (h : Valid k) : Valid (k.interrupt c) := by
  refine ⟨fun huse => ?_, h.same, h.done⟩
  have hl := h.locked huse
  have hnone : ∀ l : List (Option τ × UInt8), threadText (l ++ [(none, c)]) = threadText l := by
    simp [threadText]
  exact { hl with
    serial := (hnone k.serial).trans hl.serial
    vga := (hnone k.vga).trans hl.vga }

theorem Valid.step (h : Valid k) (ha : Allowed k a) : ∃ k', step a k = some k' ∧ Valid k' := by
  cases a with
  | enter t => exact h.enter ha
  | serialPutc t c =>
      obtain ⟨rest, hcalls⟩ := ha
      exact h.serialPutc hcalls
  | vgaPutc t =>
      obtain ⟨c, rest, hcalls⟩ := ha
      refine ⟨_, ?_, h.vgaPutc hcalls⟩
      rw [Console.step, hcalls]
      rfl
  | leave t =>
      obtain ⟨rest, hcalls⟩ := ha
      exact h.leave hcalls
  | interrupt c => exact ⟨_, rfl, h.interrupt⟩
  | panic => exact ⟨_, rfl, fun huse => (by cases huse), h.same, h.done⟩

/-- The states that the console gets into. -/
abbrev Reached (k : Kernel τ) : Prop := Reachable step Allowed consoleInit k

theorem Reached.valid (hk : Reached k) : Valid k := by
  refine hk.invariant valid_consoleInit fun s a s' _ hs ha hstep => ?_
  obtain ⟨s₁, hs₁, hvalid⟩ := hs.step ha
  rw [hstep, Option.some_inj] at hs₁
  exact hs₁ ▸ hvalid

/-- **Whatever the order in which threads print, nest their calls and are interrupted: until the kernel panics
at most one thread prints, and what the threads have sent to a device is the text of each outermost call
that has returned, one after the other, and that of the call which has the lock; every such call has sent the
same characters to both devices; and no assertion fails, also after a panic.** -/
theorem reached_unmixed (hk : Reached k) :
    (k.useConsoleLock = true →
      (∀ t, k.calls t ≠ [] ↔ k.holder = some t) ∧
        threadText k.serial = (k.done.map (·.2.serial)).flatten ++
          k.holder.elim [] (fun t => (k.texts t).serial) ∧
        threadText k.vga = (k.done.map (·.2.vga)).flatten ++ k.holder.elim [] fun t => (k.texts t).vga) ∧
      (∀ e ∈ k.done, e.2.vga.Perm e.2.serial) ∧ ∀ a, Allowed k a → (step a k).isSome = true := by
  have h := hk.valid
  refine ⟨fun huse => ?_, h.done, fun a ha => ?_⟩
  · have hl := h.locked huse
    refine ⟨fun t => ⟨fun hne => ?_, fun hheld hnil => ?_⟩, hl.serial, hl.vga⟩
    · by_contra hnot
      exact hne (hl.outside t hnot)
    · have hlength := hl.nested t hheld
      rw [hnil] at hlength
      cases hlength
  · obtain ⟨k', hstep, -⟩ := h.step ha
    rw [hstep]
    rfl

/-- Between the two halves of a character the thread prints another one, and a handler prints; then a second
thread begins to print. -/
def nesting : List (Action Bool) :=
  [.enter true, .serialPutc true 65, .enter true, .serialPutc true 66, .vgaPutc true, .interrupt 33, .leave true,
    .vgaPutc true, .leave true, .enter false, .serialPutc false 67]

theorem reached_unmixed_nesting : ∃ k : Kernel Bool, execute (checked allowed step) nesting consoleInit = some k ∧
    k.serial = [(some true, 65), (some true, 66), (none, 33), (some false, 67)] ∧
    k.done.map (·.2.serial) = [[65, 66]] ∧ k.done.map (·.2.vga) = [[66, 65]] ∧
    threadText k.serial = (k.done.map (·.2.serial)).flatten ++ [67] ∧
    (∀ e ∈ k.done, e.2.vga.Perm e.2.serial) ∧ (k.calls false ≠ [] ↔ k.holder = some false) := by
  have h : (execute (checked allowed step) nesting (consoleInit : Kernel Bool)).map (fun k =>
      (k.serial, k.done.map (·.2.serial), k.done.map (·.2.vga), k.useConsoleLock,
        k.holder.elim [] fun t => (k.texts t).serial)) =
      some ([(some true, 65), (some true, 66), (none, 33), (some false, 67)], [[65, 66]], [[66, 65]], true, [67]) := by
    decide +kernel
  obtain ⟨k, hk, hfacts⟩ := Option.map_eq_some_iff.mp h
  simp only [Prod.mk.injEq] at hfacts
  obtain ⟨hserial, hdone, hvga, huse, hheld⟩ := hfacts
  obtain ⟨hlocked, hperm, -⟩ := reached_unmixed (exists_run_of_checked (fun _ _ => allowed_iff.mp) hk)
  obtain ⟨hcalls, htext, -⟩ := hlocked huse
  rw [hheld] at htext
  exact ⟨k, hk, hserial, hdone, hvga, htext, hperm, hcalls false⟩

end CSE130.Lab3.Console
