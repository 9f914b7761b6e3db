import CSE130.Lab2.Threads
import Mathlib.Data.Finset.Card

/-! # Semaphores

`Outcome s f k k'` is what a statement does to one semaphore: take a unit, queue the running
thread, add a unit and wake a waiter, initialise it, or nothing.  The history of a run counts
the completed `semaphore_down`s and the `semaphore_up`s of every semaphore, and the main result
(`semaphore_units`) relates them to the value:

* `initial + ups = downs + value + 2 ^ 32 * wraps`, where `wraps` counts the ups that found the
  largest `unsigned` value: without wrap-around no unit is lost or made;
* a positive value with blocked waiters is owed to threads that have been woken and have not
  tested the value again yet.

The steps may come in any order: with preemption, and with damaged `donators` lists. -/

namespace CSE130.Lab2

open Function (update)
open Transition

variable {k k' : Kernel} {f : Frame} {st : List Frame} {s : Semaphore} {t w : Thread}
  {v : ℕ → BitVec 32} {h : List (Kernel × Action)}

/-! ### One semaphore under one statement -/

/-- The semaphore whose value is tested. -/
def Frame.downs : Frame → Option Semaphore
  | .semaphoreDown s | .semaphoreDownLoop s => some s
  | _ => none

/-- The semaphore that is upped. -/
def Frame.ups : Frame → Option Semaphore
  | .semaphoreUp s => some s
  | _ => none

theorem Frame.eq_semaphoreUp {f : Frame} {s : Semaphore} (h : f.ups = some s) :
    f = .semaphoreUp s := by
  cases f with
  | semaphoreUp s' => exact congrArg _ (Option.some.inj h)
  | _ => cases h

/-- What the statement `f` does to `s`. -/
inductive Outcome (s : Semaphore) (f : Frame) (k k' : Kernel) : Prop
  | take : f.downs = some s → k.value s ≠ 0 → k'.value s = k.value s - 1 →
      k'.waiters s = k.waiters s → Outcome s f k k'
  | wait : f.downs = some s → k.value s = 0 → k'.value s = 0 →
      k'.waiters s = k.current :: k.waiters s → Outcome s f k k'
  | upNone : f.ups = some s → k.waiters s = [] →
      k'.value s = (k.value s + 1) % unsignedSize → k'.waiters s = [] → Outcome s f k k'
  | up (w : Thread) : f.ups = some s → List.Perm (w :: k'.waiters s) (k.waiters s) →
      k'.value s = (k.value s + 1) % unsignedSize → Outcome s f k k'
  | init : (∃ c l, f = .condvarWait c l) → s = .waiter k.frames → k'.value s = 0 →
      k'.waiters s = [] → Outcome s f k k'
  | none : f.downs ≠ some s → f.ups ≠ some s → k'.value s = k.value s →
      k'.waiters s = k.waiters s → Outcome s f k k'

theorem downs_iff : f.downs = some s ↔ f = .semaphoreDown s ∨ f = .semaphoreDownLoop s := by
  cases f <;> simp [Frame.downs]

theorem woken_outcome {w : Thread} {ws : List Thread} {s' : Semaphore}
    (hp : List.Perm (w :: ws) (k.waiters s'))
    (hv : k'.value = update k.value s' ((k.value s' + 1) % unsignedSize))
    (hw : k'.waiters = update k.waiters s' ws) : Outcome s (.semaphoreUp s') k k' := by
  by_cases he : s' = s
  · subst he
    exact .up w rfl (by rw [hw, Function.update_self]; exact hp)
      (by rw [hv, Function.update_self])
  · have hne : s ≠ s' := Ne.symm he
    exact .none nofun (by simp [Frame.ups, he]) (by rw [hv, Function.update_of_ne hne])
      (by rw [hw, Function.update_of_ne hne])

theorem Exec.outcome (hx : Exec f k k') (s : Semaphore) : Outcome s f k k' := by
  cases hx with
  | @take _ _ s' hf hv =>
      have hd := downs_iff.mpr hf
      by_cases he : s' = s
      · subst he
        exact .take hd hv (Function.update_self ..) rfl
      · have hu : f.ups ≠ some s := by rcases hf with rfl | rfl <;> nofun
        exact .none (by simp [hd, he]) hu (Function.update_of_ne (Ne.symm he) ..) rfl
  | @upNone _ s' hw =>
      by_cases he : s' = s
      · subst he
        exact .upNone rfl hw (Function.update_self ..) hw
      · exact .none nofun (by simp [Frame.ups, he]) (Function.update_of_ne (Ne.symm he) ..) rfl
  | upStay hp => exact woken_outcome hp rfl rfl
  | wait =>
      by_cases he : s = .waiter k.frames
      · subst he
        exact .init ⟨_, _, rfl⟩ rfl (Function.update_self ..) (Function.update_self ..)
      · exact .none nofun nofun (Function.update_of_ne he ..) (Function.update_of_ne he ..)
  | switch hp =>
      cases hp with
      | @block _ _ s' hf hv =>
          have hd := downs_iff.mpr hf
          by_cases he : s' = s
          · subst he
            exact .wait hd hv hv (Function.update_self ..)
          · have hu : f.ups ≠ some s := by rcases hf with rfl | rfl <;> nofun
            exact .none (by simp [hd, he]) hu rfl (Function.update_of_ne (Ne.symm he) ..)
      | up hp => exact woken_outcome hp rfl rfl
      | _ => exact .none nofun nofun rfl rfl
  | _ => exact .none nofun nofun rfl rfl

theorem Outcome.value_up (ho : Outcome s f k k') (hu : f.ups = some s) :
    k'.value s = (k.value s + 1) % unsignedSize := by
  obtain rfl := Frame.eq_semaphoreUp hu
  cases ho with
  | take h | wait h => cases h
  | upNone _ _ hv | up _ _ _ hv => exact hv
  | init h =>
      obtain ⟨c, l, h⟩ := h
      cases h
  | none _ h => exact (h rfl).elim

theorem Outcome.value_down (ho : Outcome s f k k') (hd : f.downs = some s) :
    k'.value s = k.value s - 1 := by
  have hu : f.ups ≠ some s := by
    rcases downs_iff.mp hd with rfl | rfl <;> simp [Frame.ups]
  cases ho with
  | take _ _ hv => exact hv
  | wait _ hz hv => rw [hv, hz]
  | upNone h | up _ h => exact (hu h).elim
  | init h =>
      obtain ⟨c, l, rfl⟩ := h
      cases hd
  | none h => exact (h hd).elim

theorem Outcome.value_same (ho : Outcome s f k k') (hd : f.downs ≠ some s) (hu : f.ups ≠ some s)
    (hnew : (∃ c l, f = .condvarWait c l) → s ≠ .waiter k.frames) : k'.value s = k.value s := by
  cases ho with
  | take h | wait h => exact (hd h).elim
  | upNone h | up _ h => exact (hu h).elim
  | init h h' => exact (hnew h h').elim
  | none _ _ hv => exact hv

/-! ### The semaphores of `condvar_wait` -/

/-- A `waiter` semaphore is mentioned, and its value is not `0`, only once it exists. -/
structure Fresh (k : Kernel) : Prop where
  linked : ∀ c, ∀ w ∈ k.condWaiters c, w < k.frames
  pending : ∀ t w, .semaphoreUp (.waiter w) ∈ k.stack t → w < k.frames
  value : ∀ w, k.frames ≤ w → k.value (.waiter w) = 0

theorem boot_fresh (v : ℕ → BitVec 32) : Fresh (boot v) where
  linked := nofun
  pending t w h := by
    simp only [boot] at h
    split at h <;> simp at h
  value _ _ := rfl

/-- What a statement does to the lists of the condition variables. -/
theorem Exec.condWaiters (hx : Exec f k k') :
    (∃ c l, f = .condvarWait c l ∧ k.holder l = some k.current ∧ k'.condWaiters = update k.condWaiters c
      (k.condWaiters c ++ [k.frames]) ∧ k'.current = k.current ∧
      k'.code = .lockRelease l :: .condvarWaitDown c l k.frames :: k.code) ∨
    (∃ c l w ws, f = .condvarSignal c l ∧ k.holder l = some k.current ∧
      k.signalled c = some w ∧ List.Perm (w :: ws) (k.condWaiters c) ∧ k'.condWaiters = update k.condWaiters c ws ∧
      k'.current = k.current ∧ k'.code = .semaphoreUp (.waiter w) :: k.code) ∨
    ((∀ c l, f ≠ .condvarWait c l) ∧ (∀ c l, f = .condvarSignal c l → k.condWaiters c = []) ∧
      k'.condWaiters = k.condWaiters) := by
  cases hx with
  | wait hh => exact .inl ⟨_, _, rfl, hh, rfl, rfl, by simp [Kernel.code]⟩
  | signal hh hw hp =>
      exact .inr (.inl ⟨_, _, _, _, rfl, hh, hw, hp, rfl, rfl, by simp [Kernel.code]⟩)
  | @signalNone _ c l _ he =>
      refine .inr (.inr ⟨by simp, fun c' l' h => ?_, rfl⟩)
      cases h
      exact he
  | take h => exact .inr (.inr ⟨by rcases h with rfl | rfl <;> simp,
      by rcases h with rfl | rfl <;> simp, rfl⟩)
  | switch hp =>
      cases hp with
      | block h => exact .inr (.inr ⟨by rcases h with rfl | rfl <;> simp,
          by rcases h with rfl | rfl <;> simp, rfl⟩)
      | _ => exact .inr (.inr ⟨by simp, by simp, rfl⟩)
  | _ => exact .inr (.inr ⟨by simp, by simp, rfl⟩)

theorem Flow.pending {fs : List Frame} {w : ℕ} (hf : Flow k f fs)
    (hw : .semaphoreUp (.waiter w) ∈ fs) : ∃ c l, f = .condvarSignal c l ∧ w ∈ k.condWaiters c := by
  cases hf with
  | signal c l w' hw' =>
      simp only [List.mem_singleton, Frame.semaphoreUp.injEq, Semaphore.waiter.injEq] at hw
      exact ⟨c, l, rfl, hw ▸ hw'⟩
  | _ => simp at hw

/-- A call of `semaphore_up` on a `waiter` comes from `condvar_signal`. -/
theorem Consistent.pending {w : ℕ} (hk : Consistent k) (hcode : k.code = f :: st)
    (hx : Exec f (k.popped st) k') (ht : .semaphoreUp (.waiter w) ∈ k'.stack t) :
    .semaphoreUp (.waiter w) ∈ k.stack t ∨
      (t = k.current ∧ ∃ c l, f = .condvarSignal c l ∧ w ∈ k.condWaiters c) := by
  obtain ⟨fs, hf, hst⟩ := hx.flow (hk.control.fresh _ le_rfl) hk.threads.current_lt.ne
  rw [hst, Function.update_apply] at ht
  split at ht
  · rename_i he
    rcases List.mem_append.mp ht with ht | ht
    · exact .inr ⟨he, hf.pending ht⟩
    · refine .inl ?_
      rw [he, ← Kernel.code, hcode]
      exact List.mem_cons_of_mem f ht
  · exact .inl ht

theorem Fresh.exec (hf : Fresh k) (hk : Consistent k) (hcode : k.code = f :: st)
    (hx : Exec f (k.popped st) k') : Fresh k' := by
  obtain ⟨-, hn, -, hwait, -⟩ := hx.counters
  have hn : k.frames ≤ k'.frames := hn
  refine ⟨fun c w hw => ?_, fun t w hw => ?_, fun w hw => ?_⟩
  · rcases hx.condWaiters with ⟨c', l, rfl, -, he, -⟩ | ⟨c', l, w', ws, rfl, -, -, hp, he, -⟩ |
        ⟨-, -, he⟩
    · rw [hwait c' l rfl]
      rw [he, Function.update_apply] at hw
      split at hw
      · rcases List.mem_append.mp hw with hw | hw
        · exact Nat.lt_succ_of_lt (hf.linked c' w hw)
        · rw [List.mem_singleton.mp hw]
          exact Nat.lt_succ_self k.frames
      · exact Nat.lt_succ_of_lt (hf.linked c w hw)
    · rw [he, Function.update_apply] at hw
      split at hw
      · exact lt_of_lt_of_le (hf.linked c' w (hp.subset (List.mem_cons_of_mem w' hw))) hn
      · exact lt_of_lt_of_le (hf.linked c w hw) hn
    · rw [he] at hw
      exact lt_of_lt_of_le (hf.linked c w hw) hn
  · rcases hk.pending hcode hx hw with h | ⟨rfl, c, l, rfl, h⟩
    · exact lt_of_lt_of_le (hf.pending t w h) hn
    · exact lt_of_lt_of_le (hf.linked c w h) hn
  · have hv : k.value (.waiter w) = 0 := hf.value w (hn.trans hw)
    have hup : f.ups ≠ some (.waiter w) := by
      intro hu
      have hmem : .semaphoreUp (.waiter w) ∈ k.stack k.current := by
        cases f <;> cases hu
        rw [← Kernel.code, hcode]
        exact List.mem_cons_self
      exact absurd (hf.pending _ w hmem) (Nat.not_lt.mpr (hn.trans hw))
    cases hx.outcome (.waiter w) with
    | take _ hne => exact (hne hv).elim
    | wait _ _ h => exact h
    | upNone hu => exact (hup hu).elim
    | up _ hu => exact (hup hu).elim
    | init _ _ h => exact h
    | none _ _ h => exact h.trans hv

theorem Fresh.step {a : Action} (hf : Fresh k) (hk : Consistent k) (hs : step a k = some k') :
    Fresh k' := by
  cases step_inv hs with
  | call c hcode =>
      refine ⟨hf.linked, fun t w hw => ?_, hf.value⟩
      rw [Kernel.push_stack, Function.update_apply, hcode] at hw
      split at hw
      · rw [List.mem_singleton] at hw
        cases c <;> cases hw
      · exact hf.pending t w hw
  | @run _ _ f st hcode hx =>
      exact hf.exec hk hcode hx
  | timer =>
      exact ⟨hf.linked, hf.pending, hf.value⟩
  | race =>
      exact ⟨hf.linked, hf.pending, hf.value⟩

theorem reachable_fresh {G : Kernel → Action → Prop} (hr : Reachable step G (boot v) k) :
    Fresh k :=
  hr.invariant (boot_fresh v) fun _ _ _ hr hf _ hs => hf.step (reachable_consistent hr) hs

/-! ### Counting the operations of a run -/

/-- An event of a run: the state before a step and the action taken. -/
abbrev Event := Kernel × Action

/-- The event completes a `semaphore_down` of `s`. -/
def completesDown (s : Semaphore) : Event → Bool
  | (k, .run) => (k.code.head?.bind Frame.downs = some s) && (k.value s ≠ 0)
  | _ => false

/-- The event is a `semaphore_up` of `s`. -/
def performsUp (s : Semaphore) : Event → Bool
  | (k, .run) => k.code.head?.bind Frame.ups = some s
  | _ => false

/-- The event is a `semaphore_up` of `s` at the largest `unsigned` value. -/
def wrapsAround (s : Semaphore) (e : Event) : Bool :=
  performsUp s e && (e.1.value s + 1 = unsignedSize)

/-- Completed `semaphore_down`s of `s`. -/
def downs (s : Semaphore) (h : List Event) : ℕ := h.countP (completesDown s)

/-- `semaphore_up`s of `s`. -/
def ups (s : Semaphore) (h : List Event) : ℕ := h.countP (performsUp s)

/-- `semaphore_up`s of `s` that wrap its value around to `0`. -/
def wraps (s : Semaphore) (h : List Event) : ℕ := h.countP (wrapsAround s)

/-- The value that `semaphore_init` gave to `s`. -/
def initial (v : ℕ → BitVec 32) (s : Semaphore) : ℕ := (boot v).value s

/-- The threads that `semaphore_up` has taken from the waiters list of `s` and that have not
tested the value again. -/
def Kernel.awake (k : Kernel) (s : Semaphore) : Finset Thread :=
  (Finset.range k.threads).filter fun t =>
    (k.stack t).head? = some (.semaphoreDownLoop s) ∧ t ∉ k.waiters s

theorem completesDown_run (hcode : k.code = f :: st) :
    completesDown s (k, .run) = decide (f.downs = some s ∧ k.value s ≠ 0) := by
  simp [completesDown, hcode]

theorem performsUp_run (hcode : k.code = f :: st) :
    performsUp s (k, .run) = decide (f.ups = some s) := by
  simp [performsUp, hcode]

theorem mem_awake : t ∈ k.awake s ↔
    t < k.threads ∧ (∃ st, k.stack t = .semaphoreDownLoop s :: st) ∧ t ∉ k.waiters s := by
  simp only [Kernel.awake, Finset.mem_filter, Finset.mem_range, List.head?_eq_some_iff]

/-! ### No unit is lost -/

/-- The value accounts for every operation so far. -/
def Balanced (v : ℕ → BitVec 32) (s : Semaphore) (h : List Event) (k : Kernel) : Prop :=
  initial v s + ups s h = downs s h + k.value s + unsignedSize * wraps s h ∧
    k.value s < unsignedSize

theorem boot_balanced (v : ℕ → BitVec 32) (s : Semaphore) : Balanced v s [] (boot v) := by
  refine ⟨by simp [initial, ups, downs, wraps], ?_⟩
  cases s with
  | sema i => exact (v i).isLt
  | lock l => exact Nat.one_lt_two_pow (by decide)
  | waiter w => exact Nat.two_pow_pos 32

theorem Balanced.exec (hb : Balanced v s h k) (hf : Fresh k) (hcode : k.code = f :: st)
    (hx : Exec f (k.popped st) k') : Balanced v s ((k, .run) :: h) k' := by
  obtain ⟨heq, hlt⟩ := hb
  unfold Balanced ups downs wraps
  simp only [List.countP_cons, wrapsAround, performsUp_run hcode, completesDown_run hcode]
  unfold ups downs wraps at heq
  have hnot {f : Frame} (hd : f.downs = some s) : f.ups ≠ some s := by
    cases f <;> simp_all [Frame.downs, Frame.ups]
  have hnot' {f : Frame} (hu : f.ups = some s) : f.downs ≠ some s := fun hd => hnot hd hu
  -- an up adds a unit, or wraps around
  have hup (hu : f.ups = some s) (hv : k'.value s = (k.value s + 1) % unsignedSize) :
      initial v s + (h.countP (performsUp s) + 1) = h.countP (completesDown s) + k'.value s +
        unsignedSize * (h.countP (wrapsAround s) +
          if k.value s + 1 = unsignedSize then 1 else 0) ∧ k'.value s < unsignedSize := by
    rw [hv]
    by_cases hw : k.value s + 1 = unsignedSize
    · rw [hw, Nat.mod_self, if_pos rfl]
      exact ⟨by rw [Nat.mul_succ]; omega, Nat.two_pow_pos 32⟩
    · have hlt' : k.value s + 1 < unsignedSize := by omega
      simp only [Nat.mod_eq_of_lt hlt', if_neg hw, Nat.add_zero]
      exact ⟨by omega, hlt'⟩
  cases hx.outcome s with
  | take hd hne hv =>
      have hne : k.value s ≠ 0 := hne
      have hv : k'.value s = k.value s - 1 := hv
      simp only [hd, hnot hd, hne, ne_eq, not_false_eq_true, and_self, decide_true, decide_false,
        Bool.false_and, if_true, Bool.false_eq_true, if_false, hv, Nat.add_zero]
      omega
  | wait hd hz hv =>
      have hz : k.value s = 0 := hz
      simp only [hd, hnot hd, hz, ne_eq, not_true_eq_false, and_false, decide_false,
        Bool.false_and, Bool.false_eq_true, if_false, hv, Nat.add_zero]
      omega
  | upNone hu _ hv =>
      simp only [hu, hnot' hu, false_and, decide_true, decide_false, Bool.true_and,
        decide_eq_true_eq, Bool.false_eq_true, if_true, if_false, Nat.add_zero]
      exact hup hu hv
  | up _ hu _ hv =>
      simp only [hu, hnot' hu, false_and, decide_true, decide_false, Bool.true_and,
        decide_eq_true_eq, Bool.false_eq_true, if_true, if_false, Nat.add_zero]
      exact hup hu hv
  | init hf' hs hv =>
      obtain ⟨c, l, rfl⟩ := hf'
      have hd : (Frame.condvarWait c l).downs = none := rfl
      have hu : (Frame.condvarWait c l).ups = none := rfl
      have hz : k.value s = 0 := hs ▸ hf.value _ le_rfl
      simp only [hd, hu, reduceCtorEq, false_and, decide_false, Bool.false_and,
        Bool.false_eq_true, if_false, hv, Nat.add_zero]
      omega
  | none hd hu hv =>
      have hv : k'.value s = k.value s := hv
      simp only [hd, hu, false_and, decide_false, Bool.false_and, Bool.false_eq_true, if_false,
        hv, Nat.add_zero]
      omega

theorem run_balanced (hr : Run step anyAction (boot v) h k) (s : Semaphore) :
    Balanced v s h k := by
  refine hr.invariant (boot_balanced v s) fun h k a k' hr hb _ hs => ?_
  cases step_inv hs with
  | call =>
      exact hb
  | @run _ _ f st hcode hx =>
      exact hb.exec (reachable_fresh ⟨h, hr⟩) hcode hx
  | timer =>
      exact hb
  | race =>
      exact hb

/-! ### No wake-up is lost -/

/-- While threads are blocked on `s`, its value is owed to threads that are awake. -/
def Owed (s : Semaphore) (k : Kernel) : Prop :=
  k.waiters s ≠ [] → k.value s ≤ (k.awake s).card

/-- A thread in the loop of `semaphore_down` that is on no waiters list is running or ready. -/
def Roused (k : Kernel) : Prop :=
  ∀ t s st, k.stack t = .semaphoreDownLoop s :: st → t ∉ k.waiters s →
    t = k.current ∨ t ∈ k.readyList

theorem Owed.exec (ho : Owed s k) (hk : Consistent k) (hcode : k.code = f :: st)
    (hx : Exec f (k.popped st) k') : Owed s k' := by
  obtain ⟨fs, -, hst⟩ := hx.flow (hk.control.fresh _ le_rfl) hk.threads.current_lt.ne
  have hlt : k.threads ≤ k'.threads := hx.counters.2.2.1
  have hkeep {t : Thread} (ht : t ∈ k.awake s) (hne : t ≠ k.current) (hw : t ∉ k'.waiters s) :
      t ∈ k'.awake s := by
    obtain ⟨htlt, hloop, -⟩ := mem_awake.mp ht
    refine mem_awake.mpr ⟨htlt.trans_le hlt, ?_, hw⟩
    rw [hst, Function.update_of_ne hne]
    exact hloop
  have hcur (hd : f.downs ≠ some s) {t : Thread} (ht : t ∈ k.awake s) : t ≠ k.current := by
    rintro rfl
    obtain ⟨-, ⟨st', h'⟩, -⟩ := mem_awake.mp ht
    rw [← Kernel.code, hcode] at h'
    cases h'
    exact hd rfl
  intro hne
  cases hx.outcome s with
  | take hd hpos hv hw =>
      have hv : k'.value s = k.value s - 1 := hv
      have hw : k'.waiters s = k.waiters s := hw
      rw [hw] at hne
      have hsub : (k.awake s).erase k.current ⊆ k'.awake s := fun t ht => by
        rw [Finset.mem_erase] at ht
        exact hkeep ht.2 ht.1 (by rw [hw]; exact (mem_awake.mp ht.2).2.2)
      have h1 := Finset.card_le_card hsub
      have h2 := Finset.pred_card_le_card_erase (s := k.awake s) (a := k.current)
      have h3 := ho hne
      omega
  | wait _ _ hv => omega
  | upNone _ _ _ hw => exact (hne hw).elim
  | up w hu hp hv =>
      have hp : List.Perm (w :: k'.waiters s) (k.waiters s) := hp
      have hmem := hp.subset List.mem_cons_self
      have hnd := List.nodup_cons.mp (hp.nodup_iff.mpr (hk.threads.waiting_nodup s))
      obtain ⟨-, st', hloop⟩ := hk.threads.waiting s w hmem
      have hd : f.downs ≠ some s := by cases f <;> simp_all [Frame.ups, Frame.downs]
      have hold {t : Thread} (ht : t ∈ k.awake s) : t ∈ k'.awake s := by
        refine hkeep ht (hcur hd ht) fun h => (mem_awake.mp ht).2.2 ?_
        exact hp.subset (List.mem_cons_of_mem w h)
      have hnew : w ∈ k'.awake s := by
        refine mem_awake.mpr ⟨(hk.threads.waiting_lt s w hmem).trans_le hlt, ⟨st', ?_⟩, hnd.1⟩
        rw [hst, Function.update_of_ne (hk.threads.ne_of_waiting hmem).1]
        exact hloop
      have hw : w ∉ k.awake s := fun h => (mem_awake.mp h).2.2 hmem
      have hsub : insert w (k.awake s) ⊆ k'.awake s := by
        intro t ht
        rcases Finset.mem_insert.mp ht with rfl | ht
        · exact hnew
        · exact hold ht
      have h1 := Finset.card_le_card hsub
      rw [Finset.card_insert_of_notMem hw] at h1
      have h2 := ho (List.ne_nil_of_mem hmem)
      have h3 : k'.value s = (k.value s + 1) % unsignedSize := hv
      have h4 := Nat.mod_le (k.value s + 1) unsignedSize
      omega
  | init _ _ _ hw => exact (hne hw).elim
  | none hd _ hv hw =>
      have hv : k'.value s = k.value s := hv
      have hw : k'.waiters s = k.waiters s := hw
      rw [hw] at hne
      rw [hv]
      refine (ho hne).trans (Finset.card_le_card fun t ht => hkeep ht (hcur hd ht) ?_)
      rw [hw]
      exact (mem_awake.mp ht).2.2

theorem NextThread.dispatched {ready : List Thread} {u : Thread} (hn : NextThread k t ready)
    (hu : u ∈ k.readyList) : u = t ∨ u ∈ ready := by
  obtain ⟨he, -, -⟩ | ⟨hp, -⟩ := hn
  · rw [he] at hu
    cases hu
  · exact List.mem_cons.mp (hp.symm.subset hu)

theorem mem_yielding (h : t ∈ k.readyList ∨ t = k.current ∧ t ≠ k.idleThread) :
    t ∈ k.yielding.readyList := by
  simp only [Kernel.yielding]
  split
  · rename_i hi
    rcases h with h | ⟨rfl, hne⟩
    · exact h
    · exact (hne hi).elim
  · rcases h with h | ⟨rfl, -⟩
    · exact List.mem_cons_of_mem _ h
    · exact List.mem_cons_self

theorem Roused.timer {ready : List Thread} (hr : Roused k) (hk : Scheduled k)
    (hn : NextThread k.yielding t ready) : Roused (k.yielding.dispatch t ready) := by
  intro u s st hst hw
  refine hn.dispatched (mem_yielding ?_)
  rcases hr u s st hst hw with rfl | h
  · refine .inr ⟨rfl, fun hi => ?_⟩
    have hidle := hk.idle
    rw [← hi] at hidle
    have hst : k.stack k.current = _ := hst
    rw [hidle] at hst
    cases hst
  · exact .inl h

theorem Roused.control (hr : Roused k) (hst : ∀ t, t ≠ k.current → k'.stack t = k.stack t)
    (hc : k'.current = k.current) (hready : ∀ t ∈ k.readyList, t ∈ k'.readyList)
    (hw : ∀ s, ∀ t ∈ k.waiters s, t ∈ k'.waiters s ∨ t ∈ k'.readyList) : Roused k' := by
  intro t s st hs hn
  by_cases ht : t = k.current
  · exact .inl (ht.trans hc.symm)
  · rw [hst t ht] at hs
    by_cases hmem : t ∈ k.waiters s
    · exact .inr ((hw s t hmem).resolve_left hn)
    · exact .inr (hready t ((hr t s st hs hmem).resolve_left ht))

theorem Roused.woken {ws : List Thread} (hr : Roused k)
    (hp : List.Perm (w :: ws) (k.waiters s)) : Roused (k.woken s w ws) := by
  refine hr.control (fun _ _ => rfl) rfl (fun t ht => List.mem_append_left _ ht) fun s' t ht => ?_
  by_cases he : s' = s
  · subst he
    rcases List.mem_cons.mp (hp.symm.subset ht) with rfl | h
    · exact .inr (List.mem_append_right _ (List.mem_singleton.mpr rfl))
    · refine .inl ?_
      simp only [Kernel.woken, Function.update_self]
      exact h
  · refine .inl ?_
    simp only [Kernel.woken, Function.update_of_ne he]
    exact ht

theorem Roused.exec (hr : Roused k) (hk : Consistent k) (hcode : k.code = f :: st)
    (hx : Exec f (k.popped st) k') : Roused k' := by
  obtain ⟨fs, -, hst⟩ := hx.flow (hk.control.fresh _ le_rfl) hk.threads.current_lt.ne
  have hother (t : Thread) (ht : t ≠ k.current) : k'.stack t = k.stack t := by
    rw [hst, Function.update_of_ne ht]
  have hwell : WellStacked (f :: st) := hcode ▸ hk.control.shape k.current
  have hpop : Roused (k.popped st) :=
    hr.control (fun t ht => Function.update_of_ne ht ..) rfl (fun _ h => h) fun _ _ h => .inl h
  -- the running thread is in no loop, or queued
  have hstop {k₁ : Kernel} {u : Thread} {ready : List Thread} (hn : NextThread k₁ u ready)
      (hs : ∀ t, t ≠ k.current → k₁.stack t = k.stack t) (hl : k₁.readyList = k.readyList)
      (hw : ∀ s, ∀ t ∈ k.waiters s, t ∈ k₁.waiters s)
      (hc : ∀ s st, k₁.stack k.current = .semaphoreDownLoop s :: st →
        k.current ∈ k₁.waiters s) : Roused (k₁.dispatch u ready) := by
    intro t s st hst hnw
    have hst : k₁.stack t = .semaphoreDownLoop s :: st := hst
    refine hn.dispatched ?_
    rw [hl]
    by_cases ht : t = k.current
    · exact (hnw (ht ▸ hc s st (ht ▸ hst))).elim
    · rw [hs t ht] at hst
      exact (hr t s st hst fun h => hnw (hw s t h)).resolve_left ht
  cases hx with
  | upStay hp => exact hpop.woken hp
  | wait =>
      refine hr.control hother rfl (fun _ h => h) fun s t h => .inl ?_
      show t ∈ update k.waiters (.waiter k.frames) [] s
      rw [Function.update_apply]
      split
      · rename_i he
        rw [he, hk.waiters_fresh le_rfl] at h
        exact h
      · exact h
  | unblock =>
      exact hr.control hother rfl (fun t h => List.mem_append_left _ h) fun _ _ h => .inl h
  | switch hp hn =>
      cases hp with
      | @block _ _ s' hf hv =>
          refine hstop hn (fun t ht => ?_) rfl (fun s t h => ?_) fun s st' hs => ?_
          · simp [Kernel.blockedOn, Function.update_of_ne ht]
          · show t ∈ update k.waiters s' (k.current :: k.waiters s') s
            rw [Function.update_apply]
            split
            · rename_i he
              exact List.mem_cons_of_mem _ (he ▸ h)
            · exact h
          · obtain rfl : s' = s := by
              simp only [Kernel.blockedOn, popped_current, Function.update_self,
                List.cons.injEq, Frame.semaphoreDownLoop.injEq] at hs
              exact hs.1
            show k.current ∈ update k.waiters s' (k.current :: k.waiters s') s'
            rw [Function.update_self]
            exact List.mem_cons_self
      | up hp =>
          have hs := hk.threads.popped hcode (by simp)
          exact (hpop.woken hp).timer (hs.woken hp) hn
      | preempt | set | yield => exact hpop.timer (hk.threads.popped hcode (by simp)) hn
      | exit =>
          obtain rfl := hwell.1 trivial
          refine hstop hn (fun t ht => Function.update_of_ne ht ..) rfl (fun _ _ h => h)
            fun s st' hs => ?_
          simp at hs
      | idle =>
          refine hstop hn (fun t ht => ?_) rfl (fun _ _ h => h) fun s st' hs => ?_
          · simp [Kernel.push, Function.update_of_ne ht]
          · simp [Kernel.push] at hs
  | _ => exact hr.control hother rfl (fun _ h => h) fun _ _ h => .inl h

theorem run_owed (hr : Run step anyAction (boot v) h k) (s : Semaphore) :
    Owed s k ∧ Roused k := by
  refine hr.invariant (I := fun _ k => Owed s k ∧ Roused k) ⟨fun hne => (hne rfl).elim, ?_⟩
    fun h k a k' hr hi _ hs => ?_
  · intro t s st hst
    simp only [boot] at hst
    split at hst <;> simp at hst
  · have hk := reachable_consistent ⟨h, hr⟩
    obtain ⟨ho, hrs⟩ := hi
    cases step_inv hs with
    | call c hcode =>
        have hother (t : Thread) (ht : t ≠ k.current) :
            (k.push c.frame).stack t = k.stack t := by
          rw [Kernel.push_stack, Function.update_of_ne ht]
        refine ⟨fun hne => (ho hne).trans (Finset.card_le_card fun t ht => ?_),
          hrs.control hother rfl (fun _ h => h) fun _ _ h => .inl h⟩
        obtain ⟨hlt, hloop, hw⟩ := mem_awake.mp ht
        refine mem_awake.mpr ⟨hlt, ?_, hw⟩
        rw [hother]
        · exact hloop
        · rintro rfl
          obtain ⟨st, hst⟩ := hloop
          rw [← Kernel.code, hcode] at hst
          cases hst
    | @run _ _ f st hcode hx =>
        exact ⟨ho.exec hk hcode hx, hrs.exec hk hcode hx⟩
    | @timer _ t ready hn =>
        exact ⟨ho, hrs.timer hk.threads hn⟩
    | race =>
        exact ⟨ho, hrs⟩

/-- The frame of the loop of `semaphore_down` is never below another one. -/
theorem WellStacked.not_loop {st' : List Frame} (hw : WellStacked (f :: st)) :
    st ≠ .semaphoreDownLoop s :: st' := by
  rintro rfl
  rcases Below.mem hw List.mem_cons_self with h | ⟨l, h | ⟨h, -⟩⟩
  · exact h
  · cases h
  · cases h

/-- A thread enters the loop of `semaphore_down` on the waiters list. -/
theorem Consistent.loops {st' : List Frame} (hk : Consistent k) (hcode : k.code = f :: st)
    (hx : Exec f (k.popped st) k') (hst : k'.stack k.current = .semaphoreDownLoop s :: st') :
    k.current ∈ k'.waiters s := by
  have hw : WellStacked (f :: st) := hcode ▸ hk.control.shape k.current
  obtain ⟨fs, hf, he⟩ := hx.flow (hk.control.fresh _ le_rfl) hk.threads.current_lt.ne
  rw [he, Function.update_self] at hst
  cases hf with
  | ret => exact (hw.not_loop hst).elim
  | block s' hd =>
      cases hst
      cases hx with
      | take =>
          have := congrFun he k.current
          rw [popped_stack, Function.update_self, Function.update_self] at this
          exact (hw.not_loop this).elim
      | switch hp =>
          cases hp with
          | @block _ _ s' hd' =>
              obtain rfl : s' = s := by
                rcases hd with rfl | rfl <;> rcases hd' with h | h <;> cases h <;> rfl
              simp [Kernel.blockedOn, Kernel.dispatch]
          | _ => rcases hd with h | h <;> cases h
      | _ => rcases hd with h | h <;> cases h
  | _ => cases hst

/-- A thread is awake only because somebody has upped the semaphore. -/
theorem run_awake {G : Kernel → Action → Prop} (hr : Run step G (boot v) h k) :
    ∀ t s st, k.stack t = .semaphoreDownLoop s :: st → t ∉ k.waiters s → 0 < ups s h := by
  refine hr.invariant (I := fun h k => ∀ t s st, k.stack t = .semaphoreDownLoop s :: st →
    t ∉ k.waiters s → 0 < ups s h) (fun t s st hst => ?_) fun h k a k' hr hi _ hs => ?_
  · simp only [boot] at hst
    split at hst <;> simp at hst
  · intro t s st hst hw
    have hk := reachable_consistent ⟨h, hr⟩
    have hle : ups s h ≤ ups s ((k, a) :: h) := by
      simp only [ups, List.countP_cons, Nat.le_add_right]
    cases step_inv hs with
    | call c hcode =>
        by_cases ht : t = k.current
        · rw [ht, Kernel.push_stack, Function.update_self, hcode] at hst
          cases c <;> cases hst
        · rw [Kernel.push_stack, Function.update_of_ne ht] at hst
          exact (hi t s st hst hw).trans_le hle
    | @run _ _ f st' hcode hx =>
        obtain ⟨fs, -, he⟩ := hx.flow (hk.control.fresh _ le_rfl) hk.threads.current_lt.ne
        by_cases ht : t = k.current
        · subst ht
          exact (hw (hk.loops hcode hx hst)).elim
        · rw [he, Function.update_of_ne ht] at hst
          by_cases hu : f.ups = some s
          · simp only [ups, List.countP_cons, performsUp_run hcode, hu, decide_true, if_true]
            exact Nat.succ_pos _
          · refine (hi t s st hst fun hmem => hw ?_).trans_le hle
            cases hx.outcome s with
            | take _ _ _ h' | none _ _ _ h' => exact h' ▸ hmem
            | wait _ _ _ h' => exact h' ▸ List.mem_cons_of_mem _ hmem
            | upNone h' | up _ h' => exact (hu h').elim
            | init _ h' =>
                have hnil : k.waiters s = [] := h' ▸ hk.waiters_fresh le_rfl
                rw [hnil] at hmem
                cases hmem
    | timer =>
        exact (hi t s st hst hw).trans_le hle
    | race =>
        exact (hi t s st hst hw).trans_le hle

/-- An awake thread that runs while the value is positive consumes a unit. -/
theorem awake_consumes (ht : k.current ∈ k.awake s) (hv : 0 < k.value s) :
    completesDown s (k, .run) ∧ ∃ k', step .run k = some k' ∧ k'.value s = k.value s - 1 := by
  obtain ⟨-, ⟨st, hst⟩, -⟩ := mem_awake.mp ht
  have hcode : k.code = .semaphoreDownLoop s :: st := hst
  refine ⟨?_, ?_⟩
  · rw [completesDown_run hcode]
    simp [Frame.downs, hv.ne']
  · refine ⟨{ k.popped st with value := update k.value s (k.value s - 1) }, ?_,
      Function.update_self ..⟩
    simp only [step, stepRun, hcode, exec, Kernel.semaphoreDown, if_neg hv.ne']
    rfl

/-- **Semaphores lose no unit and no wake-up.**  After every run the initial value and the ups
are the completed downs, the value, and `2 ^ 32` for every up that wrapped around; while
threads wait, the value is at most the number of awake threads; and if it is positive then, an
awake thread is running or ready, and takes a unit when it runs. -/
theorem semaphore_accounting (hr : Run step anyAction (boot v) h k) (s : Semaphore) :
    initial v s + ups s h = downs s h + k.value s + unsignedSize * wraps s h ∧
    (k.waiters s ≠ [] → k.value s ≤ (k.awake s).card) ∧
    (k.waiters s ≠ [] → 0 < k.value s → ∃ t ∈ k.awake s, (t = k.current ∨ t ∈ k.readyList) ∧
      (t = k.current → ∃ k', step .run k = some k' ∧ k'.value s = k.value s - 1)) := by
  obtain ⟨howed, hroused⟩ := run_owed hr s
  refine ⟨(run_balanced hr s).1, howed, fun hne hv => ?_⟩
  have hcard : 0 < (k.awake s).card := lt_of_lt_of_le hv (howed hne)
  obtain ⟨t, ht⟩ := Finset.card_pos.mp hcard
  obtain ⟨-, ⟨st, hst⟩, hw⟩ := mem_awake.mp ht
  refine ⟨t, ht, hroused t s st hst hw, ?_⟩
  rintro rfl
  exact (awake_consumes ht hv).2

/-- Two threads sleep on semaphore `0`, and the initial thread, above them in priority, ups
it. -/
def wakeOne : List Action :=
  Call.steps (.threadCreate 40) 11 ++ Call.steps (.semaphoreDown 0) 1 ++
  Call.steps (.threadCreate 40) 11 ++ Call.steps (.semaphoreDown 0) 1 ++
  Call.steps (.threadSetPriority 50 0) 2 ++ Call.steps (.semaphoreUp 0) 1

/-- Then a unit, a waiter and a woken thread that has still to take the unit exist at once. -/
theorem semaphore_accounting_wakeOne : ∃ h k, Run step anyAction (boot fun _ => 0) h k ∧
    k.value (.sema 0) = 1 ∧ k.waiters (.sema 0) = [3] ∧ ∃ t ∈ k.awake (.sema 0),
      t = k.current ∨ t ∈ k.readyList := by
  have hex : (execute step wakeOne (boot fun _ => 0)).map
      (fun k => (k.value (.sema 0), k.waiters (.sema 0))) = some (1, [3]) := by decide +kernel
  obtain ⟨k, hk, he⟩ := Option.map_eq_some_iff.mp hex
  obtain ⟨hv, hw⟩ := Prod.mk.inj he
  have hr := execute_run (G := anyAction) (fun _ _ _ => trivial) .nil hk
  obtain ⟨t, ht, hrun, -⟩ := (semaphore_accounting hr (.sema 0)).2.2 (by rw [hw]; nofun)
    (by rw [hv]; exact Nat.one_pos)
  exact ⟨_, k, hr, hv, hw, t, ht, hrun⟩

/-- A semaphore that starts at the largest `unsigned` value is `0` after one up. -/
theorem semaphore_wraps_around : ∃ h k,
    Run step anyAction (boot fun _ => BitVec.allOnes 32) h k ∧
    (initial (fun _ => BitVec.allOnes 32) (.sema 0) : ℤ) + ups (.sema 0) h - downs (.sema 0) h ≠
      k.value (.sema 0) := by
  have hex : (execute step (Call.steps (.semaphoreUp 0) 1) (boot fun _ => BitVec.allOnes 32)).map
      (fun k => k.value (.sema 0)) = some 0 := by decide +kernel
  obtain ⟨k, hk, hv⟩ := Option.map_eq_some_iff.mp hex
  have hr := execute_run (G := anyAction) (fun _ _ _ => trivial) .nil hk
  refine ⟨_, k, hr, ?_⟩
  have hups : ups (.sema 0) (trace step (Call.steps (.semaphoreUp 0) 1)
      (boot fun _ => BitVec.allOnes 32) ++ []) = 1 := by decide +kernel
  have hdowns : downs (.sema 0) (trace step (Call.steps (.semaphoreUp 0) 1)
      (boot fun _ => BitVec.allOnes 32) ++ []) = 0 := by decide +kernel
  rw [hups, hdowns, hv]
  decide +kernel

end CSE130.Lab2
