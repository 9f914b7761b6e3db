import CSE130.Lab1.Timer

/-! # The wake time of a sleeping thread in Lab 1

`timer_sleep` adds its argument to the tick count, which takes 64 bits, and keeps the sum in
`waketime`, which has 32.  What a timer interrupt compares with the tick count is the rest that is
left, so a thread may be woken before its time.  The runs here are all the runs of the alarm clock,
with ticks and stores at any place. -/

namespace CSE130.Lab1

open Function (update)
open Transition

variable {τ : Type*} [DecidableEq τ]

/-- Any step. -/
def Anything (_ : Kernel τ) (_ : Action τ) : Prop := True

/-- In this step the thread `t` reads the tick count and adds the argument of `timer_sleep`. -/
def Loads (t : τ) (x : Kernel τ × Action τ) : Prop :=
  x.2 = .next ∧ x.1.current = some t ∧ ∃ n, x.1.frame t = .called n

/-- In some run the thread `t` called `timer_sleep (n)`; the kernel has since taken the steps `h`
and come to `k`, the call has not returned, and it read the tick count when that was `c`. -/
structure Call (t : τ) (c n : Int64) (h : List (Kernel τ × Action τ)) (k : Kernel τ) : Prop where
  run : ∃ k₀ k₁, Reachable step Anything init k₀ ∧ k₀.current = some t ∧
    step (.call n) k₀ = some k₁ ∧ Run step Anything k₁ h k
  inside : ∀ x ∈ h, x.1.frame t ≠ .outside
  count : ∀ x ∈ h, Loads t x → x.1.ticks = c

/-- No tick makes the thread `t` ready before `n` ticks have come since its call. -/
def NotEarly (t : τ) (c n : Int64) : Prop :=
  ∀ h k fuel preempt k', Call t c n h k → k.status t = .blocked →
    step (.tick fuel preempt) k = some k' → k'.status t = .ready → n.toInt ≤ ticksIn h + 1

/-! ### Any run -/

variable {k k' : Kernel τ} {t u : τ} {c n : Int64} {l : List τ} {m fuel : ℕ} {e : Elem τ}
  {a : Action τ} {h : List (Kernel τ × Action τ)}

/-- What the timer interrupt does, whatever `sleep_list` looks like. -/
structure Awoken (k k' : Kernel τ) : Prop where
  ticks : k'.ticks = k.ticks
  current : k'.current = k.current
  waketime : k'.waketime = k.waketime
  frame : k'.frame = k.frame
  status : ∀ u, k'.status u = k.status u ∨
    k.status u = .blocked ∧ k.Expired u ∧ k'.status u = .ready

theorem wakeLoop_awoken (hk : Kernel.wakeLoop fuel e k = .returned k') : Awoken k k' := by
  induction fuel generalizing e k with
  | zero => cases hk
  | succ m ih =>
      cases e with
      | head => cases hk
      | tail =>
          cases hk
          exact ⟨rfl, rfl, rfl, rfl, fun _ => .inl rfl⟩
      | sleepelem f =>
          rw [Kernel.wakeLoop] at hk
          split at hk
          · rename_i hexp
            split at hk
            · rename_i hblocked
              split at hk
              · cases hk
              · split at hk
                · cases hk
                · have hwoken := ih hk
                  refine ⟨hwoken.ticks, hwoken.current, hwoken.waketime, hwoken.frame, fun u => ?_⟩
                  have hu := hwoken.status u
                  by_cases huf : u = f
                  · subst huf
                    simp only [Function.update_self, reduceCtorEq, false_and, or_false] at hu
                    exact .inr ⟨hblocked, hexp, hu⟩
                  · simp only [Function.update_of_ne huf] at hu
                    exact hu
            · cases hk
          · split at hk
            · cases hk
            · exact ih hk

theorem timerInterrupt_awoken (hk : k.timerInterrupt fuel = .returned k') :
    Awoken { k with ticks := k.ticks + 1 } k' := by
  rw [Kernel.timerInterrupt] at hk
  split at hk
  · cases hk
  · exact wakeLoop_awoken hk

/-- Only the running thread is running, and a blocked thread is asleep in `timer_sleep`. -/
structure Placed (k : Kernel τ) : Prop where
  asleep : ∀ u, k.status u = .blocked → k.frame u = .asleep
  running : ∀ u, k.current = some u → k.status u = .running

theorem Placed.goto {f : Frame τ} (hk : Placed k) (hcurrent : k.current = some t) :
    Placed (k.goto t f) where
  asleep u hu := by
    have hut : u ≠ t := by
      rintro rfl
      rw [Kernel.goto, hk.running u hcurrent] at hu
      cases hu
    rw [Kernel.goto_of_ne k f hut]
    exact hk.asleep u hu
  running := hk.running

theorem Placed.timerSleep (hk : Placed k) (hcurrent : k.current = some t)
    (hs : k.timerSleep t = some k') : Placed k' := by
  have hgoto : ∀ f, Placed (k.goto t f) := fun f => hk.goto hcurrent
  unfold Kernel.timerSleep at hs
  split at hs
  case h_1 => cases hs
  case h_11 =>
    cases hs
    refine ⟨fun u hu => ?_, nofun⟩
    by_cases hut : u = t
    · subst hut
      exact Function.update_self ..
    · have hu : update k.status t .blocked u = .blocked := hu
      rw [Function.update_of_ne hut] at hu
      exact (Function.update_of_ne hut ..).trans (hk.asleep u hu)
  all_goals
    first
      | obtain ⟨_, _, rfl⟩ := Option.map_eq_some_iff.mp hs
      | cases hs
    exact ⟨(hgoto _).asleep, hk.running⟩

theorem yield_frame : k.yield.frame = k.frame := by
  unfold Kernel.yield
  split <;> rfl

theorem yield_status (hne : k.current ≠ some t) : k.yield.status t = k.status t := by
  unfold Kernel.yield
  split
  · rfl
  · rename_i u hu
    have htu : t ≠ u := by
      rintro rfl
      exact hne hu
    exact Function.update_of_ne htu ..

theorem Placed.yield (hk : Placed k) : Placed k.yield where
  asleep u hu := by
    rw [yield_frame]
    exact hk.asleep u (yield_blocked hu)
  running u hu := by
    unfold Kernel.yield at hu
    split at hu
    · rename_i hnone
      rw [hnone] at hu
      cases hu
    · cases hu

omit [DecidableEq τ] in
theorem Placed.awoken (hk : Placed k) (hw : Awoken k k') : Placed k' where
  asleep u hu := by
    rw [hw.frame]
    obtain hstatus | ⟨-, -, hstatus⟩ := hw.status u
    · exact hk.asleep u (hstatus ▸ hu)
    · rw [hstatus] at hu
      cases hu
  running u hu := by
    have hrunning := hk.running u (hw.current ▸ hu)
    obtain hstatus | ⟨hblocked, -, -⟩ := hw.status u
    · exact hstatus.trans hrunning
    · rw [hrunning] at hblocked
      cases hblocked

/-- **What one step preserves**, in any run. -/
theorem Placed.step (hk : Placed k) (hs : step a k = some k') : Placed k' := by
  cases a with
  | call n =>
      obtain ⟨t, hcurrent, hs⟩ := Option.bind_eq_some_iff.mp hs
      split at hs
      · cases hs
        exact hk.goto hcurrent
      · cases hs
  | next =>
      obtain ⟨t, hcurrent, hs⟩ := Option.bind_eq_some_iff.mp hs
      exact hk.timerSleep hcurrent hs
  | yield =>
      obtain ⟨t, -, hs⟩ := Option.bind_eq_some_iff.mp hs
      split at hs
      · cases hs
        exact hk.yield
      · cases hs
  | schedule u =>
      rw [Lab1.step] at hs
      split at hs
      · cases hs
        refine ⟨fun v hv => hk.asleep v ?_, fun v hv => ?_⟩
        · have hv : update k.status u .running v = .blocked := hv
          by_cases hvu : v = u
          · subst hvu
            rw [Function.update_self] at hv
            cases hv
          · rwa [Function.update_of_ne hvu] at hv
        · cases hv
          exact Function.update_self ..
      · cases hs
  | tick fuel preempt =>
      rw [Lab1.step] at hs
      split at hs
      · rename_i k₁ hreturned
        have hplaced : Placed k₁ := by
          apply Placed.awoken _ (timerInterrupt_awoken hreturned)
          exact ⟨hk.asleep, hk.running⟩
        cases hs
        cases preempt with
        | false => exact hplaced
        | true => exact hplaced.yield
      · cases hs

theorem init_placed : Placed (init : Kernel τ) where
  asleep := nofun
  running := nofun

theorem reachable_placed (hr : Reachable step Anything init k) : Placed k :=
  hr.invariant init_placed fun _ _ _ _ hk _ hs => hk.step hs

/-! ### A call of `timer_sleep` -/

/-- The wake time, once the thread has computed it. -/
def Kernel.due (k : Kernel τ) (t : τ) : Option Int32 :=
  match k.frame t with
  | .outside | .called _ => none
  | .added w => some w
  | _ => some (k.waketime t)

/-- Where the call stands after `m` ticks. -/
structure Pending (t : τ) (c n : Int64) (m : ℕ) (k : Kernel τ) : Prop where
  argument : ∀ n', k.frame t = .called n' → n' = n
  due : ∀ w, k.due t = some w → w = (c + n).toInt32 ∧ ∃ j ≤ m, k.ticks = c + .ofNat j

omit [DecidableEq τ] in
theorem Pending.congr (hk : Pending t c n m k) (hticks : k'.ticks = k.ticks)
    (hframe : k'.frame t = k.frame t) (hwaketime : k'.waketime t = k.waketime t) :
    Pending t c n m k' := by
  refine ⟨fun n' hn => hk.argument n' (hframe ▸ hn), fun w hw => ?_⟩
  rw [Kernel.due, hframe, hwaketime] at hw
  rw [hticks]
  exact hk.due w hw

theorem Pending.timerSleep (hk : Pending t c n m k) (hload : (∃ n, k.frame t = .called n) → k.ticks = c)
    (hs : k.timerSleep t = some k') (hinside : k'.frame t ≠ .outside) : Pending t c n m k' := by
  have hself : ∀ f, (k.goto t f).frame t = f := k.goto_self t
  unfold Kernel.timerSleep at hs
  cases hf : k.frame t with
  | outside =>
      rw [hf] at hs
      cases hs
  | called n' =>
      rw [hf] at hs
      cases hs
      obtain rfl := hk.argument n' hf
      obtain rfl := hload ⟨n', hf⟩
      refine ⟨fun n' hn => ?_, fun w hw => ?_⟩
      · rw [hself] at hn
        cases hn
      · simp only [Kernel.due, hself] at hw
        cases hw
        exact ⟨rfl, 0, Nat.zero_le m, by simp [Kernel.goto]⟩
  | added w =>
      rw [hf] at hs
      cases hs
      refine ⟨fun n' hn => ?_, fun w' hw => ?_⟩
      · rw [hself] at hn
        cases hn
      · simp only [Kernel.due, hself, Function.update_self] at hw
        cases hw
        exact hk.due w (by rw [Kernel.due, hf])
  | asleep =>
      rw [hf] at hs
      cases hs
      exact absurd (hself _) hinside
  | _ =>
      have hdue : k.due t = some (k.waketime t) := by rw [Kernel.due, hf]
      rw [hf] at hs
      first
        | obtain ⟨_, _, rfl⟩ := Option.map_eq_some_iff.mp hs
        | cases hs
      refine ⟨fun n' hn => ?_, fun w' hw => ?_⟩
      · rw [hself] at hn
        cases hn
      · simp only [Kernel.due, hself] at hw
        cases hw
        exact hk.due _ hdue

theorem Pending.step (hk : Pending t c n m k) (hinside : k.frame t ≠ .outside)
    (hload : Loads t (k, a) → k.ticks = c) (hs : step a k = some k') (hinside' : k'.frame t ≠ .outside) :
    Pending t c n (m + if a.isTick then 1 else 0) k' := by
  cases a with
  | call n' =>
      obtain ⟨u, -, hs⟩ := Option.bind_eq_some_iff.mp hs
      split at hs
      · rename_i hf
        cases hs
        have htu : t ≠ u := by
          rintro rfl
          exact hinside hf
        exact hk.congr rfl (k.goto_of_ne _ htu) rfl
      · cases hs
  | next =>
      obtain ⟨u, hcurrent, hs⟩ := Option.bind_eq_some_iff.mp hs
      by_cases htu : t = u
      · subst htu
        exact hk.timerSleep (fun hf => hload ⟨rfl, hcurrent, hf⟩) hs hinside'
      · have hother : k'.ticks = k.ticks ∧ k'.frame t = k.frame t ∧ k'.waketime t = k.waketime t := by
          unfold Kernel.timerSleep at hs
          split at hs
          case h_1 => cases hs
          case h_3 =>
            cases hs
            exact ⟨rfl, k.goto_of_ne _ htu, Function.update_of_ne htu ..⟩
          all_goals
            first
              | obtain ⟨_, _, rfl⟩ := Option.map_eq_some_iff.mp hs
              | cases hs
            exact ⟨rfl, k.goto_of_ne _ htu, rfl⟩
        exact hk.congr hother.1 hother.2.1 hother.2.2
  | yield =>
      obtain ⟨u, -, hs⟩ := Option.bind_eq_some_iff.mp hs
      split at hs
      · cases hs
        exact hk.congr yield_ticks.1 (congrFun yield_frame t) (congrFun yield_ticks.2 t)
      · cases hs
  | schedule u =>
      rw [Lab1.step] at hs
      split at hs
      · cases hs
        exact hk.congr rfl rfl rfl
      · cases hs
  | tick fuel preempt =>
      rw [Lab1.step] at hs
      split at hs
      · rename_i k₁ hreturned
        have hawoken := timerInterrupt_awoken hreturned
        have hpending : Pending t c n (m + 1) k₁ := by
          refine ⟨fun n' hn => hk.argument n' (hawoken.frame ▸ hn), fun w hw => ?_⟩
          rw [Kernel.due, hawoken.frame, hawoken.waketime] at hw
          obtain ⟨hw, j, hj, hticks⟩ := hk.due w hw
          refine ⟨hw, j + 1, Nat.succ_le_succ hj, ?_⟩
          rw [hawoken.ticks, Int64.ofNat_add, ← Int64.add_assoc, ← hticks]
          rfl
        cases hs
        cases preempt with
        | false => exact hpending
        | true =>
            exact hpending.congr yield_ticks.1 (congrFun yield_frame t) (congrFun yield_ticks.2 t)
      · cases hs

namespace Call

theorem placed (hk : Call t c n h k) : Placed k := by
  obtain ⟨k₀, k₁, hr, -, hs, hrun⟩ := hk.run
  exact reachable_placed ((hr.tail trivial hs).run (fun _ _ => id) hrun)

theorem tail (hk : Call t c n h k) (hinside : k.frame t ≠ .outside)
    (hload : Loads t (k, a) → k.ticks = c) (hs : step a k = some k') :
    Call t c n ((k, a) :: h) k' where
  run := by
    obtain ⟨k₀, k₁, hr, hcurrent, hs₀, hrun⟩ := hk.run
    exact ⟨k₀, k₁, hr, hcurrent, hs₀, hrun.cons trivial hs⟩
  inside := List.forall_mem_cons.mpr ⟨hinside, hk.inside⟩
  count := List.forall_mem_cons.mpr ⟨hload, hk.count⟩

/-- A whole run of the call, as long as the call has not returned. -/
theorem pending (hk : Call t c n h k) (hinside : k.frame t ≠ .outside) :
    Pending t c n (ticksIn h) k := by
  obtain ⟨k₀, k₁, hr, hcurrent, hs₀, hrun⟩ := hk.run
  have hstays := hk.inside
  have hcount := hk.count
  clear hk
  induction hrun with
  | nil =>
      rw [Lab1.step, hcurrent, Option.bind_some] at hs₀
      split at hs₀
      · cases hs₀
        refine ⟨fun n' hn => ?_, fun w hw => ?_⟩
        · rw [Kernel.goto_self] at hn
          cases hn
          rfl
        · simp only [Kernel.due, Kernel.goto_self] at hw
          cases hw
      · cases hs₀
  | @cons h k₁ k' a hrun _ hs ih =>
      rw [List.forall_mem_cons] at hstays hcount
      have hcons : ticksIn ((k₁, a) :: h) = ticksIn h + if a.isTick then 1 else 0 :=
        List.countP_cons ..
      rw [hcons]
      exact (ih hstays.1 hstays.2 hcount.2).step hstays.1 hcount.1 hs hinside

theorem woken {preempt : Bool} (hk : Call t c n h k) (hblocked : k.status t = .blocked)
    (hs : step (.tick fuel preempt) k = some k') (hready : k'.status t = .ready) :
    ∃ j ≤ ticksIn h, (c + n).toInt32.toInt64 ≤ c + .ofNat j + 1 := by
  have hasleep := hk.placed.asleep t hblocked
  have hpending := hk.pending (by rw [hasleep]; nofun)
  obtain ⟨hw, j, hj, hticks⟩ := hpending.due (k.waketime t) (by rw [Kernel.due, hasleep])
  rw [Lab1.step] at hs
  split at hs
  · rename_i k₁ hreturned
    have hawoken := timerInterrupt_awoken hreturned
    refine ⟨j, hj, ?_⟩
    obtain hstatus | ⟨-, hexp, -⟩ := hawoken.status t
    · -- the thread that yields at the end of the interrupt is another one
      have hblocked₁ : k₁.status t = .blocked := hstatus.trans hblocked
      have hcurrent : k₁.current ≠ some t := by
        intro hcurrent
        rw [hk.placed.running t (hawoken.current ▸ hcurrent)] at hblocked
        cases hblocked
      have hstays : k'.status t = .blocked := by
        cases hs
        cases preempt with
        | false => exact hblocked₁
        | true => exact (yield_status hcurrent).trans hblocked₁
      rw [hready] at hstays
      cases hstays
    · rw [← hw, ← hticks]
      exact hexp
  · cases hs

end Call

/-! ### The condition -/

theorem toInt_add_ofNat {j : ℕ} (hj : c.toInt + j < 2 ^ 63) :
    (c + .ofNat j).toInt = c.toInt + j := by
  have hlow := Int64.le_toInt c
  rw [Int64.toInt_add, Int64.toInt_ofNat', show Int64.size = 2 ^ 64 from rfl, Int.add_bmod_bmod]
  exact Int.bmod_eq_of_le_mul_two (by omega) (by omega)

theorem toInt_stored (hn : 0 < n.toInt) (hmax : c.toInt + n.toInt < 2 ^ 63) :
    (c + n).toInt32.toInt64.toInt = (c.toInt + n.toInt).bmod (2 ^ 32) := by
  have hlow := Int64.le_toInt c
  rw [Int32.toInt_toInt64, Int64.toInt_toInt32, Int64.toInt_add]
  exact congrArg (Int.bmod · (2 ^ 32)) (Int.bmod_eq_of_le_mul_two (by omega) (by omega))

/-- A sum that fits in 32 bits, or is below them, is not stored as less. -/
theorem notEarly_of_fits (hn : 0 < n.toInt) (hmax : c.toInt + n.toInt < 2 ^ 63)
    (hfits : c.toInt + n.toInt < 2 ^ 31) : NotEarly t c n := by
  intro h k fuel preempt k' hcall hblocked hs hready
  obtain ⟨j, hj, hexp⟩ := hcall.woken hblocked hs hready
  by_contra hearly
  have hsum : c + .ofNat j + 1 = c + .ofNat (j + 1) := by
    rw [Int64.ofNat_add, ← Int64.add_assoc]
    rfl
  rw [hsum, Int64.le_iff_toInt_le, toInt_stored hn hmax,
    toInt_add_ofNat (by push_cast; omega)] at hexp
  push_cast at hexp
  rw [Int.bmod_def] at hexp
  omega

/-! ### An early tick -/

theorem idle_run (hholds : Holds k.sleepList l) :
    ∀ m : ℕ, (∀ i ≤ m, ∀ u ∈ l, i ≠ 0 → k.ticks + .ofNat i < (k.waketime u).toInt64) →
      ∃ h k', Run step Anything k h k' ∧ ticksIn h = m ∧ (∀ x ∈ h, x.2.isTick ∧ x.1.frame = k.frame) ∧
        Holds k'.sleepList l ∧ k'.ticks = k.ticks + .ofNat m ∧ k'.current = k.current ∧
        k'.status = k.status ∧ k'.waketime = k.waketime ∧ k'.frame = k.frame
  | 0, _ => ⟨[], k, .nil, rfl, nofun, hholds, by simp, rfl, rfl, rfl, rfl⟩
  | m + 1, hlate => by
      obtain ⟨h, k₁, hrun, hcount, hall, hholds₁, hticks, hcurrent, hstatus, hwaketime, hframe⟩ :=
        idle_run hholds m fun i hi => hlate i (Nat.le_succ_of_le hi)
      have hsum : k₁.ticks + 1 = k.ticks + .ofNat (m + 1) := by
        rw [hticks, Int64.ofNat_add, ← Int64.add_assoc]
        rfl
      have hlate₁ : ∀ u ∈ l, ¬ (k₁.waketime u).toInt64 ≤ k₁.ticks + 1 := by
        intro u hu
        rw [hsum, hwaketime, Int64.not_le]
        exact hlate (m + 1) (Nat.le_refl _) u hu m.succ_ne_zero
      obtain ⟨hfuel, -⟩ | ⟨-, k₂, hreturned, hwoken⟩ :=
        timerInterrupt_cases hholds₁ (fun u hu hexp => absurd hexp (hlate₁ u hu)) (l.length + 1)
      · omega
      have hs : step (.tick (l.length + 1) false) k₁ = some k₂ := by
        simp only [step, hreturned, Bool.false_eq_true, if_false]
      refine ⟨(k₁, .tick (l.length + 1) false) :: h, k₂, hrun.cons trivial hs, ?_, ?_, ?_,
        hwoken.ticks.trans hsum, hwoken.current.trans hcurrent, ?_,
        hwoken.waketime.trans hwaketime, hwoken.frame.trans hframe⟩
      · rw [ticksIn, List.countP_cons, ← ticksIn, hcount]
        rfl
      · exact List.forall_mem_cons.mpr ⟨⟨rfl, hframe⟩, hall⟩
      · have hfilter : (l.filter fun u => ¬ Kernel.Expired { k₁ with ticks := k₁.ticks + 1 } u) = l :=
          List.filter_eq_self.mpr fun u hu => decide_eq_true (hlate₁ u hu)
        have hkept := hwoken.holds
        rwa [hfilter] at hkept
      · funext u
        rw [hwoken.status u, if_neg fun hu => hlate₁ u hu.1 hu.2]
        exact congrFun hstatus u

theorem Call.idle {h' : List (Kernel τ × Action τ)} (hk : Call t c n h k)
    (hinside : k.frame t ≠ .outside) (hrun : Run step Anything k h' k')
    (hall : ∀ x ∈ h', x.2.isTick ∧ x.1.frame = k.frame) : Call t c n (h' ++ h) k' := by
  induction hrun with
  | nil => exact hk
  | @cons h' k₁ k₂ a _ _ hs ih =>
      rw [List.forall_mem_cons] at hall
      obtain ⟨⟨htick, hframe⟩, hall⟩ := hall
      apply (ih hall).tail (by rwa [show k₁.frame = k.frame from hframe]) _ hs
      rintro ⟨rfl, -⟩
      cases htick

theorem Call.next (hk : Call t c n h k) (hcurrent : k.current = some t) (hinside : k.frame t ≠ .outside)
    (hload : (∃ n, k.frame t = .called n) → k.ticks = c) (hs : k.timerSleep t = some k') :
    Call t c n ((k, .next) :: h) k' := by
  apply hk.tail hinside (fun hl => hload hl.2.2)
  rw [step, hcurrent, Option.bind_some]
  exact hs

/-- What the thread `t` sees in `timer_sleep`: where it is, the list and its wake time. -/
structure View (t : τ) (c : Int64) (f : Frame τ) (m : Links (Elem τ)) (w : Int32) (k : Kernel τ) :
    Prop where
  current : k.current = some t
  ticks : k.ticks = c
  frame : k.frame t = f
  sleepList : k.sleepList = m
  waketime : k.waketime t = w

/-- With no tick since its call, the thread has come to `f`. -/
def Comes (t : τ) (c n : Int64) (f : Frame τ) (m : Links (Elem τ)) (w : Int32) : Prop :=
  ∃ h k, Call t c n h k ∧ ticksIn h = 0 ∧ View t c f m w k

theorem Comes.next {f f' : Frame τ} {m m' : Links (Elem τ)} {w w' : Int32} (hg : Comes t c n f m w)
    (hf : f ≠ .outside)
    (hs : ∀ k, View t c f m w k → ∃ k', k.timerSleep t = some k' ∧ View t c f' m' w' k') :
    Comes t c n f' m' w' := by
  obtain ⟨h, k, hcall, hcount, hview⟩ := hg
  obtain ⟨k', hk', hview'⟩ := hs k hview
  refine ⟨(k, .next) :: h, k', ?_, hcount, hview'⟩
  exact hcall.next hview.current (by rwa [hview.frame]) (fun _ => hview.ticks) hk'

theorem Comes.store {m : Links (Elem τ)} {w : Int32} {before : Elem τ}
    (hg : Comes t c n (.called n) m w) (hbegin : m.next .head = some before) :
    Comes t c n (.inserting before) m (c + n).toInt32 := by
  have hadded : Comes t c n (.added (c + n).toInt32) m w := by
    apply hg.next nofun
    rintro k ⟨hcurrent, hticks, hf, hm, hw⟩
    simp only [Kernel.timerSleep, hf, hticks]
    exact ⟨_, rfl, hcurrent, hticks, Kernel.goto_self .., hm, hw⟩
  have hstored : Comes t c n .stored m (c + n).toInt32 := by
    apply hadded.next nofun
    rintro k ⟨hcurrent, hticks, hf, hm, -⟩
    simp only [Kernel.timerSleep, hf]
    exact ⟨_, rfl, hcurrent, hticks, Kernel.goto_self .., hm, Function.update_self ..⟩
  apply hstored.next nofun
  rintro k ⟨hcurrent, hticks, hf, hm, hw⟩
  simp only [Kernel.timerSleep, hf, hm, hbegin, Option.map_some]
  exact ⟨_, rfl, hcurrent, hticks, Kernel.goto_self .., hm, hw⟩

theorem Comes.insert {m : Links (Elem τ)} {w : Int32} {before p : Elem τ}
    (hg : Comes t c n (.inserting before) m w) (hp : m.prev before = some p)
    (hbefore : before ≠ .sleepelem t) :
    Comes t c n .inserted (((((m.setPrev (.sleepelem t) p).setNext (.sleepelem t) before).setNext p
      (.sleepelem t)).setPrev before (.sleepelem t))) w := by
  let m₁ := (m.setPrev (.sleepelem t) p).setNext (.sleepelem t) before
  have hp₁ : m₁.prev before = some p := by
    rw [Links.setNext_prev, Links.setPrev_prev_of_ne hbefore]
    exact hp
  have hloaded : Comes t c n (.prevLoaded before p) m w := by
    apply hg.next nofun
    rintro k ⟨hcurrent, hticks, hf, hm, hw⟩
    simp only [Kernel.timerSleep, hf, hm, hp, Option.map_some]
    exact ⟨_, rfl, hcurrent, hticks, Kernel.goto_self .., hm, hw⟩
  have hprev : Comes t c n (.prevStored before) (m.setPrev (.sleepelem t) p) w := by
    apply hloaded.next nofun
    rintro k ⟨hcurrent, hticks, hf, rfl, hw⟩
    simp only [Kernel.timerSleep, hf]
    exact ⟨_, rfl, hcurrent, hticks, Kernel.goto_self .., rfl, hw⟩
  have hnext : Comes t c n (.nextStored before) m₁ w := by
    apply hprev.next nofun
    rintro k ⟨hcurrent, hticks, hf, hm, hw⟩
    simp only [Kernel.timerSleep, hf, hm]
    exact ⟨_, rfl, hcurrent, hticks, Kernel.goto_self .., rfl, hw⟩
  have hreloaded : Comes t c n (.prevReloaded before p) m₁ w := by
    apply hnext.next nofun
    rintro k ⟨hcurrent, hticks, hf, hm, hw⟩
    simp only [Kernel.timerSleep, hf, hm, hp₁, Option.map_some]
    exact ⟨_, rfl, hcurrent, hticks, Kernel.goto_self .., hm, hw⟩
  have hlinked : Comes t c n (.linked before) (m₁.setNext p (.sleepelem t)) w := by
    apply hreloaded.next nofun
    rintro k ⟨hcurrent, hticks, hf, hm, hw⟩
    simp only [Kernel.timerSleep, hf, hm]
    exact ⟨_, rfl, hcurrent, hticks, Kernel.goto_self .., rfl, hw⟩
  apply hlinked.next nofun
  rintro k ⟨hcurrent, hticks, hf, hm, hw⟩
  simp only [Kernel.timerSleep, hf, hm]
  exact ⟨_, rfl, hcurrent, hticks, Kernel.goto_self .., rfl, hw⟩

/-- A thread that has called `timer_sleep`, with `sleep_list` empty, may fall asleep before the next
tick. -/
theorem Comes.sleep {m : Links (Elem τ)} {w : Int32} (hg : Comes t c n (.called n) m w)
    (hholds : Holds m []) :
    ∃ h k, Call t c n h k ∧ ticksIn h = 0 ∧ k.ticks = c ∧ k.status t = .blocked ∧
      k.frame t = .asleep ∧ k.waketime t = (c + n).toInt32 ∧ Holds k.sleepList [t] := by
  obtain ⟨h, k, hcall, hcount, hview⟩ := (hg.store hholds.2.1).insert hholds.2.2 nofun
  have hs : k.timerSleep t = some { k.goto t .asleep with
      status := update k.status t .blocked, current := none } := by
    rw [Kernel.timerSleep, hview.frame]
  refine ⟨(k, .next) :: h, _, hcall.next hview.current (by rw [hview.frame]; nofun)
    (fun _ => hview.ticks) hs, hcount, hview.ticks, Function.update_self .., Kernel.goto_self ..,
    hview.waketime, ?_⟩
  change Holds k.sleepList [t]
  rw [hview.sleepList]
  have hne : (Elem.tail : Elem τ) ≠ .sleepelem t := nofun
  have hholds₁ : Holds ((m.setPrev (.sleepelem t) .head).setNext (.sleepelem t) .tail) [] := by
    apply hholds.congr (List.not_mem_nil (a := t))
    intro e he
    exact ⟨Links.setNext_next_of_ne he, Links.setPrev_prev_of_ne he⟩
  have hprev : ((m.setPrev (.sleepelem t) .head).setNext (.sleepelem t) .tail).prev .tail =
      some .head := by
    rw [Links.setNext_prev, Links.setPrev_prev_of_ne hne]
    exact hholds.2.2
  obtain ⟨-, l, hl, hinserted⟩ := hholds₁.insert (List.not_mem_nil (a := t)) (.inl rfl)
    (Links.setNext_next_self ..) (Links.setPrev_prev_self ..) hprev
  obtain rfl := List.perm_singleton.mp hl
  exact hinserted

/-- Every tick count is the current one in some run, with the thread about to call `timer_sleep`. -/
theorem exists_comes (t : τ) (c n : Int64) :
    ∃ m w, Comes t c n (.called n) m w ∧ Holds m [] := by
  let k : Kernel τ :=
    { init with status := update (init : Kernel τ).status t .running, current := some t }
  have hr : Reachable step Anything init k := by
    refine Reachable.refl.tail (a := .schedule t) trivial ?_
    rw [step, if_pos ⟨rfl, rfl⟩]
  obtain ⟨h, k₁, hrun, -, -, hholds, hticks, hcurrent, -, -, hframe⟩ :=
    idle_run (k := k) (l := []) ⟨List.nodup_nil, rfl, rfl⟩ c.toBitVec.toNat (by simp)
  have hc : k₁.ticks = c := by
    rw [hticks, Int64.ofNat_bitVecToNat, Int64.ofBitVec_toBitVec]
    exact Int64.zero_add c
  have houtside : k₁.frame t = .outside := congrFun hframe t
  have hs : step (.call n) k₁ = some (k₁.goto t (.called n)) := by
    simp only [step, hcurrent, k, Option.bind_some, houtside]
  refine ⟨k₁.sleepList, k₁.waketime t, ⟨[], k₁.goto t (.called n), ⟨?_, by simp, by simp⟩, rfl,
    hcurrent, hc, Kernel.goto_self .., rfl, rfl⟩, hholds⟩
  exact ⟨k₁, _, hr.run (fun _ _ => id) hrun, hcurrent, hs, .nil⟩

/-- A sum beyond 32 bits is stored as less, and a tick comes to that first. -/
theorem not_notEarly (hn : 1 < n.toInt) (hmax : c.toInt + n.toInt < 2 ^ 63)
    (hwraps : 2 ^ 31 ≤ c.toInt + n.toInt) : ¬ NotEarly t c n := by
  intro hnot
  obtain ⟨m, w, hcomes, hholds⟩ := exists_comes t c n
  obtain ⟨h, k, hcall, hcount, hticks, hblocked, hasleep, hwaketime, hholds⟩ := hcomes.sleep hholds
  have hstored := toInt_stored (by omega) hmax
  -- the number of ticks up to the one that wakes the thread
  let j : ℕ := ((c.toInt + n.toInt).bmod (2 ^ 32) - c.toInt - 1).toNat
  have hj : c.toInt + j + 1 < c.toInt + n.toInt ∧
      (c.toInt + n.toInt).bmod (2 ^ 32) ≤ c.toInt + j + 1 ∧
      (0 < j → c.toInt + j < (c.toInt + n.toInt).bmod (2 ^ 32)) := by
    have hless : (c.toInt + n.toInt).bmod (2 ^ 32) < c.toInt + n.toInt := by
      rw [Int.bmod_def]
      omega
    omega
  have hlate : ∀ i ≤ j, ∀ u ∈ [t], i ≠ 0 → k.ticks + .ofNat i < (k.waketime u).toInt64 := by
    intro i hi u hu hi₀
    rw [List.mem_singleton.mp hu, hticks, hwaketime, Int64.lt_iff_toInt_lt, hstored,
      toInt_add_ofNat (by omega)]
    omega
  obtain ⟨h', k₁, hrun, hcount', hall, hholds₁, hticks₁, hcurrent₁, hstatus₁, hwaketime₁, -⟩ :=
    idle_run hholds j hlate
  have hcall₁ : Call t c n (h' ++ h) k₁ := hcall.idle (by rw [hasleep]; nofun) hrun hall
  have hexp : (k₁.waketime t).toInt64 ≤ k₁.ticks + 1 := by
    have hsum : k₁.ticks + 1 = c + .ofNat (j + 1) := by
      rw [hticks₁, hticks, Int64.ofNat_add, ← Int64.add_assoc]
      rfl
    rw [hsum, hwaketime₁, hwaketime, Int64.le_iff_toInt_le, hstored,
      toInt_add_ofNat (by omega)]
    omega
  have hblocked₁ : ∀ u ∈ [t], (k₁.waketime u).toInt64 ≤ k₁.ticks + 1 → k₁.status u = .blocked := by
    intro u hu _
    rw [List.mem_singleton.mp hu, hstatus₁]
    exact hblocked
  obtain ⟨hfuel, -⟩ | ⟨-, k₂, hreturned, hwoken⟩ := timerInterrupt_cases hholds₁ hblocked₁ 2
  · exact absurd hfuel (Nat.not_succ_le_self 1)
  · have hs : step (.tick 2 false) k₁ = some k₂ := by
      simp only [step, hreturned, Bool.false_eq_true, if_false]
    have hready : k₂.status t = .ready := by
      rw [hwoken.status t, if_pos ⟨List.mem_singleton_self t, hexp⟩]
    have hearly := hnot _ k₁ 2 false k₂ hcall₁ (hblocked₁ t (List.mem_singleton_self t) hexp) hs hready
    have hsum : ticksIn (h' ++ h) = j := by
      rw [ticksIn, List.countP_append, ← ticksIn, ← ticksIn, hcount, hcount', Nat.add_zero]
    rw [hsum] at hearly
    omega

/-- **A thread is not woken early** exactly when the tick at which it is due fits in 32 bits, or is
the next one. -/
theorem timer_sleep_not_early_iff (t : τ) (c n : Int64) (hn : 0 < n.toInt)
    (hmax : c.toInt + n.toInt < 2 ^ 63) :
    NotEarly t c n ↔ n = 1 ∨ c.toInt + n.toInt < 2 ^ 31 := by
  constructor
  · intro hnot
    by_contra hcond
    rw [not_or, Int.not_lt] at hcond
    have hne : n.toInt ≠ 1 := fun h => hcond.1 (Int64.toInt_inj.mp h)
    exact not_notEarly (by omega) hmax hcond.2 hnot
  · rintro (rfl | hfits)
    · intro h k fuel preempt k' _ _ _ _
      rw [Int64.toInt_one]
      omega
    · exact notEarly_of_fits hn hmax hfits

/-- A sleep of `2 ^ 31 + 1` ticks from the first tick on is over at the next one. -/
theorem timer_sleep_early : ¬ ∀ (t : Unit) (c n : Int64), 0 < n.toInt → c.toInt + n.toInt < 2 ^ 63 →
    NotEarly t c n := by
  intro h
  exact not_notEarly (c := 0) (n := 2 ^ 31 + 1) (by decide) (by decide) (by decide)
    (h () 0 (2 ^ 31 + 1) (by decide) (by decide))

/-- A sleep of ten ticks lasts. -/
theorem timer_sleep_ten_not_early :
    NotEarly () 0 10 ↔ (10 : Int64) = 1 ∨ (0 : Int64).toInt + (10 : Int64).toInt < 2 ^ 31 :=
  timer_sleep_not_early_iff () 0 10 (by decide) (by decide)

end CSE130.Lab1
