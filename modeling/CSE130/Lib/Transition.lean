import Mathlib.Data.List.Basic
import Mathlib.Logic.Function.Basic

/-! # Runs of a partial step function

`Run step G s₀ h s`: the system started in `s₀` is in `s` after the history `h`.  A history
lists the state before every step together with the action taken there, the latest first; `G`
is a guard that every step of the run has met.  A step function is partial: `none` says that
the action cannot be taken, or that taking it stops the system.

Invariants come in two forms: of a state (`Reachable.invariant`) and of a state together with
the history that led to it (`Run.invariant`), for counts of past events. -/

namespace CSE130.Transition

variable {σ α : Type*}

/-- The state `s` is reached from `s₀` with history `h`, every step meeting `G`. -/
inductive Run (step : α → σ → Option σ) (G : σ → α → Prop) (s₀ : σ) :
    List (σ × α) → σ → Prop
  | nil : Run step G s₀ [] s₀
  | cons {h : List (σ × α)} {s s' : σ} {a : α} :
      Run step G s₀ h s → G s a → step a s = some s' → Run step G s₀ ((s, a) :: h) s'

/-- Some run whose steps all meet `G` leads from `s₀` to `s`. -/
def Reachable (step : α → σ → Option σ) (G : σ → α → Prop) (s₀ s : σ) : Prop :=
  ∃ h, Run step G s₀ h s

variable {step : α → σ → Option σ} {G G' : σ → α → Prop} {s₀ s s' : σ} {a : α}
  {h : List (σ × α)}

theorem Run.mono (hG : ∀ s a, G s a → G' s a) (hr : Run step G s₀ h s) :
    Run step G' s₀ h s := by
  induction hr with
  | nil => exact .nil
  | cons _ hg hs ih => exact .cons ih (hG _ _ hg) hs

/-- The guard may be justified by what is known of the reachable states. -/
theorem Run.mono_of_reachable (hG : ∀ s a, Reachable step G s₀ s → G s a → G' s a)
    (hr : Run step G s₀ h s) : Run step G' s₀ h s := by
  induction hr with
  | nil => exact .nil
  | cons hr hg hs ih => exact .cons ih (hG _ _ ⟨_, hr⟩ hg) hs

/-- **Invariants of a run**: what holds at the start with the empty history, and is kept by
every guarded step, holds after every run. -/
theorem Run.invariant {I : List (σ × α) → σ → Prop} (h₀ : I [] s₀)
    (hstep : ∀ h s a s', Run step G s₀ h s → I h s → G s a → step a s = some s' →
      I ((s, a) :: h) s') (hr : Run step G s₀ h s) : I h s := by
  induction hr with
  | nil => exact h₀
  | cons hr hg hs ih => exact hstep _ _ _ _ hr ih hg hs

theorem Run.of_mem (hr : Run step G s₀ h s) {x : σ × α} (hx : x ∈ h) :
    (∃ h', Run step G s₀ h' x.1) ∧ G x.1 x.2 ∧ ∃ s', step x.2 x.1 = some s' := by
  induction hr with
  | nil => cases hx
  | cons hr hg hs ih =>
      rcases List.mem_cons.mp hx with rfl | hx
      · exact ⟨⟨_, hr⟩, hg, _, hs⟩
      · exact ih hx

theorem Run.guard (hr : Run step G s₀ h s) (hg : ∀ x ∈ h, G' x.1 x.2) : Run step G' s₀ h s := by
  induction hr with
  | nil => exact .nil
  | cons _ _ hs ih =>
      exact .cons (ih fun x hx => hg x (List.mem_cons_of_mem _ hx)) (hg _ List.mem_cons_self) hs

namespace Reachable

theorem refl : Reachable step G s₀ s₀ := ⟨[], .nil⟩

theorem tail (hr : Reachable step G s₀ s) (hg : G s a) (hs : step a s = some s') :
    Reachable step G s₀ s' := by
  obtain ⟨h, hr⟩ := hr
  exact ⟨_, hr.cons hg hs⟩

theorem run (hr : Reachable step G s₀ s) (hG : ∀ s a, G' s a → G s a)
    (h' : Run step G' s h s') : Reachable step G s₀ s' := by
  induction h' with
  | nil => exact hr
  | cons _ hg hs ih => exact ih.tail (hG _ _ hg) hs

/-- **Invariants of a state.** -/
theorem invariant {I : σ → Prop} (h₀ : I s₀)
    (hstep : ∀ s a s', Reachable step G s₀ s → I s → G s a → step a s = some s' → I s')
    (hr : Reachable step G s₀ s) : I s := by
  obtain ⟨h, hr⟩ := hr
  exact hr.invariant (I := fun _ s => I s) h₀
    (fun h s a s' hr hi hg hs => hstep s a s' ⟨h, hr⟩ hi hg hs)

end Reachable

/-! ### Executing a list of actions -/

/-- Take the actions of a list in turn. -/
def execute (step : α → σ → Option σ) : List α → σ → Option σ
  | [], s => some s
  | a :: as, s => (step a s).bind (execute step as)

theorem execute_concat (a : α) : ∀ (as : List α) (s : σ),
    execute step (as ++ [a]) s = (execute step as s).bind (step a)
  | [], s => by simp [execute]
  | b :: as, s => by
      rw [List.cons_append, execute, execute, Option.bind_assoc]
      exact congrArg _ (funext (execute_concat a as))

theorem execute_reachable : ∀ {as : List α} {s s' : σ}, (∀ s, ∀ a ∈ as, G s a) →
    Reachable step G s₀ s → execute step as s = some s' → Reachable step G s₀ s'
  | [], s, s', _, hr, h => by
      simp only [execute, Option.some.injEq] at h
      exact h ▸ hr
  | a :: as, s, s', hG, hr, h => by
      simp only [execute, Option.bind_eq_some_iff] at h
      obtain ⟨t, ht, h⟩ := h
      exact execute_reachable (fun s b hb => hG s b (List.mem_cons_of_mem a hb))
        (hr.tail (hG s a List.mem_cons_self) ht) h

/-- The history of `execute`. -/
def trace (step : α → σ → Option σ) : List α → σ → List (σ × α)
  | [], _ => []
  | a :: as, s => ((step a s).map (trace step as)).getD [] ++ [(s, a)]

theorem execute_run : ∀ {as : List α} {h : List (σ × α)} {s s' : σ},
    (∀ s, ∀ a ∈ as, G s a) → Run step G s₀ h s → execute step as s = some s' →
    Run step G s₀ (trace step as s ++ h) s'
  | [], h, s, s', _, hr, he => by
      simp only [execute, Option.some.injEq] at he
      exact he ▸ hr
  | a :: as, h, s, s', hG, hr, he => by
      simp only [execute, Option.bind_eq_some_iff] at he
      obtain ⟨t, ht, he⟩ := he
      have hcons := hr.cons (hG s a List.mem_cons_self) ht
      have := execute_run (fun s b hb => hG s b (List.mem_cons_of_mem a hb)) hcons he
      simpa [trace, ht] using this

/-- Take a step only if the test `g` succeeds. -/
def checked (g : σ → α → Bool) (step : α → σ → Option σ) (a : α) (s : σ) : Option σ :=
  if g s a then step a s else none

theorem Run.of_checked {g : σ → α → Bool} (hr : Run (checked g step) G s₀ h s) :
    Run step (fun s a => g s a = true ∧ G s a) s₀ h s := by
  induction hr with
  | nil => exact .nil
  | cons _ hG hs ih =>
      unfold checked at hs
      split at hs
      · rename_i hg
        exact ih.cons ⟨hg, hG⟩ hs
      · cases hs

theorem exists_run_of_checked {g : σ → α → Bool} {as : List α} (hg : ∀ s a, g s a = true → G s a)
    (h : execute (checked g step) as s = some s') : ∃ hist, Run step G s hist s' := by
  have hrun := execute_run (G := fun _ _ => True) (fun _ _ _ => trivial) .nil h
  exact ⟨_, hrun.of_checked.mono fun s a ha => hg s a ha.1⟩

end CSE130.Transition
