import Mathlib.Data.List.Basic
import Mathlib.Tactic.SplitIfs

/-! # Computations that log what they access

A `Traced ε τ α` logs accesses of type `τ`, in order, and either returns a value of type `α` or
stops with an exit code of type `ε`.  `Only P` says that every access satisfies `P`; for a
sequence of two computations this is a statement about each of them (`only_bind`), so a program
is taken apart along its text. -/

namespace CSE130

/-- A log of accesses, and a value or an exit code. -/
structure Traced (ε τ α : Type) where
  log : List τ
  result : Except ε α

namespace Traced

variable {ε τ α β : Type} {P : τ → Prop}

instance : Monad (Traced ε τ) where
  pure a := ⟨[], .ok a⟩
  bind x f :=
    match x.result with
    | .error c => ⟨x.log, .error c⟩
    | .ok a => ⟨x.log ++ (f a).log, (f a).result⟩

/-- One access. -/
def access (t : τ) : Traced ε τ Unit := ⟨[t], .ok ()⟩

/-- Stop. -/
def exit (c : ε) : Traced ε τ α := ⟨[], .error c⟩

/-- A value, or stop. -/
def ofOption (c : ε) : Option α → Traced ε τ α
  | some a => pure a
  | none => exit c

/-- The value, without the log. -/
def value (x : Traced ε τ α) : Option α := x.result.toOption

/-- Every access satisfies `P`. -/
def Only (P : τ → Prop) (x : Traced ε τ α) : Prop := ∀ t ∈ x.log, P t

@[simp] theorem pure_result (a : α) : (pure a : Traced ε τ α).result = .ok a := rfl
@[simp] theorem pure_log (a : α) : (pure a : Traced ε τ α).log = [] := rfl
@[simp] theorem access_result (t : τ) : (access t : Traced ε τ Unit).result = .ok () := rfl
@[simp] theorem exit_result (c : ε) : (exit c : Traced ε τ α).result = .error c := rfl
@[simp] theorem exit_log (c : ε) : (exit c : Traced ε τ α).log = [] := rfl

@[simp] theorem only_pure (a : α) : (pure a : Traced ε τ α).Only P := fun _ h => by cases h
@[simp] theorem only_exit (c : ε) : (exit c : Traced ε τ α).Only P := fun _ h => by cases h

@[simp] theorem only_access {t : τ} : (access t : Traced ε τ Unit).Only P ↔ P t := by
  simp [Only, access]

/-- What follows an exit does not run. -/
@[simp] theorem exit_bind (c : ε) (f : α → Traced ε τ β) : (exit c >>= f) = exit c := rfl

theorem bind_of_ok {x : Traced ε τ α} {a : α} (h : x.result = .ok a) (f : α → Traced ε τ β) :
    x >>= f = ⟨x.log ++ (f a).log, (f a).result⟩ := by
  change (match x.result with | .error c => _ | .ok a => _) = _
  rw [h]

theorem bind_of_error {x : Traced ε τ α} {c : ε} (h : x.result = .error c)
    (f : α → Traced ε τ β) : x >>= f = ⟨x.log, .error c⟩ := by
  change (match x.result with | .error c => _ | .ok a => _) = _
  rw [h]

@[simp] theorem pure_bind (a : α) (f : α → Traced ε τ β) : (pure a >>= f) = f a :=
  (bind_of_ok rfl f).trans (by rw [pure_log, List.nil_append])

theorem bind_assoc {γ : Type} (x : Traced ε τ α) (f : α → Traced ε τ β) (g : β → Traced ε τ γ) :
    (x >>= f) >>= g = x >>= fun a => f a >>= g := by
  cases hx : x.result with
  | error c => rw [bind_of_error hx, bind_of_error hx, bind_of_error rfl]
  | ok a =>
      rw [bind_of_ok hx, bind_of_ok hx]
      cases hf : (f a).result with
      | error c => rw [bind_of_error rfl, bind_of_error hf]
      | ok b => rw [bind_of_ok rfl, bind_of_ok hf, List.append_assoc]

/-- A sequence makes the accesses of its first part. -/
theorem mem_log_bind {x : Traced ε τ α} {t : τ} (h : t ∈ x.log) (f : α → Traced ε τ β) :
    t ∈ (x >>= f).log := by
  cases hr : x.result with
  | error c => rwa [bind_of_error hr]
  | ok a =>
      rw [bind_of_ok hr]
      exact List.mem_append_left _ h

/-- A sequence makes the accesses of its parts. -/
theorem only_bind {x : Traced ε τ α} {f : α → Traced ε τ β} :
    (x >>= f).Only P ↔ x.Only P ∧ ∀ a, x.result = .ok a → (f a).Only P := by
  cases h : x.result with
  | error c =>
      rw [bind_of_error h]
      exact ⟨fun hx => ⟨hx, fun a ha => by cases ha⟩, fun hx => hx.1⟩
  | ok a =>
      rw [bind_of_ok h]
      constructor
      · intro hx
        refine ⟨fun t ht => hx t (List.mem_append_left _ ht), fun b hb => ?_⟩
        cases hb
        exact fun t ht => hx t (List.mem_append_right _ ht)
      · rintro ⟨hx, hf⟩ t ht
        exact (List.mem_append.mp ht).elim (hx t) (hf a rfl t)

/-- A sequence whose first part returns. -/
theorem only_bind_of_ok {x : Traced ε τ α} {a : α} (h : x.result = .ok a)
    {f : α → Traced ε τ β} : (x >>= f).Only P ↔ x.Only P ∧ (f a).Only P := by
  rw [only_bind]
  refine and_congr_right fun _ => ⟨fun hf => hf a h, fun hf b hb => ?_⟩
  rw [h] at hb
  cases hb
  exact hf

theorem result_bind_of_ok {x : Traced ε τ α} {a : α} (h : x.result = .ok a)
    (f : α → Traced ε τ β) : (x >>= f).result = (f a).result := by
  rw [bind_of_ok h]

/-- A sequence returns what its second part does after the first. -/
theorem result_bind_eq_ok {x : Traced ε τ α} {f : α → Traced ε τ β} {b : β} :
    (x >>= f).result = .ok b ↔ ∃ a, x.result = .ok a ∧ (f a).result = .ok b := by
  cases h : x.result with
  | error c =>
      rw [bind_of_error h]
      exact ⟨fun hb => (by cases hb), fun ⟨a, ha, _⟩ => by cases ha⟩
  | ok a =>
      rw [bind_of_ok h]
      refine ⟨fun hb => ⟨a, rfl, hb⟩, fun ⟨a', ha, hb⟩ => ?_⟩
      cases ha
      exact hb

@[simp] theorem ofOption_some (c : ε) (a : α) : (ofOption c (some a) : Traced ε τ α) = pure a := rfl
@[simp] theorem ofOption_none (c : ε) : (ofOption c none : Traced ε τ α) = exit c := rfl

/-! ### Values -/

theorem value_eq_some {x : Traced ε τ α} {a : α} : x.value = some a ↔ x.result = .ok a := by
  unfold value
  cases x.result with
  | error c => exact ⟨nofun, nofun⟩
  | ok b => exact ⟨fun h => by cases h; rfl, fun h => by cases h; rfl⟩

@[simp] theorem value_pure (a : α) : (pure a : Traced ε τ α).value = some a := rfl
@[simp] theorem value_exit (c : ε) : (exit c : Traced ε τ α).value = none := rfl
@[simp] theorem value_access (t : τ) : (access t : Traced ε τ Unit).value = some () := rfl

@[simp] theorem value_ofOption (c : ε) (o : Option α) : (ofOption c o : Traced ε τ α).value = o := by
  cases o with
  | none => rfl
  | some a => rfl

/-- The log has no part in the value of a sequence. -/
@[simp] theorem value_bind (x : Traced ε τ α) (f : α → Traced ε τ β) :
    (x >>= f).value = x.value.bind fun a => (f a).value := by
  unfold value
  cases h : x.result with
  | error c =>
      rw [bind_of_error h]
      rfl
  | ok a =>
      rw [bind_of_ok h]
      rfl

theorem value_ite (p : Prop) [Decidable p] (x y : Traced ε τ α) :
    (if p then x else y).value = if p then x.value else y.value := by
  split_ifs
  · rfl
  · rfl

theorem value_bind_pure (x : Traced ε τ α) (g : α → β) :
    (x >>= fun a => pure (g a)).value = x.value.map g := by
  rw [value_bind]
  cases x.value with
  | none => rfl
  | some a => rfl

end Traced

end CSE130
