import Mathlib.Data.List.Sort

/-! # The two parts of a sorted list

Two lists `l₁` and `l₂` are put together and sorted, and the result is cut where the first of them
ended.  The parts have the elements of `l₁` and of `l₂` exactly if no element of `l₁` comes after one
of `l₂`. -/

namespace CSE130.SortedParts

variable {α : Type*} {r : α → α → Prop} [Std.Total r] [IsTrans α r] [Std.Antisymm r]
  {l₁ l₂ s₁ s₂ : List α}

/-- No element of the first list comes after one of the second. -/
def Before (r : α → α → Prop) (l₁ l₂ : List α) : Prop := ∀ a ∈ l₁, ∀ b ∈ l₂, r a b

omit [Std.Total r] [IsTrans α r] [Std.Antisymm r] in
theorem before_of_perm (hs : (s₁ ++ s₂).Pairwise r) (h₁ : s₁.Perm l₁) (h₂ : s₂.Perm l₂) :
    Before r l₁ l₂ := by
  intro a ha b hb
  exact (List.pairwise_append.mp hs).2.2 a (h₁.mem_iff.mpr ha) b (h₂.mem_iff.mpr hb)

theorem append_eq_of_before (hs : (s₁ ++ s₂).Pairwise r) (hperm : (s₁ ++ s₂).Perm (l₁ ++ l₂))
    (hlength : s₁.length = l₁.length) (h : Before r l₁ l₂) [DecidableRel r] :
    s₁ = l₁.insertionSort r ∧ s₂ = l₂.insertionSort r := by
  have hsorted : (l₁.insertionSort r ++ l₂.insertionSort r).Pairwise r := by
    refine List.pairwise_append.mpr ⟨List.pairwise_insertionSort r l₁,
      List.pairwise_insertionSort r l₂, fun a ha b hb => ?_⟩
    exact h a ((List.mem_insertionSort r).mp ha) b ((List.mem_insertionSort r).mp hb)
  have hperm' : (s₁ ++ s₂).Perm (l₁.insertionSort r ++ l₂.insertionSort r) :=
    hperm.trans ((List.perm_insertionSort r l₁).append (List.perm_insertionSort r l₂)).symm
  apply List.append_inj (hperm'.eq_of_pairwise' hs hsorted)
  rw [hlength, List.length_insertionSort]

/-- The second part has the elements of the second list. -/
theorem perm_second_iff (hs : (s₁ ++ s₂).Pairwise r) (hperm : (s₁ ++ s₂).Perm (l₁ ++ l₂))
    (hlength : s₁.length = l₁.length) [DecidableRel r] : s₂.Perm l₂ ↔ Before r l₁ l₂ := by
  constructor
  · intro h₂
    have h₁ : s₁.Perm l₁ := (List.perm_append_right_iff l₂).mp ((h₂.append_left s₁).symm.trans hperm)
    exact before_of_perm hs h₁ h₂
  · intro h
    rw [(append_eq_of_before hs hperm hlength h).2]
    exact List.perm_insertionSort r l₂

theorem eq_first_iff (hs : (s₁ ++ s₂).Pairwise r) (hperm : (s₁ ++ s₂).Perm (l₁ ++ l₂))
    (hlength : s₁.length = l₁.length) [DecidableRel r] :
    s₁ = l₁ ↔ l₁.Pairwise r ∧ Before r l₁ l₂ := by
  constructor
  · rintro rfl
    have h₂ : s₂.Perm l₂ := (List.perm_append_left_iff s₁).mp hperm
    exact ⟨(List.pairwise_append.mp hs).1, before_of_perm hs (.refl _) h₂⟩
  · rintro ⟨hsorted, h⟩
    rw [(append_eq_of_before hs hperm hlength h).1, hsorted.insertionSort_eq]

end CSE130.SortedParts
