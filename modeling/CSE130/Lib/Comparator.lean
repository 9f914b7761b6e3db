import Mathlib.Data.List.Sort
import Mathlib.Data.Int.Basic

/-! # Sorting by a comparator

A comparator returns a number whose sign says which of two values comes first.  `Consistent f l`: on
the values in the list `l` the signs are those of a total preorder, which is what a sort needs to
know.  Nothing is said of values that are not in the list, so the usual lemmas on sorted lists are
applied to the values with a proof of their membership. -/

namespace CSE130.Comparator

variable {α : Type*} {f : α → α → ℤ} {l l' : List α} {a b : α}

/-- The comparator is a comparator on a list. -/
structure Consistent (f : α → α → ℤ) (l : List α) : Prop where
  swap : ∀ a ∈ l, ∀ b ∈ l, f a b < 0 ↔ 0 < f b a
  trans : ∀ a ∈ l, ∀ b ∈ l, ∀ c ∈ l, f a b ≤ 0 → f b c ≤ 0 → f a c ≤ 0

namespace Consistent

theorem total (h : Consistent f l) (ha : a ∈ l) (hb : b ∈ l) : f a b ≤ 0 ∨ f b a ≤ 0 := by
  have hswap := h.swap b hb a ha
  omega

theorem mono (h : Consistent f l) (hl : l' ⊆ l) : Consistent f l' where
  swap a ha b hb := h.swap a (hl ha) b (hl hb)
  trans a ha b hb c hc := h.trans a (hl ha) b (hl hb) c (hl hc)

theorem of_key (key : α → ℤ) (h : ∀ a ∈ l, ∀ b ∈ l, f a b = key a - key b) : Consistent f l where
  swap a ha b hb := by
    rw [h a ha b hb, h b hb a ha]
    omega
  trans a ha b hb c hc := by
    rw [h a ha b hb, h b hb c hc, h a ha c hc]
    omega

/-- A sort by insertion. -/
theorem pairwise_insertionSort (h : Consistent f l) :
    (l.insertionSort fun a b => f a b ≤ 0).Pairwise fun a b => f a b ≤ 0 := by
  let le (a b : { x // x ∈ l }) : Prop := f a.1 b.1 ≤ 0
  have htotal : Std.Total le := ⟨fun a b => h.total a.2 b.2⟩
  have htrans : IsTrans _ le := ⟨fun a b c => h.trans a.1 a.2 b.1 b.2 c.1 c.2⟩
  have hmap := List.map_insertionSort (r := le) (s := fun a b => f a b ≤ 0) Subtype.val l.attach
    fun a _ b _ => Iff.rfl
  rw [List.attach_map_subtype_val] at hmap
  rw [← hmap]
  exact List.pairwise_map.mpr (List.pairwise_insertionSort le l.attach)

end Consistent

end CSE130.Comparator
