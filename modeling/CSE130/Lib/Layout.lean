import Mathlib.Data.List.Basic
import Mathlib.Data.Nat.Notation
import Mathlib.Algebra.Ring.Nat

/-! # Packed records

A packed record is the concatenation of its fields, each of its own width.  What is cut out of the
concatenation at the offset of a field is the field (`unpack_pack`), and a field can be replaced
without a change to what comes before and after it (`pack_eq`). -/

namespace CSE130.Layout

variable {ι α : Type*} [DecidableEq ι] (fields : List ι) (width : ι → ℕ)

/-- The size of the record. -/
def size : ℕ := (fields.map width).sum

/-- Where a field begins. -/
def offset (f : ι) : ℕ := size (fields.takeWhile (· ≠ f)) width

/-- The record as one list. -/
def pack (h : ι → List α) : List α := fields.flatMap h

/-- The fields of a list. -/
def unpack (b : List α) (f : ι) : List α := (b.drop (offset fields width f)).take (width f)

variable {fields width} {h h' : ι → List α} {f : ι}

/-- Every field has its width. -/
def Fits (fields : List ι) (width : ι → ℕ) (h : ι → List α) : Prop :=
  ∀ f ∈ fields, (h f).length = width f

omit [DecidableEq ι] in
theorem length_pack (hw : Fits fields width h) : (pack fields h).length = size fields width := by
  rw [pack, List.length_flatMap, size]
  exact congrArg List.sum (List.map_congr_left hw)

theorem pack_eq (hf : f ∈ fields) : pack fields h = pack (fields.takeWhile (· ≠ f)) h ++
    (h f ++ pack (fields.dropWhile (· ≠ f)).tail h) := by
  induction fields with
  | nil => cases hf
  | cons g fields ih =>
      by_cases hg : g = f
      · subst hg
        simp [pack]
      · have hmem : f ∈ fields := (List.mem_cons.mp hf).resolve_left fun hfg => hg hfg.symm
        have htake : (g :: fields).takeWhile (· ≠ f) = g :: fields.takeWhile (· ≠ f) :=
          List.takeWhile_cons_of_pos (by simpa using hg)
        have hdrop : (g :: fields).dropWhile (· ≠ f) = fields.dropWhile (· ≠ f) :=
          List.dropWhile_cons_of_pos (by simpa using hg)
        have hcons : ∀ l, pack (g :: l) h = h g ++ pack l h := fun _ => List.flatMap_cons
        rw [htake, hdrop, hcons, hcons, ih hmem, List.append_assoc]

/-- **The fields of a record** are found at their offsets. -/
theorem unpack_pack (hw : Fits fields width h) (hf : f ∈ fields) :
    unpack fields width (pack fields h) f = h f := by
  have hbefore : (pack (fields.takeWhile (· ≠ f)) h).length = offset fields width f :=
    length_pack fun g hg => hw g ((List.takeWhile_sublist _).subset hg)
  rw [unpack, pack_eq hf, ← hbefore, List.drop_left, ← hw f hf, List.take_left]

end CSE130.Layout
