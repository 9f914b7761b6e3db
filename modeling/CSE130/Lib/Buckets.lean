import Mathlib.Data.Set.Pairwise.Basic
import Mathlib.Data.List.GetD
import Mathlib.Data.List.Perm.Basic

/-! # Buckets

A sequence of lists in which every element has a place of its own, as in a hash table with
chaining.  What the buckets hold together is the set of their elements, `flatten` up to the order.
The second part is about what such a table is for: a set with at most one element of each class of
an equivalence relation. -/

namespace CSE130

variable {α : Type*}

namespace Buckets

variable {bs : List (List α)} {place : α → ℕ} {i j : ℕ} {x y : α} {l : List α}

/-- Put `x` in front of the `i`th bucket. -/
def push (bs : List (List α)) (i : ℕ) (x : α) : List (List α) := bs.modify i (x :: ·)

/-- Every element is in its place. -/
def Placed (place : α → ℕ) (bs : List (List α)) : Prop := ∀ i, ∀ x ∈ bs.getD i [], place x = i

/-- Put the elements of `l` in their places, one after the other. -/
def spread (place : α → ℕ) (bs : List (List α)) (l : List α) : List (List α) :=
  l.foldl (fun bs x => push bs (place x) x) bs

@[simp] theorem length_push : (push bs i x).length = bs.length := List.length_modify ..

theorem getD_push (hi : i < bs.length) :
    (push bs i x).getD j [] = if i = j then x :: bs.getD j [] else bs.getD j [] := by
  rw [push, List.getD_eq_getElem?_getD, List.getD_eq_getElem?_getD, List.getElem?_modify]
  by_cases h : i = j
  · subst h
    simp only [if_true, List.getElem?_eq_getElem hi]
    rfl
  · simp only [if_neg h]
    cases bs[j]? <;> rfl

theorem mem_flatten : x ∈ bs.flatten ↔ ∃ i, x ∈ bs.getD i [] := by
  rw [List.mem_flatten]
  constructor
  · rintro ⟨b, hb, hx⟩
    obtain ⟨i, hi, rfl⟩ := List.getElem_of_mem hb
    exact ⟨i, by rwa [List.getD_eq_getElem _ _ hi]⟩
  · rintro ⟨i, hx⟩
    by_cases hi : i < bs.length
    · rw [List.getD_eq_getElem _ _ hi] at hx
      exact ⟨_, List.getElem_mem hi, hx⟩
    · rw [List.getD_eq_default _ _ (by omega)] at hx
      cases hx

theorem Placed.mem_iff (h : Placed place bs) : x ∈ bs.getD (place x) [] ↔ x ∈ bs.flatten := by
  rw [mem_flatten]
  refine ⟨fun hx => ⟨_, hx⟩, ?_⟩
  rintro ⟨i, hx⟩
  rwa [h i x hx]

theorem Placed.push (h : Placed place bs) (hx : place x < bs.length) :
    Placed place (push bs (place x) x) := by
  intro i y hy
  rw [getD_push hx] at hy
  split at hy
  · rename_i hi
    obtain rfl | hy := List.mem_cons.mp hy
    · exact hi
    · exact h i y hy
  · exact h i y hy

theorem flatten_push (hi : i < bs.length) : (push bs i x).flatten.Perm (x :: bs.flatten) := by
  induction bs generalizing i with
  | nil => cases hi
  | cons b bs ih =>
      cases i with
      | zero => exact List.Perm.refl _
      | succ i =>
          have hpush : Buckets.push (b :: bs) (i + 1) x = b :: Buckets.push bs i x :=
            List.modify_succ_cons ..
          rw [hpush, List.flatten_cons, List.flatten_cons]
          exact ((ih (Nat.lt_of_succ_lt_succ hi)).append_left b).trans List.perm_middle

theorem spread_placed (hbs : Placed place bs) (hl : ∀ x ∈ l, place x < bs.length) :
    Placed place (spread place bs l) ∧ (spread place bs l).length = bs.length ∧
      (spread place bs l).flatten.Perm (l ++ bs.flatten) := by
  induction l generalizing bs with
  | nil => exact ⟨hbs, rfl, List.Perm.refl _⟩
  | cons x l ih =>
      have hx := hl x List.mem_cons_self
      obtain ⟨hplaced, hlength, hperm⟩ := ih (hbs.push hx)
        (fun y hy => by simpa using hl y (List.mem_cons_of_mem x hy))
      refine ⟨hplaced, hlength.trans length_push, hperm.trans ?_⟩
      exact ((flatten_push hx).append_left l).trans List.perm_middle

theorem placed_replicate (n : ℕ) : Placed place (List.replicate n []) := by
  intro i x hx
  rw [List.getD_eq_getElem?_getD, List.getElem?_replicate] at hx
  split at hx <;> cases hx

variable [DecidableEq α]

/-- Take `x` out of the bucket that it is in. -/
def remove (bs : List (List α)) (x : α) : List (List α) := bs.map fun b => b.erase x

theorem getD_remove : (remove bs x).getD i [] = (bs.getD i []).erase x := by
  rw [remove, List.getD_eq_getElem?_getD, List.getD_eq_getElem?_getD, List.getElem?_map]
  cases bs[i]? <;> rfl

theorem Placed.remove (h : Placed place bs) : Placed place (remove bs x) := by
  intro i y hy
  rw [getD_remove] at hy
  exact h i y (List.mem_of_mem_erase hy)

theorem flatten_remove (h : bs.flatten.Nodup) : (remove bs x).flatten = bs.flatten.erase x := by
  induction bs with
  | nil => rfl
  | cons b bs ih =>
      rw [List.flatten_cons] at h ⊢
      have hremove : Buckets.remove (b :: bs) x = b.erase x :: Buckets.remove bs x := rfl
      obtain ⟨-, hbs, hdisjoint⟩ := List.nodup_append.mp h
      rw [hremove, List.flatten_cons, ih hbs]
      by_cases hx : x ∈ b
      · have hnot : x ∉ bs.flatten := fun hx' => hdisjoint x hx x hx' rfl
        rw [List.erase_append_left _ hx, List.erase_of_not_mem hnot]
      · rw [List.erase_append_right _ hx, List.erase_of_not_mem hx]

end Buckets

/-! ### Sets with one element of each class -/

namespace Representatives

variable {r : α → α → Prop} {S : Set α} {x : α}

/-- Put `x` into `S` unless its class is there. -/
def add (r : α → α → Prop) (S : Set α) (x : α) : Set α := {y | y ∈ S ∨ y = x ∧ ∀ z ∈ S, ¬ r z x}

/-- Take the class of `x` out of `S`. -/
def drop (r : α → α → Prop) (S : Set α) (x : α) : Set α := {y | y ∈ S ∧ ¬ r y x}

/-- Put `x` into `S` in place of its class. -/
def replace (r : α → α → Prop) (S : Set α) (x : α) : Set α := insert x (drop r S x)

/-- No two elements of `S` are of one class. -/
def Distinct (r : α → α → Prop) (S : Set α) : Prop := S.Pairwise fun x y => ¬ r x y

theorem Distinct.drop (h : Distinct r S) : Distinct r (drop r S x) := h.mono fun _ hy => hy.1

theorem Distinct.replace (hr : ∀ x y, r x y → r y x) (h : Distinct r S) :
    Distinct r (replace r S x) := by
  refine h.drop.insert fun y hy _ => ⟨fun hxy => hy.2 (hr x y hxy), hy.2⟩

theorem Distinct.add (hr : ∀ x y, r x y → r y x) (h : Distinct r S) : Distinct r (add r S x) := by
  rintro y (hy | ⟨rfl, hy⟩) z (hz | ⟨rfl, hz⟩) hyz
  · exact h hy hz hyz
  · exact hz y hy
  · exact fun h => hy z hz (hr y z h)
  · exact absurd rfl hyz

/-- An element is the only one of its class. -/
theorem Distinct.eq {y : α} (h : Distinct r S) (hx : x ∈ S) (hy : y ∈ S) (hxy : r x y) : x = y :=
  Set.Pairwise.eq h hx hy fun hn => hn hxy

end Representatives

end CSE130
