import Mathlib.Data.List.Range
import Mathlib.Logic.Function.Basic

/-! # Ring buffers

A queue in an array of `n` cells, which is read at the position `tail` and written at the position
`head`.  It is empty if the two are the same; one cell stays free, so that a full queue is not taken
for an empty one. -/

namespace CSE130.Ring

open Function (update)

variable {α : Type*} {n tail head : ℕ} {buf : ℕ → α}

/-- The position after `pos`. -/
def next (n pos : ℕ) : ℕ := (pos + 1) % n

/-- The number of elements. -/
def count (n tail head : ℕ) : ℕ := (head + (n - tail)) % n

/-- The elements, the oldest first. -/
def contents (n : ℕ) (buf : ℕ → α) (tail head : ℕ) : List α :=
  (List.range (count n tail head)).map fun i => buf ((tail + i) % n)

theorem mod_eq {m : ℕ} (hm : m < 2 * n) : m % n = if m < n then m else m - n := by
  split
  · rename_i hlt
    exact Nat.mod_eq_of_lt hlt
  · rename_i hle
    rw [Nat.mod_eq_sub_mod (Nat.le_of_not_lt hle), Nat.mod_eq_of_lt (by omega)]

theorem next_lt (hn : 0 < n) (pos : ℕ) : next n pos < n := Nat.mod_lt _ hn

theorem next_eq {pos : ℕ} (hpos : pos < n) :
    next n pos = if pos + 1 < n then pos + 1 else 0 := by
  rw [next, mod_eq (by omega)]
  split <;> omega

theorem next_injective {pos pos' : ℕ} (hpos : pos < n) (hpos' : pos' < n)
    (h : next n pos = next n pos') : pos = pos' := by
  rw [next_eq hpos, next_eq hpos'] at h
  split at h <;> split at h <;> omega

theorem count_eq (htail : tail < n) (hhead : head < n) :
    count n tail head = if tail ≤ head then head - tail else head + n - tail := by
  rw [count, mod_eq (by omega)]
  split <;> split <;> omega

theorem count_self (htail : tail < n) : count n tail tail = 0 := by
  rw [count, Nat.add_sub_cancel' (Nat.le_of_lt htail), Nat.mod_self]

theorem contents_self (htail : tail < n) : contents n buf tail tail = [] := by
  rw [contents, count_self htail]
  rfl

/-- The oldest element is read at `tail`. -/
theorem contents_pop (htail : tail < n) (hhead : head < n) (hne : head ≠ tail) :
    contents n buf tail head = buf tail :: contents n buf (next n tail) head := by
  have hcount : count n tail head = count n (next n tail) head + 1 := by
    rw [count_eq htail hhead, count_eq (next_lt (by omega) tail) hhead, next_eq htail]
    split <;> split <;> split <;> omega
  rw [contents, hcount, List.range_succ_eq_map, List.map_cons, List.map_map, Nat.add_zero,
    Nat.mod_eq_of_lt htail]
  refine congrArg _ (List.map_congr_left fun i _ => ?_)
  dsimp only [Function.comp_apply]
  rw [next, Nat.mod_add_mod, Nat.succ_eq_add_one, Nat.add_assoc, Nat.add_comm i 1]

/-- A new element is written at `head`. -/
theorem contents_push (htail : tail < n) (hhead : head < n) (hfull : next n head ≠ tail) (x : α) :
    contents n (update buf head x) tail (next n head) = contents n buf tail head ++ [x] := by
  have hcount : count n tail (next n head) = count n tail head + 1 := by
    rw [count_eq htail hhead, count_eq htail (next_lt (by omega) head)]
    by_cases hwrap : head + 1 < n
    · rw [next_eq hhead, if_pos hwrap] at hfull ⊢
      split <;> split <;> omega
    · rw [next_eq hhead, if_neg hwrap] at hfull ⊢
      split <;> split <;> omega
  -- the `i`th element is at `head` only for the last `i`
  have hat : ∀ i ≤ count n tail head, (tail + i) % n = head ↔ i = count n tail head := by
    intro i hi
    rw [count_eq htail hhead] at hi ⊢
    rw [mod_eq (by split at hi <;> omega)]
    split at hi <;> split <;> omega
  rw [contents, hcount, List.range_succ, List.map_append, List.map_singleton,
    (hat _ (Nat.le_refl _)).mpr rfl, Function.update_self]
  refine congrArg (· ++ [x]) (List.map_congr_left fun i hi => Function.update_of_ne ?_ ..)
  have hlt := List.mem_range.mp hi
  rw [Ne, hat i (Nat.le_of_lt hlt)]
  omega

end CSE130.Ring
