import Mathlib.Data.List.OfFn
import Mathlib.Data.Fintype.Basic
import Mathlib.Algebra.Group.Fin.Basic
import Mathlib.Tactic.SplitIfs
import Mathlib.Algebra.Ring.Nat

/-! # The clock algorithm

The textbook form: `n` frames in a circle, each with a page and a reference bit once it is in use,
and a hand.  For a page that is not there the hand goes on while it finds a set bit, which it
clears, then the page is put where the hand is and the hand goes on by one; an empty frame has no
bit.  `ring` lists the frames from the hand on: what the hand passes goes from the front of this
list to its end. -/

namespace CSE130

open Function (update)

/-- The frames, the hand, and the pages that were replaced so far. -/
structure Clock (n : ℕ) (α : Type*) where
  frames : Fin n → Option (α × Bool)
  hand : Fin n
  replaced : List α

namespace Clock

variable {n : ℕ} {α : Type*}

/-- The frames in the order in which the hand comes to them. -/
def ring (c : Clock n α) : List (Option (α × Bool)) := List.ofFn fun i => c.frames (c.hand + i)

/-- The bit is set. -/
def referenced : Option (α × Bool) → Bool
  | some (_, b) => b
  | none => false

variable [NeZero n]

/-- No frame is in use. -/
def init : Clock n α := ⟨fun _ => none, 0, []⟩

/-- Write to the frame at the hand, which goes on. -/
def put (c : Clock n α) (x : Option (α × Bool)) : Clock n α :=
  { c with frames := update c.frames c.hand x, hand := c.hand + 1 }

theorem ring_eq (c : Clock n α) : c.ring = c.frames c.hand :: c.ring.tail := by
  obtain ⟨m, rfl⟩ := Nat.exists_eq_succ_of_ne_zero (NeZero.ne n)
  rw [ring, List.ofFn_succ, List.tail_cons]
  simp only [Fin.add_zero]

theorem ring_put (c : Clock n α) (x : Option (α × Bool)) : (c.put x).ring = c.ring.tail ++ [x] := by
  obtain ⟨m, rfl⟩ := Nat.exists_eq_succ_of_ne_zero (NeZero.ne n)
  have hnext : ∀ i : Fin m, c.hand + 1 + i.castSucc = c.hand + i.succ := fun i => by
    rw [add_assoc, add_comm 1, Fin.coeSucc_eq_succ]
  have hlast : c.hand + 1 + Fin.last m = c.hand := by
    rw [add_assoc, add_comm 1, Fin.last_add_one, add_zero]
  have hne : ∀ i : Fin m, c.hand + i.succ ≠ c.hand := fun i h =>
    Fin.succ_ne_zero i (add_eq_left.mp h)
  rw [ring, ring, List.ofFn_succ_last, List.ofFn_succ, List.tail_cons]
  simp only [put, hnext, hlast, Function.update_self, Function.update_of_ne (hne _)]

/-- The hand looks for a frame whose bit is not set. -/
def sweep (c : Clock n α) : Clock n α :=
  match _h : c.frames c.hand with
  | some (p, true) => (c.put (some (p, false))).sweep
  | _ => c
termination_by c.ring.countP referenced
decreasing_by
  have hset : referenced (some (p, true)) = true := rfl
  have hclear : [some (p, false)].countP referenced = 0 := rfl
  rw [ring_put, ring_eq c, _h, List.tail_cons, List.countP_append, List.countP_cons_of_pos hset,
    hclear]
  exact Nat.lt_succ_self _

/-- A request for a page, which comes in with the bit `bit`. -/
def request [DecidableEq α] (bit : Bool) (p : α) (c : Clock n α) : Clock n α :=
  if ∃ i, (c.frames i).map Prod.fst = some p then
    { c with frames := fun i => (c.frames i).map fun e => if e.1 = p then (p, true) else e }
  else
    { c.sweep.put (some (p, bit)) with
      replaced := c.replaced ++ ((c.sweep.frames c.sweep.hand).map Prod.fst).toList }

/-! ### The ring -/

variable {c : Clock n α} {p : α} {rest : List (Option (α × Bool))}

theorem frames_of_ring {x : Option (α × Bool)} (h : c.ring = x :: rest) : c.frames c.hand = x := by
  rw [ring_eq] at h
  exact (List.cons.inj h).1

theorem sweep_of_referenced (h : c.ring = some (p, true) :: rest) :
    c.sweep = (c.put (some (p, false))).sweep := by
  rw [sweep, frames_of_ring h]

theorem sweep_of_not_referenced {x : Option (α × Bool)} (h : c.ring = x :: rest)
    (hx : referenced x = false) : c.sweep = c := by
  rw [sweep, frames_of_ring h]
  split
  · cases hx
  · rfl

theorem put_ring {x y : Option (α × Bool)} (h : c.ring = x :: rest) :
    (c.put y).ring = rest ++ [y] := by
  rw [ring_put, h, List.tail_cons]

theorem mem_ring {x : Option (α × Bool)} : x ∈ c.ring ↔ ∃ i, c.frames i = x := by
  rw [ring, List.mem_ofFn]
  constructor
  · rintro ⟨i, hi⟩
    exact ⟨c.hand + i, hi⟩
  · rintro ⟨i, hi⟩
    exact ⟨i - c.hand, by rwa [add_sub_cancel]⟩

theorem exists_frame_iff :
    (∃ i, (c.frames i).map Prod.fst = some p) ↔ some p ∈ c.ring.map (Option.map Prod.fst) := by
  simp only [List.mem_map, mem_ring]
  constructor
  · rintro ⟨i, hi⟩
    exact ⟨_, ⟨i, rfl⟩, hi⟩
  · rintro ⟨_, ⟨i, rfl⟩, hi⟩
    exact ⟨i, hi⟩

variable [DecidableEq α]

/-- A request for a page that is there sets its bit. -/
theorem request_ring_of_mem (bit : Bool) (h : some p ∈ c.ring.map (Option.map Prod.fst)) :
    (c.request bit p).ring = c.ring.map (Option.map fun e => if e.1 = p then (p, true) else e) ∧
      (c.request bit p).replaced = c.replaced := by
  rw [request, if_pos (exists_frame_iff.mpr h), ring, ring, List.map_ofFn]
  exact ⟨rfl, rfl⟩

/-- Any other page replaces what is at the hand after the sweep. -/
theorem request_ring_of_not_mem (bit : Bool) (h : some p ∉ c.ring.map (Option.map Prod.fst))
    {x : Option (α × Bool)} (hx : c.sweep.ring = x :: rest) :
    (c.request bit p).ring = rest ++ [some (p, bit)] ∧
      (c.request bit p).replaced = c.replaced ++ (x.map Prod.fst).toList := by
  rw [request, if_neg fun hi => h (exists_frame_iff.mp hi), frames_of_ring hx]
  exact ⟨put_ring hx, rfl⟩

end Clock

end CSE130
