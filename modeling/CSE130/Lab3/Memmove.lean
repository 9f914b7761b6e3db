import CSE130.Lib.Memory
import Mathlib.Logic.Function.Basic

/-! # Copies in memory

`memcpy` and `memmove` of the kernel's C library.  A copy upwards reads each byte of the source
before it is written over when the destination lies below, and a copy downwards when it lies above;
`memmove` chooses by comparing the pointers.  `memcpy` keeps its argument to return it, and `memmove`
returns the pointer that the loop has worked with: after a copy upwards it points behind the
destination.

Addresses are natural numbers, as ranges within the address space do not wrap. -/

namespace CSE130.Lab3

open Function (update)

namespace Memmove

variable {m m' : Mem} {dst src size : ℕ}

/-- `while (size-- > 0) *dst++ = *src++`; the destination pointer after the loop and the memory. -/
def copyUp : ℕ → ℕ → ℕ → Mem → ℕ × Mem
  | 0, dst, _, m => (dst, m)
  | size + 1, dst, src, m => copyUp size (dst + 1) (src + 1) (update m dst (m src))

/-- `while (size-- > 0) *--dst = *--src`. -/
def copyDown : ℕ → ℕ → ℕ → Mem → ℕ × Mem
  | 0, dst, _, m => (dst, m)
  | size + 1, dst, src, m =>
      copyDown size (dst - 1) (src - 1) (update m (dst - 1) (m (src - 1)))

/-- The assertions of both functions. -/
def Pointers (dst src size : ℕ) : Prop := (dst ≠ 0 ∨ size = 0) ∧ (src ≠ 0 ∨ size = 0)

instance : Decidable (Pointers dst src size) := inferInstanceAs (Decidable (_ ∧ _))

/-- `memcpy`: the returned pointer and the memory. -/
def memcpy (dst src size : ℕ) (m : Mem) : Option (ℕ × Mem) := do
  guard (Pointers dst src size)
  return (dst, (copyUp size dst src m).2)

/-- `memmove`: the returned pointer and the memory. -/
def memmove (dst src size : ℕ) (m : Mem) : Option (ℕ × Mem) := do
  guard (Pointers dst src size)
  if dst < src then
    return copyUp size dst src m
  else
    return copyDown size (dst + size) (src + size) m

/-- The bytes from `src` on are at `dst`, and nothing else has changed. -/
structure Copied (m m' : Mem) (dst src size : ℕ) : Prop where
  bytes : ∀ i < size, m' (dst + i) = m (src + i)
  frame : ∀ x, x < dst ∨ dst + size ≤ x → m' x = m x

theorem copied_nil : Copied m m dst src 0 :=
  ⟨fun i hi => absurd hi (Nat.not_lt_zero i), fun _ _ => rfl⟩

theorem Copied.first (hb : dst ≤ src ∨ src + size < dst)
    (h : Copied (update m dst (m src)) m' (dst + 1) (src + 1) size) :
    Copied m m' dst src (size + 1) := by
  constructor
  · intro i hi
    cases i with
    | zero =>
        have hself : m' dst = update m dst (m src) dst := h.frame dst (Or.inl (Nat.lt_succ_self dst))
        rw [Nat.add_zero, Nat.add_zero, hself, Function.update_self]
    | succ i =>
        have hne : src + 1 + i ≠ dst := by omega
        have hbyte := h.bytes i (by omega)
        rw [Function.update_of_ne hne] at hbyte
        rwa [Nat.add_assoc, Nat.add_comm 1, Nat.add_assoc, Nat.add_comm 1] at hbyte
  · intro x hx
    have hne : x ≠ dst := by omega
    rw [h.frame x (by omega), Function.update_of_ne hne]

/-- The last byte is not in the rest of the source. -/
theorem Copied.last (hb : src ≤ dst)
    (h : Copied (update m (dst + size) (m (src + size))) m' dst src size) :
    Copied m m' dst src (size + 1) := by
  constructor
  · intro i hi
    by_cases hlast : i = size
    · subst hlast
      rw [h.frame (dst + i) (Or.inr (Nat.le_refl _)), Function.update_self]
    · have hne : src + i ≠ dst + size := by omega
      rw [h.bytes i (by omega), Function.update_of_ne hne]
  · intro x hx
    have hne : x ≠ dst + size := by omega
    rw [h.frame x (by omega), Function.update_of_ne hne]

theorem copyUp_spec (m : Mem) (size : ℕ) (hb : dst ≤ src ∨ src + size ≤ dst) :
    (copyUp size dst src m).1 = dst + size ∧
      Copied m (copyUp size dst src m).2 dst src size := by
  induction size generalizing dst src m with
  | zero => exact ⟨rfl, copied_nil⟩
  | succ size ih =>
      obtain ⟨hp, hc⟩ := @ih (dst + 1) (src + 1) (update m dst (m src)) (by omega)
      refine ⟨?_, hc.first (by omega)⟩
      rw [copyUp, hp]
      omega

theorem copyDown_spec (m : Mem) (size : ℕ) (hb : src ≤ dst) :
    (copyDown size (dst + size) (src + size) m).1 = dst ∧
      Copied m (copyDown size (dst + size) (src + size) m).2 dst src size := by
  induction size generalizing m with
  | zero => exact ⟨rfl, copied_nil⟩
  | succ size ih =>
      obtain ⟨hp, hc⟩ := ih (update m (dst + size) (m (src + size)))
      exact ⟨hp, hc.last hb⟩

theorem memcpy_eq (hp : Pointers dst src size) :
    memcpy dst src size m = some (dst, (copyUp size dst src m).2) := by
  unfold memcpy
  rw [show (guard (Pointers dst src size) : Option Unit) = some () from if_pos hp]
  rfl

theorem memmove_eq (hp : Pointers dst src size) :
    memmove dst src size m = some (if dst < src then copyUp size dst src m
      else copyDown size (dst + size) (src + size) m) := by
  unfold memmove
  rw [show (guard (Pointers dst src size) : Option Unit) = some () from if_pos hp]
  exact (apply_ite some _ _ _).symm

theorem memcpy_spec (hp : Pointers dst src size) (hb : dst + size ≤ src ∨ src + size ≤ dst) :
    ∃ m', memcpy dst src size m = some (dst, m') ∧ Copied m m' dst src size :=
  ⟨_, memcpy_eq hp, (copyUp_spec m size (by omega)).2⟩

/-- The bytes are moved whatever the overlap, and the returned pointer is as the loop leaves it. -/
theorem memmove_spec (hp : Pointers dst src size) :
    ∃ m', memmove dst src size m = some (if dst < src then dst + size else dst, m') ∧
      Copied m m' dst src size := by
  by_cases hlt : dst < src
  · obtain ⟨hend, hc⟩ := copyUp_spec m size (Or.inl (Nat.le_of_lt hlt))
    refine ⟨_, ?_, hc⟩
    rw [memmove_eq hp, if_pos hlt, if_pos hlt]
    exact congrArg some (Prod.ext hend rfl)
  · obtain ⟨hend, hc⟩ := copyDown_spec m size (Nat.le_of_not_lt hlt)
    refine ⟨_, ?_, hc⟩
    rw [memmove_eq hp, if_neg hlt, if_neg hlt]
    exact congrArg some (Prod.ext hend rfl)

/-- `memmove` moves the bytes and returns `dst`. -/
def Moves (dst src size : ℕ) (m : Mem) : Prop :=
  ∃ m', memmove dst src size m = some (dst, m') ∧ Copied m m' dst src size

theorem moves_of (hp : Pointers dst src size) (h : size = 0 ∨ src ≤ dst) :
    Moves dst src size m := by
  obtain ⟨m', hm, hc⟩ := memmove_spec (m := m) hp
  refine ⟨m', ?_, hc⟩
  by_cases hlt : dst < src
  · have h0 : size = 0 := by omega
    rw [hm, if_pos hlt, h0, Nat.add_zero]
  · rw [hm, if_neg hlt]

theorem Moves.returns (hp : Pointers dst src size) (h : Moves dst src size m) :
    size = 0 ∨ src ≤ dst := by
  obtain ⟨m', hm, -⟩ := h
  obtain ⟨m'', hm', -⟩ := memmove_spec (m := m) hp
  rw [hm, Option.some_inj, Prod.mk.injEq] at hm'
  have hret := hm'.1
  by_cases hlt : dst < src
  · rw [if_pos hlt] at hret
    omega
  · omega

/-- `memmove` does what its comment says unless it copies upwards. -/
theorem memmove_iff (m : Mem) (dst src size : ℕ) (hp : Pointers dst src size) :
    Moves dst src size m ↔ size = 0 ∨ src ≤ dst :=
  ⟨Moves.returns hp, moves_of hp⟩

theorem memmove_iff_down : Moves 9 8 4 (fun _ => 7) ↔ 4 = 0 ∨ 8 ≤ 9 :=
  memmove_iff (fun _ => 7) 9 8 4 (by decide)

/-- One byte moved down by one: the address behind the destination is returned. -/
theorem memmove_returns_end : Pointers 8 9 1 ∧ ¬ Moves 8 9 1 (fun _ => 0) :=
  ⟨by decide, fun h => absurd (h.returns (by decide)) (by decide)⟩

end Memmove

end CSE130.Lab3
