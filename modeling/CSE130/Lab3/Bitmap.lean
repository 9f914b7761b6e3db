import Mathlib.Data.Nat.Basic
import Mathlib.Logic.Function.Basic
import Mathlib.Tactic.SplitIfs

/-! # Bitmaps

A bitmap is an array of 32-bit elements.  The functions fail where an `ASSERT` does; `bit` is what
`bitmap_test` sees of the bitmap, and each function has one lemma that says what it does to the
bits, or finds in them. -/

namespace CSE130.Lab3

open Function (update)

/-- How the kernel stops. -/
inductive Failure where
  /-- An `ASSERT` fails. -/
  | assertion
  /-- A `PANIC`. -/
  | panic
  deriving DecidableEq

/-- `ASSERT (p)`. -/
def assert (p : Prop) [Decidable p] : Except Failure Unit :=
  if p then .ok () else .error .assertion

structure Bitmap where
  bitCnt : ℕ
  bits : ℕ → BitVec 32

def elemIdx (bitIdx : ℕ) : ℕ := bitIdx / 32

def bitMask (bitIdx : ℕ) : BitVec 32 := 1#32 <<< (bitIdx % 32)

def elemCnt (bitCnt : ℕ) : ℕ := (bitCnt + 32 - 1) / 32

/-- `bitmap_buf_size`: the structure and its elements, in bytes. -/
def bitmapBufSize (bitCnt : ℕ) : ℕ := 8 + 4 * elemCnt bitCnt

namespace Bitmap

variable (b : Bitmap)

def mark (bitIdx : ℕ) : Bitmap :=
  { b with bits := update b.bits (elemIdx bitIdx) (b.bits (elemIdx bitIdx) ||| bitMask bitIdx) }

def reset (bitIdx : ℕ) : Bitmap :=
  { b with bits := update b.bits (elemIdx bitIdx) (b.bits (elemIdx bitIdx) &&& ~~~ bitMask bitIdx) }

def set (idx : ℕ) (value : Bool) : Except Failure Bitmap := do
  assert (idx < b.bitCnt)
  return if value then b.mark idx else b.reset idx

def test (idx : ℕ) : Except Failure Bool := do
  assert (idx < b.bitCnt)
  return b.bits (elemIdx idx) &&& bitMask idx != 0

/-- The loop of `bitmap_set_multiple`, with `cnt` bits to go. -/
def setLoop (value : Bool) : ℕ → ℕ → Bitmap → Except Failure Bitmap
  | _, 0, b => .ok b
  | i, cnt + 1, b => do
      let b ← b.set i value
      setLoop value (i + 1) cnt b

def setMultiple (start cnt : ℕ) (value : Bool) : Except Failure Bitmap := do
  assert (start ≤ b.bitCnt)
  assert (start + cnt ≤ b.bitCnt)
  setLoop value start cnt b

/-- The loop of `bitmap_contains`, with `cnt` bits to go. -/
def containsLoop (value : Bool) : ℕ → ℕ → Except Failure Bool
  | _, 0 => .ok false
  | i, cnt + 1 => do
      if (← b.test i) == value then return true
      containsLoop value (i + 1) cnt

def contains (start cnt : ℕ) (value : Bool) : Except Failure Bool := do
  assert (start ≤ b.bitCnt)
  assert (start + cnt ≤ b.bitCnt)
  b.containsLoop value start cnt

def all (start cnt : ℕ) : Except Failure Bool := do
  return !(← b.contains start cnt false)

/-- The loop of `bitmap_scan`, with `n` starting points to go. -/
def scanLoop (cnt : ℕ) (value : Bool) : ℕ → ℕ → Except Failure (Option ℕ)
  | _, 0 => .ok none
  | i, n + 1 => do
      if !(← b.contains i cnt (!value)) then return some i
      scanLoop cnt value (i + 1) n

/-- `bitmap_scan`; `none` is `BITMAP_ERROR`. -/
def scan (start cnt : ℕ) (value : Bool) : Except Failure (Option ℕ) := do
  assert (start ≤ b.bitCnt)
  if cnt ≤ b.bitCnt then b.scanLoop cnt value start (b.bitCnt - cnt + 1 - start)
  else return none

def scanAndFlip (start cnt : ℕ) (value : Bool) : Except Failure (Bitmap × Option ℕ) := do
  match ← b.scan start cnt value with
  | some idx => return (← b.setMultiple idx cnt (!value), some idx)
  | none => return (b, none)

/-- `bitmap_create_in_buf`; `bits` is what the buffer held before. -/
def createInBuf (bits : ℕ → BitVec 32) (bitCnt blockSize : ℕ) : Except Failure Bitmap := do
  assert (bitmapBufSize bitCnt ≤ blockSize)
  setMultiple ⟨bitCnt, bits⟩ 0 bitCnt false

/-! ### The bits -/

/-- The bit that `bitmap_test` tests. -/
def bit (k : ℕ) : Bool := (b.bits (k / 32)).getLsbD (k % 32)

end Bitmap

@[simp] theorem ok_bind {α β : Type} (x : α) (f : α → Except Failure β) :
    (Except.ok x >>= f) = f x := rfl

theorem assert_pos {p : Prop} [Decidable p] (h : p) : assert p = .ok () := if_pos h

theorem bitMask_eq (k : ℕ) : bitMask k = BitVec.twoPow 32 (k % 32) := (BitVec.twoPow_eq ..).symm

theorem getLsbD_bitMask (k i : ℕ) : (bitMask k).getLsbD i = decide (k % 32 = i) := by
  have hlt : k % 32 < 32 := Nat.mod_lt k (by decide)
  rw [bitMask_eq, BitVec.getLsbD_twoPow, decide_eq_true hlt, Bool.true_and]

namespace Bitmap

variable {b : Bitmap} {i j k start cnt n : ℕ} {value : Bool}

/-- Two bits of one element are told apart by their place in it. -/
theorem mod_eq_iff (h : j / 32 = k / 32) : k % 32 = j % 32 ↔ k = j := by
  omega

theorem bit_mark : (b.mark k).bit j = (decide (k = j) || b.bit j) := by
  simp only [bit, mark, elemIdx, Function.update_apply]
  by_cases h : j / 32 = k / 32
  · rw [if_pos h, BitVec.getLsbD_or, getLsbD_bitMask, ← h, Bool.or_comm]
    simp only [mod_eq_iff h]
  · have hne : k ≠ j := by
      rintro rfl
      exact h rfl
    rw [if_neg h, decide_eq_false hne, Bool.false_or]

theorem bit_reset : (b.reset k).bit j = (!decide (k = j) && b.bit j) := by
  simp only [bit, reset, elemIdx, Function.update_apply]
  by_cases h : j / 32 = k / 32
  · have hlt := Nat.mod_lt j (y := 32) (by decide)
    rw [if_pos h, BitVec.getLsbD_and, BitVec.getLsbD_not, getLsbD_bitMask, decide_eq_true hlt,
      Bool.true_and, ← h, Bool.and_comm]
    simp only [mod_eq_iff h]
  · have hne : k ≠ j := by
      rintro rfl
      exact h rfl
    rw [if_neg h, decide_eq_false hne, Bool.not_false, Bool.true_and]

theorem test_eq (h : k < b.bitCnt) : b.test k = .ok (b.bit k) := by
  rw [test, assert_pos h]
  have hand := BitVec.and_twoPow (b.bits (elemIdx k)) (k % 32)
  rw [← bitMask_eq] at hand
  have hne : bitMask k ≠ 0#32 := by
    intro h0
    have hself := getLsbD_bitMask k (k % 32)
    rw [h0, BitVec.getLsbD_zero, decide_eq_true rfl] at hself
    cases hself
  have hbit : (b.bits (elemIdx k) &&& bitMask k != 0) = b.bit k := by
    rw [hand, bit, elemIdx]
    cases (b.bits (k / 32)).getLsbD (k % 32)
    · rfl
    · simpa using hne
  exact congrArg Except.ok hbit

theorem set_eq (h : k < b.bitCnt) (value : Bool) : ∃ b', b.set k value = .ok b' ∧
    b'.bitCnt = b.bitCnt ∧ ∀ j, b'.bit j = if k = j then value else b.bit j := by
  rw [set, assert_pos h]
  cases value with
  | true =>
      refine ⟨b.mark k, rfl, rfl, fun j => ?_⟩
      rw [bit_mark]
      by_cases hkj : k = j <;> simp [hkj]
  | false =>
      refine ⟨b.reset k, rfl, rfl, fun j => ?_⟩
      rw [bit_reset]
      by_cases hkj : k = j <;> simp [hkj]

theorem setLoop_eq (value : Bool) : ∀ (cnt i : ℕ) (b : Bitmap), i + cnt ≤ b.bitCnt →
    ∃ b', setLoop value i cnt b = .ok b' ∧ b'.bitCnt = b.bitCnt ∧
      ∀ k, b'.bit k = if i ≤ k ∧ k < i + cnt then value else b.bit k := by
  intro cnt
  induction cnt with
  | zero => exact fun i b _ => ⟨b, rfl, rfl, fun k => (if_neg (by omega)).symm⟩
  | succ cnt ih =>
      intro i b h
      obtain ⟨b₁, hset, hcnt₁, hbit₁⟩ := set_eq (b := b) (k := i) (by omega) value
      obtain ⟨b₂, hloop, hcnt₂, hbit₂⟩ := ih (i + 1) b₁ (by omega)
      refine ⟨b₂, ?_, hcnt₂.trans hcnt₁, fun k => ?_⟩
      · rw [setLoop, hset]
        exact hloop
      · rw [hbit₂, hbit₁]
        by_cases hk : i = k
        · rw [if_pos hk, if_pos (by omega : i ≤ k ∧ k < i + (cnt + 1)), ite_self]
        · rw [if_neg hk]
          by_cases hin : i + 1 ≤ k ∧ k < i + 1 + cnt
          · rw [if_pos hin, if_pos (by omega)]
          · rw [if_neg hin, if_neg (by omega)]

theorem setMultiple_eq (h : start + cnt ≤ b.bitCnt) (value : Bool) :
    ∃ b', b.setMultiple start cnt value = .ok b' ∧ b'.bitCnt = b.bitCnt ∧
      ∀ k, b'.bit k = if start ≤ k ∧ k < start + cnt then value else b.bit k := by
  have hset := setLoop_eq value cnt start b h
  rw [setMultiple, assert_pos (by omega : start ≤ b.bitCnt), assert_pos h]
  exact hset

theorem containsLoop_eq (value : Bool) : ∀ (cnt i : ℕ), i + cnt ≤ b.bitCnt →
    ∃ c, b.containsLoop value i cnt = .ok c ∧
      (c = true ↔ ∃ k, i ≤ k ∧ k < i + cnt ∧ b.bit k = value) := by
  intro cnt
  induction cnt with
  | zero => exact fun i _ => ⟨false, rfl, iff_of_false Bool.false_ne_true fun ⟨k, h⟩ => by omega⟩
  | succ cnt ih =>
      intro i h
      rw [containsLoop, test_eq (by omega), ok_bind]
      by_cases hbit : b.bit i = value
      · refine ⟨true, ?_, iff_of_true rfl ⟨i, by omega, by omega, hbit⟩⟩
        rw [if_pos (beq_iff_eq.mpr hbit)]
        rfl
      · obtain ⟨c, hloop, hc⟩ := ih (i + 1) (by omega)
        refine ⟨c, ?_, hc.trans ?_⟩
        · rw [if_neg fun hbeq => hbit (beq_iff_eq.mp hbeq)]
          exact hloop
        · constructor
          · rintro ⟨k, hk⟩
            exact ⟨k, by omega, by omega, hk.2.2⟩
          · rintro ⟨k, hik, hk, hv⟩
            have hne : i ≠ k := by
              rintro rfl
              exact hbit hv
            exact ⟨k, by omega, by omega, hv⟩

theorem contains_eq (h : start + cnt ≤ b.bitCnt) (value : Bool) :
    ∃ c, b.contains start cnt value = .ok c ∧
      (c = true ↔ ∃ k, start ≤ k ∧ k < start + cnt ∧ b.bit k = value) := by
  have hloop := containsLoop_eq (b := b) value cnt start h
  rw [contains, assert_pos (by omega : start ≤ b.bitCnt), assert_pos h]
  exact hloop

theorem all_eq (h : start + cnt ≤ b.bitCnt) (hall : ∀ k, start ≤ k → k < start + cnt →
    b.bit k = true) : b.all start cnt = .ok true := by
  obtain ⟨c, hcontains, hc⟩ := contains_eq h false
  have hfalse : c = false := by
    rw [← Bool.not_eq_true, hc]
    rintro ⟨k, hk, hk', hbit⟩
    rw [hall k hk hk'] at hbit
    cases hbit
  rw [all, hcontains, hfalse]
  rfl

/-- All bits of a group have the value. -/
def Uniform (b : Bitmap) (value : Bool) (i cnt : ℕ) : Prop :=
  ∀ k, i ≤ k → k < i + cnt → b.bit k = value

theorem scanLoop_eq (value : Bool) : ∀ (n i : ℕ), (n = 0 ∨ i + n - 1 + cnt ≤ b.bitCnt) →
    ∃ r, b.scanLoop cnt value i n = .ok r ∧
      match r with
      | some j => i ≤ j ∧ j < i + n ∧ b.Uniform value j cnt
      | none => ∀ j, i ≤ j → j < i + n → ¬ b.Uniform value j cnt := by
  intro n
  induction n with
  | zero => exact fun i _ => ⟨none, rfl, fun j hj hj' => by omega⟩
  | succ n ih =>
      intro i h
      have hbound : i + cnt ≤ b.bitCnt := by omega
      obtain ⟨c, hcontains, hc⟩ := contains_eq hbound (!value)
      rw [scanLoop, hcontains, ok_bind]
      have huniform : c = false ↔ b.Uniform value i cnt := by
        rw [← Bool.not_eq_true, hc]
        unfold Uniform
        constructor
        · intro hno k hk hk'
          by_contra hne
          exact hno ⟨k, hk, hk', (Bool.eq_not_of_ne hne)⟩
        · rintro hall ⟨k, hk, hk', hbit⟩
          rw [hall k hk hk'] at hbit
          cases value <;> cases hbit
      cases c with
      | false =>
          exact ⟨some i, rfl, le_rfl, by omega, huniform.mp rfl⟩
      | true =>
          obtain ⟨r, hloop, hr⟩ := ih (i + 1) (by omega)
          refine ⟨r, hloop, ?_⟩
          cases r with
          | some j => exact ⟨by omega, by omega, hr.2.2⟩
          | none =>
              intro j hij hj huni
              by_cases hji : j = i
              · subst hji
                cases huniform.mpr huni
              · exact hr j (by omega) (by omega) huni

/-- **First fit**: a scan finds a group whenever there is one. -/
theorem scan_eq (hstart : start ≤ b.bitCnt) (cnt : ℕ) (value : Bool) :
    ∃ r, b.scan start cnt value = .ok r ∧
      match r with
      | some i => start ≤ i ∧ i + cnt ≤ b.bitCnt ∧ b.Uniform value i cnt
      | none => ∀ i, start ≤ i → i + cnt ≤ b.bitCnt → ¬ b.Uniform value i cnt := by
  rw [scan, assert_pos hstart, ok_bind]
  by_cases hcnt : cnt ≤ b.bitCnt
  · have hbound : b.bitCnt - cnt + 1 - start = 0 ∨
        start + (b.bitCnt - cnt + 1 - start) - 1 + cnt ≤ b.bitCnt := by omega
    obtain ⟨r, hloop, hr⟩ := scanLoop_eq value (b.bitCnt - cnt + 1 - start) start hbound
    rw [if_pos hcnt]
    refine ⟨r, hloop, ?_⟩
    cases r with
    | some i => exact ⟨hr.1, by omega, hr.2.2⟩
    | none => exact fun i hi hi' => hr i hi (by omega)
  · rw [if_neg hcnt]
    exact ⟨none, rfl, fun i _ hi => by omega⟩

/-- The group that was found is flipped. -/
theorem scanAndFlip_eq (hstart : start ≤ b.bitCnt) (cnt : ℕ) (value : Bool) :
    (∃ b' i, b.scanAndFlip start cnt value = .ok (b', some i) ∧ b'.bitCnt = b.bitCnt ∧
      start ≤ i ∧ i + cnt ≤ b.bitCnt ∧ b.Uniform value i cnt ∧
      ∀ k, b'.bit k = if i ≤ k ∧ k < i + cnt then !value else b.bit k) ∨
    b.scanAndFlip start cnt value = .ok (b, none) ∧
      ∀ i, start ≤ i → i + cnt ≤ b.bitCnt → ¬ b.Uniform value i cnt := by
  obtain ⟨r, hscan, hr⟩ := scan_eq hstart cnt value
  rw [scanAndFlip, hscan, ok_bind]
  cases r with
  | some i =>
      obtain ⟨b', hset, hcnt, hbit⟩ := setMultiple_eq hr.2.1 (!value)
      refine .inl ⟨b', i, ?_, hcnt, hr.1, hr.2.1, hr.2.2, hbit⟩
      simp only [hset, ok_bind]
      rfl
  | none => exact .inr ⟨rfl, hr⟩

theorem createInBuf_eq {blockSize : ℕ} (bits : ℕ → BitVec 32) (h : bitmapBufSize n ≤ blockSize) :
    ∃ b, createInBuf bits n blockSize = .ok b ∧ b.bitCnt = n ∧ ∀ k < n, b.bit k = false := by
  obtain ⟨b, hset, hcnt, hbit⟩ :=
    setMultiple_eq (b := ⟨n, bits⟩) (Nat.le_of_eq (Nat.zero_add n)) false
  rw [createInBuf, assert_pos h, ok_bind]
  refine ⟨b, hset, hcnt, fun k hk => ?_⟩
  rw [hbit, if_pos (by omega)]

end Bitmap

end CSE130.Lab3
