import Mathlib.Data.Nat.Notation
import Mathlib.Tactic.Ring
import Mathlib.Tactic.Linarith
import Mathlib.Data.BitVec

/-! # Division of 64-bit numbers

The processor divides 64 by 32 bits and traps when the quotient does not fit in 32 (`divl`).  A
divisor below `2 ^ 32` is handled by long division in two digits.  A larger one is shifted up until
its top bit is set, and half of the dividend is divided by its upper half: what is then divided by is
the divisor with its last bits cleared, and the quotient is too large by at most one
(`div_truncated`).  The signed functions divide the absolute values.

The quotients are right for all arguments.  The remainders go through functions that return 32 bits,
and a remainder that needs more is cut. -/

namespace CSE130.Lab3.Arithmetic

/-! ### Quotients -/

theorem long_division (b n₁ n₀ : ℕ) {d : ℕ} (hd : 0 < d) :
    (b * (n₁ % d) + n₀) / d + b * (n₁ / d) = (b * n₁ + n₀) / d := by
  have hn : b * n₁ + n₀ = b * (n₁ % d) + n₀ + d * (b * (n₁ / d)) := by
    conv_lhs => rw [← Nat.mod_add_div n₁ d]
    ring
  rw [hn, Nat.add_mul_div_left _ _ hd]

theorem digit_lt {b n₁ n₀ d : ℕ} (hd : 0 < d) (hn₀ : n₀ < b) : b * (n₁ % d) + n₀ < b * d := by
  have hmod : n₁ % d + 1 ≤ d := Nat.mod_lt n₁ hd
  calc b * (n₁ % d) + n₀ < b * (n₁ % d) + b := by omega
    _ = b * (n₁ % d + 1) := by ring
    _ ≤ b * d := Nat.mul_le_mul_left b hmod

/-- A divisor `e` a little below `d` gives a quotient that is too large by at most one. -/
theorem div_le_div_add_one {n d e : ℕ} (he : 0 < e) (hed : e ≤ d) (h : n * (d - e) < d * e) :
    n / e ≤ n / d + 1 := by
  have hd : 0 < d := by omega
  refine Nat.lt_succ_iff.mp ((Nat.div_lt_iff_lt_mul he).mpr ?_)
  have hlt : n < (n / d + 1) * d := Nat.lt_mul_of_div_lt (Nat.lt_succ_self _) hd
  refine Nat.lt_of_mul_lt_mul_right (a := d) ?_
  calc n * d = n * e + n * (d - e) := by rw [← Nat.mul_add, Nat.add_sub_cancel' hed]
    _ < (n / d + 1) * d * e + d * e :=
        Nat.add_lt_add_of_le_of_lt (Nat.mul_le_mul_right e hlt.le) h
    _ = (n / d + 1 + 1) * e * d := by ring

theorem mul_pred_lt {n t : ℕ} (hn : n < 2 ^ 64) (ht : 0 < t) : n * (t - 1) < 2 ^ 62 * (t * t) := by
  obtain ⟨k, rfl⟩ : ∃ k, t = k + 1 := ⟨t - 1, by omega⟩
  have hsq : 4 * k ≤ (k + 1) * (k + 1) := by
    zify
    linarith [sq_nonneg ((k : ℤ) - 1)]
  rw [Nat.add_sub_cancel]
  cases k with
  | zero => norm_num
  | succ k =>
      calc n * (k + 1) < 2 ^ 64 * (k + 1) := Nat.mul_lt_mul_of_pos_right hn (Nat.succ_pos k)
        _ = 2 ^ 62 * (4 * (k + 1)) := by ring
        _ ≤ _ := Nat.mul_le_mul_left _ hsq

/-- The quotient by `d` with the digits below `t` cleared, when at least 31 bits are left. -/
theorem div_truncated {n d t : ℕ} (hn : n < 2 ^ 64) (ht : 0 < t) (hv : 2 ^ 31 ≤ d / t) :
    n / d ≤ n / (d / t * t) ∧ n / (d / t * t) ≤ n / d + 1 := by
  have hle : d / t * t ≤ d := Nat.div_mul_le_self d t
  have hmod : d - d / t * t < t := by
    have := Nat.div_add_mod' d t
    have := Nat.mod_lt d ht
    omega
  have hlow : 2 ^ 31 * t ≤ d / t * t := Nat.mul_le_mul_right t hv
  have he : 0 < d / t * t := by omega
  refine ⟨Nat.div_le_div_left hle he, div_le_div_add_one he hle ?_⟩
  have hrest : d - d / t * t ≤ t - 1 := by omega
  calc n * (d - d / t * t) ≤ n * (t - 1) := Nat.mul_le_mul_left n hrest
    _ < 2 ^ 62 * (t * t) := mul_pred_lt hn ht
    _ = 2 ^ 31 * t * (2 ^ 31 * t) := by ring
    _ ≤ d * (d / t * t) := Nat.mul_le_mul (hlow.trans hle) hlow

/-! ### The functions -/

/-- The `divl` instruction with the dividend in `%edx:%eax`; `none` is a divide error. -/
def divl (n : BitVec 64) (d : BitVec 32) : Option (BitVec 32) :=
  let q := n.toNat / d.toNat
  if d = 0 ∨ 2 ^ 32 ≤ q then none else some (BitVec.ofNat 32 q)

/-- `if (x <= bound) { n += k; x <<= k; }`. -/
def shiftIf (bound : BitVec 32) (k : ℕ) (p : ℕ × BitVec 32) : ℕ × BitVec 32 :=
  if p.2 ≤ bound then (p.1 + k, p.2 <<< k) else p

def nlz (x : BitVec 32) : ℕ :=
  let p := shiftIf 0x0000FFFF 16 (0, x)
  let p := shiftIf 0x00FFFFFF 8 p
  let p := shiftIf 0x0FFFFFFF 4 p
  let p := shiftIf 0x3FFFFFFF 2 p
  if p.2 ≤ 0x7FFFFFFF then p.1 + 1 else p.1

/-- The division when `d` fits in 32 bits. -/
def udiv64Small (n d : BitVec 64) : Option (BitVec 64) := do
  let b := 1#64 <<< 32
  let n1 : BitVec 32 := (n >>> 32).setWidth 32
  let n0 : BitVec 32 := n.setWidth 32
  let d0 : BitVec 32 := d.setWidth 32
  let q ← divl (b * (n1 % d0).setWidth 64 + n0.setWidth 64) d0
  return q.setWidth 64 + b * (n1 / d0).setWidth 64

/-- The division when it does not. -/
def udiv64Large (n d : BitVec 64) : Option (BitVec 64) := do
  if n < d then return 0
  let d1 : BitVec 32 := (d >>> 32).setWidth 32
  let s := nlz d1
  let q0 ← divl (n >>> 1) (((d <<< s) >>> 32).setWidth 32)
  let q : BitVec 64 := (q0 >>> (31 - s)).setWidth 64
  return if n - (q - 1) * d < d then q - 1 else q

def udiv64 (n d : BitVec 64) : Option (BitVec 64) :=
  if d >>> 32 = 0 then udiv64Small n d else udiv64Large n d

/-- The result has 32 bits. -/
def umod64 (n d : BitVec 64) : Option (BitVec 32) := do
  let q ← udiv64 n d
  return (n - d * q).setWidth 32

/-- `x >= 0 ? (uint64_t) x : -(uint64_t) x`. -/
def magnitude (x : BitVec 64) : BitVec 64 := if (0 : BitVec 64).sle x then x else -x

def sdiv64 (n d : BitVec 64) : Option (BitVec 64) := do
  let q ← udiv64 (magnitude n) (magnitude d)
  return if n.slt 0 = d.slt 0 then q else -q

/-- The result has 32 bits. -/
def smod64 (n d : BitVec 64) : Option (BitVec 32) := do
  let q ← sdiv64 n d
  return (n - d * q).setWidth 32

def divdi3 (n d : BitVec 64) : Option (BitVec 64) := sdiv64 n d

def moddi3 (n d : BitVec 64) : Option (BitVec 64) := (smod64 n d).map (·.signExtend 64)

def udivdi3 (n d : BitVec 64) : Option (BitVec 64) := udiv64 n d

def umoddi3 (n d : BitVec 64) : Option (BitVec 64) := (umod64 n d).map (·.setWidth 64)

/-! ### Leading zeros -/

/-- `p` counts how far `x` has been shifted, without loss, and `lo` is reached. -/
structure Shifted (x : BitVec 32) (lo : ℕ) (p : ℕ × BitVec 32) : Prop where
  value : p.2.toNat = x.toNat * 2 ^ p.1
  low : lo ≤ p.2.toNat

theorem shiftIf_spec {x : BitVec 32} {lo : ℕ} {p : ℕ × BitVec 32} (bound : BitVec 32) (k lo' : ℕ)
    (h : Shifted x lo p) (hb : (bound.toNat + 1) * 2 ^ k = 2 ^ 32) (hlo : lo' ≤ lo * 2 ^ k)
    (hbound : lo' ≤ bound.toNat + 1) : Shifted x lo' (shiftIf bound k p) := by
  unfold shiftIf
  split
  · rename_i hle
    have hle' : p.2.toNat < bound.toNat + 1 := Nat.lt_succ_of_le hle
    have hfit : p.2.toNat * 2 ^ k < 2 ^ 32 :=
      hb ▸ Nat.mul_lt_mul_of_pos_right hle' (Nat.two_pow_pos k)
    have hval : (p.2 <<< k).toNat = p.2.toNat * 2 ^ k := by
      rw [BitVec.toNat_shiftLeft, Nat.shiftLeft_eq, Nat.mod_eq_of_lt hfit]
    constructor
    · rw [hval, h.value, Nat.pow_add, Nat.mul_assoc]
    · exact hval ▸ hlo.trans (Nat.mul_le_mul_right _ h.low)
  · rename_i hle
    have hlt : bound.toNat < p.2.toNat := Nat.lt_of_not_le hle
    exact ⟨h.value, by omega⟩

theorem nlz_spec {x : BitVec 32} (hx : x ≠ 0) :
    2 ^ 31 ≤ x.toNat * 2 ^ nlz x ∧ x.toNat * 2 ^ nlz x < 2 ^ 32 := by
  have hpos : 1 ≤ x.toNat := Nat.pos_of_ne_zero fun h => hx (BitVec.eq_of_toNat_eq h)
  have h₀ : Shifted x 1 (0, x) := ⟨by simp, hpos⟩
  have h₁ := shiftIf_spec 0x0000FFFF 16 (2 ^ 16) h₀ (by decide) (by decide) (by decide)
  have h₂ := shiftIf_spec 0x00FFFFFF 8 (2 ^ 24) h₁ (by decide) (by decide) (by decide)
  have h₃ := shiftIf_spec 0x0FFFFFFF 4 (2 ^ 28) h₂ (by decide) (by decide) (by decide)
  have h₄ := shiftIf_spec 0x3FFFFFFF 2 (2 ^ 30) h₃ (by decide) (by decide) (by decide)
  unfold nlz
  dsimp only
  generalize shiftIf 0x3FFFFFFF 2 _ = p at h₄ ⊢
  have hlow := h₄.low
  have hfit := p.2.isLt
  split
  · rename_i hle
    have hle' : p.2.toNat ≤ 0x7FFFFFFF := hle
    have hdouble : x.toNat * 2 ^ (p.1 + 1) = p.2.toNat * 2 := by
      rw [h₄.value, Nat.pow_succ, Nat.mul_assoc]
    rw [hdouble]
    omega
  · rename_i hle
    have hlt : 0x7FFFFFFF < p.2.toNat := Nat.lt_of_not_le hle
    rw [← h₄.value]
    omega

theorem nlz_le {x : BitVec 32} (hx : x ≠ 0) : nlz x ≤ 31 := by
  have hpos : 1 ≤ x.toNat := Nat.pos_of_ne_zero fun h => hx (BitVec.eq_of_toNat_eq h)
  have hlt : 2 ^ nlz x < 2 ^ 32 :=
    (Nat.le_mul_of_pos_left _ hpos).trans_lt (nlz_spec hx).2
  exact Nat.lt_succ_iff.mp ((Nat.pow_lt_pow_iff_right (by decide)).mp hlt)

/-! ### Unsigned division -/

theorem divl_eq {n : BitVec 64} {d : BitVec 32} (hd : 0 < d.toNat)
    (hq : n.toNat < 2 ^ 32 * d.toNat) :
    divl n d = some (BitVec.ofNat 32 (n.toNat / d.toNat)) := by
  have hlt : n.toNat / d.toNat < 2 ^ 32 := (Nat.div_lt_iff_lt_mul hd).mpr hq
  have hne : d ≠ 0 := by
    rintro rfl
    exact absurd hd (by decide)
  unfold divl
  rw [if_neg]
  rintro (h | h)
  · exact hne h
  · omega

theorem divl_toNat {n : BitVec 64} {d : BitVec 32} (hd : 0 < d.toNat)
    (hq : n.toNat < 2 ^ 32 * d.toNat) :
    ∃ q, divl n d = some q ∧ q.toNat = n.toNat / d.toNat := by
  have hlt : n.toNat / d.toNat < 2 ^ 32 := (Nat.div_lt_iff_lt_mul hd).mpr hq
  exact ⟨_, divl_eq hd hq, by rw [BitVec.toNat_ofNat, Nat.mod_eq_of_lt hlt]⟩

theorem toNat_high (n : BitVec 64) : ((n >>> 32).setWidth 32).toNat = n.toNat / 2 ^ 32 := by
  have := n.isLt
  rw [BitVec.toNat_setWidth, BitVec.toNat_ushiftRight, Nat.shiftRight_eq_div_pow,
    Nat.mod_eq_of_lt (by omega)]

theorem high_eq_zero {d : BitVec 64} : d >>> 32 = 0 ↔ d.toNat < 2 ^ 32 := by
  rw [← BitVec.toNat_inj, BitVec.toNat_ushiftRight, Nat.shiftRight_eq_div_pow]
  change d.toNat / 2 ^ 32 = 0 ↔ _
  omega

theorem udiv64Small_eq {n d : BitVec 64} (hd : d ≠ 0) (hs : d >>> 32 = 0) :
    udiv64Small n d = some (n / d) := by
  have hfit : d.toNat < 2 ^ 32 := high_eq_zero.mp hs
  have hpos : 0 < d.toNat := Nat.pos_of_ne_zero fun h => hd (BitVec.eq_of_toNat_eq h)
  set n₁ := n.toNat / 2 ^ 32 with hn₁
  set n₀ := n.toNat % 2 ^ 32 with hn₀
  have hd₀ : (d.setWidth 32).toNat = d.toNat := by
    rw [BitVec.toNat_setWidth, Nat.mod_eq_of_lt hfit]
  have hdigit : 2 ^ 32 * (n₁ % d.toNat) + n₀ < 2 ^ 32 * d.toNat :=
    digit_lt hpos (Nat.mod_lt _ (by decide))
  have hmod : n₁ % d.toNat < d.toNat := Nat.mod_lt _ hpos
  have hb : (1#64 <<< 32).toNat = 2 ^ 32 := by decide
  have hnext : (1#64 <<< 32 * ((n >>> 32).setWidth 32 % d.setWidth 32).setWidth 64 +
      (n.setWidth 32).setWidth 64).toNat = 2 ^ 32 * (n₁ % d.toNat) + n₀ := by
    rw [BitVec.toNat_add, BitVec.toNat_mul, hb, BitVec.toNat_setWidth, BitVec.toNat_umod, toNat_high,
      hd₀, BitVec.toNat_setWidth, BitVec.toNat_setWidth, ← hn₁, ← hn₀]
    omega
  obtain ⟨q, hq, hqv⟩ := divl_toNat (n := _) (d := d.setWidth 32) (by rwa [hd₀])
    (by rw [hnext, hd₀]; exact hdigit)
  rw [hnext, hd₀] at hqv
  unfold udiv64Small
  simp only [hq, Option.bind_eq_bind, Option.bind_some, Option.pure_def, Option.some_inj]
  apply BitVec.eq_of_toNat_eq
  rw [BitVec.toNat_udiv, BitVec.toNat_add, BitVec.toNat_mul, hb, BitVec.toNat_setWidth,
    BitVec.toNat_setWidth, BitVec.toNat_udiv, toNat_high, hd₀, hqv, ← hn₁]
  have hlong := long_division (2 ^ 32) n₁ n₀ hpos
  rw [Nat.div_add_mod] at hlong
  have hle : n.toNat / d.toNat ≤ n.toNat := Nat.div_le_self _ _
  have hle₁ : n₁ / d.toNat ≤ n₁ := Nat.div_le_self _ _
  have := n.isLt
  omega

/-- The divisor, shifted until its top bit is set, and its upper half. -/
theorem normalized {d : BitVec 64} {s : ℕ} (hs : s ≤ 32)
    (hlow : 2 ^ 31 ≤ d.toNat / 2 ^ 32 * 2 ^ s) (hfit : d.toNat / 2 ^ 32 * 2 ^ s < 2 ^ 32) :
    (((d <<< s) >>> 32).setWidth 32).toNat = d.toNat / 2 ^ (32 - s) ∧
      2 ^ 31 ≤ d.toNat / 2 ^ (32 - s) := by
  have hpow : 2 ^ 32 = 2 ^ (32 - s) * 2 ^ s := by rw [← Nat.pow_add, Nat.sub_add_cancel hs]
  have hshift : d.toNat * 2 ^ s / 2 ^ 32 = d.toNat / 2 ^ (32 - s) := by
    rw [hpow, Nat.mul_div_mul_right _ _ (Nat.two_pow_pos s)]
  have hhigh : d.toNat / 2 ^ 32 < 2 ^ (32 - s) :=
    Nat.lt_of_mul_lt_mul_right (a := 2 ^ s) (hfit.trans_eq hpow)
  have hd : d.toNat < 2 ^ 32 * 2 ^ (32 - s) := by
    rw [Nat.mul_comm]
    exact (Nat.div_lt_iff_lt_mul (by decide)).mp hhigh
  have hbig : d.toNat * 2 ^ s < 2 ^ 64 := by
    calc d.toNat * 2 ^ s < 2 ^ 32 * 2 ^ (32 - s) * 2 ^ s :=
          Nat.mul_lt_mul_of_pos_right hd (Nat.two_pow_pos s)
      _ = 2 ^ 64 := by
          rw [Nat.mul_assoc, ← hpow]
          norm_num
  refine ⟨?_, ?_⟩
  · rw [BitVec.toNat_setWidth, BitVec.toNat_ushiftRight, BitVec.toNat_shiftLeft, Nat.shiftLeft_eq,
      Nat.mod_eq_of_lt hbig, Nat.shiftRight_eq_div_pow, Nat.mod_eq_of_lt (by omega), hshift]
  · rw [← hshift]
    refine hlow.trans ((Nat.le_div_iff_mul_le (by decide)).mpr ?_)
    rw [Nat.mul_right_comm]
    exact Nat.mul_le_mul_right _ (Nat.div_mul_le_self _ _)

theorem toNat_sub_mul {n d q : BitVec 64} (h : q.toNat * d.toNat ≤ n.toNat) :
    (n - q * d).toNat = n.toNat - q.toNat * d.toNat := by
  have hfit : (q * d).toNat = q.toNat * d.toNat := by
    rw [BitVec.toNat_mul, Nat.mod_eq_of_lt (h.trans_lt n.isLt)]
  rw [BitVec.toNat_sub_of_le (by rw [BitVec.le_def, hfit]; exact h), hfit]

/-- An estimate that is at most one too large is corrected by looking at the remainder. -/
theorem corrected {n d q : BitVec 64} (hd : 0 < d.toNat) (hnd : d.toNat ≤ n.toNat)
    (hq : n.toNat / d.toNat ≤ q.toNat) (hq' : q.toNat ≤ n.toNat / d.toNat + 1) :
    (if n - (q - 1) * d < d then q - 1 else q) = n / d := by
  have hpos : 1 ≤ n.toNat / d.toNat := (Nat.one_le_div_iff hd).mpr hnd
  have hdm := Nat.div_add_mod' n.toNat d.toNat
  have hmod := Nat.mod_lt n.toNat hd
  have hpred : (q - 1).toNat = q.toNat - 1 := by
    rw [BitVec.toNat_sub_of_le (by rw [BitVec.le_def]; exact hpos.trans hq)]
    rfl
  rcases Nat.le_iff_lt_or_eq.mp hq with hlt | heq
  · have hsucc : q.toNat - 1 = n.toNat / d.toNat := by omega
    have hrest := toNat_sub_mul (n := n) (d := d) (q := q - 1)
      (by rw [hpred, hsucc]; exact Nat.div_mul_le_self _ _)
    rw [hpred, hsucc] at hrest
    rw [if_pos (by rw [BitVec.lt_def, hrest]; omega)]
    exact BitVec.eq_of_toNat_eq (by rw [hpred, hsucc, BitVec.toNat_udiv])
  · have hle : (q.toNat - 1) * d.toNat + d.toNat ≤ n.toNat := by
      rw [← heq, ← Nat.succ_mul, Nat.succ_eq_add_one, Nat.sub_add_cancel hpos]
      exact Nat.div_mul_le_self _ _
    have hrest := toNat_sub_mul (n := n) (d := d) (q := q - 1) (by rw [hpred]; omega)
    rw [hpred] at hrest
    rw [if_neg (by rw [BitVec.lt_def, hrest]; omega)]
    exact BitVec.eq_of_toNat_eq (by rw [← heq, BitVec.toNat_udiv])

theorem udiv64Large_eq {n d : BitVec 64} (hs : d >>> 32 ≠ 0) : udiv64Large n d = some (n / d) := by
  have hd : 2 ^ 32 ≤ d.toNat := Nat.le_of_not_lt fun h => hs (high_eq_zero.mpr h)
  unfold udiv64Large
  by_cases hnd : n < d
  · rw [if_pos hnd, BitVec.udiv_eq_zero_iff_eq_zero_or_lt.mpr (Or.inr hnd)]
    rfl
  rw [if_neg hnd]
  have hne : (d >>> 32).setWidth 32 ≠ 0 := by
    rw [Ne, ← BitVec.toNat_inj, toNat_high]
    change d.toNat / 2 ^ 32 ≠ 0
    omega
  dsimp only
  obtain ⟨hlow, hfit⟩ := nlz_spec hne
  have hle := nlz_le hne
  rw [toNat_high] at hlow hfit
  generalize nlz ((d >>> 32).setWidth 32) = s at hlow hfit hle ⊢
  obtain ⟨hv, hv31⟩ := normalized (by omega) hlow hfit
  set v := d.toNat / 2 ^ (32 - s) with hvdef
  have hhalf : (n >>> 1).toNat = n.toNat / 2 := by
    rw [BitVec.toNat_ushiftRight, Nat.shiftRight_eq_div_pow]
  have hn := n.isLt
  obtain ⟨q, hq, hqv⟩ := divl_toNat (n := n >>> 1) (d := ((d <<< s) >>> 32).setWidth 32)
    (by rw [hv]; omega) (by rw [hhalf, hv]; omega)
  have hpow : 2 * 2 ^ (31 - s) = 2 ^ (32 - s) := by
    rw [← Nat.pow_succ', Nat.succ_eq_add_one]
    congr 1
    omega
  have hest : ((q >>> (31 - s)).setWidth 64).toNat = n.toNat / (v * 2 ^ (32 - s)) := by
    have hqlt : q.toNat / 2 ^ (31 - s) ≤ q.toNat := Nat.div_le_self _ _
    have := q.isLt
    rw [BitVec.toNat_setWidth, BitVec.toNat_ushiftRight, Nat.shiftRight_eq_div_pow,
      Nat.mod_eq_of_lt (by omega), hqv, hhalf, hv, Nat.div_div_eq_div_mul, Nat.div_div_eq_div_mul,
      ← hpow]
    congr 1
    ring
  obtain ⟨hlo, hhi⟩ := div_truncated hn (Nat.two_pow_pos (32 - s)) hv31
  rw [hq]
  refine congrArg some (corrected (by omega) (Nat.le_of_not_lt hnd) ?_ ?_)
  · rw [hest]; exact hlo
  · rw [hest]; exact hhi

theorem udiv64_eq {n d : BitVec 64} (hd : d ≠ 0) : udiv64 n d = some (n / d) := by
  unfold udiv64
  split
  · rename_i hs
    exact udiv64Small_eq hd hs
  · rename_i hs
    exact udiv64Large_eq hs

/-! ### Signed division -/

theorem magnitude_eq (x : BitVec 64) : magnitude x = if x.msb then -x else x := by
  unfold magnitude
  rw [show (0 : BitVec 64).sle x = !x.msb from BitVec.zero_sle_eq_not_msb]
  cases x.msb <;> rfl

theorem magnitude_ne {x : BitVec 64} (hx : x ≠ 0) : magnitude x ≠ 0 := by
  rw [magnitude_eq]
  split
  · exact fun h => hx (BitVec.neg_eq_zero_iff.mp h)
  · exact hx

theorem sdiv64_eq {n d : BitVec 64} (hd : d ≠ 0) : sdiv64 n d = some (n.sdiv d) := by
  have hn : n.slt 0 = n.msb := BitVec.slt_zero_eq_msb
  have hd' : d.slt 0 = d.msb := BitVec.slt_zero_eq_msb
  unfold sdiv64
  rw [udiv64_eq (magnitude_ne hd), magnitude_eq, magnitude_eq, hn, hd', BitVec.sdiv_eq]
  cases n.msb <;> cases d.msb <;> rfl

/-- The most negative number. -/
def int64Min : BitVec 64 := BitVec.intMin 64

/-- The quotients are exact, and no division traps on the way. -/
theorem division (n d : BitVec 64) (hd : d ≠ 0) :
    (∃ q, udivdi3 n d = some q ∧ q.toNat = n.toNat / d.toNat) ∧
      ∃ q, divdi3 n d = some q ∧ q = BitVec.ofInt 64 (n.toInt.tdiv d.toInt) ∧
        (n ≠ int64Min ∨ d ≠ -1 → q.toInt = n.toInt.tdiv d.toInt) := by
  refine ⟨⟨n / d, udiv64_eq hd, BitVec.toNat_udiv⟩, n.sdiv d, sdiv64_eq hd, ?_, ?_⟩
  · apply BitVec.eq_of_toInt_eq
    rw [BitVec.toInt_sdiv, BitVec.toInt_ofInt]
  · exact BitVec.toInt_sdiv_of_ne_or_ne n d

theorem division_large :
    (∃ q, udivdi3 (2 ^ 63) (2 ^ 33 + 1) = some q ∧
        q.toNat = (2 ^ 63 : BitVec 64).toNat / (2 ^ 33 + 1 : BitVec 64).toNat) ∧
      ∃ q, divdi3 (2 ^ 63) (2 ^ 33 + 1) = some q ∧
        q = BitVec.ofInt 64 ((2 ^ 63 : BitVec 64).toInt.tdiv (2 ^ 33 + 1 : BitVec 64).toInt) ∧
        ((2 ^ 63 : BitVec 64) ≠ int64Min ∨ (2 ^ 33 + 1 : BitVec 64) ≠ -1 →
          q.toInt = (2 ^ 63 : BitVec 64).toInt.tdiv (2 ^ 33 + 1 : BitVec 64).toInt) :=
  division (2 ^ 63) (2 ^ 33 + 1) (by decide)

/-! ### Remainders -/

/-- `n` is less than `bound` above a multiple of `d`. -/
def Above (bound n d : ℕ) : Prop := ∃ q, q * d ≤ n ∧ n < q * d + bound

theorem above_iff {bound n d : ℕ} (hd : 0 < d) : Above bound n d ↔ n % d < bound := by
  have hdm := Nat.div_add_mod' n d
  constructor
  · rintro ⟨q, hle, hlt⟩
    have hq : q * d ≤ n / d * d := Nat.mul_le_mul_right d ((Nat.le_div_iff_mul_le hd).mpr hle)
    omega
  · intro h
    exact ⟨n / d, by omega, by omega⟩

theorem umoddi3_eq {n d : BitVec 64} (hd : d ≠ 0) :
    ∃ r, umoddi3 n d = some r ∧ r.toNat = n.toNat % d.toNat % 2 ^ 32 := by
  have hle : (n / d).toNat * d.toNat ≤ n.toNat := by
    rw [BitVec.toNat_udiv]
    exact Nat.div_mul_le_self _ _
  have hrest : (n - d * (n / d)).toNat = n.toNat % d.toNat := by
    have hdm := Nat.div_add_mod' n.toNat d.toNat
    rw [BitVec.mul_comm, toNat_sub_mul hle, BitVec.toNat_udiv]
    omega
  refine ⟨_, by rw [umoddi3, umod64, udiv64_eq hd]; rfl, ?_⟩
  have hlt := Nat.mod_lt (n.toNat % d.toNat) (show 0 < 2 ^ 32 by decide)
  rw [BitVec.toNat_setWidth, BitVec.toNat_setWidth, hrest, Nat.mod_eq_of_lt (by omega)]

/-- A 64-bit number that is cut to 32 bits and extended again. -/
theorem toInt_cut (x : BitVec 64) :
    ((x.setWidth 32).signExtend 64).toInt = x.toInt.bmod (2 ^ 32) := by
  rw [BitVec.toInt_signExtend_of_le (by decide), BitVec.toInt_setWidth, BitVec.toInt_eq_toNat_bmod,
    Int.bmod_bmod_of_dvd (by decide)]

theorem toInt_rest (n d : BitVec 64) : (n - d * n.sdiv d).toInt = n.toInt.tmod d.toInt := by
  have hsrem : (n.toInt.tmod d.toInt).bmod (2 ^ 64) = n.toInt.tmod d.toInt := by
    rw [← BitVec.toInt_srem, BitVec.toInt_bmod_cancel]
  rw [BitVec.toInt_sub, BitVec.toInt_mul, BitVec.toInt_sdiv, Int.mul_bmod_bmod, Int.sub_bmod_bmod,
    ← Int.tmod_def, hsrem]

theorem moddi3_eq {n d : BitVec 64} (hd : d ≠ 0) :
    ∃ r, moddi3 n d = some r ∧ r.toInt = (n.toInt.tmod d.toInt).bmod (2 ^ 32) := by
  refine ⟨_, by rw [moddi3, smod64, sdiv64_eq hd]; rfl, ?_⟩
  rw [toInt_cut, toInt_rest]

theorem bmod_eq_self_iff {r : ℤ} : r.bmod (2 ^ 32) = r ↔ -2 ^ 31 ≤ r ∧ r < 2 ^ 31 := by
  rw [Int.bmod_def]
  omega

/-- The remainder of `n` by `d`, with the sign of `n`, fits in 32 bits. -/
theorem fits_iff {n d : ℤ} (hd : d ≠ 0) :
    (-2 ^ 31 ≤ n.tmod d ∧ n.tmod d < 2 ^ 31) ↔
      Above (if n < 0 then 2 ^ 31 + 1 else 2 ^ 31) n.natAbs d.natAbs := by
  rw [above_iff (Int.natAbs_pos.mpr hd), ← Int.natAbs_tmod]
  by_cases hn : n < 0
  · have hneg : 0 ≤ (-n).tmod d := Int.tmod_nonneg d (by omega)
    rw [Int.neg_tmod] at hneg
    rw [if_pos hn]
    omega
  · have hpos : 0 ≤ n.tmod d := Int.tmod_nonneg d (Int.not_lt.mp hn)
    rw [if_neg hn]
    omega

/-- `__umoddi3` gives the remainder. -/
def UnsignedRemainder (n d : BitVec 64) : Prop :=
  ∃ r, umoddi3 n d = some r ∧ r.toNat = n.toNat % d.toNat

/-- `__moddi3` gives the remainder of the truncated quotient. -/
def SignedRemainder (n d : BitVec 64) : Prop :=
  ∃ r, moddi3 n d = some r ∧ r.toInt = n.toInt - d.toInt * n.toInt.tdiv d.toInt

theorem unsignedRemainder_iff {n d : BitVec 64} (hd : d ≠ 0) :
    UnsignedRemainder n d ↔ Above (2 ^ 32) n.toNat d.toNat := by
  have hpos : 0 < d.toNat := Nat.pos_of_ne_zero fun h => hd (BitVec.eq_of_toNat_eq h)
  obtain ⟨r, hr, hrv⟩ := umoddi3_eq (n := n) hd
  rw [above_iff hpos]
  constructor
  · rintro ⟨r', hr', hv⟩
    obtain rfl : r = r' := Option.some_inj.mp (hr.symm.trans hr')
    rw [← hv, hrv]
    exact Nat.mod_lt _ (by decide)
  · intro hlt
    exact ⟨r, hr, by rw [hrv, Nat.mod_eq_of_lt hlt]⟩

theorem signedRemainder_iff {n d : BitVec 64} (hd : d ≠ 0) :
    SignedRemainder n d ↔
      Above (if n.toInt < 0 then 2 ^ 31 + 1 else 2 ^ 31) n.toInt.natAbs d.toInt.natAbs := by
  have hd' : d.toInt ≠ 0 := fun h => hd (BitVec.eq_of_toInt_eq h)
  obtain ⟨r, hr, hrv⟩ := moddi3_eq (n := n) hd
  rw [← fits_iff hd', ← bmod_eq_self_iff]
  constructor
  · rintro ⟨r', hr', hv⟩
    obtain rfl : r = r' := Option.some_inj.mp (hr.symm.trans hr')
    rw [← hrv, hv, Int.tmod_def]
  · intro h
    exact ⟨r, hr, by rw [hrv, h, Int.tmod_def]⟩

/-- The remainders are right if and only if the low 32 bits hold them. -/
theorem remainder (n d : BitVec 64) (hd : d ≠ 0) :
    (UnsignedRemainder n d ↔ Above (2 ^ 32) n.toNat d.toNat) ∧
      (SignedRemainder n d ↔
        Above (if n.toInt < 0 then 2 ^ 31 + 1 else 2 ^ 31) n.toInt.natAbs d.toInt.natAbs) :=
  ⟨unsignedRemainder_iff hd, signedRemainder_iff hd⟩

theorem remainder_seven :
    (UnsignedRemainder 100 7 ↔ Above (2 ^ 32) (100 : BitVec 64).toNat (7 : BitVec 64).toNat) ∧
      (SignedRemainder 100 7 ↔ Above (if (100 : BitVec 64).toInt < 0 then 2 ^ 31 + 1 else 2 ^ 31)
        (100 : BitVec 64).toInt.natAbs (7 : BitVec 64).toInt.natAbs) :=
  remainder 100 7 (by decide)

/-- The remainder of `2 ^ 32` by `2 ^ 32 + 1` is `2 ^ 32`, and both functions return 0. -/
theorem remainder_cut :
    ¬ UnsignedRemainder (2 ^ 32) (2 ^ 32 + 1) ∧ ¬ SignedRemainder (2 ^ 32) (2 ^ 32 + 1) := by
  have hu : umoddi3 (2 ^ 32) (2 ^ 32 + 1) = some 0 := by decide
  have hs : moddi3 (2 ^ 32) (2 ^ 32 + 1) = some 0 := by decide
  constructor
  · rintro ⟨r, hr, hv⟩
    obtain rfl : 0 = r := Option.some_inj.mp (hu.symm.trans hr)
    exact absurd hv (by decide)
  · rintro ⟨r, hr, hv⟩
    obtain rfl : 0 = r := Option.some_inj.mp (hs.symm.trans hr)
    exact absurd hv (by decide)

end CSE130.Lab3.Arithmetic
