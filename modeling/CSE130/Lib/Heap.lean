import CSE130.Lib.Comparator
import Mathlib.Logic.Equiv.Basic
import Mathlib.Algebra.Ring.Nat
import Mathlib.Algebra.Order.Ring.Nat
import Mathlib.Algebra.Group.End

/-! # Heaps in arrays

An array is a function of indexes, the first of which is 1; the children of the index `p` are `2 * p`
and `2 * p + 1`.  In a heap no child comes after its parent in the order of a comparator.  `sift` moves
the value at one index down to where it belongs, and `heapSort` builds a heap from the leaves upwards
and then takes its greatest values off one after the other.

The functions are partial: the number of rounds that one `sift` may take is a parameter, and
`cnt < 2 ^ fuel` is enough for an array of `cnt` values (`heapSort_spec`). -/

namespace CSE130.Heap

variable {α : Type*} {f : α → α → ℤ} {a a' a'' : ℕ → α} {l : List α}
  {lo lo' hi hi' cnt fuel i j k p c : ℕ}

/-! ### Rearrangements -/

/-- The values between two indexes have been permuted. -/
def Rearranged (lo hi : ℕ) (a a' : ℕ → α) : Prop :=
  ∃ σ : Equiv.Perm ℕ, (∀ k, k < lo ∨ hi < k → σ k = k) ∧ a' = a ∘ σ

namespace Rearranged

theorem refl : Rearranged lo hi a a := ⟨1, fun _ _ => rfl, rfl⟩

theorem trans (h : Rearranged lo hi a a') (h' : Rearranged lo hi a' a'') :
    Rearranged lo hi a a'' := by
  obtain ⟨σ, hσ, rfl⟩ := h
  obtain ⟨τ, hτ, rfl⟩ := h'
  refine ⟨σ * τ, fun k hk => ?_, rfl⟩
  rw [Equiv.Perm.mul_apply, hτ k hk, hσ k hk]

theorem mono (h : Rearranged lo hi a a') (hlo : lo' ≤ lo) (hhi : hi ≤ hi') :
    Rearranged lo' hi' a a' := by
  obtain ⟨σ, hσ, rfl⟩ := h
  exact ⟨σ, fun k hk => hσ k (by omega), rfl⟩

theorem swap (h₁ : lo ≤ i ∧ i ≤ hi) (h₂ : lo ≤ j ∧ j ≤ hi) :
    Rearranged lo hi a (a ∘ Equiv.swap i j) :=
  ⟨Equiv.swap i j, fun _ _ => Equiv.swap_apply_of_ne_of_ne (by omega) (by omega), rfl⟩

theorem outside (h : Rearranged lo hi a a') (hk : k < lo ∨ hi < k) : a' k = a k := by
  obtain ⟨σ, hσ, rfl⟩ := h
  exact congrArg a (hσ k hk)

theorem inside (h : Rearranged lo hi a a') (hk : lo ≤ k ∧ k ≤ hi) :
    ∃ j, lo ≤ j ∧ j ≤ hi ∧ a' k = a j := by
  obtain ⟨σ, hσ, rfl⟩ := h
  have hmem : ¬ (σ k < lo ∨ hi < σ k) := by
    intro hout
    have := σ.injective (hσ (σ k) hout)
    omega
  exact ⟨σ k, by omega, by omega, rfl⟩

end Rearranged

/-- The values of an array of `cnt` elements. -/
def elements (cnt : ℕ) (a : ℕ → α) : List α := (List.range' 1 cnt).map a

@[simp] theorem length_elements : (elements cnt a).length = cnt := by simp [elements]

theorem getElem_elements (hk : k < (elements cnt a).length) : (elements cnt a)[k] = a (k + 1) := by
  simp [elements, Nat.add_comm]

theorem mem_elements (hk : 1 ≤ k ∧ k ≤ cnt) : a k ∈ elements cnt a :=
  List.mem_map_of_mem (List.mem_range'_1.mpr (by omega))

theorem Rearranged.perm (h : Rearranged 1 cnt a a') : (elements cnt a').Perm (elements cnt a) := by
  obtain ⟨σ, hσ, rfl⟩ := h
  have hmem : ∀ k, σ k ∈ List.range' 1 cnt ↔ k ∈ List.range' 1 cnt := by
    intro k
    simp only [List.mem_range'_1]
    by_cases hk : k < 1 ∨ cnt < k
    · rw [hσ k hk]
    · by_cases hk' : σ k < 1 ∨ cnt < σ k
      · have := σ.injective (hσ (σ k) hk')
        omega
      · omega
  have hrange : ((List.range' 1 cnt).map σ).Perm (List.range' 1 cnt) := by
    apply (List.perm_ext_iff_of_nodup (List.Nodup.map σ.injective List.nodup_range') List.nodup_range').mpr
    intro k
    rw [← hmem k, List.mem_map]
    constructor
    · rintro ⟨j, hj, rfl⟩
      exact (hmem _).mpr ((hmem j).mpr hj)
    · intro hk
      refine ⟨σ.symm k, ?_, σ.apply_symm_apply k⟩
      rw [← hmem, σ.apply_symm_apply, ← hmem]
      exact hk
  have := hrange.map a
  rwa [List.map_map] at this

/-! ### Heaps -/

/-- The index `c` is a child of `p`. -/
def Child (p c : ℕ) : Prop := c = 2 * p ∨ c = 2 * p + 1

/-- From `lo` on, no child comes after its parent. -/
def HeapFrom (f : α → α → ℤ) (lo cnt : ℕ) (a : ℕ → α) : Prop :=
  ∀ p c, lo ≤ p → Child p c → c ≤ cnt → f (a c) (a p) ≤ 0

/-- A heap but for the value at `i`, which may come before those of its children. -/
structure HeapBut (f : α → α → ℤ) (lo cnt i : ℕ) (a : ℕ → α) : Prop where
  others : ∀ p c, lo ≤ p → p ≠ i → Child p c → c ≤ cnt → f (a c) (a p) ≤ 0
  past : ∀ p c, lo ≤ p → Child p i → Child i c → c ≤ cnt → f (a c) (a p) ≤ 0

/-- The values that the comparator is asked about are in the list `l`. -/
def Within (l : List α) (cnt : ℕ) (a : ℕ → α) : Prop := ∀ k, 1 ≤ k → k ≤ cnt → a k ∈ l

theorem within_elements : Within (elements cnt a) cnt a := fun _ h h' => mem_elements ⟨h, h'⟩

theorem Within.rearranged (h : Within l cnt a) (hr : Rearranged 1 cnt a a') : Within l cnt a' := by
  intro k hk hk'
  obtain ⟨j, hj, hj', heq⟩ := hr.inside ⟨hk, hk'⟩
  rw [heq]
  exact h j hj hj'

theorem Within.mono (h : Within l cnt a) (hc : hi ≤ cnt) : Within l hi a :=
  fun k hk hk' => h k hk (hk'.trans hc)

/-- The first value of a heap is a greatest one. -/
theorem HeapFrom.root (h : HeapFrom f 1 cnt a) (hf : Comparator.Consistent f l)
    (hl : Within l cnt a) (hk : 1 ≤ k) (hk' : k ≤ cnt) : f (a k) (a 1) ≤ 0 := by
  induction k using Nat.strong_induction_on with
  | _ k ih =>
    by_cases h1 : k = 1
    · have := hf.total (hl k hk hk') (hl k hk hk')
      rw [h1] at this ⊢
      omega
    · have hchild : Child (k / 2) k := by unfold Child; omega
      apply hf.trans _ (hl k hk hk') _ (hl (k / 2) (by omega) (by omega)) _ (hl 1 le_rfl (by omega))
      · exact h (k / 2) k (by omega) hchild hk'
      · exact ih (k / 2) (by omega) (by omega) (by omega)

/-- Without the leaves there is nothing to compare. -/
theorem heapFrom_half : HeapFrom f (cnt / 2 + 1) cnt a := by
  intro p c hp hc hcnt
  unfold Child at hc
  omega

theorem HeapFrom.but (h : HeapFrom f (i + 1) cnt a) (h₁ : 1 ≤ i) : HeapBut f i cnt i a where
  others p c hp hne hc hcnt := h p c (by omega) hc hcnt
  past p c hp hchild := by
    unfold Child at hchild
    omega

/-! ### Sifting -/

/-- The index of a greatest value among those at `i` and its children. -/
def greatest (f : α → α → ℤ) (cnt i : ℕ) (a : ℕ → α) : ℕ :=
  let max := if 2 * i ≤ cnt ∧ 0 < f (a (2 * i)) (a i) then 2 * i else i
  if 2 * i + 1 ≤ cnt ∧ 0 < f (a (2 * i + 1)) (a max) then 2 * i + 1 else max

/-- Exchange the value at `i` with that of its greatest child until none is greater. -/
def sift (f : α → α → ℤ) (cnt : ℕ) : ℕ → ℕ → (ℕ → α) → Option (ℕ → α)
  | 0, _, _ => none
  | fuel + 1, i, a =>
      if greatest f cnt i a = i then some a
      else sift f cnt fuel (greatest f cnt i a) (a ∘ Equiv.swap i (greatest f cnt i a))

theorem greatest_mem (h₁ : 1 ≤ i) (h₂ : i ≤ cnt) :
    1 ≤ greatest f cnt i a ∧ greatest f cnt i a ≤ cnt := by
  unfold greatest
  simp only
  split_ifs <;> omega

theorem greatest_eq_or (hf : Comparator.Consistent f l) (hl : Within l cnt a) (h₁ : 1 ≤ i)
    (h₂ : i ≤ cnt) : greatest f cnt i a = i ∨
      Child i (greatest f cnt i a) ∧ greatest f cnt i a ≤ cnt ∧
        f (a i) (a (greatest f cnt i a)) ≤ 0 := by
  have hmem := hl i h₁ h₂
  unfold greatest Child
  simp only
  split_ifs with hleft hright hright
  · have hswap := hf.swap _ hmem _ (hl _ (by omega) hleft.1)
    have hswap' := hf.swap _ (hl _ (by omega) hleft.1) _ (hl _ (by omega) hright.1)
    refine Or.inr ⟨Or.inr rfl, hright.1, ?_⟩
    apply hf.trans _ hmem _ (hl _ (by omega) hleft.1) _ (hl _ (by omega) hright.1)
    · omega
    · omega
  · have hswap := hf.swap _ hmem _ (hl _ (by omega) hleft.1)
    exact Or.inr ⟨Or.inl rfl, hleft.1, by omega⟩
  · have hswap := hf.swap _ hmem _ (hl _ (by omega) hright.1)
    exact Or.inr ⟨Or.inr rfl, hright.1, by omega⟩
  · exact Or.inl rfl

theorem le_greatest (hf : Comparator.Consistent f l) (hl : Within l cnt a) (h₁ : 1 ≤ i)
    (h₂ : i ≤ cnt) (hc : Child i c) (hle : c ≤ cnt) : f (a c) (a (greatest f cnt i a)) ≤ 0 := by
  have hmem := hl i h₁ h₂
  have hmemc := hl c (by unfold Child at hc; omega) hle
  have hrefl := hf.swap _ hmemc _ hmemc
  unfold greatest
  simp only
  rcases hc with rfl | rfl
  · split_ifs with hleft hright hright
    · have := hf.swap _ hmemc _ (hl _ (by omega) hright.1)
      omega
    · omega
    · have hmemr := hl _ (by omega) hright.1
      have := hf.swap _ hmem _ hmemr
      exact hf.trans _ hmemc _ hmem _ hmemr (by omega) (by omega)
    · omega
  · split_ifs
    all_goals omega

/-- An exchange with the greatest child moves the exception to that child. -/
theorem HeapBut.swap (h : HeapBut f lo cnt i a) (hf : Comparator.Consistent f l)
    (hl : Within l cnt a) (hlo : 1 ≤ lo) (h₁ : lo ≤ i) (h₂ : i ≤ cnt)
    (hne : greatest f cnt i a ≠ i) :
    HeapBut f lo cnt (greatest f cnt i a) (a ∘ Equiv.swap i (greatest f cnt i a)) := by
  have hmax : ∀ c, Child i c → c ≤ cnt → f (a c) (a (greatest f cnt i a)) ≤ 0 :=
    fun c => le_greatest hf hl (hlo.trans h₁) h₂
  obtain ⟨hchild, hle, hlt⟩ := (greatest_eq_or hf hl (hlo.trans h₁) h₂).resolve_left hne
  generalize greatest f cnt i a = m at *
  have hi : (a ∘ Equiv.swap i m) i = a m := congrArg a (Equiv.swap_apply_left i m)
  have hm : (a ∘ Equiv.swap i m) m = a i := congrArg a (Equiv.swap_apply_right i m)
  have hk : ∀ k, k ≠ i → k ≠ m → (a ∘ Equiv.swap i m) k = a k :=
    fun k hki hkm => congrArg a (Equiv.swap_apply_of_ne_of_ne hki hkm)
  constructor
  · intro p c hp hpm hc hcnt
    by_cases hpi : p = i
    · subst hpi
      rw [hi]
      by_cases hcm : c = m
      · rw [hcm, hm]
        exact hlt
      · rw [hk c (by unfold Child at hc; omega) hcm]
        exact hmax c hc hcnt
    · rw [hk p hpi hpm]
      by_cases hci : c = i
      · rw [hci, hi]
        exact h.past p m hp (hci ▸ hc) hchild hle
      · rw [hk c hci (by unfold Child at hc hchild; omega)]
        exact h.others p c hp hpi hc hcnt
  · intro p c hp hpm hmc hcnt
    obtain rfl : p = i := by
      unfold Child at hpm hchild
      omega
    rw [hi, hk c (by unfold Child at hchild hmc; omega) (by unfold Child at hchild hmc; omega)]
    exact h.others m c (by unfold Child at hchild; omega) hne hmc hcnt

/-- No exchange is wanted, so there is no exception. -/
theorem HeapBut.heapFrom (h : HeapBut f lo cnt i a) (hf : Comparator.Consistent f l)
    (hl : Within l cnt a) (hlo : 1 ≤ lo) (h₁ : lo ≤ i) (h₂ : i ≤ cnt)
    (heq : greatest f cnt i a = i) : HeapFrom f lo cnt a := by
  intro p c hp hc hcnt
  by_cases hpi : p = i
  · subst hpi
    have := le_greatest hf hl (hlo.trans h₁) h₂ hc hcnt
    rwa [heq] at this
  · exact h.others p c hp hpi hc hcnt

/-- **Sifting restores the heap**, and `cnt < i * 2 ^ fuel` rounds are enough, as each of them
at least doubles the index. -/
theorem sift_spec (hf : Comparator.Consistent f l) (hlo : 1 ≤ lo) :
    ∀ {fuel i : ℕ} {a : ℕ → α}, Within l cnt a → HeapBut f lo cnt i a → lo ≤ i → i ≤ cnt →
      cnt < i * 2 ^ fuel →
      ∃ a', sift f cnt fuel i a = some a' ∧ Rearranged i cnt a a' ∧ HeapFrom f lo cnt a' := by
  intro fuel
  induction fuel with
  | zero =>
      intro i a _ _ _ h₂ hfuel
      omega
  | succ fuel ih =>
      intro i a hl h h₁ h₂ hfuel
      unfold sift
      by_cases heq : greatest f cnt i a = i
      · rw [if_pos heq]
        exact ⟨a, rfl, .refl, h.heapFrom hf hl hlo h₁ h₂ heq⟩
      · obtain ⟨hchild, hle, -⟩ := (greatest_eq_or hf hl (hlo.trans h₁) h₂).resolve_left heq
        have hdouble : 2 * i ≤ greatest f cnt i a := by
          unfold Child at hchild
          omega
        have hswap : Rearranged i cnt a (a ∘ Equiv.swap i (greatest f cnt i a)) :=
          .swap ⟨le_rfl, h₂⟩ ⟨by omega, hle⟩
        have hrounds : cnt < greatest f cnt i a * 2 ^ fuel := by
          calc cnt < i * 2 ^ (fuel + 1) := hfuel
            _ = 2 * i * 2 ^ fuel := by rw [Nat.pow_succ', ← Nat.mul_assoc, Nat.mul_comm i]
            _ ≤ greatest f cnt i a * 2 ^ fuel := Nat.mul_le_mul_right _ hdouble
        obtain ⟨a', hsift, hr, hheap⟩ := ih (hl.rearranged (hswap.mono (by omega) le_rfl))
          (h.swap hf hl hlo h₁ h₂ heq) (by omega) hle hrounds
        rw [if_neg heq]
        exact ⟨a', hsift, hswap.trans (hr.mono (by omega) le_rfl), hheap⟩

/-! ### Sorting -/

/-- Make a heap of the values from `i` down to the first. -/
def build (f : α → α → ℤ) (cnt fuel : ℕ) : ℕ → (ℕ → α) → Option (ℕ → α)
  | 0, a => some a
  | i + 1, a => (sift f cnt fuel (i + 1) a).bind (build f cnt fuel i)

/-- Put the greatest value of the heap of `i` values behind the others, and so on. -/
def unload (f : α → α → ℤ) (fuel : ℕ) : ℕ → (ℕ → α) → Option (ℕ → α)
  | 0, a => some a
  | i + 1, a =>
      if i = 0 then some a
      else (sift f i fuel 1 (a ∘ Equiv.swap 1 (i + 1))).bind (unload f fuel i)

/-- The heap sort. -/
def heapSort (f : α → α → ℤ) (cnt fuel : ℕ) (a : ℕ → α) : Option (ℕ → α) :=
  (build f cnt fuel (cnt / 2) a).bind (unload f fuel cnt)

theorem build_spec (hf : Comparator.Consistent f l) (hfuel : cnt < 2 ^ fuel) :
    ∀ {i : ℕ} {a : ℕ → α}, Within l cnt a → i ≤ cnt → HeapFrom f (i + 1) cnt a →
      ∃ a', build f cnt fuel i a = some a' ∧ Rearranged 1 cnt a a' ∧ HeapFrom f 1 cnt a' := by
  intro i
  induction i with
  | zero =>
      intro a _ _ h
      exact ⟨a, rfl, .refl, h⟩
  | succ i ih =>
      intro a hl hi h
      have hrounds : cnt < (i + 1) * 2 ^ fuel := hfuel.trans_le (Nat.le_mul_of_pos_left _ (by omega))
      obtain ⟨a₁, hsift, hr, hheap⟩ := sift_spec hf (Nat.le_add_left 1 i) hl (h.but (by omega)) le_rfl
        hi hrounds
      have hr : Rearranged 1 cnt a a₁ := hr.mono (by omega) le_rfl
      obtain ⟨a', hbuild, hr', hheap'⟩ := ih (hl.rearranged hr) (by omega) hheap
      refine ⟨a', ?_, hr.trans hr', hheap'⟩
      rw [build, hsift, Option.bind_some, hbuild]

/-- The values behind the first `i` are where they belong. -/
def Placed (f : α → α → ℤ) (i cnt : ℕ) (a : ℕ → α) : Prop :=
  ∀ j k, 1 ≤ j → j < k → i < k → k ≤ cnt → f (a j) (a k) ≤ 0

theorem Placed.rearranged (h : Placed f i cnt a) (hr : Rearranged 1 i a a') : Placed f i cnt a' := by
  intro j k hj hjk hik hk
  rw [hr.outside (Or.inr hik)]
  by_cases hji : j ≤ i
  · obtain ⟨j', hj', hji', heq⟩ := hr.inside ⟨hj, hji⟩
    rw [heq]
    exact h j' k hj' (by omega) hik hk
  · rw [hr.outside (Or.inr (by omega))]
    exact h j k hj hjk hik hk

theorem Placed.swap (h : Placed f (i + 1) cnt a) (hheap : HeapFrom f 1 (i + 1) a)
    (hf : Comparator.Consistent f l) (hl : Within l cnt a) (hi : i + 1 ≤ cnt) :
    Placed f i cnt (a ∘ Equiv.swap 1 (i + 1)) := by
  have hr : Rearranged 1 (i + 1) a (a ∘ Equiv.swap 1 (i + 1)) := .swap (by omega) (by omega)
  intro j k hj hjk hik hk
  by_cases hki : k = i + 1
  · obtain ⟨j', hj', hji', heq⟩ := hr.inside (k := j) (by omega)
    rw [heq, hki, Function.comp_apply, Equiv.swap_apply_right]
    exact hheap.root hf (hl.mono hi) hj' hji'
  · exact h.rearranged hr j k hj hjk (by omega) hk

/-- Of the heap without its greatest value only the first index is an exception. -/
theorem HeapFrom.swap_last (h : HeapFrom f 1 (i + 1) a) :
    HeapBut f 1 i 1 (a ∘ Equiv.swap 1 (i + 1)) where
  others p c hp hne hc hcnt := by
    have hp' : (a ∘ Equiv.swap 1 (i + 1)) p = a p :=
      congrArg a (Equiv.swap_apply_of_ne_of_ne hne (by unfold Child at hc; omega))
    have hc' : (a ∘ Equiv.swap 1 (i + 1)) c = a c :=
      congrArg a (Equiv.swap_apply_of_ne_of_ne (by unfold Child at hc; omega) (by omega))
    rw [hp', hc']
    exact h p c hp hc (by omega)
  past p c hp hchild := by
    unfold Child at hchild
    omega

theorem unload_spec (hf : Comparator.Consistent f l) (hfuel : cnt < 2 ^ fuel) :
    ∀ {i : ℕ} {a : ℕ → α}, Within l cnt a → i ≤ cnt → HeapFrom f 1 i a → Placed f i cnt a →
      ∃ a', unload f fuel i a = some a' ∧ Rearranged 1 i a a' ∧ Placed f 0 cnt a' := by
  intro i
  induction i with
  | zero =>
      intro a _ _ _ h
      exact ⟨a, rfl, .refl, h⟩
  | succ i ih =>
      intro a hl hi hheap h
      unfold unload
      by_cases h0 : i = 0
      · subst h0
        refine ⟨a, rfl, .refl, fun j k hj hjk _ hk => ?_⟩
        exact h j k hj hjk (by omega) hk
      · rw [if_neg h0]
        have hr : Rearranged 1 (i + 1) a (a ∘ Equiv.swap 1 (i + 1)) := .swap (by omega) (by omega)
        have hl₁ := hl.rearranged (hr.mono le_rfl hi)
        have hrounds : i < 1 * 2 ^ fuel := by omega
        obtain ⟨a₂, hsift, hr₂, hheap₂⟩ := sift_spec hf le_rfl (hl₁.mono (by omega))
          hheap.swap_last le_rfl (by omega) hrounds
        have hplaced := (h.swap hheap hf hl hi).rearranged hr₂
        obtain ⟨a', hunload, hr', hplaced'⟩ := ih (hl₁.rearranged (hr₂.mono le_rfl (by omega)))
          (by omega) hheap₂ hplaced
        refine ⟨a', ?_, hr.trans ((hr₂.trans hr').mono le_rfl (Nat.le_succ i)), hplaced'⟩
        rw [hsift, Option.bind_some, hunload]

theorem Placed.pairwise (h : Placed f 0 cnt a) : (elements cnt a).Pairwise fun x y => f x y ≤ 0 := by
  rw [List.pairwise_iff_getElem]
  intro j k hj hk hjk
  rw [getElem_elements, getElem_elements]
  rw [length_elements] at hk
  exact h (j + 1) (k + 1) (by omega) (by omega) (by omega) (by omega)

/-- **The heap sort sorts.** -/
theorem heapSort_spec (hf : Comparator.Consistent f (elements cnt a)) (hfuel : cnt < 2 ^ fuel) :
    ∃ a', heapSort f cnt fuel a = some a' ∧ Rearranged 1 cnt a a' ∧
      (elements cnt a').Pairwise fun x y => f x y ≤ 0 := by
  obtain ⟨a₁, hbuild, hr, hheap⟩ := build_spec hf hfuel within_elements (Nat.div_le_self cnt 2)
    heapFrom_half
  have hplaced : Placed f cnt cnt a₁ := by
    intro j k _ _ hk hk'
    omega
  obtain ⟨a', hunload, hr', hplaced'⟩ := unload_spec hf hfuel (within_elements.rearranged hr) le_rfl
    hheap hplaced
  refine ⟨a', ?_, hr.trans hr', hplaced'.pairwise⟩
  rw [heapSort, hbuild, Option.bind_some, hunload]

end CSE130.Heap
