import CSE130.Lib.Heap
import CSE130.Lib.Memory
import Mathlib.Logic.Function.Basic

/-! # Sorting and searching arrays

`sort` and `binary_search` of the kernel's C library, on the bytes of an array whose elements have
`size` bytes each.  An element is known by its index, the first of which is 1 in `heapify`; the doubled
indexes are taken modulo `2 ^ 32`.  A comparator sees the bytes of the two elements that it is given
pointers to, and the auxiliary data.  The loops are given the number of rounds that they may take.

`elementAt` shows the array of elements in the memory: there the functions are those of `Heap`. -/

namespace CSE130.Lab3

open Function (update)

namespace Stdlib

variable {β κ : Type*} {compare : List UInt8 → List UInt8 → β → ℤ} {aux : β} {m m' : Mem}
  {a b i k n array cnt size rounds x : ℕ}

/-- The loop of `do_swap`. -/
def swapBytes : ℕ → ℕ → ℕ → Mem → Mem
  | 0, _, _, m => m
  | n + 1, a, b, m => swapBytes n (a + 1) (b + 1) (update (update m a (m b)) b (m a))

/-- `do_swap`. -/
def doSwap (array a_idx b_idx size : ℕ) (m : Mem) : Mem :=
  swapBytes size (array + (a_idx - 1) * size) (array + (b_idx - 1) * size) m

/-- `do_compare`. -/
def doCompare (array a_idx b_idx size : ℕ) (compare : List UInt8 → List UInt8 → β → ℤ) (aux : β)
    (m : Mem) : ℤ :=
  compare (m.read (array + (a_idx - 1) * size) size) (m.read (array + (b_idx - 1) * size) size) aux

/-- `heapify`. -/
def heapify (array cnt size : ℕ) (compare : List UInt8 → List UInt8 → β → ℤ) (aux : β) :
    ℕ → ℕ → Mem → Option Mem
  | 0, _, _ => none
  | rounds + 1, i, m =>
      let left := 2 * i % 2 ^ 32
      let right := (2 * i + 1) % 2 ^ 32
      let max := if left ≤ cnt ∧ 0 < doCompare array left i size compare aux m then left else i
      let max :=
        if right ≤ cnt ∧ 0 < doCompare array right max size compare aux m then right else max
      if max = i then some m
      else heapify array cnt size compare aux rounds max (doSwap array i max size m)

/-- `for (i = cnt / 2; i > 0; i--)` of `sort`. -/
def buildHeap (array cnt size : ℕ) (compare : List UInt8 → List UInt8 → β → ℤ) (aux : β)
    (rounds : ℕ) : ℕ → Mem → Option Mem
  | 0, m => some m
  | i + 1, m =>
      (heapify array cnt size compare aux rounds (i + 1) m).bind
        (buildHeap array cnt size compare aux rounds i)

/-- `for (i = cnt; i > 1; i--)` of `sort`. -/
def sortHeap (array size : ℕ) (compare : List UInt8 → List UInt8 → β → ℤ) (aux : β)
    (rounds : ℕ) : ℕ → Mem → Option Mem
  | 0, m => some m
  | i + 1, m =>
      if i + 1 > 1 then
        (heapify array i size compare aux rounds 1 (doSwap array 1 (i + 1) size m)).bind
          (sortHeap array size compare aux rounds i)
      else some m

/-- `sort`. -/
def sort (array cnt size : ℕ) (compare : List UInt8 → List UInt8 → β → ℤ) (aux : β)
    (rounds : ℕ) (m : Mem) : Option Mem := do
  guard (array ≠ 0 ∨ cnt = 0)
  guard (0 < size)
  let m ← buildHeap array cnt size compare aux rounds (cnt / 2) m
  sortHeap array size compare aux rounds cnt m

/-- The loop of `binary_search`: the address of a match, or `none` for the null pointer. -/
def searchLoop (key : κ) (size : ℕ) (compare : κ → List UInt8 → β → ℤ) (aux : β) (m : Mem) :
    ℕ → ℕ → ℕ → Option (Option ℕ)
  | 0, _, _ => none
  | rounds + 1, first, last =>
      if first < last then
        let range := (last - first) / size
        let middle := first + range / 2 * size
        let cmp := compare key (m.read middle size) aux
        if cmp < 0 then searchLoop key size compare aux m rounds first middle
        else if cmp > 0 then searchLoop key size compare aux m rounds (middle + size) last
        else some (some middle)
      else some none

/-- `binary_search`. -/
def binarySearch (key : κ) (array cnt size : ℕ) (compare : κ → List UInt8 → β → ℤ) (aux : β)
    (rounds : ℕ) (m : Mem) : Option (Option ℕ) :=
  searchLoop key size compare aux m rounds array (array + size * cnt)

/-- `compare_thunk`. -/
def compareThunk (a : κ) (b : List UInt8) (aux : κ → List UInt8 → ℤ) : ℤ := aux a b

/-- `qsort`. -/
def qsort (array cnt size : ℕ) (compare : List UInt8 → List UInt8 → ℤ) (rounds : ℕ) (m : Mem) :
    Option Mem :=
  sort array cnt size compareThunk compare rounds m

/-- `bsearch`. -/
def bsearch (key : κ) (array cnt size : ℕ) (compare : κ → List UInt8 → ℤ) (rounds : ℕ) (m : Mem) :
    Option (Option ℕ) :=
  binarySearch key array cnt size compareThunk compare rounds m

/-! ### The array of elements -/

/-- The element with the index `k`. -/
def elementAt (array size : ℕ) (m : Mem) (k : ℕ) : List UInt8 :=
  if k = 0 then [] else m.read (array + (k - 1) * size) size

/-- The elements of the array. -/
def contents (array cnt size : ℕ) (m : Mem) : List (List UInt8) :=
  Heap.elements cnt (elementAt array size m)

theorem elementAt_of_pos (hk : 1 ≤ k) :
    elementAt array size m k = m.read (array + (k - 1) * size) size := if_neg (by omega)

theorem doCompare_eq (ha : 1 ≤ a) (hb : 1 ≤ b) : doCompare array a b size compare aux m =
    compare (elementAt array size m a) (elementAt array size m b) aux := by
  rw [elementAt_of_pos ha, elementAt_of_pos hb, doCompare]

theorem swapBytes_apply (h : a + n ≤ b ∨ b + n ≤ a ∨ a = b) : swapBytes n a b m x =
    if a ≤ x ∧ x < a + n then m (b + (x - a))
    else if b ≤ x ∧ x < b + n then m (a + (x - b)) else m x := by
  induction n generalizing a b m with
  | zero =>
      rw [swapBytes, if_neg (by omega), if_neg (by omega)]
  | succ n ih =>
      rw [swapBytes, ih (by omega)]
      simp only [Function.update_apply]
      split_ifs <;> first | omega | congr 1 <;> omega

/-- A slot of the array ends before the later ones. -/
theorem slot_le (array size : ℕ) (ha : 1 ≤ a) (h : a < b) :
    array + (a - 1) * size + size ≤ array + (b - 1) * size := by
  have hmul : (a - 1 + 1) * size ≤ (b - 1) * size := Nat.mul_le_mul_right size (by omega)
  rw [Nat.succ_mul] at hmul
  omega

/-- Two slots of the array are the same or do not overlap. -/
theorem slot_disjoint (ha : 1 ≤ a) (hb : 1 ≤ b) :
    array + (a - 1) * size + size ≤ array + (b - 1) * size ∨
      array + (b - 1) * size + size ≤ array + (a - 1) * size ∨
        array + (a - 1) * size = array + (b - 1) * size := by
  rcases Nat.lt_trichotomy a b with h | h | h
  · exact Or.inl (slot_le array size ha h)
  · simp [h]
  · exact Or.inr (Or.inl (slot_le array size hb h))

theorem slot_apart (ha : 1 ≤ a) (hb : 1 ≤ b) (hne : a ≠ b) (hi : i < size) :
    ¬ (array + (a - 1) * size ≤ array + (b - 1) * size + i ∧
      array + (b - 1) * size + i < array + (a - 1) * size + size) := by
  rcases Nat.lt_or_gt_of_ne hne with h | h
  · have := slot_le array size ha h
    omega
  · have := slot_le array size hb h
    omega

theorem elementAt_doSwap (ha : 1 ≤ a) (hb : 1 ≤ b) :
    elementAt array size (doSwap array a b size m) = elementAt array size m ∘ Equiv.swap a b := by
  funext k
  by_cases hk : k = 0
  · subst hk
    rw [Function.comp_apply, Equiv.swap_apply_of_ne_of_ne (by omega) (by omega), elementAt, elementAt,
      if_pos rfl, if_pos rfl]
  · have hpos : 1 ≤ Equiv.swap a b k := by
      rw [Equiv.swap_apply_def]
      split_ifs <;> omega
    rw [Function.comp_apply, elementAt_of_pos (by omega), elementAt_of_pos hpos]
    unfold Mem.read doSwap
    refine List.map_congr_left fun i hi => ?_
    have hi := List.mem_range.mp hi
    rw [swapBytes_apply (slot_disjoint ha hb), Equiv.swap_apply_def]
    by_cases hka : k = a
    · subst hka
      rw [if_pos (by omega), if_pos rfl]
      congr 1
      omega
    · rw [if_neg (slot_apart ha (by omega) (Ne.symm hka) hi), if_neg hka]
      by_cases hkb : k = b
      · subst hkb
        rw [if_pos (by omega), if_pos rfl]
        congr 1
        omega
      · rw [if_neg (slot_apart hb (by omega) (Ne.symm hkb) hi), if_neg hkb]

theorem doSwap_outside (ha : 1 ≤ a ∧ a ≤ cnt) (hb : 1 ≤ b ∧ b ≤ cnt)
    (hx : x < array ∨ array + cnt * size ≤ x) : doSwap array a b size m x = m x := by
  have hend : ∀ j, 1 ≤ j ∧ j ≤ cnt → (j - 1) * size + size ≤ cnt * size := by
    intro j hj
    calc (j - 1) * size + size = (j - 1 + 1) * size := (Nat.succ_mul _ _).symm
      _ ≤ cnt * size := Nat.mul_le_mul_right size (by omega)
  have ha' := hend a ha
  have hb' := hend b hb
  rw [doSwap, swapBytes_apply (slot_disjoint ha.1 hb.1), if_neg (by omega), if_neg (by omega)]

/-! ### The functions on elements -/

/-- A function on the memory does to the elements what another does, and nothing elsewhere. -/
structure Refines (array cnt size : ℕ) (m : Mem) (r : Option Mem)
    (r' : Option (ℕ → List UInt8)) : Prop where
  elements : r.map (elementAt array size) = r'
  outside : ∀ m', r = some m' → ∀ x, x < array ∨ array + cnt * size ≤ x → m' x = m x

namespace Refines

variable {r : Option Mem} {r' : Option (ℕ → List UInt8)} {g : Mem → Option Mem}
  {g' : (ℕ → List UInt8) → Option (ℕ → List UInt8)} {cnt' : ℕ}

theorem done : Refines array cnt size m (some m) (some (elementAt array size m)) :=
  ⟨rfl, fun m' h x _ => by rw [Option.some.inj h]⟩

theorem mono (h : Refines array cnt size m r r') (hc : cnt ≤ cnt') :
    Refines array cnt' size m r r' :=
  ⟨h.elements, fun m' hm x hx => h.outside m' hm x
    (hx.imp_right ((Nat.add_le_add_left (Nat.mul_le_mul_right size hc) array).trans ·))⟩

theorem swap (ha : 1 ≤ a ∧ a ≤ cnt) (hb : 1 ≤ b ∧ b ≤ cnt)
    (h : Refines array cnt size (doSwap array a b size m) r r') : Refines array cnt size m r r' :=
  ⟨h.elements, fun m' hm x hx => (h.outside m' hm x hx).trans (doSwap_outside ha hb hx)⟩

theorem bind (h : Refines array cnt size m r r')
    (hg : ∀ m, Refines array cnt size m (g m) (g' (elementAt array size m))) :
    Refines array cnt size m (r.bind g) (r'.bind g') := by
  constructor
  · rw [← h.elements]
    cases r with
    | none => rfl
    | some m₁ => exact (hg m₁).elements
  · intro m' hm x hx
    obtain ⟨m₁, h₁, h₂⟩ := Option.bind_eq_some_iff.mp hm
    rw [(hg m₁).outside m' h₂ x hx, h.outside m₁ h₁ x hx]

end Refines

section Elements

variable (array cnt size : ℕ) (compare : List UInt8 → List UInt8 → β → ℤ) (aux : β) (rounds : ℕ)

/-- The doubled indexes do not wrap, so `heapify` finds the greatest child. -/
theorem heapify_succ (hcnt : cnt < 2 ^ 31) (hi : 1 ≤ i) (hi' : i ≤ cnt) :
    heapify array cnt size compare aux (rounds + 1) i m =
      let max := Heap.greatest (fun a b => compare a b aux) cnt i (elementAt array size m)
      if max = i then some m
      else heapify array cnt size compare aux rounds max (doSwap array i max size m) := by
  have hleft : 2 * i % 2 ^ 32 = 2 * i := Nat.mod_eq_of_lt (by omega)
  have hright : (2 * i + 1) % 2 ^ 32 = 2 * i + 1 := Nat.mod_eq_of_lt (by omega)
  have hmax : 1 ≤ if 2 * i ≤ cnt ∧ 0 < compare (elementAt array size m (2 * i))
      (elementAt array size m i) aux then 2 * i else i := by
    split_ifs <;> omega
  simp only [heapify, Heap.greatest, hleft, hright]
  rw [doCompare_eq (by omega) hi, doCompare_eq (by omega) hmax]

theorem heapify_refines (hcnt : cnt < 2 ^ 31) (hi : 1 ≤ i) (hi' : i ≤ cnt) :
    Refines array cnt size m (heapify array cnt size compare aux rounds i m)
      (Heap.sift (fun a b => compare a b aux) cnt rounds i (elementAt array size m)) := by
  induction rounds generalizing i m with
  | zero => exact ⟨rfl, by simp [heapify]⟩
  | succ rounds ih =>
      rw [heapify_succ array cnt size compare aux rounds hcnt hi hi', Heap.sift]
      simp only
      obtain ⟨hmax, hmax'⟩ := Heap.greatest_mem (f := fun a b => compare a b aux)
        (a := elementAt array size m) hi hi'
      split_ifs with h
      · exact .done
      · rw [← elementAt_doSwap hi hmax]
        exact .swap ⟨hi, hi'⟩ ⟨hmax, hmax'⟩ (ih hmax hmax')

theorem buildHeap_refines (hcnt : cnt < 2 ^ 31) (hi : i ≤ cnt) :
    Refines array cnt size m (buildHeap array cnt size compare aux rounds i m)
      (Heap.build (fun a b => compare a b aux) cnt rounds i (elementAt array size m)) := by
  induction i generalizing m with
  | zero => exact .done
  | succ i ih =>
      rw [buildHeap, Heap.build]
      apply Refines.bind
      · exact heapify_refines array cnt size compare aux rounds hcnt (Nat.le_add_left 1 i) hi
      · intro m
        exact ih (Nat.le_of_succ_le hi)

theorem sortHeap_refines (hcnt : cnt < 2 ^ 31) (hi : i ≤ cnt) :
    Refines array cnt size m (sortHeap array size compare aux rounds i m)
      (Heap.unload (fun a b => compare a b aux) rounds i (elementAt array size m)) := by
  induction i generalizing m with
  | zero => exact .done
  | succ i ih =>
      rw [sortHeap, Heap.unload]
      by_cases h0 : i = 0
      · rw [if_neg (by omega), if_pos h0]
        exact .done
      · rw [if_pos (by omega), if_neg h0, ← elementAt_doSwap le_rfl (Nat.le_add_left 1 i)]
        apply Refines.bind
        · apply Refines.swap ⟨le_rfl, by omega⟩ ⟨Nat.le_add_left 1 i, hi⟩
          exact (heapify_refines array i size compare aux rounds (by omega) le_rfl
            (by omega)).mono (by omega)
        · intro m
          exact ih (Nat.le_of_succ_le hi)

theorem sort_refines (hcnt : cnt < 2 ^ 31) (harray : array ≠ 0 ∨ cnt = 0) (hsize : 0 < size) :
    Refines array cnt size m (sort array cnt size compare aux rounds m)
      (Heap.heapSort (fun a b => compare a b aux) cnt rounds (elementAt array size m)) := by
  have hsort : sort array cnt size compare aux rounds m =
      (buildHeap array cnt size compare aux rounds (cnt / 2) m).bind
        (sortHeap array size compare aux rounds cnt) := by
    simp [sort, harray, hsize]
  rw [hsort, Heap.heapSort]
  apply Refines.bind
  · exact buildHeap_refines array cnt size compare aux rounds hcnt (Nat.div_le_self cnt 2)
  · intro m
    exact sortHeap_refines array cnt size compare aux rounds hcnt le_rfl

end Elements

/-- **`sort` sorts in place**: the elements are those of before in the order of the comparator, no
byte outside the array has changed, and no call of `heapify` takes more than `rounds` rounds, if
`cnt < 2 ^ rounds`. -/
theorem sort_contents (hf : Comparator.Consistent (fun a b => compare a b aux) (contents array cnt size m))
    (hcnt : cnt < 2 ^ 31) (hrounds : cnt < 2 ^ rounds) (harray : array ≠ 0 ∨ cnt = 0)
    (hsize : 0 < size) :
    ∃ m', sort array cnt size compare aux rounds m = some m' ∧
      (contents array cnt size m').Perm (contents array cnt size m) ∧
      ((contents array cnt size m').Pairwise fun a b => compare a b aux ≤ 0) ∧
      ∀ x, x < array ∨ array + cnt * size ≤ x → m' x = m x := by
  obtain ⟨elements, hsort, hr, hsorted⟩ := Heap.heapSort_spec hf hrounds
  have h := sort_refines array cnt size compare aux rounds (m := m) hcnt harray hsize
  obtain ⟨m', hm', rfl⟩ := Option.map_eq_some_iff.mp (h.elements.trans hsort)
  exact ⟨m', hm', hr.perm, hsorted, h.outside m' hm'⟩

theorem sort_contents_bytes : ∃ m',
    sort 100 3 1 (fun a b (_ : Unit) => ((a.headD 0).toNat : ℤ) - (b.headD 0).toNat) () 2
      (fun x => UInt8.ofNat (200 - x)) = some m' ∧
      (contents 100 3 1 m').Perm (contents 100 3 1 fun x => UInt8.ofNat (200 - x)) ∧
      ((contents 100 3 1 m').Pairwise fun a b => ((a.headD 0).toNat : ℤ) - (b.headD 0).toNat ≤ 0) ∧
      ∀ x, x < 100 ∨ 100 + 3 * 1 ≤ x → m' x = UInt8.ofNat (200 - x) :=
  sort_contents (.of_key (fun a => ((a.headD 0).toNat : ℤ)) fun _ _ _ _ => rfl) (by decide)
    (by decide) (by decide) (by decide)

/-! ### Searching -/

/-- The bytes of the element behind `k` others. -/
def entry (array size : ℕ) (m : Mem) (k : ℕ) : List UInt8 := m.read (array + k * size) size

theorem getElem_contents (hk : k < (contents array cnt size m).length) :
    (contents array cnt size m)[k] = entry array size m k := by
  refine (Heap.getElem_elements hk).trans ?_
  rw [elementAt_of_pos (Nat.le_add_left 1 k), entry, Nat.add_sub_cancel]

theorem mem_contents_iff {e : List UInt8} :
    e ∈ contents array cnt size m ↔ ∃ k < cnt, entry array size m k = e := by
  rw [List.mem_iff_getElem]
  constructor
  · rintro ⟨k, hk, rfl⟩
    exact ⟨k, by simpa [contents] using hk, (getElem_contents hk).symm⟩
  · rintro ⟨k, hk, rfl⟩
    exact ⟨k, by simpa [contents] using hk, getElem_contents (by simpa [contents] using hk)⟩

/-- The elements that the key comes after stand before those that it comes before. -/
structure Ordered (key : κ) (array cnt size : ℕ) (compare : κ → List UInt8 → β → ℤ) (aux : β)
    (m : Mem) : Prop where
  before : ∀ j k, j ≤ k → k < cnt → compare key (entry array size m j) aux < 0 →
    compare key (entry array size m k) aux < 0
  after : ∀ j k, j ≤ k → k < cnt → 0 < compare key (entry array size m k) aux →
    0 < compare key (entry array size m j) aux

theorem Ordered.of_sorted {key : List UInt8}
    (hf : Comparator.Consistent (fun a b => compare a b aux) (key :: contents array cnt size m))
    (hs : (contents array cnt size m).Pairwise fun a b => compare a b aux ≤ 0) :
    Ordered key array cnt size compare aux m := by
  have hle : ∀ j k, j ≤ k → k < cnt →
      compare (entry array size m j) (entry array size m k) aux ≤ 0 := by
    intro j k hjk hk
    have hkm : entry array size m k ∈ key :: contents array cnt size m :=
      List.mem_cons_of_mem _ (mem_contents_iff.mpr ⟨k, hk, rfl⟩)
    by_cases heq : j = k
    · have := hf.total hkm hkm
      rw [heq]
      omega
    · have := List.pairwise_iff_getElem.mp hs j k (by simp [contents]; omega) (by simpa [contents])
        (by omega)
      rwa [getElem_contents, getElem_contents] at this
  have hkey : key ∈ key :: contents array cnt size m := List.mem_cons_self
  have hmem : ∀ k, k < cnt → entry array size m k ∈ key :: contents array cnt size m :=
    fun k hk => List.mem_cons_of_mem _ (mem_contents_iff.mpr ⟨k, hk, rfl⟩)
  constructor
  · intro j k hjk hk hlt
    by_contra hge
    have hswap := hf.swap key hkey _ (hmem j (by omega))
    have hswap' := hf.swap _ (hmem k hk) key hkey
    have hback := hf.swap key hkey _ (hmem k hk)
    have := hf.trans _ (hmem j (by omega)) _ (hmem k hk) key hkey (hle j k hjk hk) (by omega)
    omega
  · intro j k hjk hk hlt
    by_contra hge
    have hswap := hf.swap _ (hmem k hk) key hkey
    have := hf.trans key hkey _ (hmem j (by omega)) _ (hmem k hk) (by omega) (hle j k hjk hk)
    omega

/-- What a search says: the pointer is that of a match, and the null pointer that there is none. -/
structure Answer (key : κ) (array cnt size : ℕ) (compare : κ → List UInt8 → β → ℤ) (aux : β)
    (m : Mem) (r : Option ℕ) : Prop where
  found : ∀ p, r = some p →
    ∃ k < cnt, p = array + k * size ∧ compare key (entry array size m k) aux = 0
  missing : r = none → ∀ k < cnt, compare key (entry array size m k) aux ≠ 0

theorem Answer.empty {key : κ} {compare : κ → List UInt8 → β → ℤ}
    (hlo : ∀ k < i, 0 < compare key (entry array size m k) aux)
    (hhi : ∀ k, i ≤ k → k < cnt → compare key (entry array size m k) aux < 0) :
    Answer key array cnt size compare aux m none := by
  refine ⟨by simp, fun _ k hk => ?_⟩
  by_cases h : k < i
  · exact (hlo k h).ne'
  · exact (hhi k (by omega) hk).ne

/-- Outside the range that is left there is no match; every round halves it. -/
theorem searchLoop_spec {key : κ} {compare : κ → List UInt8 → β → ℤ}
    (ho : Ordered key array cnt size compare aux m) (hsize : 0 < size) :
    ∀ {rounds lo hi : ℕ}, lo ≤ hi → hi ≤ cnt → hi - lo < 2 ^ rounds →
      (∀ k < lo, 0 < compare key (entry array size m k) aux) →
      (∀ k, hi ≤ k → k < cnt → compare key (entry array size m k) aux < 0) →
      ∃ r, searchLoop key size compare aux m (rounds + 1) (array + lo * size)
        (array + hi * size) = some r ∧ Answer key array cnt size compare aux m r := by
  intro rounds
  induction rounds with
  | zero =>
      intro lo hi hle hcnt hr hlo hhi
      obtain rfl : lo = hi := by omega
      exact ⟨none, by rw [searchLoop, if_neg (lt_irrefl _)], .empty hlo hhi⟩
  | succ rounds ih =>
      intro lo hi hle hcnt hr hlo hhi
      by_cases heq : lo = hi
      · subst heq
        exact ⟨none, by rw [searchLoop, if_neg (lt_irrefl _)], .empty hlo hhi⟩
      · have hfirst : array + lo * size < array + hi * size :=
          Nat.add_lt_add_left (Nat.mul_lt_mul_of_pos_right (by omega) hsize) array
        have hrange : (array + hi * size - (array + lo * size)) / size = hi - lo := by
          rw [Nat.add_sub_add_left, ← Nat.sub_mul, Nat.mul_div_cancel _ hsize]
        have hmiddle : array + lo * size + (hi - lo) / 2 * size =
            array + (lo + (hi - lo) / 2) * size := by
          rw [Nat.add_mul, Nat.add_assoc]
        have hread : m.read (array + (lo + (hi - lo) / 2) * size) size =
            entry array size m (lo + (hi - lo) / 2) := rfl
        rw [searchLoop, if_pos hfirst]
        simp only [hrange, hmiddle, hread]
        rw [Nat.pow_succ] at hr
        split_ifs with hlt hgt
        · apply ih (by omega) (by omega) (by omega) hlo
          intro k hk hk'
          exact ho.before _ k hk hk' hlt
        · have hnext : array + (lo + (hi - lo) / 2) * size + size =
              array + (lo + (hi - lo) / 2 + 1) * size := by
            rw [Nat.succ_mul, Nat.add_assoc]
          rw [hnext]
          apply ih (by omega) hcnt (by omega) _ hhi
          intro k hk
          exact ho.after k _ (by omega) (by omega) hgt
        · refine ⟨_, rfl, fun p hp => ?_, by simp⟩
          exact ⟨lo + (hi - lo) / 2, by omega, (Option.some.inj hp).symm, by omega⟩

/-- `binary_search` answers after at most `rounds + 1` rounds if `cnt < 2 ^ rounds`. -/
theorem binarySearch_spec {key : κ} {compare : κ → List UInt8 → β → ℤ}
    (ho : Ordered key array cnt size compare aux m) (hsize : 0 < size) (hrounds : cnt < 2 ^ rounds) :
    ∃ r, binarySearch key array cnt size compare aux (rounds + 1) m = some r ∧
      Answer key array cnt size compare aux m r := by
  have hnone : ∀ k < 0, 0 < compare key (entry array size m k) aux := by simp
  have := searchLoop_spec ho hsize (Nat.zero_le cnt) le_rfl hrounds hnone
    fun k hk hk' => absurd hk' (by omega)
  rwa [Nat.zero_mul, Nat.add_zero, Nat.mul_comm] at this

/-- **`bsearch` finds in the array that `qsort` has sorted what was in it before**: the returned pointer
is that of an element that matches the key, and is not null exactly if one matched before. -/
theorem bsearch_qsort {key : List UInt8} {compare : List UInt8 → List UInt8 → ℤ}
    (hf : Comparator.Consistent compare (key :: contents array cnt size m)) (hcnt : cnt < 2 ^ 31)
    (hrounds : cnt < 2 ^ rounds) (harray : array ≠ 0 ∨ cnt = 0) (hsize : 0 < size) :
    ∃ m' r, qsort array cnt size compare rounds m = some m' ∧
      bsearch key array cnt size compare (rounds + 1) m' = some r ∧
      (r ≠ none ↔ ∃ e ∈ contents array cnt size m, compare key e = 0) ∧
      ∀ p, r = some p → array ≤ p ∧ p + size ≤ array + cnt * size ∧ size ∣ p - array ∧
        compare key (m'.read p size) = 0 := by
  obtain ⟨m', hsort, hperm, hsorted, -⟩ := @sort_contents _ compareThunk compare m array cnt size rounds
    (hf.mono (List.subset_cons_self key _)) hcnt hrounds harray hsize
  have hordered : Ordered key array cnt size compareThunk compare m' :=
    .of_sorted (hf.mono (hperm.cons key).subset) hsorted
  obtain ⟨r, hr, hanswer⟩ := binarySearch_spec hordered hsize hrounds
  refine ⟨m', r, hsort, hr, ⟨fun hne => ?_, ?_⟩, fun p hp => ?_⟩
  · obtain ⟨p, hp⟩ := Option.ne_none_iff_exists'.mp hne
    obtain ⟨k, hk, -, h0⟩ := hanswer.found p hp
    exact ⟨_, hperm.subset (mem_contents_iff.mpr ⟨k, hk, rfl⟩), h0⟩
  · rintro ⟨e, he, h0⟩ hnone
    obtain ⟨k, hk, rfl⟩ := mem_contents_iff.mp (hperm.symm.subset he)
    exact hanswer.missing hnone k hk h0
  · obtain ⟨k, hk, rfl, h0⟩ := hanswer.found p hp
    have hend : (k + 1) * size ≤ cnt * size := Nat.mul_le_mul_right size hk
    rw [Nat.succ_mul] at hend
    exact ⟨by omega, by omega, by simp, h0⟩

theorem bsearch_qsort_bytes : ∃ m' r,
    qsort 100 3 1 (fun a b => ((a.headD 0).toNat : ℤ) - (b.headD 0).toNat) 2
      (fun x => UInt8.ofNat (200 - x)) = some m' ∧
    bsearch [(99 : UInt8)] 100 3 1 (fun a b => ((a.headD 0).toNat : ℤ) - (b.headD 0).toNat) 3 m' = some r ∧
    (r ≠ none ↔ ∃ e ∈ contents 100 3 1 fun x => UInt8.ofNat (200 - x),
      (([(99 : UInt8)].headD 0).toNat : ℤ) - (e.headD 0).toNat = 0) ∧
    ∀ p, r = some p → 100 ≤ p ∧ p + 1 ≤ 100 + 3 * 1 ∧ 1 ∣ p - 100 ∧
      (([(99 : UInt8)].headD 0).toNat : ℤ) - ((m'.read p 1).headD 0).toNat = 0 :=
  bsearch_qsort (.of_key (fun a => ((a.headD 0).toNat : ℤ)) fun _ _ _ _ => rfl) (by decide)
    (by decide) (by decide) (by decide)

end Stdlib

end CSE130.Lab3
