import CSE130.Lib.ForkJoin
import Mathlib.Order.Interval.Set.Defs
import Mathlib.Data.List.Sort
import Mathlib.Data.Int.ConditionallyCompleteOrder

/-! # The merge sort of Assignment 2 (`sort.c`)

`multiThreadedMergeSort` sorts four parts of an array in four threads, merges the first two and the
last two of them in two more, and merges the halves itself.  A thread is the list of its accesses to
the array (`Code`), so two threads may be interleaved at any access; `merge` comes without its
source, and `Merge` is what `merge.h` says of it.

An `int` is an integer here: where the source adds two indices, the sum must not exceed `INT_MAX`,
and a function whose sum does has no value. -/

namespace CSE130.Assignment2

open ForkJoin Transition

/-- `INT_MAX`. -/
def intMax : ℤ := 2 ^ 31 - 1

/-- `arr[l]` to `arr[r]`. -/
def slice (arr : ℤ → Int32) (l r : ℤ) : List Int32 :=
  (List.range (r + 1 - l).toNat).map fun k : ℕ => arr (l + k)

/-- `arr[l]` to `arr[r]` are in order. -/
def Sorted (arr : ℤ → Int32) (l r : ℤ) : Prop := (slice arr l r).Pairwise (· ≤ ·)

/-- `arr'` has the elements of `arr`, in another order between `l` and `r`. -/
structure Rearranged (l r : ℤ) (arr arr' : ℤ → Int32) : Prop where
  perm : (slice arr' l r).Perm (slice arr l r)
  same : ∀ i, i < l ∨ r < i → arr' i = arr i

/-- The contract of `merge`: two sorted parts, which may be empty, become one. -/
structure Merge where
  merge : ℤ → ℤ → ℤ → Code ℤ Int32
  within : ∀ l m r, l ≤ m + 1 → m ≤ r → (merge l m r).footprint ⊆ Set.Icc l r
  merges : ∀ l m r arr, l ≤ m + 1 → m ≤ r → Sorted arr l m → Sorted arr (m + 1) r →
    Sorted ((merge l m r).run arr) l r ∧ (slice ((merge l m r).run arr) l r).Perm (slice arr l r)

variable (lib : Merge)

/-- `singleThreadedMergeSort`, which is all that `sort_thread` does. -/
def singleThreadedMergeSort (left right : ℤ) : Option (Code ℤ Int32) :=
  if _h : left < right then
    if _h' : 0 ≤ left ∧ left + right ≤ intMax then
      let middle := (left + right).tdiv 2
      (singleThreadedMergeSort left middle).bind fun c =>
        (singleThreadedMergeSort (middle + 1) right).map fun d =>
          (c.seq d).seq (lib.merge left middle right)
    else none
  else some .done
termination_by (right - left).toNat
decreasing_by
  all_goals
    rw [Int.tdiv_eq_ediv_of_nonneg (by omega)]
    omega

/-- The threads. -/
inductive Thread where
  | thread1
  | thread2
  | thread3
  | thread4
  | thread5
  | thread6
deriving DecidableEq

/-- The threads that `multiThreadedMergeSort` creates and joins, and the merge in the end;
`merge_thread` does nothing but `merge`. -/
def program (left quarter middle quarterEnd right : ℤ)
    (sort1 sort2 sort3 sort4 : Code ℤ Int32) : List (Command Thread ℤ Int32) :=
  [.create .thread1 sort1, .create .thread2 sort2, .create .thread3 sort3,
    .create .thread4 sort4, .check,
    .join .thread1, .join .thread2,
    .create .thread5 (lib.merge left quarter middle), .check,
    .join .thread3, .join .thread4,
    .create .thread6 (lib.merge (middle + 1) quarterEnd right), .check,
    .join .thread5, .join .thread6,
    .call (lib.merge left middle right)]

/-- `multiThreadedMergeSort`. -/
def multiThreadedMergeSort (left right : ℤ) : Option (List (Command Thread ℤ Int32)) :=
  if left + right ≤ intMax then
    let middle := (left + right).tdiv 2
    let fourth := (right - left).tdiv 4
    let quarter := left + fourth
    let quarterEnd := right - fourth
    (singleThreadedMergeSort lib left quarter).bind fun sort1 =>
    (singleThreadedMergeSort lib (quarter + 1) middle).bind fun sort2 =>
    (singleThreadedMergeSort lib (middle + 1) quarterEnd).bind fun sort3 =>
    (singleThreadedMergeSort lib (quarterEnd + 1) right).map fun sort4 =>
      program lib left quarter middle quarterEnd right sort1 sort2 sort3 sort4
  else none

/-! ### Parts of the array -/

variable {lib} {arr arr' arr'' : ℤ → Int32} {l m r a b : ℤ} {c : Code ℤ Int32}

theorem slice_congr (h : ∀ i, l ≤ i → i ≤ r → arr i = arr' i) : slice arr l r = slice arr' l r := by
  refine List.map_congr_left fun k hk => ?_
  rw [List.mem_range] at hk
  exact h _ (by omega) (by omega)

theorem slice_append (arr : ℤ → Int32) (hl : l ≤ m + 1) (hr : m ≤ r) :
    slice arr l r = slice arr l m ++ slice arr (m + 1) r := by
  have hlen : (r + 1 - l).toNat = (m + 1 - l).toNat + (r + 1 - (m + 1)).toNat := by omega
  rw [slice, slice, slice, hlen, List.range_add, List.map_append, List.map_map]
  refine congrArg _ (List.map_congr_left fun k _ => congrArg arr ?_)
  push_cast
  omega

theorem sorted_of_le (h : r ≤ l) : Sorted arr l r := by
  have hlen : (slice arr l r).length ≤ 1 := by
    rw [slice, List.length_map, List.length_range]
    omega
  unfold Sorted
  match slice arr l r, hlen with
  | [], _ => exact .nil
  | [v], _ => exact List.pairwise_singleton _ v

theorem Rearranged.refl (l r : ℤ) (arr : ℤ → Int32) : Rearranged l r arr arr := ⟨.refl _, fun _ _ => rfl⟩

theorem Rearranged.trans (h : Rearranged l r arr arr') (h' : Rearranged l r arr' arr'') :
    Rearranged l r arr arr'' :=
  ⟨h'.perm.trans h.perm, fun i hi => (h'.same i hi).trans (h.same i hi)⟩

theorem Rearranged.mono (h : Rearranged a b arr arr') (hla : l ≤ a) (hab : a ≤ b + 1) (hbr : b ≤ r) :
    Rearranged l r arr arr' := by
  refine ⟨?_, fun i hi => h.same i (by omega)⟩
  have hsplit : ∀ arr : ℤ → Int32,
      slice arr l r = slice arr l (a - 1) ++ (slice arr a b ++ slice arr (b + 1) r) := fun arr => by
    rw [← slice_append arr hab hbr, slice_append arr (by omega : l ≤ a - 1 + 1) (by omega)]
    rw [sub_add_cancel]
  rw [hsplit, hsplit, slice_congr (l := l) (r := a - 1) fun i _ hi => h.same i (by omega),
    slice_congr (l := b + 1) (r := r) fun i hi _ => h.same i (by omega)]
  exact ((h.perm.append_right _).append_left _)

/-- What is done elsewhere leaves a part sorted. -/
theorem Sorted.of_rearranged (h : Sorted arr l r) (h' : Rearranged a b arr arr')
    (hd : r < a ∨ b < l) : Sorted arr' l r := by
  rw [Sorted, slice_congr fun i hl hr => h'.same i (by omega)]
  exact h

/-! ### The single-threaded sort -/

/-- A code that sorts a part of the array, and accesses no other. -/
structure SortsPart (l r : ℤ) (c : Code ℤ Int32) : Prop where
  within : c.footprint ⊆ Set.Icc l r
  sorted : ∀ arr, Sorted (c.run arr) l r
  rearranged : ∀ arr, Rearranged l r arr (c.run arr)

theorem Merge.rearranged (lib : Merge) (arr : ℤ → Int32) (hl : l ≤ m + 1) (hr : m ≤ r) (h : Sorted arr l m)
    (h' : Sorted arr (m + 1) r) : Sorted ((lib.merge l m r).run arr) l r ∧
      Rearranged l r arr ((lib.merge l m r).run arr) := by
  obtain ⟨hsorted, hperm⟩ := lib.merges l m r arr hl hr h h'
  refine ⟨hsorted, hperm, fun i hi => Code.run_of_notMem fun hmem => ?_⟩
  have := lib.within l m r hl hr hmem
  rw [Set.mem_Icc] at this
  omega

theorem SortsPart.merge {d : Code ℤ Int32} (hl : l ≤ m + 1) (hr : m ≤ r) (h : SortsPart l m c)
    (h' : SortsPart (m + 1) r d) : SortsPart l r ((c.seq d).seq (lib.merge l m r)) where
  within := by
    intro i hi
    rcases Code.footprint_seq _ _ hi with hi | hi
    · rcases Code.footprint_seq _ _ hi with hi | hi
      · exact Set.Icc_subset_Icc_right hr (h.within hi)
      · exact Set.Icc_subset_Icc_left hl (h'.within hi)
    · exact lib.within l m r hl hr hi
  sorted arr := by
    rw [Code.run_seq, Code.run_seq]
    have hm : Sorted (d.run (c.run arr)) l m :=
      (h.sorted arr).of_rearranged (h'.rearranged _) (.inl (by omega))
    exact (lib.rearranged _ hl hr hm (h'.sorted _)).1
  rearranged arr := by
    rw [Code.run_seq, Code.run_seq]
    have hm : Sorted (d.run (c.run arr)) l m :=
      (h.sorted arr).of_rearranged (h'.rearranged _) (.inl (by omega))
    have hc := (h.rearranged arr).mono (Int.le_refl l) hl hr
    have hd := (h'.rearranged (c.run arr)).mono hl (by omega) (Int.le_refl r)
    exact (hc.trans hd).trans (lib.rearranged _ hl hr hm (h'.sorted _)).2

/-- No sum overflows in a part that ends at `2 ^ 30` at most. -/
theorem singleThreadedMergeSort_sorts (lib : Merge) (l r : ℤ) (hl : 0 ≤ l)
    (hr : l < r → r ≤ 2 ^ 30) :
    ∃ c, singleThreadedMergeSort lib l r = some c ∧ SortsPart l r c := by
  rw [singleThreadedMergeSort]
  by_cases hlr : l < r
  · have hr := hr hlr
    have hmax : l + r ≤ intMax := by
      rw [intMax]
      omega
    rw [dif_pos hlr, dif_pos ⟨hl, hmax⟩]
    have hmiddle : (l + r).tdiv 2 = (l + r) / 2 := Int.tdiv_eq_ediv_of_nonneg (by omega)
    rw [hmiddle]
    obtain ⟨c, hc, hsort⟩ := singleThreadedMergeSort_sorts lib l ((l + r) / 2) hl
      (fun _ => by omega)
    obtain ⟨d, hd, hsort'⟩ := singleThreadedMergeSort_sorts lib ((l + r) / 2 + 1) r
      (by omega) (fun _ => hr)
    refine ⟨_, by dsimp only; rw [hc, hd, Option.bind_some, Option.map_some], ?_⟩
    exact hsort.merge (by omega) (by omega) hsort'
  · rw [dif_neg hlr]
    exact ⟨.done, rfl, Set.empty_subset _, fun arr => sorted_of_le (by omega), .refl l r⟩
termination_by (r - l).toNat
decreasing_by all_goals omega

/-- In a part of two elements or more that ends above `2 ^ 30`, some sum overflows. -/
theorem le_of_singleThreadedMergeSort {l r : ℤ} {c : Code ℤ Int32} (hlr : l < r)
    (h : singleThreadedMergeSort lib l r = some c) : r ≤ 2 ^ 30 := by
  rw [singleThreadedMergeSort, dif_pos hlr] at h
  by_cases hguard : 0 ≤ l ∧ l + r ≤ intMax
  · rw [dif_pos hguard] at h
    have hmiddle : (l + r).tdiv 2 = (l + r) / 2 := Int.tdiv_eq_ediv_of_nonneg (by omega)
    simp only [hmiddle, Option.bind_eq_some_iff, Option.map_eq_some_iff] at h
    obtain ⟨c₁, -, c₂, hright, -⟩ := h
    by_cases hlast : (l + r) / 2 + 1 < r
    · exact le_of_singleThreadedMergeSort hlast hright
    · have := hguard.2
      rw [intMax] at this
      omega
  · rw [dif_neg hguard] at h
    cases h
termination_by (r - l).toNat
decreasing_by omega

/-! ### The threads -/

theorem disjoint_of_within {d : Code ℤ Int32} (hc : c.footprint ⊆ Set.Icc l r)
    (hd : d.footprint ⊆ Set.Icc a b) (h : r < a ∨ b < l) : Disjoint c.footprint d.footprint := by
  refine Set.disjoint_left.mpr fun i hi hi' => ?_
  have := hc hi
  have := hd hi'
  rw [Set.mem_Icc] at *
  omega

section Program

variable {q e : ℤ} {s₁ s₂ s₃ s₄ : Code ℤ Int32} (h₁ : SortsPart l q s₁)
  (h₂ : SortsPart (q + 1) m s₂) (h₃ : SortsPart (m + 1) e s₃) (h₄ : SortsPart (e + 1) r s₄)
  (hlq : l ≤ q + 1) (hqm : q ≤ m) (hme : m ≤ e) (her : e ≤ r)

include h₁ h₂ h₃ h₄ hlq hqm hme her

theorem program_safe : Safe false [] (program lib l q m e r s₁ s₂ s₃ s₄) := by
  have hleft := lib.within l q m hlq hqm
  have hright := lib.within (m + 1) e r (by omega) her
  have hsorts : Disjoint s₂.footprint s₁.footprint ∧
      (Disjoint s₃.footprint s₂.footprint ∧ Disjoint s₃.footprint s₁.footprint) ∧
      Disjoint s₄.footprint s₃.footprint ∧ Disjoint s₄.footprint s₂.footprint ∧
      Disjoint s₄.footprint s₁.footprint :=
    ⟨disjoint_of_within h₂.within h₁.within (by omega),
      ⟨disjoint_of_within h₃.within h₂.within (by omega),
        disjoint_of_within h₃.within h₁.within (by omega)⟩,
      disjoint_of_within h₄.within h₃.within (by omega),
      disjoint_of_within h₄.within h₂.within (by omega),
      disjoint_of_within h₄.within h₁.within (by omega)⟩
  -- the left merge runs beside the right sorts, and beside the right merge
  have hmerges : (Disjoint (lib.merge l q m).footprint s₄.footprint ∧
      Disjoint (lib.merge l q m).footprint s₃.footprint) ∧
      Disjoint (lib.merge (m + 1) e r).footprint (lib.merge l q m).footprint :=
    ⟨⟨disjoint_of_within hleft h₄.within (by omega), disjoint_of_within hleft h₃.within (by omega)⟩,
      disjoint_of_within hright hleft (by omega)⟩
  simpa +decide [program, Safe] using
    And.intro hsorts.1 (And.intro hsorts.2.1 (And.intro hsorts.2.2 hmerges))

/-- Run one after the other, the codes sort. -/
theorem program_sorts (arr : ℤ → Int32) :
    Sorted (runMain (program lib l q m e r s₁ s₂ s₃ s₄) arr) l r ∧
      Rearranged l r arr (runMain (program lib l q m e r s₁ s₂ s₃ s₄) arr) := by
  -- the four parts are sorted
  let a₁ := s₁.run arr
  let a₂ := s₂.run a₁
  let a₃ := s₃.run a₂
  let a₄ := s₄.run a₃
  have hr₁ : Rearranged l q arr a₁ := h₁.rearranged arr
  have hr₂ : Rearranged (q + 1) m a₁ a₂ := h₂.rearranged a₁
  have hr₃ : Rearranged (m + 1) e a₂ a₃ := h₃.rearranged a₂
  have hr₄ : Rearranged (e + 1) r a₃ a₄ := h₄.rearranged a₃
  have hs₁ : Sorted a₄ l q := (((h₁.sorted arr).of_rearranged hr₂ (by omega)).of_rearranged hr₃
    (by omega)).of_rearranged hr₄ (by omega)
  have hs₂ : Sorted a₄ (q + 1) m :=
    ((h₂.sorted a₁).of_rearranged hr₃ (by omega)).of_rearranged hr₄ (by omega)
  have hs₃ : Sorted a₄ (m + 1) e := (h₃.sorted a₂).of_rearranged hr₄ (by omega)
  have hs₄ : Sorted a₄ (e + 1) r := h₄.sorted a₃
  -- and the two halves
  obtain ⟨hs₅, hr₅⟩ := lib.rearranged a₄ hlq hqm hs₁ hs₂
  obtain ⟨hs₆, hr₆⟩ := lib.rearranged ((lib.merge l q m).run a₄) (l := m + 1) (m := e)
    (r := r) (by omega) her (hs₃.of_rearranged hr₅ (by omega))
    (hs₄.of_rearranged hr₅ (by omega))
  obtain ⟨hs, hr⟩ := lib.rearranged _ (by omega) (by omega) (hs₅.of_rearranged hr₆ (by omega)) hs₆
  refine ⟨hs, ?_⟩
  have hparts := (((hr₁.mono (l := l) (r := r) (by omega) (by omega) (by omega)).trans
    (hr₂.mono (by omega) (by omega) (by omega))).trans
    (hr₃.mono (by omega) (by omega) (by omega))).trans
    (hr₄.mono (by omega) (by omega) (by omega))
  exact ((hparts.trans (hr₅.mono (by omega) (by omega) (by omega))).trans
    (hr₆.mono (by omega) (by omega) (by omega))).trans hr

end Program

/-! ### A merge -/

/-- Read `n` elements from `arr[l]` on. -/
def readSlice : ℕ → ℤ → (List Int32 → Code ℤ Int32) → Code ℤ Int32
  | 0, _, k => k []
  | n + 1, l, k => .read l fun v => readSlice n (l + 1) fun vs => k (v :: vs)

/-- Write the elements from `arr[l]` on. -/
def writeSlice : List Int32 → ℤ → Code ℤ Int32
  | [], _ => .done
  | v :: vs, l => .write l v (writeSlice vs (l + 1))

theorem run_readSlice (n : ℕ) (l : ℤ) (k : List Int32 → Code ℤ Int32) (arr : ℤ → Int32) :
    (readSlice n l k).run arr = (k ((List.range n).map fun i : ℕ => arr (l + i))).run arr := by
  induction n generalizing l k with
  | zero => rfl
  | succ n ih =>
      rw [readSlice, Code.run, ih, List.range_succ_eq_map, List.map_cons, List.map_map]
      have hnext : ∀ i : ℕ, arr (l + 1 + i) = arr (l + (i.succ : ℕ)) := fun i => by
        congr 1
        push_cast
        omega
      simp only [Function.comp_def, hnext, Nat.cast_zero, add_zero]

theorem readSlice_footprint {S : Set ℤ} : ∀ {n : ℕ} {l : ℤ} {k : List Int32 → Code ℤ Int32},
    (∀ i, l ≤ i → i < l + n → i ∈ S) → (∀ vs, vs.length = n → (k vs).footprint ⊆ S) →
    (readSlice n l k).footprint ⊆ S
  | 0, _, _, _, hk => hk [] rfl
  | n + 1, l, k, hl, hk => by
      refine Set.union_subset ?_ (Set.iUnion_subset fun v => readSlice_footprint ?_ ?_)
      · exact Set.singleton_subset_iff.mpr (hl l (by omega) (by omega))
      · exact fun i h h' => hl i (by omega) (by omega)
      · exact fun vs hvs => hk (v :: vs) (by rw [List.length_cons, hvs])

theorem writeSlice_footprint : ∀ (vs : List Int32) (l i : ℤ), i ∈ (writeSlice vs l).footprint →
    l ≤ i ∧ i < l + vs.length
  | [], _, _, h => h.elim
  | v :: vs, l, i, h => by
      rw [List.length_cons]
      rcases h with h | h
      · obtain rfl := Set.mem_singleton_iff.mp h
        omega
      · have := writeSlice_footprint vs (l + 1) i h
        omega

theorem run_writeSlice (vs : List Int32) (l : ℤ) (arr : ℤ → Int32) :
    ((List.range vs.length).map fun i : ℕ => (writeSlice vs l).run arr (l + i)) = vs := by
  induction vs generalizing l arr with
  | nil => rfl
  | cons v vs ih =>
      have hhead : (writeSlice (v :: vs) l).run arr l = v := by
        have hnot : l ∉ (writeSlice vs (l + 1)).footprint := fun h => by
          have := writeSlice_footprint vs (l + 1) l h
          omega
        rw [writeSlice, Code.run, Code.run_of_notMem hnot, Function.update_self]
      have htail : ∀ i : ℕ, (writeSlice (v :: vs) l).run arr (l + (i.succ : ℕ)) =
          (writeSlice vs (l + 1)).run (Function.update arr l v) (l + 1 + i) := fun i => by
        rw [writeSlice, Code.run]
        congr 1
        push_cast
        omega
      rw [List.length_cons, List.range_succ_eq_map, List.map_cons, List.map_map]
      simp only [Function.comp_def, htail, Nat.cast_zero, add_zero, hhead, ih]

/-- `merge` may read both parts, and write them back merged. -/
def Merge.ofLists : Merge where
  merge l m r := readSlice (m + 1 - l).toNat l fun a =>
    readSlice (r + 1 - (m + 1)).toNat (m + 1) fun b => writeSlice (a.merge b fun x y => x ≤ y) l
  within l m r hl hr := by
    refine readSlice_footprint (fun i h h' => ⟨h, by omega⟩) fun a ha => ?_
    refine readSlice_footprint (fun i h h' => ⟨by omega, by omega⟩) fun b hb i hi => ?_
    have := writeSlice_footprint _ _ _ hi
    rw [List.length_merge, ha, hb] at this
    exact ⟨this.1, by omega⟩
  merges l m r arr hl hr h h' := by
    let merged := (slice arr l m).merge (slice arr (m + 1) r) fun x y => x ≤ y
    have hlength : merged.length = (r + 1 - l).toNat := by
      simp only [merged, List.length_merge, slice, List.length_map, List.length_range]
      omega
    have hperm : merged.Perm (slice arr l m ++ slice arr (m + 1) r) := List.merge_perm_append _
    have hsorted : merged.Pairwise fun x y => decide (x ≤ y) = true :=
      List.pairwise_merge (fun a b c hab hbc => by
          rw [decide_eq_true_eq] at *
          exact Int32.le_trans hab hbc)
        (fun a b => by simpa using Int32.le_total a b) _ _ (h.imp decide_eq_true)
        (h'.imp decide_eq_true)
    rw [run_readSlice, run_readSlice, Sorted, slice_append arr hl hr]
    have hslice : slice ((writeSlice merged l).run arr) l r = merged := by
      rw [slice, ← hlength, run_writeSlice]
    exact ⟨hslice.symm ▸ hsorted.imp of_decide_eq_true, hslice.symm ▸ hperm⟩

/-! ### All runs -/

/-- What the sort is for: it has a value (no sum overflows), every run of its threads is finite,
what may be accessed next is apart, and when nothing can go on, the part of the array is sorted and
the rest is as it was, unless the program has exited because a thread could not be created. -/
def Correct (lib : Merge) (left right : ℤ) : Prop :=
  ∃ main, multiThreadedMergeSort lib left right = some main ∧
    (WellFounded fun s' s : State Thread ℤ Int32 => ∃ a, step a s = some s') ∧
    ∀ arr s, Reachable step (fun _ _ => True) (start main arr) s →
      (s.codes ++ s.called).Pairwise Apart ∧
      ((∀ a, step a s = none) → (s.failed = true ∧ s.exited = true) ∨
        (s.main = [] ∧ Sorted s.mem left right ∧ Rearranged left right arr s.mem))

/-- The third and the fourth part, if they have two elements, end at `2 ^ 30` at most. -/
def Fits (left right : ℤ) : Prop :=
  ((left + right) / 2 + 1 < right - (right - left) / 4 → right - (right - left) / 4 ≤ 2 ^ 30) ∧
    (right - (right - left) / 4 + 1 < right → right ≤ 2 ^ 30)

theorem correct_of_fits (lib : Merge) (left right : ℤ) (h0 : 0 ≤ left) (hle : left ≤ right)
    (hmax : left + right ≤ intMax) (hfits : Fits left right) : Correct lib left right := by
  have hmiddle : (left + right).tdiv 2 = (left + right) / 2 :=
    Int.tdiv_eq_ediv_of_nonneg (by omega)
  have hfourth : (right - left).tdiv 4 = (right - left) / 4 :=
    Int.tdiv_eq_ediv_of_nonneg (by omega)
  have hmax' := hmax
  rw [intMax] at hmax'
  obtain ⟨s₁, hs₁, h₁⟩ := singleThreadedMergeSort_sorts lib left (left + (right - left) / 4) h0
    (by omega)
  obtain ⟨s₂, hs₂, h₂⟩ := singleThreadedMergeSort_sorts lib (left + (right - left) / 4 + 1)
    ((left + right) / 2) (by omega) (by omega)
  obtain ⟨s₃, hs₃, h₃⟩ := singleThreadedMergeSort_sorts lib ((left + right) / 2 + 1)
    (right - (right - left) / 4) (by omega) hfits.1
  obtain ⟨s₄, hs₄, h₄⟩ := singleThreadedMergeSort_sorts lib (right - (right - left) / 4 + 1) right
    (by omega) hfits.2
  refine ⟨program lib left (left + (right - left) / 4) ((left + right) / 2)
    (right - (right - left) / 4) right s₁ s₂ s₃ s₄, ?_, step_wf, fun arr s hr => ?_⟩
  · rw [multiThreadedMergeSort, if_pos hmax]
    simp only [hmiddle, hfourth, hs₁, hs₂, hs₃, hs₄, Option.bind_some, Option.map_some]
  · have hsafe : Safe false [] (program lib _ _ _ _ _ s₁ s₂ s₃ s₄) :=
      program_safe h₁ h₂ h₃ h₄ (by omega) (by omega) (by omega) (by omega)
    obtain ⟨pending, live, hguarded, hfinish⟩ := hsafe.reachable hr
    refine ⟨hguarded.codes_apart, fun hstuck => (hguarded.stuck hstuck).imp_right ?_⟩
    rintro ⟨hmain, hfailed, hmem⟩
    have hseq := hfinish.resolve_left (by simp [hfailed])
    rw [hmem, hseq]
    exact ⟨hmain, program_sorts h₁ h₂ h₃ h₄ (by omega) (by omega) (by omega) (by omega) arr⟩

theorem fits_of_correct (lib : Merge) (left right : ℤ) (h0 : 0 ≤ left) (hle : left ≤ right)
    (h : Correct lib left right) : Fits left right := by
  obtain ⟨main, hmain, -⟩ := h
  have hmiddle : (left + right).tdiv 2 = (left + right) / 2 :=
    Int.tdiv_eq_ediv_of_nonneg (by omega)
  have hfourth : (right - left).tdiv 4 = (right - left) / 4 :=
    Int.tdiv_eq_ediv_of_nonneg (by omega)
  unfold multiThreadedMergeSort at hmain
  split at hmain
  · simp only [hmiddle, hfourth, Option.bind_eq_some_iff, Option.map_eq_some_iff] at hmain
    obtain ⟨s₁, -, s₂, -, s₃, hs₃, s₄, hs₄, -⟩ := hmain
    exact ⟨fun hlt => le_of_singleThreadedMergeSort hlt hs₃,
      fun hlt => le_of_singleThreadedMergeSort hlt hs₄⟩
  · cases hmain

/-- **The parallel sort**: it is correct exactly if no sum of two of its indices overflows; the sum
`left + right`, the first of them, is not the largest. -/
theorem multiThreadedMergeSort_correct_iff (lib : Merge) (left right : ℤ) (h0 : 0 ≤ left)
    (hle : left ≤ right) (hmax : left + right ≤ intMax) : Correct lib left right ↔ Fits left right :=
  ⟨fits_of_correct lib left right h0 hle, correct_of_fits lib left right h0 hle hmax⟩

theorem multiThreadedMergeSort_correct_ten : Correct .ofLists 3 12 :=
  (multiThreadedMergeSort_correct_iff .ofLists 3 12 (by decide) (by decide) (by decide)).mpr
    ⟨by decide, by decide⟩

/-- The fourth part of an array of `2 ^ 30 + 2` elements ends at `2 ^ 30 + 1`. -/
theorem multiThreadedMergeSort_overflows : ¬ ∀ (lib : Merge) (left right : ℤ), 0 ≤ left →
    left ≤ right → left + right ≤ intMax → Correct lib left right := by
  intro h
  have hcorrect := h .ofLists 0 (2 ^ 30 + 1) (by decide) (by decide) (by decide)
  have hfits := fits_of_correct .ofLists 0 (2 ^ 30 + 1) (by decide) (by decide) hcorrect
  exact absurd (hfits.2 (by decide)) (by decide)

end CSE130.Assignment2
