import CSE130.Assignment2.Sort
import CSE130.Lib.SortedParts

/-! # The merge sort of Assignment 1 (`psort.c`, `usort.c`)

`multiProcessMergeSort` sorts one half of an array in a child process and the other in the parent.
Only the segment is shared: `psort.c` copies the whole part there, sorts and merges it there and
copies it back; `usort.c` lets the child sort the right half there.  An access of the one process
may come between any two of the other.

The source writes `0` where it means `left`, so that the left half begins with what lies below
`left`.  It asks for `right` elements, so that the last index used is the first one without: it is
in the segment only because a segment has whole pages. -/

namespace CSE130.Assignment1

open ForkJoin Transition Assignment2 SortedParts

/-- The two sources. -/
inductive Version where
  | psort
  | usort
  deriving DecidableEq

/-- The parent's array and the shared segment; the child's copy of the array is not accessed. -/
inductive Cell where
  | arr (i : ℤ)
  | shared (i : ℤ)
  deriving DecidableEq

/-- The processes that are forked. -/
inductive Process where
  | child
  deriving DecidableEq

variable (lib : Merge)

/-- `merge`, as `merge.h` says. -/
def merge (base : ℤ → Cell) (left middle right : ℤ) : Code Cell Int32 :=
  (lib.merge left middle right).rename base

/-- `singleProcessMergeSort` is `singleThreadedMergeSort` word for word. -/
def singleProcessMergeSort (base : ℤ → Cell) (left right : ℤ) : Option (Code Cell Int32) :=
  (singleThreadedMergeSort lib left right).map (Code.rename base)

/-- `to[i] = from[i]`, for `n` indexes. -/
def copy (src dst : ℤ → Cell) : ℕ → ℤ → Code Cell Int32
  | 0, _ => .done
  | n + 1, i => .read (src i) fun v => .write (dst i) v (copy src dst n (i + 1))

/-- The loops from `from` up to, but not including, `right + 1`. -/
def copyLoop (src dst : ℤ → Cell) (start right : ℤ) : Code Cell Int32 :=
  copy src dst (right + 1 - start).toNat start

/-- What `psort.c` does. -/
def psortProgram (left middle right : ℤ) (child parent : Code Cell Int32) :
    List (Command Process Cell Int32) :=
  [.call (copyLoop .arr .shared left right), .create .child child, .check, .call parent,
    .join .child, .call (merge lib .shared left middle right),
    .call (copyLoop .shared .arr left right)]

/-- What `usort.c` does. -/
def usortProgram (left middle right : ℤ) (child parent : Code Cell Int32) :
    List (Command Process Cell Int32) :=
  [.call (copyLoop .arr .shared (middle + 1) right), .create .child child, .check, .call parent,
    .join .child, .call (copyLoop .shared .arr (middle + 1) right),
    .call (merge lib .arr left middle right)]

/-- `multiProcessMergeSort`; a sum of two indexes must not overflow. -/
def multiProcessMergeSort (v : Version) (left right : ℤ) :
    Option (List (Command Process Cell Int32)) :=
  if left + right ≤ intMax ∧ right + 1 ≤ intMax then
    let middle := (left + right).tdiv 2
    match v with
    | .psort =>
        (singleProcessMergeSort lib .shared 0 middle).bind fun child =>
        (singleProcessMergeSort lib .shared (middle + 1) right).map fun parent =>
          psortProgram lib left middle right child parent
    | .usort =>
        (singleProcessMergeSort lib .shared (middle + 1) right).bind fun child =>
        (singleProcessMergeSort lib .arr 0 middle).map fun parent =>
          usortProgram lib left middle right child parent
  else none

/-! ### The two arrays -/

variable {lib} {m m' : Cell → Int32} {l q r : ℤ} {c d : Code ℤ Int32} {arr arr' : ℤ → Int32}

/-- The parent's array. -/
def arrOf (m : Cell → Int32) : ℤ → Int32 := fun i => m (.arr i)

/-- The shared segment. -/
def sharedOf (m : Cell → Int32) : ℤ → Int32 := fun i => m (.shared i)

theorem run_rename_arr (c : Code ℤ Int32) (m : Cell → Int32) :
    arrOf ((c.rename .arr).run m) = c.run (arrOf m) :=
  Code.run_rename (fun _ _ h => Cell.arr.inj h) c m

theorem run_rename_shared (c : Code ℤ Int32) (m : Cell → Int32) :
    sharedOf ((c.rename .shared).run m) = c.run (sharedOf m) :=
  Code.run_rename (fun _ _ h => Cell.shared.inj h) c m

theorem arrOf_rename_shared (c : Code ℤ Int32) (m : Cell → Int32) :
    arrOf ((c.rename .shared).run m) = arrOf m := by
  funext i
  apply Code.run_of_notMem
  intro hmem
  obtain ⟨j, -, hj⟩ := Code.footprint_rename c hmem
  cases hj

theorem sharedOf_rename_arr (c : Code ℤ Int32) (m : Cell → Int32) :
    sharedOf ((c.rename .arr).run m) = sharedOf m := by
  funext i
  apply Code.run_of_notMem
  intro hmem
  obtain ⟨j, -, hj⟩ := Code.footprint_rename c hmem
  cases hj

section Copy

variable {src dst : ℤ → Cell}

theorem run_copy_of_ne {x : Cell} (hx : ∀ i, x ≠ dst i) (n : ℕ) (i : ℤ) (m : Cell → Int32) :
    (copy src dst n i).run m x = m x := by
  induction n generalizing i m with
  | zero => rfl
  | succ n ih =>
      rw [copy, Code.run, Code.run, ih]
      exact Function.update_of_ne (hx i) ..

theorem run_copy (hdst : Function.Injective dst) (hsrc : ∀ i j, src i ≠ dst j) (n : ℕ) (i j : ℤ)
    (m : Cell → Int32) : (copy src dst n i).run m (dst j) =
      if i ≤ j ∧ j < i + n then m (src j) else m (dst j) := by
  induction n generalizing i m with
  | zero =>
      rw [if_neg (by omega)]
      rfl
  | succ n ih =>
      rw [copy, Code.run, Code.run, ih]
      by_cases hij : j = i
      · subst hij
        rw [if_neg (by omega), if_pos (by omega)]
        exact Function.update_self ..
      · rw [Function.update_of_ne (hsrc j i), Function.update_of_ne (hdst.ne hij)]
        congr 1
        rw [eq_iff_iff]
        push_cast
        omega

theorem run_copyLoop (hdst : Function.Injective dst) (hsrc : ∀ i j, src i ≠ dst j)
    (m : Cell → Int32) (j : ℤ) : (copyLoop src dst l r).run m (dst j) =
      if l ≤ j ∧ j ≤ r then m (src j) else m (dst j) := by
  rw [copyLoop, run_copy hdst hsrc]
  congr 1
  rw [eq_iff_iff]
  omega

end Copy

theorem arr_ne_shared (i j : ℤ) : Cell.arr i ≠ Cell.shared j := nofun

theorem shared_ne_arr (i j : ℤ) : Cell.shared i ≠ Cell.arr j := nofun

theorem sharedOf_copyIn (m : Cell → Int32) : sharedOf ((copyLoop .arr .shared l r).run m) =
    fun j => if l ≤ j ∧ j ≤ r then arrOf m j else sharedOf m j :=
  funext fun j => run_copyLoop (fun _ _ h => Cell.shared.inj h) arr_ne_shared m j

theorem arrOf_copyOut (m : Cell → Int32) : arrOf ((copyLoop .shared .arr l r).run m) =
    fun j => if l ≤ j ∧ j ≤ r then sharedOf m j else arrOf m j :=
  funext fun j => run_copyLoop (fun _ _ h => Cell.arr.inj h) shared_ne_arr m j

theorem arrOf_copyIn (m : Cell → Int32) : arrOf ((copyLoop .arr .shared l r).run m) = arrOf m :=
  funext fun i => run_copy_of_ne (arr_ne_shared i) _ _ m

/-! ### The programs -/

theorem rename_within {base : ℤ → Cell} {a b : ℤ} (h : c.footprint ⊆ Set.Icc a b) :
    (c.rename base).footprint ⊆ base '' Set.Icc a b :=
  (Code.footprint_rename c).trans (Set.image_mono h)

theorem psort_safe (hc : c.footprint ⊆ Set.Icc 0 q) (hd : d.footprint ⊆ Set.Icc (q + 1) r) :
    Safe false [] (psortProgram lib l q r (c.rename .shared) (d.rename .shared)) := by
  have hapart : Disjoint (d.rename Cell.shared).footprint (c.rename Cell.shared).footprint := by
    apply Disjoint.mono (rename_within hd) (rename_within hc)
    apply (Set.disjoint_image_iff fun _ _ h => Cell.shared.inj h).mpr
    refine Set.disjoint_left.mpr fun i hi hi' => ?_
    rw [Set.mem_Icc] at hi hi'
    omega
  simpa +decide [psortProgram, Safe] using hapart

theorem usort_safe :
    Safe false [] (usortProgram lib l q r (c.rename .shared) (d.rename .arr)) := by
  have hapart : Disjoint (d.rename Cell.arr).footprint (c.rename Cell.shared).footprint := by
    refine Set.disjoint_left.mpr fun x hx hx' => ?_
    obtain ⟨i, -, rfl⟩ := Code.footprint_rename d hx
    obtain ⟨j, -, hj⟩ := Code.footprint_rename c hx'
    cases hj
  simpa +decide [usortProgram, Safe] using hapart

/-- The segment, or the array, with the elements from `l` to `r` of the other. -/
def overlay (l r : ℤ) (arr arr' : ℤ → Int32) : ℤ → Int32 := fun j =>
  if l ≤ j ∧ j ≤ r then arr j else arr' j

theorem overlay_of_mem {j : ℤ} (h : l ≤ j) (h' : j ≤ r) : overlay l r arr arr' j = arr j :=
  if_pos ⟨h, h'⟩

theorem overlay_of_not_mem {j : ℤ} (h : j < l ∨ r < j) : overlay l r arr arr' j = arr' j :=
  if_neg (by omega)

theorem psort_result (m : Cell → Int32) :
    arrOf (runMain (psortProgram lib l q r (c.rename .shared) (d.rename .shared)) m) =
      overlay l r ((lib.merge l q r).run (d.run (c.run (overlay l r (arrOf m) (sharedOf m)))))
        (arrOf m) := by
  simp only [psortProgram, runMain, merge]
  rw [arrOf_copyOut, run_rename_shared, run_rename_shared, run_rename_shared, sharedOf_copyIn,
    arrOf_rename_shared, arrOf_rename_shared, arrOf_rename_shared, arrOf_copyIn]
  rfl

theorem usort_result (m : Cell → Int32) :
    arrOf (runMain (usortProgram lib l q r (c.rename .shared) (d.rename .arr)) m) =
      (lib.merge l q r).run (overlay (q + 1) r
        (c.run (overlay (q + 1) r (arrOf m) (sharedOf m))) (d.run (arrOf m))) := by
  simp only [usortProgram, runMain, merge]
  rw [run_rename_arr, arrOf_copyOut, sharedOf_rename_arr, run_rename_shared, sharedOf_copyIn,
    run_rename_arr, arrOf_rename_shared, arrOf_copyIn]
  rfl

/-! ### What is below `left` -/

/-- No element of `arr` from `0` to `l - 1` is greater than one of `arr'` from `l` to `q`. -/
def Below (l q : ℤ) (arr arr' : ℤ → Int32) : Prop :=
  ∀ i j, 0 ≤ i → i < l → l ≤ j → j ≤ q → arr i ≤ arr' j

theorem mem_slice {v : Int32} : v ∈ slice arr l r ↔ ∃ i, l ≤ i ∧ i ≤ r ∧ arr i = v := by
  rw [slice, List.mem_map]
  constructor
  · rintro ⟨k, hk, rfl⟩
    rw [List.mem_range] at hk
    exact ⟨l + k, by omega, by omega, rfl⟩
  · rintro ⟨i, hl, hr, rfl⟩
    refine ⟨(i - l).toNat, List.mem_range.mpr (by omega), congrArg arr ?_⟩
    omega

theorem below_iff : Below l q arr arr' ↔
    Before (· ≤ ·) (slice arr 0 (l - 1)) (slice arr' l q) := by
  constructor
  · intro h a ha b hb
    obtain ⟨i, hi, hi', rfl⟩ := mem_slice.mp ha
    obtain ⟨j, hj, hj', rfl⟩ := mem_slice.mp hb
    exact h i j hi (by omega) hj hj'
  · intro h i j hi hi' hj hj'
    exact h _ (mem_slice.mpr ⟨i, hi, by omega, rfl⟩) _ (mem_slice.mpr ⟨j, hj, hj', rfl⟩)

theorem length_slice (arr : ℤ → Int32) (l r : ℤ) : (slice arr l r).length = (r + 1 - l).toNat := by
  rw [slice, List.length_map, List.length_range]

theorem Sorted.mono {a b : ℤ} (h : Sorted arr a b) (hal : a ≤ l) (hrb : r ≤ b) : Sorted arr l r := by
  by_cases hlr : l ≤ r
  · rw [Sorted, slice_append (m := l - 1) arr (by omega) (by omega), List.pairwise_append,
      sub_add_cancel, slice_append (m := r) arr (by omega) hrb, List.pairwise_append] at h
    exact h.2.1.1
  · exact sorted_of_le (by omega)

section Sorting

variable (hl : 0 ≤ l) (hq : l ≤ q + 1) (hs : Sorted arr' 0 q) (hr : Rearranged 0 q arr arr')

include hl hq hs hr

theorem perm_iff_below : (slice arr' l q).Perm (slice arr l q) ↔ Below l q arr arr := by
  have hsplit : ∀ arr : ℤ → Int32, slice arr 0 q = slice arr 0 (l - 1) ++ slice arr l q := by
    intro arr
    rw [slice_append (m := l - 1) arr (by omega) (by omega), sub_add_cancel]
  have hperm := hr.perm
  rw [hsplit, hsplit] at hperm
  rw [Sorted, hsplit] at hs
  rw [below_iff]
  apply perm_second_iff hs hperm
  rw [length_slice, length_slice]

theorem slice_eq_iff_below : slice arr' 0 (l - 1) = slice arr 0 (l - 1) ↔
    Sorted arr 0 (l - 1) ∧ Below l q arr arr := by
  have hsplit : ∀ arr : ℤ → Int32, slice arr 0 q = slice arr 0 (l - 1) ++ slice arr l q := by
    intro arr
    rw [slice_append (m := l - 1) arr (by omega) (by omega), sub_add_cancel]
  have hperm := hr.perm
  rw [hsplit, hsplit] at hperm
  rw [Sorted, hsplit] at hs
  rw [below_iff]
  apply eq_first_iff hs hperm
  rw [length_slice, length_slice]

end Sorting

theorem slice_eq_iff : slice arr' l r = slice arr l r ↔ ∀ i, l ≤ i → i ≤ r → arr' i = arr i := by
  constructor
  · intro h i hl hr
    have hk := List.map_inj_left.mp h (i - l).toNat (List.mem_range.mpr (by omega))
    rwa [show l + ((i - l).toNat : ℤ) = i by omega] at hk
  · exact fun h => slice_congr h

/-- The right half keeps its elements, so that it depends on the left one whether all do. -/
theorem perm_iff_left (hl : l ≤ q + 1) (hq : q ≤ r)
    (h : (slice arr' (q + 1) r).Perm (slice arr (q + 1) r)) :
    (slice arr' l r).Perm (slice arr l r) ↔ (slice arr' l q).Perm (slice arr l q) := by
  rw [slice_append arr' hl hq, slice_append arr hl hq]
  constructor
  · intro hperm
    exact (List.perm_append_right_iff _).mp ((h.symm.append_left _).trans hperm)
  · intro hperm
    exact hperm.append h

theorem psort_sorts (lib : Merge) (hl : 0 ≤ l) (hlq : l ≤ q + 1) (hq : q ≤ r) (hc : SortsPart 0 q c)
    (hd : SortsPart (q + 1) r d) (arr shared : ℤ → Int32) :
    let s := overlay l r ((lib.merge l q r).run (d.run (c.run (overlay l r arr shared)))) arr
    Sorted s l r ∧ (Rearranged l r arr s ↔ Below l q shared arr) := by
  intro s
  let s₁ := overlay l r arr shared
  let s₂ := c.run s₁
  let s₃ := d.run s₂
  have hr₂ : Rearranged 0 q s₁ s₂ := hc.rearranged s₁
  have hr₃ : Rearranged (q + 1) r s₂ s₃ := hd.rearranged s₂
  have hs₃ : Sorted s₃ l q :=
    Sorted.mono ((hc.sorted s₁).of_rearranged hr₃ (.inl (by omega))) hl (Int.le_refl q)
  obtain ⟨hsorted, hperm⟩ := lib.merges l q r s₃ hlq hq hs₃ (hd.sorted s₂)
  have hslice : slice s l r = slice ((lib.merge l q r).run s₃) l r :=
    slice_congr fun i hi hi' => overlay_of_mem hi hi'
  have hright : (slice s₃ (q + 1) r).Perm (slice arr (q + 1) r) := by
    have hsame : slice s₂ (q + 1) r = slice arr (q + 1) r := by
      refine slice_congr fun i hi hi' => ?_
      exact (hr₂.same i (.inr (by omega))).trans (overlay_of_mem (by omega) hi')
    exact hsame ▸ hr₃.perm
  have hleft : slice s₃ l q = slice s₂ l q := slice_congr fun i _ hi => hr₃.same i (.inl (by omega))
  have hbefore : slice s₁ l q = slice arr l q :=
    slice_congr fun i hi hi' => overlay_of_mem hi (by omega)
  have hbelow : Below l q s₁ s₁ ↔ Below l q shared arr := by
    rw [below_iff, below_iff, hbefore]
    have hunder : slice s₁ 0 (l - 1) = slice shared 0 (l - 1) :=
      slice_congr fun i _ hi => overlay_of_not_mem (.inl (by omega))
    rw [hunder]
  have hiff : (slice s l r).Perm (slice arr l r) ↔ Below l q shared arr := by
    rw [hslice, hperm.congr_left, perm_iff_left hlq hq hright, hleft, ← hbefore,
      perm_iff_below hl hlq (hc.sorted s₁) hr₂, hbelow]
  refine ⟨?_, fun h => hiff.mp h.perm, fun h => ⟨hiff.mpr h, fun i hi => overlay_of_not_mem hi⟩⟩
  rw [Sorted, hslice]
  exact hsorted

theorem usort_sorts (lib : Merge) (hl : 0 ≤ l) (hlq : l ≤ q + 1) (hq : q ≤ r)
    (hc : SortsPart (q + 1) r c) (hd : SortsPart 0 q d) (arr shared : ℤ → Int32) :
    let s := (lib.merge l q r).run
      (overlay (q + 1) r (c.run (overlay (q + 1) r arr shared)) (d.run arr))
    Sorted s l r ∧ (Rearranged l r arr s ↔ Sorted arr 0 (l - 1) ∧ Below l q arr arr) := by
  intro s
  let s₁ := overlay (q + 1) r arr shared
  let s₂ := c.run s₁
  let a₂ := d.run arr
  let a₃ := overlay (q + 1) r s₂ a₂
  have hr₂ : Rearranged 0 q arr a₂ := hd.rearranged arr
  have hleft : slice a₃ l q = slice a₂ l q :=
    slice_congr fun i _ hi => overlay_of_not_mem (.inl (by omega))
  have hright : slice a₃ (q + 1) r = slice s₂ (q + 1) r :=
    slice_congr fun i hi hi' => overlay_of_mem hi hi'
  have hs₃ : Sorted a₃ l q := by
    rw [Sorted, hleft]
    exact Sorted.mono (hd.sorted arr) hl (Int.le_refl q)
  have hs₃' : Sorted a₃ (q + 1) r := by
    rw [Sorted, hright]
    exact hc.sorted s₁
  obtain ⟨hsorted, hmerged⟩ := lib.rearranged a₃ hlq hq hs₃ hs₃'
  have hperm : (slice a₃ (q + 1) r).Perm (slice arr (q + 1) r) := by
    have hsame : slice s₁ (q + 1) r = slice arr (q + 1) r :=
      slice_congr fun i hi hi' => overlay_of_mem hi hi'
    rw [hright, ← hsame]
    exact (hc.rearranged s₁).perm
  have houtside : ∀ i, i < l ∨ r < i → s i = a₂ i := fun i hi =>
    (hmerged.same i hi).trans (overlay_of_not_mem (by omega))
  have hsame : slice a₂ 0 (l - 1) = slice arr 0 (l - 1) ↔ ∀ i, i < l ∨ r < i → s i = arr i := by
    rw [slice_eq_iff]
    constructor
    · intro h i hi
      rw [houtside i hi]
      by_cases hin : 0 ≤ i ∧ i < l
      · exact h i hin.1 (by omega)
      · exact hr₂.same i (by omega)
    · intro h i _ hi
      rw [← houtside i (.inl (by omega))]
      exact h i (.inl (by omega))
  rw [slice_eq_iff_below hl hlq (hd.sorted arr) hr₂] at hsame
  refine ⟨hsorted, fun h => hsame.mpr h.same, fun h => ⟨?_, hsame.mp h⟩⟩
  apply hmerged.perm.trans
  rw [perm_iff_left hlq hq hperm, hleft]
  exact (perm_iff_below hl hlq (hd.sorted arr) hr₂).mpr h.2

/-! ### The segment -/

/-- `sizeof (int) * right`: what `ftruncate` and `mmap`, or `shmget`, are asked for. -/
def segmentSize (right : ℤ) : ℤ := 4 * right

/-- The bytes of the segment, which has whole pages of `page` bytes. -/
def mappedSize (page right : ℤ) : ℤ := (segmentSize right + page - 1) / page * page

/-- In every run both processes access the segment below `size` bytes.  What is behind its pages is
no shared memory: an access there faults, or changes a byte of one process alone. -/
def Confined (main : List (Command Process Cell Int32)) (m : Cell → Int32) (size : ℤ) : Prop :=
  ∀ s, Reachable step Creates (start main m) s → ∀ c ∈ s.codes ++ s.called,
    ∀ i, c.next = some (.shared i) → 0 ≤ i ∧ 4 * (i + 1) ≤ size

/-- The index `right` is in the segment, unless the size asked for is one of whole pages. -/
theorem le_mappedSize {page right : ℤ} (hpage : 0 < page) (h4 : 4 ∣ page) :
    4 * (right + 1) ≤ mappedSize page right ↔ ¬page ∣ segmentSize right := by
  have hround : mappedSize page right = segmentSize right + page - 1 -
      (segmentSize right + page - 1) % page := by
    have h := Int.mul_ediv_add_emod (segmentSize right + page - 1) page
    rw [mappedSize, Int.mul_comm]
    omega
  -- the remainder is a number of elements
  have h4' : segmentSize right % page % 4 = 0 := by
    rw [Int.emod_emod_of_dvd _ h4, segmentSize, Int.mul_emod_right]
  have hlt := Int.emod_lt_of_pos (segmentSize right) hpage
  have hnonneg := Int.emod_nonneg (segmentSize right) hpage.ne'
  have hsize : segmentSize right = 4 * right := rfl
  rw [hround, Int.dvd_iff_emod_eq_zero]
  by_cases h0 : segmentSize right % page = 0
  · have hlast : (segmentSize right + page - 1) % page = page - 1 := by
      rw [Int.add_sub_assoc, Int.add_emod, h0, Int.zero_add, Int.emod_emod,
        Int.emod_eq_of_lt (by omega) (by omega)]
    omega
  · have hlast : (segmentSize right + page - 1) % page = segmentSize right % page - 1 := by
      rw [show segmentSize right + page - 1 = segmentSize right - 1 + page by omega,
        Int.add_emod_right, Int.sub_emod, Int.emod_eq_of_lt (a := 1) (by omega) (by omega),
        Int.emod_eq_of_lt (by omega) (by omega)]
    have h4 : ∃ k, page = 4 * k := h4
    omega

theorem creates_main (s : State Process Cell Int32) : Creates s .main := nofun

theorem reaches_last {src dst : ℤ → Cell} {s₀ : State Process Cell Int32} (n : ℕ) (i : ℤ)
    (s : State Process Cell Int32) {cs : List (Command Process Cell Int32)}
    (hr : Reachable step Creates s₀ s) (hexit : s.exited = false)
    (hmain : s.main = .call (copy src dst (n + 1) i) :: cs) :
    ∃ s' v, Reachable step Creates s₀ s' ∧ s'.main = .call (.write (dst (i + n)) v .done) :: cs := by
  induction n generalizing i s with
  | zero =>
      let s' : State Process Cell Int32 :=
        { s with main := .call (.write (dst i) (s.mem (src i)) .done) :: cs }
      have hs : step .main s = some s' := by
        rw [step, if_neg (by simp [hexit]), State.stepMain, hmain]
        rfl
      refine ⟨s', s.mem (src i), hr.tail (creates_main s) hs, ?_⟩
      simp [s']
  | succ n ih =>
      let s' : State Process Cell Int32 :=
        { s with main := .call (.write (dst i) (s.mem (src i)) (copy src dst (n + 1) (i + 1))) :: cs }
      have hs : step .main s = some s' := by
        rw [step, if_neg (by simp [hexit]), State.stepMain, hmain]
        rfl
      let s'' : State Process Cell Int32 :=
        { s' with mem := Function.update s.mem (dst i) (s.mem (src i))
                  main := .call (copy src dst (n + 1) (i + 1)) :: cs }
      have hs' : step .main s' = some s'' := by
        rw [step, if_neg (by simp [s', hexit])]
        rfl
      obtain ⟨t, v, ht, hlast⟩ :=
        ih (i + 1) s'' ((hr.tail (creates_main s) hs).tail (creates_main s') hs') hexit rfl
      refine ⟨t, v, ht, ?_⟩
      rw [hlast]
      push_cast
      rw [show i + 1 + (n : ℤ) = i + (n + 1) by omega]

/-- The last store of the loop that copies the array into the segment is at the index `right`. -/
theorem Confined.le_size {main cs : List (Command Process Cell Int32)} {m : Cell → Int32}
    {a size : ℤ} (h : Confined main m size) (ha : a ≤ r)
    (hmain : main = .call (copyLoop .arr .shared a r) :: cs) : 4 * (r + 1) ≤ size := by
  obtain ⟨n, hn⟩ : ∃ n : ℕ, (r + 1 - a).toNat = n + 1 :=
    Nat.exists_eq_succ_of_ne_zero (by omega)
  have hs₀ : (ForkJoin.start main m).main = .call (copy .arr .shared (n + 1) a) :: cs := by
    rw [← hn, hmain]
    rfl
  obtain ⟨s, w, hr, hlast⟩ := reaches_last n a _ .refl rfl hs₀
  have hcalled : Code.write (.shared (a + n)) w .done ∈ s.codes ++ s.called := by
    rw [State.called, hlast]
    exact List.mem_append_right _ (List.mem_singleton_self _)
  have hbound := (h s hr _ hcalled _ rfl).2
  omega

theorem psort_copies {left right : ℤ} {main : List (Command Process Cell Int32)}
    (h : multiProcessMergeSort lib .psort left right = some main) :
    ∃ cs, main = .call (copyLoop .arr .shared left right) :: cs := by
  rw [multiProcessMergeSort] at h
  split at h
  · simp only [Option.bind_eq_some_iff, Option.map_eq_some_iff] at h
    obtain ⟨-, -, -, -, rfl⟩ := h
    exact ⟨_, rfl⟩
  · cases h

theorem usort_copies {left right : ℤ} {main : List (Command Process Cell Int32)}
    (h : multiProcessMergeSort lib .usort left right = some main) :
    ∃ cs, main = .call (copyLoop .arr .shared ((left + right).tdiv 2 + 1) right) :: cs := by
  rw [multiProcessMergeSort] at h
  split at h
  · simp only [Option.bind_eq_some_iff, Option.map_eq_some_iff] at h
    obtain ⟨-, -, -, -, rfl⟩ := h
    exact ⟨_, rfl⟩
  · cases h

/-- The cells of the array, and those of the segment up to the index `r`. -/
def cells (r : ℤ) : Set Cell := Set.range .arr ∪ .shared '' Set.Icc 0 r

theorem confined_of_cells {main : List (Command Process Cell Int32)} {size : ℤ}
    (h : ∀ x ∈ main, x.footprint ⊆ cells r) (hsize : 0 ≤ r → 4 * (r + 1) ≤ size)
    (m : Cell → Int32) : Confined main m size := by
  intro s hr c hc i hi
  rcases (within_reachable h hr).next hc hi with ⟨j, hj⟩ | ⟨j, hj, hij⟩
  · cases hj
  · cases hij
    rw [Set.mem_Icc] at hj
    omega

theorem rename_cells_arr (c : Code ℤ Int32) : (c.rename Cell.arr).footprint ⊆ cells r :=
  ((Code.footprint_rename c).trans (Set.image_subset_range _ _)).trans Set.subset_union_left

theorem rename_cells_shared {a b : ℤ} (h : c.footprint ⊆ Set.Icc a b) (ha : 0 ≤ a) (hb : b ≤ r) :
    (c.rename Cell.shared).footprint ⊆ cells r :=
  ((rename_within h).trans (Set.image_mono (Set.Icc_subset_Icc ha hb))).trans
    Set.subset_union_right

theorem copy_cells {src dst : ℤ → Cell} (n : ℕ) (i : ℤ)
    (h : ∀ j, i ≤ j → j < i + n → src j ∈ cells r ∧ dst j ∈ cells r) :
    (copy src dst n i).footprint ⊆ cells r := by
  induction n generalizing i with
  | zero => exact Set.empty_subset _
  | succ n ih =>
      have hi := h i (Int.le_refl i) (by omega)
      refine Set.union_subset (Set.singleton_subset_iff.mpr hi.1) (Set.iUnion_subset fun v => ?_)
      refine Set.union_subset (Set.singleton_subset_iff.mpr hi.2) (ih (i + 1) fun j hj hj' => ?_)
      exact h j (by omega) (by omega)

theorem arr_mem_cells (i : ℤ) : Cell.arr i ∈ cells r := .inl ⟨i, rfl⟩

theorem shared_mem_cells {i : ℤ} (h0 : 0 ≤ i) (hr : i ≤ r) : Cell.shared i ∈ cells r :=
  .inr ⟨i, ⟨h0, hr⟩, rfl⟩

theorem copyIn_cells (hl : 0 ≤ l) : (copyLoop .arr .shared l r).footprint ⊆ cells r :=
  copy_cells _ _ fun j hj hj' => ⟨arr_mem_cells j, shared_mem_cells (by omega) (by omega)⟩

theorem copyOut_cells (hl : 0 ≤ l) : (copyLoop .shared .arr l r).footprint ⊆ cells r :=
  copy_cells _ _ fun j hj hj' => ⟨shared_mem_cells (by omega) (by omega), arr_mem_cells j⟩

theorem psort_cells (hl : 0 ≤ l) (hlq : l ≤ q + 1) (hq : q ≤ r) (hc : c.footprint ⊆ Set.Icc 0 q)
    (hd : d.footprint ⊆ Set.Icc (q + 1) r) :
    ∀ x ∈ psortProgram lib l q r (c.rename .shared) (d.rename .shared), x.footprint ⊆ cells r := by
  have hmerge := rename_cells_shared (lib.within l q r hlq hq) hl (Int.le_refl r)
  simp only [psortProgram, List.forall_mem_cons, Command.footprint]
  exact ⟨copyIn_cells hl, rename_cells_shared hc (Int.le_refl 0) hq, Set.empty_subset _,
    rename_cells_shared hd (by omega) (Int.le_refl r), Set.empty_subset _, hmerge,
    copyOut_cells hl, fun _ h => by cases h⟩

theorem usort_cells (hq : 0 ≤ q + 1) (hc : c.footprint ⊆ Set.Icc (q + 1) r) :
    ∀ x ∈ usortProgram lib l q r (c.rename .shared) (d.rename .arr), x.footprint ⊆ cells r := by
  simp only [usortProgram, List.forall_mem_cons, Command.footprint]
  exact ⟨copyIn_cells hq, rename_cells_shared hc hq (Int.le_refl r), Set.empty_subset _,
    rename_cells_arr d, Set.empty_subset _, copyOut_cells hq, rename_cells_arr _,
    fun _ h => by cases h⟩

/-- For an empty right half `usort.c` does not access the segment. -/
theorem usort_cells_empty :
    ∀ x ∈ usortProgram lib l r r .done (d.rename .arr), x.footprint ⊆ cells (-1) := by
  have hempty : ∀ src dst : ℤ → Cell, copyLoop src dst (r + 1) r = .done := by
    intro src dst
    rw [copyLoop, Int.sub_self]
    rfl
  simp only [usortProgram, hempty, List.forall_mem_cons, Command.footprint, Code.footprint]
  exact ⟨Set.empty_subset _, Set.empty_subset _, Set.empty_subset _, rename_cells_arr d,
    Set.empty_subset _, Set.empty_subset _, rename_cells_arr _, fun _ h => by cases h⟩

/-! ### All runs -/

/-- What the sort is for: it has a value (no sum overflows), both processes keep to the segment, every
run is finite, and when the child could be forked and nothing can go on, the part of the array is
sorted and the rest is as it was. -/
def Honours (lib : Merge) (page : ℤ) (v : Version) (m : Cell → Int32) (left right : ℤ) : Prop :=
  ∃ main, multiProcessMergeSort lib v left right = some main ∧
    Confined main m (mappedSize page right) ∧
    (WellFounded fun s' s : State Process Cell Int32 => ∃ a, step a s = some s') ∧
    ∀ s, Reachable step Creates (start main m) s → (∀ a, step a s = none) →
      s.main = [] ∧ Sorted (arrOf s.mem) left right ∧
        Rearranged left right (arrOf m) (arrOf s.mem)

/-- The sums fit: the first of all, and the last one of the right half if that has two elements. -/
def Fits (left right : ℤ) : Prop :=
  left + right ≤ intMax ∧ ((left + right) / 2 + 1 < right → right ≤ 2 ^ 30)

/-- What is below `left` is in its place: in `psort.c` in the segment, in `usort.c` in the array. -/
def Version.InPlace (v : Version) (m : Cell → Int32) (left right : ℤ) : Prop :=
  match v with
  | .psort => Below left ((left + right) / 2) (sharedOf m) (arrOf m)
  | .usort => Sorted (arrOf m) 0 (left - 1) ∧
      Below left ((left + right) / 2) (arrOf m) (arrOf m)

/-- The segment has an element at `right`, or none is used. -/
def Version.HasRoom (v : Version) (page left right : ℤ) : Prop :=
  match v with
  | .psort => ¬page ∣ segmentSize right
  | .usort => left = right ∨ ¬page ∣ segmentSize right

/-- A safe program that keeps to the segment is judged by its sequential run. -/
theorem honours_iff_of_safe {v : Version} {page left right : ℤ}
    {main : List (Command Process Cell Int32)}
    (hmain : multiProcessMergeSort lib v left right = some main) (hsafe : Safe false [] main)
    (hroom : Confined main m (mappedSize page right)) :
    Honours lib page v m left right ↔ Sorted (arrOf (runMain main m)) left right ∧
      Rearranged left right (arrOf m) (arrOf (runMain main m)) := by
  constructor
  · rintro ⟨main', hmain', -, -, hall⟩
    obtain rfl : main = main' := Option.some.inj (hmain.symm.trans hmain')
    obtain ⟨s, hr, hstuck, -, hmem⟩ := hsafe.exists_finished m
    rw [← hmem]
    exact (hall s hr hstuck).2
  · intro h
    refine ⟨main, hmain, hroom, step_wf, fun s hr hstuck => ?_⟩
    obtain ⟨hend, hmem⟩ := hsafe.finished hr hstuck
    rw [hmem]
    exact ⟨hend, h⟩

theorem singleProcessMergeSort_eq {base : ℤ → Cell} (h : singleThreadedMergeSort lib l r = some c) :
    singleProcessMergeSort lib base l r = some (c.rename base) := by
  rw [singleProcessMergeSort, h, Option.map_some]

/-- The sorts of both halves, when the sums fit. -/
theorem exists_sorts (lib : Merge) {left right : ℤ} (h0 : 0 ≤ left) (hle : left ≤ right)
    (hfits : Fits left right) :
    ∃ c d, singleThreadedMergeSort lib 0 ((left + right) / 2) = some c ∧
      SortsPart 0 ((left + right) / 2) c ∧
      singleThreadedMergeSort lib ((left + right) / 2 + 1) right = some d ∧
      SortsPart ((left + right) / 2 + 1) right d := by
  have hmax := hfits.1
  rw [intMax] at hmax
  obtain ⟨c, hc, hsort⟩ := singleThreadedMergeSort_sorts lib 0 ((left + right) / 2) (Int.le_refl 0)
    (fun _ => by omega)
  obtain ⟨d, hd, hsort'⟩ := singleThreadedMergeSort_sorts lib ((left + right) / 2 + 1) right
    (by omega) hfits.2
  exact ⟨c, d, hc, hsort, hd, hsort'⟩

theorem fits_of_value {v : Version} {left right : ℤ} {main : List (Command Process Cell Int32)}
    (h0 : 0 ≤ left) (hle : left ≤ right)
    (h : multiProcessMergeSort lib v left right = some main) : Fits left right := by
  have hmiddle : (left + right).tdiv 2 = (left + right) / 2 :=
    Int.tdiv_eq_ediv_of_nonneg (by omega)
  rw [multiProcessMergeSort] at h
  split at h
  · rename_i hmax
    refine ⟨hmax.1, fun hlt => ?_⟩
    cases v with
    | psort =>
        simp only [hmiddle, singleProcessMergeSort, Option.bind_eq_some_iff,
          Option.map_eq_some_iff] at h
        obtain ⟨-, -, -, ⟨d, hd, -⟩, -⟩ := h
        exact le_of_singleThreadedMergeSort hlt hd
    | usort =>
        simp only [hmiddle, singleProcessMergeSort, Option.bind_eq_some_iff,
          Option.map_eq_some_iff] at h
        obtain ⟨-, ⟨d, hd, -⟩, -⟩ := h
        exact le_of_singleThreadedMergeSort hlt hd
  · cases h

/-- The value of the sort, when the sums fit. -/
theorem multiProcessMergeSort_eq (lib : Merge) (v : Version) {left right : ℤ} (h0 : 0 ≤ left)
    (hle : left ≤ right) (hfits : Fits left right) :
    ∃ c d, singleThreadedMergeSort lib 0 ((left + right) / 2) = some c ∧
      SortsPart 0 ((left + right) / 2) c ∧
      singleThreadedMergeSort lib ((left + right) / 2 + 1) right = some d ∧
      SortsPart ((left + right) / 2 + 1) right d ∧
      multiProcessMergeSort lib v left right = some (match v with
        | .psort => psortProgram lib left ((left + right) / 2) right (c.rename .shared)
            (d.rename .shared)
        | .usort => usortProgram lib left ((left + right) / 2) right (d.rename .shared)
            (c.rename .arr)) := by
  obtain ⟨c, d, hc, hsort, hd, hsort'⟩ := exists_sorts lib h0 hle hfits
  have hmiddle : (left + right).tdiv 2 = (left + right) / 2 :=
    Int.tdiv_eq_ediv_of_nonneg (by omega)
  have hmax : left + right ≤ intMax ∧ right + 1 ≤ intMax := by
    have h₁ := hfits.1
    have h₂ := hfits.2
    rw [intMax] at *
    omega
  refine ⟨c, d, hc, hsort, hd, hsort', ?_⟩
  rw [multiProcessMergeSort, if_pos hmax, hmiddle]
  cases v with
  | psort =>
      simp only [singleProcessMergeSort_eq hc, singleProcessMergeSort_eq hd, Option.bind_some,
        Option.map_some]
  | usort =>
      simp only [singleProcessMergeSort_eq hc, singleProcessMergeSort_eq hd, Option.bind_some,
        Option.map_some]

/-- Both processes keep to a segment that has an element at `right`, or that they do not use. -/
theorem confined_of_hasRoom {v : Version} {page left right : ℤ}
    {main : List (Command Process Cell Int32)} (hpage : 0 < page) (h4 : 4 ∣ page) (h0 : 0 ≤ left)
    (hle : left ≤ right) (hroom : v.HasRoom page left right)
    (hmain : multiProcessMergeSort lib v left right = some main) (m : Cell → Int32) :
    Confined main m (mappedSize page right) := by
  obtain ⟨c, d, -, hc, hd, hd', hvalue⟩ :=
    multiProcessMergeSort_eq lib v h0 hle (fits_of_value h0 hle hmain)
  obtain rfl := Option.some.inj (hmain.symm.trans hvalue)
  have hsize : ¬page ∣ segmentSize right → 0 ≤ right → 4 * (right + 1) ≤ mappedSize page right :=
    fun h _ => (le_mappedSize hpage h4).mpr h
  cases v with
  | psort =>
      exact confined_of_cells (psort_cells h0 (by omega) (by omega) hc.within hd'.within)
        (hsize hroom) m
  | usort =>
      rcases hroom with rfl | hroom
      · have hdone : d = .done := by
          rw [singleThreadedMergeSort, dif_neg (by omega)] at hd
          exact (Option.some.inj hd).symm
        have hmiddle : (left + left) / 2 = left := by omega
        subst hdone
        simp only [hmiddle]
        exact confined_of_cells usort_cells_empty (by omega) m
      · exact confined_of_cells (usort_cells (by omega) hd'.within) (hsize hroom) m

/-- The element at `right` is stored to the segment. -/
theorem Confined.stores {v : Version} {left right size : ℤ}
    {main : List (Command Process Cell Int32)} (h0 : 0 ≤ left) (hle : left ≤ right)
    (hmain : multiProcessMergeSort lib v left right = some main) (h : Confined main m size) :
    v = .usort ∧ left = right ∨ 4 * (right + 1) ≤ size := by
  cases v with
  | psort =>
      obtain ⟨cs, hcs⟩ := psort_copies hmain
      exact .inr (h.le_size hle hcs)
  | usort =>
      by_cases hlt : left = right
      · exact .inl ⟨rfl, hlt⟩
      · obtain ⟨cs, hcs⟩ := usort_copies hmain
        have hmiddle : (left + right).tdiv 2 = (left + right) / 2 :=
          Int.tdiv_eq_ediv_of_nonneg (by omega)
        exact .inr (h.le_size (by omega) hcs)

/-- When the sums fit and the segment has room, it is for what is below `left` to be in its place. -/
theorem honours_iff_inPlace (lib : Merge) {page : ℤ} (v : Version) (m : Cell → Int32)
    {left right : ℤ} (hpage : 0 < page) (h4 : 4 ∣ page) (h0 : 0 ≤ left) (hle : left ≤ right)
    (hfits : Fits left right) (hroom : v.HasRoom page left right) :
    Honours lib page v m left right ↔ v.InPlace m left right := by
  obtain ⟨c, d, -, hsort, -, hsort', hmain⟩ := multiProcessMergeSort_eq lib v h0 hle hfits
  have hin := confined_of_hasRoom hpage h4 h0 hle hroom hmain m
  cases v with
  | psort =>
      obtain ⟨hsorted, hplace⟩ := psort_sorts lib h0 (by omega) (by omega) hsort hsort'
        (arrOf m) (sharedOf m)
      rw [honours_iff_of_safe hmain (psort_safe hsort.within hsort'.within) hin, psort_result]
      exact ⟨fun h => hplace.mp h.2, fun h => ⟨hsorted, hplace.mpr h⟩⟩
  | usort =>
      obtain ⟨hsorted, hplace⟩ := usort_sorts lib h0 (by omega) (by omega) hsort' hsort
        (arrOf m) (sharedOf m)
      rw [honours_iff_of_safe hmain usort_safe hin, usort_result]
      exact ⟨fun h => hplace.mp h.2, fun h => ⟨hsorted, hplace.mpr h⟩⟩

theorem honours_iff (lib : Merge) {page : ℤ} (v : Version) (m : Cell → Int32) {left right : ℤ}
    (hpage : 0 < page) (h4 : 4 ∣ page) (h0 : 0 ≤ left) (hle : left ≤ right) :
    Honours lib page v m left right ↔
      Fits left right ∧ v.HasRoom page left right ∧ v.InPlace m left right := by
  constructor
  · intro h
    obtain ⟨main, hmain, hin, hruns⟩ := id h
    have hfits := fits_of_value h0 hle hmain
    have hroom : v.HasRoom page left right := by
      have hstores := hin.stores h0 hle hmain
      rw [le_mappedSize hpage h4] at hstores
      cases v with
      | psort => exact hstores.resolve_left fun h => by cases h.1
      | usort => exact hstores.imp (fun h => h.2) id
    exact ⟨hfits, hroom, (honours_iff_inPlace lib v m hpage h4 h0 hle hfits hroom).mp h⟩
  · rintro ⟨hfits, hroom, hplace⟩
    exact (honours_iff_inPlace lib v m hpage h4 h0 hle hfits hroom).mpr hplace

/-- **The multi-process sort** honours its range exactly if no sum of two indexes overflows, the pages
of the segment have an element more than it was asked for, or none is used, and what is below `left`
is in its place. -/
theorem multiProcessMergeSort_honours_iff (lib : Merge) (page : ℤ) (v : Version) (m : Cell → Int32)
    (left right : ℤ) (hpage : 0 < page) (h4 : 4 ∣ page) (h0 : 0 ≤ left) (hle : left ≤ right) :
    Honours lib page v m left right ↔
      Fits left right ∧ v.HasRoom page left right ∧ v.InPlace m left right :=
  honours_iff lib v m hpage h4 h0 hle

/-- A whole array of ten elements is sorted in a new segment. -/
theorem multiProcessMergeSort_honours_ten : Honours .ofLists 4096 .psort (fun _ => 0) 0 9 := by
  refine (multiProcessMergeSort_honours_iff .ofLists 4096 .psort (fun _ => 0) 0 9 (by decide)
    (by decide) (by decide) (by decide)).mpr ⟨⟨by decide, by decide⟩, ?_, ?_⟩
  · change ¬(4096 : ℤ) ∣ segmentSize 9
    decide
  · intro i j hi hi'
    omega

/-- `psort.c` sorts the element `-1` at index 1, on its own, into a new segment; and the last of 1025
elements is behind a segment of one page. -/
theorem multiProcessMergeSort_dishonours :
    (¬ ∀ (lib : Merge) (v : Version) (m : Cell → Int32) (left right : ℤ), 0 ≤ left → left ≤ right →
      Honours lib 4096 v m left right) ∧
    ∀ (lib : Merge) (v : Version) (m : Cell → Int32), ¬Honours lib 4096 v m 0 1024 := by
  refine ⟨fun h => ?_, fun lib v m h => ?_⟩
  · let m : Cell → Int32
      | .arr _ => -1
      | .shared _ => 0
    have hhonours := h .ofLists .psort m 1 1 (by decide) (by decide)
    rw [honours_iff .ofLists .psort m (by decide) (by decide) (by decide) (by decide)] at hhonours
    have hle : (0 : Int32) ≤ -1 :=
      hhonours.2.2 0 1 (by decide) (by decide) (by decide) (by decide)
    exact absurd hle (by decide)
  · rw [honours_iff lib v m (by decide) (by decide) (by decide) (by decide)] at h
    have hpage : (4096 : ℤ) ∣ segmentSize 1024 := by decide
    cases v with
    | psort => exact h.2.1 hpage
    | usort => exact h.2.1.elim (by decide) fun hno => hno hpage

/-! ### The size that is asked for -/

/-- The segment is large enough: in every run both processes access it below the size asked for. -/
def Bounded (lib : Merge) (v : Version) (left right : ℤ) : Prop :=
  ∃ main, multiProcessMergeSort lib v left right = some main ∧
    ∀ m s, Reachable step Creates (start main m) s → ∀ c ∈ s.codes ++ s.called,
      ∀ i, c.next = some (.shared i) → 0 ≤ i ∧ 4 * (i + 1) ≤ segmentSize right

/-- **The segment is too small** for every call, but a call of `usort.c` for a single element, which
does not access it. -/
theorem multiProcessMergeSort_bounded_iff (lib : Merge) (v : Version) (left right : ℤ)
    (h0 : 0 ≤ left) (hle : left ≤ right) :
    Bounded lib v left right ↔ v = .usort ∧ left = right ∧ left + right ≤ intMax := by
  constructor
  · rintro ⟨main, hmain, hall⟩
    have hmax := (fits_of_value h0 hle hmain).1
    have hin : Confined main (fun _ => 0) (segmentSize right) := hall _
    rcases hin.stores h0 hle hmain with ⟨hv, heq⟩ | hlt
    · exact ⟨hv, heq, hmax⟩
    · rw [segmentSize] at hlt
      omega
  · rintro ⟨rfl, rfl, hmax⟩
    obtain ⟨c, d, -, -, hd, -, hmain⟩ := multiProcessMergeSort_eq lib .usort h0 hle ⟨hmax, by omega⟩
    have hdone : d = .done := by
      rw [singleThreadedMergeSort, dif_neg (by omega)] at hd
      exact (Option.some.inj hd).symm
    have hmiddle : (left + left) / 2 = left := by omega
    subst hdone
    simp only [hmiddle] at hmain
    refine ⟨_, hmain, fun m => ?_⟩
    have hin : Confined (usortProgram lib left left left .done (c.rename .arr)) m
      (segmentSize left) := confined_of_cells usort_cells_empty (by omega) m
    exact hin

/-- An array of one element, in the version that does not use the segment then. -/
theorem multiProcessMergeSort_bounded_one : Bounded .ofLists .usort 7 7 ↔
    Version.usort = .usort ∧ (7 : ℤ) = 7 ∧ (7 : ℤ) + 7 ≤ intMax :=
  multiProcessMergeSort_bounded_iff .ofLists .usort 7 7 (by decide) (by decide)

/-- For an array of one element `psort.c` asks for an empty segment and uses its first element. -/
theorem multiProcessMergeSort_unbounded : ¬ ∀ (lib : Merge) (v : Version) (left right : ℤ),
    0 ≤ left → left ≤ right → Bounded lib v left right := by
  intro h
  obtain ⟨main, hmain, hall⟩ := h .ofLists .psort 0 0 (Int.le_refl 0) (Int.le_refl 0)
  have hin : Confined main (fun _ => 0) (segmentSize 0) := hall _
  rcases hin.stores (Int.le_refl 0) (Int.le_refl 0) hmain with ⟨hv, -⟩ | hlt
  · cases hv
  · exact absurd hlt (by decide)

end CSE130.Assignment1
