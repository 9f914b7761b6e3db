import Mathlib.Data.List.Nodup
import Mathlib.Data.List.Pairwise

/-! # Allotting runs of cells

Of the cells `0, …, n - 1` some are in use: those of the runs that have been given out.  A run is
its first cell and its length.  `Allotted` is kept when a run of free cells is given out and when a
run is taken back, and it makes the runs that are given out disjoint. -/

namespace CSE130

/-- The cell `k` belongs to the run `r`. -/
def InRun (k : ℕ) (r : ℕ × ℕ) : Prop := r.1 ≤ k ∧ k < r.1 + r.2

/-- Two runs have no cell in common. -/
def Clear (r s : ℕ × ℕ) : Prop := r.1 + r.2 ≤ s.1 ∨ s.1 + s.2 ≤ r.1

/-- The cells in use are those of the runs `rs`, which are not empty and do not overlap. -/
structure Allotted (n : ℕ) (used : ℕ → Bool) (rs : List (ℕ × ℕ)) : Prop where
  nonempty : ∀ r ∈ rs, 0 < r.2
  within : ∀ r ∈ rs, r.1 + r.2 ≤ n
  clear : rs.Pairwise Clear
  used : ∀ k < n, used k = true ↔ ∃ r ∈ rs, InRun k r

variable {n i c k : ℕ} {used used' : ℕ → Bool} {rs : List (ℕ × ℕ)} {r s : ℕ × ℕ}

instance : Std.Symm Clear := ⟨fun _ _ h => Or.symm h⟩

theorem Clear.not_inRun (h : Clear r s) (hk : InRun k r) : ¬ InRun k s := by
  obtain ⟨hrk, hkr⟩ := hk
  rintro ⟨hsk, hks⟩
  unfold Clear at h
  omega

theorem allotted_nil (h : ∀ k < n, used k = false) : Allotted n used [] where
  nonempty := nofun
  within := nofun
  clear := .nil
  used k hk := by simp [h k hk]

namespace Allotted

theorem clear_of_ne (h : Allotted n used rs) (hr : r ∈ rs) (hs : s ∈ rs) (hne : r ≠ s) :
    Clear r s :=
  h.clear.forall hr hs hne

theorem nodup (h : Allotted n used rs) : rs.Nodup := by
  refine h.clear.imp_of_mem fun {r s} hr _ hclear => ?_
  rintro rfl
  have := h.nonempty r hr
  unfold Clear at hclear
  omega

/-- All cells of a run that is given out are in use. -/
theorem used_of_mem (h : Allotted n used rs) (hr : r ∈ rs) (hk : InRun k r) : used k = true := by
  have := h.within r hr
  exact (h.used k (by unfold InRun at hk; omega)).mpr ⟨r, hr, hk⟩

/-- A run of free cells has no cell of a run that is given out. -/
theorem clear_of_free (h : Allotted n used rs) (hr : r ∈ rs) (hc : 0 < c)
    (hfree : ∀ k, InRun k (i, c) → used k = false) : Clear (i, c) r := by
  have hpos := h.nonempty r hr
  by_contra hclear
  -- the later of the two first cells would be in both runs
  have hmax : InRun (max i r.1) (i, c) ∧ InRun (max i r.1) r := by
    unfold Clear at hclear
    unfold InRun
    omega
  have hused := h.used_of_mem hr hmax.2
  rw [hfree _ hmax.1] at hused
  cases hused

theorem take (h : Allotted n used rs) (hc : 0 < c) (hi : i + c ≤ n)
    (hfree : ∀ k, InRun k (i, c) → used k = false)
    (hused : ∀ k < n, used' k = true ↔ InRun k (i, c) ∨ used k = true) :
    Allotted n used' ((i, c) :: rs) where
  nonempty := List.forall_mem_cons.mpr ⟨hc, h.nonempty⟩
  within := List.forall_mem_cons.mpr ⟨hi, h.within⟩
  clear := List.pairwise_cons.mpr ⟨fun _ hr => h.clear_of_free hr hc hfree, h.clear⟩
  used k hk := by
    rw [hused k hk, h.used k hk]
    simp only [List.mem_cons, exists_eq_or_imp]

theorem give (h : Allotted n used rs) (hr : r ∈ rs)
    (hused : ∀ k < n, used' k = true ↔ ¬ InRun k r ∧ used k = true) :
    Allotted n used' (rs.erase r) where
  nonempty s hs := h.nonempty s (List.mem_of_mem_erase hs)
  within s hs := h.within s (List.mem_of_mem_erase hs)
  clear := h.clear.sublist List.erase_sublist
  used k hk := by
    rw [hused k hk, h.used k hk]
    constructor
    · rintro ⟨hnot, s, hs, hin⟩
      have hne : s ≠ r := by
        rintro rfl
        exact hnot hin
      exact ⟨s, (List.mem_erase_of_ne hne).mpr hs, hin⟩
    · rintro ⟨s, hs, hin⟩
      obtain ⟨hne, hs⟩ := h.nodup.mem_erase_iff.mp hs
      exact ⟨(h.clear_of_ne hs hr hne).not_inRun hin, s, hs, hin⟩

end Allotted

end CSE130
