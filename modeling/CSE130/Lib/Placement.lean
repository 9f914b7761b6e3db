import Mathlib.Logic.Function.Basic
import Mathlib.Data.Option.Basic

/-! # Things that are moved about

Each key lies in at most one cell, and no cell holds two keys (`Sole`).  What a key stands for
(`view`) is the data of its cell, so a key may be moved to another cell together with its data, and
cells that hold no key may be overwritten. -/

namespace CSE130

open Function (update)

/-- Where the keys lie, and what is in the cells. -/
structure Placement (K C V : Type*) where
  cellOf : K → Option C
  data : C → V

namespace Placement

variable {K C V : Type*} {P Q : Placement K C V} {k k' : K} {c : C}

/-- No cell holds two keys. -/
def Sole (P : Placement K C V) : Prop :=
  ∀ k k' c, P.cellOf k = some c → P.cellOf k' = some c → k = k'

/-- What the key stands for. -/
def view (P : Placement K C V) (k : K) : Option V := (P.cellOf k).map P.data

/-- No other key lies in the cell. -/
def FreeFor (P : Placement K C V) (k : K) (c : C) : Prop := ∀ k', P.cellOf k' = some c → k' = k

theorem view_of_cell (hk : P.cellOf k = some c) : P.view k = some (P.data c) := by
  unfold view
  rw [hk]
  rfl

theorem view_none (hk : P.cellOf k = none) : P.view k = none := by
  unfold view
  rw [hk]
  rfl

theorem Sole.freeFor (hs : P.Sole) (hk : P.cellOf k = some c) : P.FreeFor k c :=
  fun k' hk' => hs k' k c hk' hk

/-- Cells that hold no key do not matter. -/
theorem view_congr (hcell : Q.cellOf k = P.cellOf k)
    (hdata : ∀ c, P.cellOf k = some c → Q.data c = P.data c) : Q.view k = P.view k := by
  cases hk : P.cellOf k with
  | none => rw [view_none hk, view_none (hcell.trans hk)]
  | some c => rw [view_of_cell hk, view_of_cell (hcell.trans hk), hdata c hk]

/-- One key is put in a cell of its own, the others stay where they are. -/
structure Puts (P : Placement K C V) (k : K) (c : C) (Q : Placement K C V) : Prop where
  freeFor : P.FreeFor k c
  cell : Q.cellOf k = some c
  cells : ∀ k', k' ≠ k → Q.cellOf k' = P.cellOf k'
  data : ∀ k' c', k' ≠ k → P.cellOf k' = some c' → Q.data c' = P.data c'

namespace Puts

theorem sole (h : P.Puts k c Q) (hs : P.Sole) : Q.Sole := by
  -- who lies in the cell of the key is the key itself
  have hkey : ∀ k', Q.cellOf k' = some c → k' = k := by
    intro k' hk'
    by_contra hne
    rw [h.cells k' hne] at hk'
    exact hne (h.freeFor k' hk')
  intro k₁ k₂ c' h₁ h₂
  by_cases hne₁ : k₁ = k
  · subst hne₁
    obtain rfl := Option.some.inj (h.cell.symm.trans h₁)
    exact (hkey k₂ h₂).symm
  · by_cases hne₂ : k₂ = k
    · subst hne₂
      obtain rfl := Option.some.inj (h.cell.symm.trans h₂)
      exact hkey k₁ h₁
    · rw [h.cells k₁ hne₁] at h₁
      rw [h.cells k₂ hne₂] at h₂
      exact hs k₁ k₂ c' h₁ h₂

theorem view_self (h : P.Puts k c Q) : Q.view k = some (Q.data c) := view_of_cell h.cell

theorem view_ne (h : P.Puts k c Q) (hne : k' ≠ k) : Q.view k' = P.view k' :=
  view_congr (h.cells k' hne) fun c' hc' => h.data k' c' hne hc'

/-- A key that is moved with its data stands for what it stood for. -/
theorem view_moved (h : P.Puts k c Q) (hv : P.view k = some (Q.data c)) : Q.view = P.view := by
  funext k'
  by_cases hne : k' = k
  · subst hne
    rw [h.view_self, hv]
  · exact h.view_ne hne

end Puts

end Placement

end CSE130
