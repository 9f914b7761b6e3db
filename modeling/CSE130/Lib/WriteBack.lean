import Mathlib.Data.Fintype.Basic
import Mathlib.Logic.Function.Basic

/-! # Write-back caches

A cache with entries `ι` over a store with addresses `A` and values `V`.  An entry holds at most
one address; its data may be newer than the store (`dirty`).  The contents of the cached store
(`view`) are the data of the entry that holds an address, and the store where no entry does.

In a coherent cache no address is held twice and an entry that is not dirty agrees with the
store.  The operations keep coherence; writing back, dropping a clean entry and loading keep the
view, and `put` changes it at one address. -/

namespace CSE130

open Function (update)

/-- A write-back cache and its store. -/
@[ext]
structure WriteBack (ι A V : Type*) where
  held : ι → Option A
  dirty : ι → Bool
  data : ι → V
  store : A → V

namespace WriteBack

variable {ι A V : Type*} {c : WriteBack ι A V} {i j : ι} {a b : A} {v : V}

/-- No address is held twice, and clean entries agree with the store. -/
structure Coherent (c : WriteBack ι A V) : Prop where
  unique : ∀ i j a, c.held i = some a → c.held j = some a → i = j
  clean : ∀ i a, c.held i = some a → c.dirty i = false → c.data i = c.store a

open Classical in
/-- What a reader of address `a` should see. -/
noncomputable def view (c : WriteBack ι A V) (a : A) : V :=
  if h : ∃ i, c.held i = some a then c.data h.choose else c.store a

theorem Coherent.view_held (hc : c.Coherent) (hi : c.held i = some a) : c.view a = c.data i := by
  have h : ∃ i, c.held i = some a := ⟨i, hi⟩
  unfold view
  rw [dif_pos h, hc.unique _ i a h.choose_spec hi]

theorem view_free (hf : ∀ i, c.held i ≠ some a) : c.view a = c.store a := by
  unfold view
  rw [dif_neg]
  rintro ⟨i, hi⟩
  exact hf i hi

/-- Two coherent caches have the same view at `a` if they agree on who holds it and on its
value there. -/
theorem Coherent.view_congr {c' : WriteBack ι A V} (hc : c.Coherent) (hc' : c'.Coherent)
    (hh : ∀ i, c'.held i = some a ↔ c.held i = some a)
    (hd : ∀ i, c.held i = some a → c'.data i = c.data i)
    (hs : (∀ i, c.held i ≠ some a) → c'.store a = c.store a) : c'.view a = c.view a := by
  by_cases h : ∃ i, c.held i = some a
  · obtain ⟨i, hi⟩ := h
    rw [hc.view_held hi, hc'.view_held ((hh i).mpr hi), hd i hi]
  · have hf : ∀ i, c.held i ≠ some a := fun i hi => h ⟨i, hi⟩
    have hf' : ∀ i, c'.held i ≠ some a := fun i hi => hf i ((hh i).mp hi)
    rw [view_free hf, view_free hf', hs hf]

/-- A cache without dirty entries agrees with its store everywhere. -/
theorem Coherent.view_eq_store (hc : c.Coherent)
    (hd : ∀ i a, c.held i = some a → c.dirty i = false) : c.view = c.store := by
  funext a
  by_cases h : ∃ i, c.held i = some a
  · obtain ⟨i, hi⟩ := h
    rw [hc.view_held hi, hc.clean i a hi (hd i a hi)]
  · exact view_free fun i hi => h ⟨i, hi⟩

variable [DecidableEq ι]

/-- Copy the data of an entry to the store. -/
def writeBack [DecidableEq A] (c : WriteBack ι A V) (i : ι) (a : A) : WriteBack ι A V :=
  { c with store := update c.store a (c.data i), dirty := update c.dirty i false }

/-- Forget an entry. -/
def drop (c : WriteBack ι A V) (i : ι) : WriteBack ι A V :=
  { c with held := update c.held i none }

/-- Let a free entry hold `a`. -/
def load (c : WriteBack ι A V) (i : ι) (a : A) : WriteBack ι A V :=
  { c with
    held := update c.held i (some a)
    dirty := update c.dirty i false
    data := update c.data i (c.store a) }

/-- Overwrite the data of an entry. -/
def put (c : WriteBack ι A V) (i : ι) (v : V) : WriteBack ι A V :=
  { c with dirty := update c.dirty i true, data := update c.data i v }

namespace Coherent

theorem writeBack [DecidableEq A] (hc : c.Coherent) (hi : c.held i = some a) : (c.writeBack i a).Coherent := by
  refine ⟨hc.unique, fun j b hj hd => ?_⟩
  show c.data j = update c.store a (c.data i) b
  by_cases hij : j = i
  · subst hij
    cases hi.symm.trans hj
    rw [Function.update_self]
  · have hba : b ≠ a := by
      rintro rfl
      exact hij (hc.unique j i b hj hi)
    rw [Function.update_of_ne hba]
    have hd : update c.dirty i false j = false := hd
    rw [Function.update_of_ne hij] at hd
    exact hc.clean j b hj hd

theorem view_writeBack [DecidableEq A] (hc : c.Coherent) (hi : c.held i = some a) :
    (c.writeBack i a).view = c.view := by
  funext b
  refine hc.view_congr (hc.writeBack hi) (fun _ => Iff.rfl) (fun _ _ => rfl) fun hf => ?_
  have hba : b ≠ a := by
    rintro rfl
    exact hf i hi
  exact Function.update_of_ne hba ..

theorem held_drop {j : ι} : (c.drop i).held j = some a ↔ j ≠ i ∧ c.held j = some a := by
  show update c.held i none j = some a ↔ _
  rw [Function.update_apply]
  split
  · rename_i h
    simp [h]
  · rename_i h
    simp [h]

theorem drop (hc : c.Coherent) : (c.drop i).Coherent :=
  ⟨fun j j' a h h' => hc.unique j j' a (held_drop.mp h).2 (held_drop.mp h').2,
    fun j a h hd => hc.clean j a (held_drop.mp h).2 hd⟩

theorem view_drop (hc : c.Coherent) (hd : c.dirty i = false) : (c.drop i).view = c.view := by
  funext b
  by_cases hi : c.held i = some b
  · -- the store has what the entry had
    have hf (j : ι) : (c.drop i).held j ≠ some b := fun hj =>
      (held_drop.mp hj).1 (hc.unique j i b (held_drop.mp hj).2 hi)
    rw [view_free hf, hc.view_held hi, hc.clean i b hi hd]
    rfl
  · refine hc.view_congr hc.drop (fun j => ?_) (fun _ _ => rfl) fun _ => rfl
    refine held_drop.trans ⟨And.right, fun hj => ⟨?_, hj⟩⟩
    rintro rfl
    exact hi hj

theorem held_load {j : ι} (hi : c.held i = none) :
    (c.load i a).held j = some b ↔ (j = i ∧ a = b) ∨ c.held j = some b := by
  show update c.held i (some a) j = some b ↔ _
  rw [Function.update_apply]
  split
  · rename_i h
    simp [h, hi]
  · rename_i h
    simp [h]

theorem load (hc : c.Coherent) (hi : c.held i = none) (ha : ∀ j, c.held j ≠ some a) :
    (c.load i a).Coherent := by
  refine ⟨fun j j' b h h' => ?_, fun j b h hd => ?_⟩
  · rcases (held_load hi).mp h with ⟨rfl, rfl⟩ | hj
    · rcases (held_load hi).mp h' with ⟨rfl, -⟩ | hj'
      · rfl
      · exact (ha j' hj').elim
    · rcases (held_load hi).mp h' with ⟨rfl, rfl⟩ | hj'
      · exact (ha j hj).elim
      · exact hc.unique j j' b hj hj'
  · show update c.data i (c.store a) j = c.store b
    rcases (held_load hi).mp h with ⟨rfl, rfl⟩ | hj
    · rw [Function.update_self]
    · have hji : j ≠ i := by
        rintro rfl
        cases hi.symm.trans hj
      have hd : update c.dirty i false j = false := hd
      rw [Function.update_of_ne hji] at hd
      rw [Function.update_of_ne hji]
      exact hc.clean j b hj hd

theorem view_load (hc : c.Coherent) (hi : c.held i = none) (ha : ∀ j, c.held j ≠ some a) :
    (c.load i a).view = c.view := by
  funext b
  by_cases hb : b = a
  · subst hb
    have hself : (c.load i b).held i = some b := (held_load hi).mpr (.inl ⟨rfl, rfl⟩)
    rw [(hc.load hi ha).view_held hself, view_free ha]
    exact Function.update_self ..
  · refine hc.view_congr (hc.load hi ha) (fun j => ?_) (fun j hj => ?_) fun _ => rfl
    · exact (held_load hi).trans (or_iff_right fun h => hb h.2.symm)
    · have hji : j ≠ i := by
        rintro rfl
        cases hi.symm.trans hj
      exact Function.update_of_ne hji ..

theorem put (hc : c.Coherent) : (c.put i v).Coherent := by
  refine ⟨hc.unique, fun j b hj hd => ?_⟩
  have hd : update c.dirty i true j = false := hd
  have hji : j ≠ i := by
    rintro rfl
    rw [Function.update_self] at hd
    cases hd
  rw [Function.update_of_ne hji] at hd
  show update c.data i v j = c.store b
  rw [Function.update_of_ne hji]
  exact hc.clean j b hj hd

/-- Overwriting an entry changes the view at the address it holds, and nowhere else. -/
theorem view_put [DecidableEq A] (hc : c.Coherent) (hi : c.held i = some a) :
    (c.put i v).view = update c.view a v := by
  funext b
  by_cases hb : b = a
  · subst hb
    rw [hc.put.view_held (i := i) hi, Function.update_self]
    exact Function.update_self ..
  · rw [Function.update_of_ne hb]
    refine hc.view_congr hc.put (fun _ => Iff.rfl) (fun j hj => ?_) fun _ => rfl
    have hji : j ≠ i := by
      rintro rfl
      cases hi.symm.trans hj
      exact hb rfl
    exact Function.update_of_ne hji ..

end Coherent

end WriteBack

end CSE130
