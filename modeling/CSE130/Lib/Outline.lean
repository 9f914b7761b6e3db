import Mathlib.Data.List.Basic

/-! # Outlines

An outline of a tree lists the children of its root, each followed by what is below it.  The list for
one child is a block: its first line is told from all others by a predicate `P`, so that where blocks
follow each other they can be told apart again.

`visit` puts together the blocks that a function returns for the members of a list, if it returns for
all of them. -/

namespace CSE130.Outline

variable {α β γ ε : Type*} {P : β → Prop} {l : List α} {b c r s : List β}

/-! ### The last of a list -/

/-- The members of a list, each with whether it is the last. -/
def withLast : List α → List (Bool × α)
  | [] => []
  | a :: l => (l.isEmpty, a) :: withLast l

theorem withLast_cons (a : α) (l : List α) : withLast (a :: l) = (l.isEmpty, a) :: withLast l := rfl

theorem map_snd_withLast (l : List α) : (withLast l).map Prod.snd = l := by
  induction l with
  | nil => rfl
  | cons a l ih => rw [withLast_cons, List.map_cons, ih]

theorem mem_of_mem_withLast {x : Bool × α} (h : x ∈ withLast l) : x.2 ∈ l := by
  rw [← map_snd_withLast l]
  exact List.mem_map_of_mem h

theorem exists_mem_withLast {a : α} (h : a ∈ l) : ∃ last, (last, a) ∈ withLast l := by
  rw [← map_snd_withLast l] at h
  obtain ⟨⟨last, _⟩, hmem, rfl⟩ := List.mem_map.mp h
  exact ⟨last, hmem⟩

theorem withLast_map (f : α → γ) (l : List α) :
    withLast (l.map f) = (withLast l).map (Prod.map id f) := by
  induction l with
  | nil => rfl
  | cons a l ih =>
      rw [List.map_cons, withLast_cons, withLast_cons, List.map_cons, List.isEmpty_map, ih]
      rfl

example : withLast [5, 6] = [(false, 5), (true, 6)] := by decide +kernel

/-! ### Blocks -/

/-- A list whose first member is the only one with `P`. -/
def IsBlock (P : β → Prop) (b : List β) : Prop := ∃ x t, b = x :: t ∧ P x ∧ ∀ y ∈ t, ¬ P y

/-- The rest of an outline: nothing, or a block and a rest. -/
def IsRest (P : β → Prop) (r : List β) : Prop := ∀ x ∈ r.head?, P x

theorem IsBlock.isRest (hb : IsBlock P b) : IsRest P (b ++ r) := by
  obtain ⟨x, t, rfl, hx, -⟩ := hb
  intro y hy
  obtain rfl := Option.some.inj hy
  exact hx

theorem append_inj_of_not {t t' : List β} (ht : ∀ y ∈ t, ¬ P y) (ht' : ∀ y ∈ t', ¬ P y)
    (hr : IsRest P r) (hs : IsRest P s) (h : t ++ r = t' ++ s) : t = t' ∧ r = s := by
  induction t generalizing t' with
  | nil =>
      cases t' with
      | nil => exact ⟨rfl, h⟩
      | cons y t' =>
          rw [List.nil_append, List.cons_append] at h
          subst h
          exact absurd (hr y rfl) (ht' y List.mem_cons_self)
  | cons x t ih =>
      cases t' with
      | nil =>
          rw [List.nil_append, List.cons_append] at h
          subst h
          exact absurd (hs x rfl) (ht x List.mem_cons_self)
      | cons y t' =>
          rw [List.cons_append, List.cons_append] at h
          obtain ⟨rfl, htail⟩ := List.cons.inj h
          obtain ⟨rfl, hrest⟩ := ih (fun z hz => ht z (List.mem_cons_of_mem x hz))
            (fun z hz => ht' z (List.mem_cons_of_mem x hz)) htail
          exact ⟨rfl, hrest⟩

/-- Blocks that follow each other are told apart. -/
theorem IsBlock.append_inj (hb : IsBlock P b) (hc : IsBlock P c) (hr : IsRest P r)
    (hs : IsRest P s) (h : b ++ r = c ++ s) : b = c ∧ r = s := by
  obtain ⟨x, t, rfl, -, ht⟩ := hb
  obtain ⟨y, t', rfl, -, ht'⟩ := hc
  rw [List.cons_append, List.cons_append] at h
  obtain ⟨rfl, htail⟩ := List.cons.inj h
  obtain ⟨rfl, hrest⟩ := append_inj_of_not ht ht' hr hs htail
  exact ⟨rfl, hrest⟩

theorem isRest_flatMap {g : α → List β} (hg : ∀ a ∈ l, IsBlock P (g a)) :
    IsRest P (l.flatMap g) := by
  cases l with
  | nil =>
      intro x hx
      cases hx
  | cons a l =>
      rw [List.flatMap_cons]
      exact (hg a List.mem_cons_self).isRest

/-! ### One block after the other -/

/-- The blocks of the members of a list. -/
def visit (f : α → Except ε (List β)) : List α → Except ε (List β)
  | [] => .ok []
  | a :: l => do
      let block ← f a
      let rest ← visit f l
      return block ++ rest

variable {f f' : α → Except ε (List β)} {g : α → List β} {out : List β}

theorem bind_eq_ok_iff.{u, v} {ε : Type u} {α γ : Type v} {x : Except ε α} {k : α → Except ε γ}
    {c : γ} :
    (x >>= k) = .ok c ↔ ∃ a, x = .ok a ∧ k a = .ok c := by
  cases x with
  | error e =>
      constructor
      · intro h
        cases h
      · rintro ⟨a, h, -⟩
        cases h
  | ok a =>
      constructor
      · intro h
        exact ⟨a, rfl, h⟩
      · rintro ⟨a', h, hk⟩
        obtain rfl := Except.ok.inj h
        exact hk

theorem visit_cons (f : α → Except ε (List β)) (a : α) (l : List α) :
    visit f (a :: l) = f a >>= fun block => visit f l >>= fun rest => .ok (block ++ rest) := rfl

theorem visit_cons_iff {a : α} : visit f (a :: l) = .ok out ↔
    ∃ block rest, f a = .ok block ∧ visit f l = .ok rest ∧ out = block ++ rest := by
  rw [visit_cons]
  simp only [bind_eq_ok_iff]
  constructor
  · rintro ⟨block, hblock, rest, hrest, hout⟩
    exact ⟨block, rest, hblock, hrest, (Except.ok.inj hout).symm⟩
  · rintro ⟨block, rest, hblock, hrest, rfl⟩
    exact ⟨block, hblock, rest, hrest, rfl⟩

theorem visit_congr (h : ∀ a ∈ l, f a = .ok (g a)) : visit f l = .ok (l.flatMap g) := by
  induction l with
  | nil => rfl
  | cons a l ih =>
      obtain ⟨ha, hl⟩ := List.forall_mem_cons.mp h
      exact visit_cons_iff.mpr ⟨g a, l.flatMap g, ha, ih hl, List.flatMap_cons⟩

theorem visit_mono (h : ∀ a ∈ l, ∀ block, f a = .ok block → f' a = .ok block)
    (hv : visit f l = .ok out) : visit f' l = .ok out := by
  induction l generalizing out with
  | nil => exact hv
  | cons a l ih =>
      obtain ⟨ha, hl⟩ := List.forall_mem_cons.mp h
      obtain ⟨block, rest, hblock, hrest, rfl⟩ := visit_cons_iff.mp hv
      exact visit_cons_iff.mpr ⟨block, rest, ha block hblock, ih hl hrest, rfl⟩

theorem exists_block {a : α} (hv : visit f l = .ok out) (ha : a ∈ l) : ∃ block, f a = .ok block := by
  induction l generalizing out with
  | nil => cases ha
  | cons a' l ih =>
      obtain ⟨block, rest, hblock, hrest, -⟩ := visit_cons_iff.mp hv
      obtain rfl | ha := List.mem_cons.mp ha
      · exact ⟨block, hblock⟩
      · exact ih hrest ha

/-- Every line is in a block. -/
theorem exists_of_mem_visit {x : β} (hv : visit f l = .ok out) (hx : x ∈ out) :
    ∃ a ∈ l, ∃ block, f a = .ok block ∧ x ∈ block := by
  induction l generalizing out with
  | nil =>
      obtain rfl := Except.ok.inj hv
      cases hx
  | cons a l ih =>
      obtain ⟨block, rest, hblock, hrest, rfl⟩ := visit_cons_iff.mp hv
      obtain hx | hx := List.mem_append.mp hx
      · exact ⟨a, List.mem_cons_self, block, hblock, hx⟩
      · obtain ⟨a', ha', hfound⟩ := ih hrest hx
        exact ⟨a', List.mem_cons_of_mem a ha', hfound⟩

/-- **Outlines.**  The outline is the right one just if each block is. -/
theorem visit_eq_iff (hf : ∀ a ∈ l, ∀ block, f a = .ok block → IsBlock P block)
    (hg : ∀ a ∈ l, IsBlock P (g a)) :
    visit f l = .ok (l.flatMap g) ↔ ∀ a ∈ l, f a = .ok (g a) := by
  refine ⟨?_, visit_congr⟩
  induction l with
  | nil => exact fun _ a ha => by cases ha
  | cons a l ih =>
      obtain ⟨hfa, hfl⟩ := List.forall_mem_cons.mp hf
      obtain ⟨hga, hgl⟩ := List.forall_mem_cons.mp hg
      intro hv
      obtain ⟨block, rest, hblock, hrest, hout⟩ := visit_cons_iff.mp hv
      have hisRest : IsRest P rest := by
        cases l with
        | nil =>
            obtain rfl := Except.ok.inj hrest
            intro x hx
            cases hx
        | cons a' l =>
            obtain ⟨block', rest', hblock', -, rfl⟩ := visit_cons_iff.mp hrest
            exact (hfl a' List.mem_cons_self block' hblock').isRest
      rw [List.flatMap_cons] at hout
      obtain ⟨rfl, rfl⟩ :=
        (hfa block hblock).append_inj hga hisRest (isRest_flatMap hgl) hout.symm
      exact List.forall_mem_cons.mpr ⟨hblock, ih hfl hgl hrest⟩

/-- One bound for all members of a list. -/
theorem exists_bound {Q : α → ℕ → Prop} (hmono : ∀ a m n, m ≤ n → Q a m → Q a n)
    (h : ∀ a ∈ l, ∃ n, Q a n) : ∃ n, ∀ a ∈ l, Q a n := by
  induction l with
  | nil => exact ⟨0, fun a ha => by cases ha⟩
  | cons a l ih =>
      obtain ⟨ha, hl⟩ := List.forall_mem_cons.mp h
      obtain ⟨m, hm⟩ := ha
      obtain ⟨n, hn⟩ := ih hl
      refine ⟨max m n, List.forall_mem_cons.mpr ⟨?_, ?_⟩⟩
      · exact hmono a m _ (Nat.le_max_left m n) hm
      · exact fun b hb => hmono b n _ (Nat.le_max_right m n) (hn b hb)

end CSE130.Outline
