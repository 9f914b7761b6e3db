import Mathlib.Data.Set.Basic
import Mathlib.Logic.Function.Basic

/-! # Trees of index blocks on a disk

A disk maps addresses to blocks.  An index block has `width` entries, each an address; the
address 0 stands for none.  `Refs m k e p x` says that the path `p` leads from the entry `e`, at
the top of `k` levels of index blocks, to the block at `x`; a forest is a family of such trees.

Blocks are allocated while others are in use.  `Grows` says what an operation may do to a tree
or a forest meanwhile: no block in use changes but the index blocks of the tree itself and the
blocks of a set `K`, what was referenced still is, and every new reference is to a block that
was not in use.  Growth composes (`Grows.trans`), passes from one tree to its forest
(`Grows.replace`) and from a forest to the tree above it (`Grows.node`, `Grows.abandon`). -/

namespace CSE130

/-- How index blocks are laid out. -/
class Layout (α β : Type*) [Zero α] where
  width : ℕ
  entry : β → ℕ → α
  /-- A block without entries. -/
  blank : β
  entry_blank : ∀ j, j < width → entry blank j = 0

namespace BlockTree

open Function (update)

variable {α β : Type*} [Zero α] [Layout α β]

/-- The path `p` leads from the root `e` of a tree of `k` levels to `x`. -/
def Refs (m : α → β) : ℕ → α → List ℕ → α → Prop
  | _, e, [], x => e ≠ 0 ∧ x = e
  | 0, _, _ :: _, _ => False
  | k + 1, e, j :: p, x =>
      e ≠ 0 ∧ j < Layout.width α β ∧ Refs m k (Layout.entry (m e) j) p x

/-- The paths of a forest: the tree `j` has the root `root j` and `lev j` levels. -/
def Forest (m : α → β) (n : ℕ) (lev : ℕ → ℕ) (root : ℕ → α) : List ℕ → α → Prop
  | [], _ => False
  | j :: p, x => j < n ∧ Refs m (lev j) (root j) p x

/-- No block is referenced twice. -/
def Sole (R : List ℕ → α → Prop) : Prop := ∀ p q x, R p x → R q x → p = q

/-- The paths to the blocks below the index blocks. -/
def IsLeaf (lev : ℕ → ℕ) : List ℕ → Prop
  | [] => False
  | j :: p => p.length = lev j

variable {m m' m₁ m₂ : α → β} {k n i : ℕ} {e e' x y : α} {p q : List ℕ}
  {lev : ℕ → ℕ} {root root' : ℕ → α}

@[simp] theorem refs_nil : Refs m k e [] x ↔ e ≠ 0 ∧ x = e := by
  cases k <;> rfl

theorem Refs.root_ne : ∀ {p : List ℕ} {k : ℕ}, Refs m k e p x → e ≠ 0
  | [], _, h => (refs_nil.mp h).1
  | _ :: _, _ + 1, h => h.1

theorem Refs.ne_zero : ∀ {p : List ℕ} {k : ℕ} {e : α}, Refs m k e p x → x ≠ 0
  | [], _, _, h => (refs_nil.mp h).2 ▸ (refs_nil.mp h).1
  | _ :: _, _ + 1, _, h => h.2.2.ne_zero

theorem Refs.unique : ∀ {p : List ℕ} {k : ℕ} {e : α}, Refs m k e p x → Refs m k e p y → x = y
  | [], _, _, hx, hy => (refs_nil.mp hx).2.trans (refs_nil.mp hy).2.symm
  | _ :: _, _ + 1, _, hx, hy => hx.2.2.unique hy.2.2

theorem Refs.congr : ∀ {p : List ℕ} {k : ℕ} {e : α},
    (∀ q y, Refs m k e q y → q.length < k → m' y = m y) → Refs m k e p x → Refs m' k e p x
  | [], _, _, _, h => refs_nil.mpr (refs_nil.mp h)
  | j :: p, k + 1, e, hm, h => by
      have he : m' e = m e := hm [] e (refs_nil.mpr ⟨h.1, rfl⟩) (Nat.succ_pos k)
      refine ⟨h.1, h.2.1, ?_⟩
      rw [he]
      exact h.2.2.congr fun q y hq hl => hm (j :: q) y ⟨h.1, h.2.1, hq⟩ (Nat.succ_lt_succ hl)

theorem Refs.congr_symm : ∀ {p : List ℕ} {k : ℕ} {e : α},
    (∀ q y, Refs m k e q y → q.length < k → m' y = m y) → Refs m' k e p x → Refs m k e p x
  | [], _, _, _, h => refs_nil.mpr (refs_nil.mp h)
  | j :: p, k + 1, e, hm, h => by
      have he : m' e = m e := hm [] e (refs_nil.mpr ⟨h.1, rfl⟩) (Nat.succ_pos k)
      obtain ⟨hne, hj, hr⟩ := h
      rw [he] at hr
      exact ⟨hne, hj, hr.congr_symm fun q y hq hl =>
        hm (j :: q) y ⟨hne, hj, hq⟩ (Nat.succ_lt_succ hl)⟩

theorem Forest.ne_zero (h : Forest m n lev root p x) : x ≠ 0 := by
  cases p with
  | nil => exact h.elim
  | cons j p => exact h.2.ne_zero

theorem Forest.unique (hx : Forest m n lev root p x) (hy : Forest m n lev root p y) : x = y := by
  cases p with
  | nil => exact hx.elim
  | cons j p => exact hx.2.unique hy.2

/-- The index blocks of a forest, on a disk that agrees on them. -/
theorem Forest.congr (hm : ∀ q y, Forest m n lev root q y → ¬IsLeaf lev q → m' y = m y)
    (h : Forest m n lev root p x) : Forest m' n lev root p x := by
  cases p with
  | nil => exact h.elim
  | cons j p =>
      exact ⟨h.1, h.2.congr fun q y hq hl => hm (j :: q) y ⟨h.1, hq⟩ (Nat.ne_of_lt hl)⟩

theorem Forest.congr_symm (hm : ∀ q y, Forest m n lev root q y → ¬IsLeaf lev q → m' y = m y)
    (h : Forest m' n lev root p x) : Forest m n lev root p x := by
  cases p with
  | nil => exact h.elim
  | cons j p =>
      exact ⟨h.1, h.2.congr_symm fun q y hq hl => hm (j :: q) y ⟨h.1, hq⟩ (Nat.ne_of_lt hl)⟩

/-- Below a root that is not 0 stands the forest of its entries. -/
theorem refs_succ {j : ℕ} : Refs m (k + 1) e (j :: p) x ↔
    e ≠ 0 ∧ Forest m (Layout.width α β) (fun _ => k) (Layout.entry (m e)) (j :: p) x := Iff.rfl

/-- References to different blocks, all in use and none of them in `Z`. -/
structure Placed (Z : Set α) (U : α → Prop) (R : List ℕ → α → Prop) : Prop where
  sole : Sole R
  used : ∀ p x, R p x → U x
  apart : ∀ p x, R p x → x ∉ Z

theorem Placed.below {Z : Set α} {U : α → Prop} (he : e ≠ 0) (hp : Placed Z U (Refs m (k + 1) e)) :
    Placed Z U (Forest m (Layout.width α β) (fun _ => k) (Layout.entry (m e))) := by
  have hrefs : ∀ p x, Forest m (Layout.width α β) (fun _ => k) (Layout.entry (m e)) p x →
      Refs m (k + 1) e p x := by
    rintro (_ | ⟨j, p⟩) x h
    · exact h.elim
    · exact refs_succ.mpr ⟨he, h⟩
  exact ⟨fun p q x h h' => hp.sole p q x (hrefs p x h) (hrefs q x h'),
    fun p x h => hp.used p x (hrefs p x h), fun p x h => hp.apart p x (hrefs p x h)⟩

theorem Placed.tree {Z : Set α} {U : α → Prop} (hi : i < n) (hp : Placed Z U (Forest m n lev root)) :
    Placed Z U (Refs m (lev i) (root i)) :=
  ⟨fun p q x h h' => (List.cons.inj (hp.sole (i :: p) (i :: q) x ⟨hi, h⟩ ⟨hi, h'⟩)).2,
    fun p x h => hp.used (i :: p) x ⟨hi, h⟩, fun p x h => hp.apart (i :: p) x ⟨hi, h⟩⟩

/-! ### Growth -/

/-- From the references `R` on the disk `m`, with the blocks `U` in use, to `R'` on `m'` with
`U'`: `L` are the paths to leaves and `B` the paths at which references may appear. -/
structure Grows (K : Set α) (L B : List ℕ → Prop) (R R' : List ℕ → α → Prop)
    (m m' : α → β) (U U' : α → Prop) : Prop where
  used : ∀ x, U x → U' x
  disk : ∀ x, U x → x ∉ K → x ≠ 0 → (∀ p, R p x → L p) → m' x = m x
  keep : ∀ p x, R p x → R' p x
  source : ∀ p x, R' p x → R p x ∨ ¬U x ∧ U' x ∧ B p
  sole : Sole R'
  blank : ∀ p x, R' p x → L p → ¬U x → m' x = Layout.blank α

variable {K : Set α} {L B : List ℕ → Prop} {R R₁ R₂ R' : List ℕ → α → Prop}
  {U U₁ U₂ U' : α → Prop}

theorem Grows.refl (hs : Sole R) (hu : ∀ p x, R p x → U x) : Grows K L B R R m m U U where
  used _ h := h
  disk _ _ _ _ _ := rfl
  keep _ _ h := h
  source _ _ h := .inl h
  sole := hs
  blank p x h _ hx := absurd (hu p x h) hx

theorem Grows.trans (h₁ : Grows K L B R R₁ m m₁ U U₁) (h₂ : Grows K L B R₁ R₂ m₁ m₂ U₁ U₂)
    (hK : ∀ x ∈ K, U x) (h0 : U 0) : Grows K L B R R₂ m m₂ U U₂ where
  used x h := h₂.used x (h₁.used x h)
  disk x hx hk h0 hl := by
    refine (h₂.disk x (h₁.used x hx) hk h0 fun p hp => ?_).trans (h₁.disk x hx hk h0 hl)
    rcases h₁.source p x hp with hr | ⟨hn, -, -⟩
    · exact hl p hr
    · exact absurd hx hn
  keep p x h := h₂.keep p x (h₁.keep p x h)
  source p x h := by
    rcases h₂.source p x h with hr | ⟨hn, hu, hb⟩
    · rcases h₁.source p x hr with hr | ⟨hn, hu, hb⟩
      · exact .inl hr
      · exact .inr ⟨hn, h₂.used x hu, hb⟩
    · exact .inr ⟨fun hx => hn (h₁.used x hx), hu, hb⟩
  sole := h₂.sole
  blank p x h hl hn := by
    by_cases hx : U₁ x
    · rcases h₂.source p x h with hr | ⟨hn', -, -⟩
      · refine (h₂.disk x hx (fun hk => hn (hK x hk)) (fun he => hn (he ▸ h0)) fun q hq => ?_).trans
          (h₁.blank p x hr hl hn)
        exact h₁.sole p q x hr hq ▸ hl
      · exact absurd hx hn'
    · exact h₂.blank p x h hl hx

theorem Grows.placed {Z : Set α} (h : Grows K L B R R' m m' U U') (hp : Placed Z U R)
    (hZ : ∀ x ∈ Z, U x) : Placed Z U' R' where
  sole := h.sole
  used p x hx := by
    rcases h.source p x hx with hr | ⟨-, hu, -⟩
    · exact h.used x (hp.used p x hr)
    · exact hu
  apart p x hx hz := by
    rcases h.source p x hx with hr | ⟨hn, -⟩
    · exact hp.apart p x hr hz
    · exact hn (hZ x hz)

theorem Grows.restrict (h : Grows K L B R R' m m' U U') (hkeep : ∀ p x, R p x → R₁ p x)
    (hsub : ∀ p x, R₁ p x → R' p x) : Grows K L B R R₁ m m' U U' where
  used := h.used
  disk := h.disk
  keep := hkeep
  source p x hp := h.source p x (hsub p x hp)
  sole p q x hp hq := h.sole p q x (hsub p x hp) (hsub q x hq)
  blank p x hp := h.blank p x (hsub p x hp)

theorem Grows.mono {B' : List ℕ → Prop} (h : Grows K L B R R' m m' U U') (hB : ∀ p, B p → B' p) :
    Grows K L B' R R' m m' U U' :=
  { h with source := fun p x hp => (h.source p x hp).imp id fun ⟨hn, hu, hb⟩ => ⟨hn, hu, hB p hb⟩ }

theorem Grows.patch {K' : Set α} (h : Grows K L B R R' m m₁ U U') (hK : ∀ x ∈ K, x ∈ K')
    (hm : ∀ x, x ∉ K' → m' x = m₁ x) (hR : ∀ p x, R' p x → ¬U x → x ∉ K') :
    Grows K' L B R R' m m' U U' :=
  { h with
    disk := fun x hx hk h0 hl => (hm x hk).trans (h.disk x hx (fun h => hk (hK x h)) h0 hl)
    blank := fun p x hx hl hn => (hm x (hR p x hx hn)).trans (h.blank p x hx hl hn) }

theorem Grows.fresh (hU : ∀ x, U' x ↔ U x ∨ x = e) (hne : e ≠ 0) (hn : ¬U e)
    (hm : ∀ x, U x → x ∉ K → x ≠ 0 → m' x = m x) (he : m' e = Layout.blank α) (hB : B []) :
    Grows K (fun p => p.length = k) B (Refs m k 0) (Refs m' k e) m m' U U' := by
  have hroot : ∀ p x, Refs m' k e p x → p = [] ∧ x = e := by
    rintro (_ | ⟨j, p⟩) x h
    · exact ⟨rfl, (refs_nil.mp h).2⟩
    · cases k with
      | zero => exact h.elim
      | succ k =>
          have h0 := h.2.2.root_ne
          rw [he, Layout.entry_blank j h.2.1] at h0
          exact absurd rfl h0
  refine ⟨fun x hx => (hU x).mpr (.inl hx), fun x hx hk h0 _ => hm x hx hk h0,
    fun p x h => absurd rfl h.root_ne, fun p x h => ?_, fun p q x hp hq => ?_, fun p x h _ _ => ?_⟩
  · obtain ⟨rfl, rfl⟩ := hroot p x h
    exact .inr ⟨hn, (hU x).mpr (.inr rfl), hB⟩
  · exact (hroot p x hp).1.trans (hroot q x hq).1.symm
  · rw [(hroot p x h).2, he]

theorem Grows.replace (hi : i < n) (hs : Sole (Forest m n lev root))
    (hu : ∀ p x, Forest m n lev root p x → U x) (hK : ∀ p x, Forest m n lev root p x → x ∉ K)
    (ht : Grows K (fun p => p.length = lev i) B (Refs m (lev i) (root i)) (Refs m' (lev i) e')
      m m' U U') :
    Grows K (IsLeaf lev) (fun p => ∃ q, p = i :: q ∧ B q) (Forest m n lev root)
      (Forest m' n lev (update root i e')) m m' U U' := by
  -- the index blocks of the other trees do not change
  have hother : ∀ j, j ≠ i → j < n → ∀ q y, Refs m (lev j) (root j) q y → q.length < lev j →
      m' y = m y := fun j hj hjn q y hq _ =>
    ht.disk y (hu (j :: q) y ⟨hjn, hq⟩) (hK (j :: q) y ⟨hjn, hq⟩) hq.ne_zero fun p hp =>
      absurd (List.cons.inj (hs (j :: q) (i :: p) y ⟨hjn, hq⟩ ⟨hi, hp⟩)).1 hj
  have hback : ∀ p x, Forest m' n lev (update root i e') p x →
      Forest m n lev root p x ∨ ∃ q, p = i :: q ∧ Refs m' (lev i) e' q x := by
    rintro (_ | ⟨j, p⟩) x h
    · exact h.elim
    · obtain ⟨hj, h⟩ := h
      by_cases hij : j = i
      · subst hij
        rw [Function.update_self] at h
        exact .inr ⟨p, rfl, h⟩
      · rw [Function.update_of_ne hij] at h
        exact .inl ⟨hj, h.congr_symm (hother j hij hj)⟩
  have hsource : ∀ p x, Forest m' n lev (update root i e') p x →
      Forest m n lev root p x ∨ ¬U x ∧ U' x ∧ ∃ q, p = i :: q ∧ B q := fun p x h => by
    rcases hback p x h with h' | ⟨q, rfl, h'⟩
    · exact .inl h'
    · rcases ht.source q x h' with h' | ⟨hn, hu, hb⟩
      · exact .inl ⟨hi, h'⟩
      · exact .inr ⟨hn, hu, q, rfl, hb⟩
  refine ⟨ht.used, fun x hx hk h0 hl => ht.disk x hx hk h0 fun p hp => hl (i :: p) ⟨hi, hp⟩,
    ?_, hsource, ?_, ?_⟩
  · rintro (_ | ⟨j, p⟩) x h
    · exact h.elim
    · refine ⟨h.1, ?_⟩
      by_cases hij : j = i
      · subst hij
        rw [Function.update_self]
        exact ht.keep p x h.2
      · rw [Function.update_of_ne hij]
        exact h.2.congr (hother j hij h.1)
  · intro p q x hp hq
    rcases hback p x hp with hp' | ⟨p', rfl, hp'⟩ <;> rcases hback q x hq with hq' | ⟨q', rfl, hq'⟩
    · exact hs p q x hp' hq'
    · rcases hsource _ x hq with h | ⟨hn, -⟩
      · exact hs p _ x hp' h
      · exact absurd (hu p x hp') hn
    · rcases hsource _ x hp with h | ⟨hn, -⟩
      · exact hs _ q x h hq'
      · exact absurd (hu q x hq') hn
    · rw [ht.sole p' q' x hp' hq']
  · intro p x h hl hn
    rcases hback p x h with h' | ⟨q, rfl, h'⟩
    · exact absurd (hu p x h') hn
    · exact ht.blank q x h' hl hn

/-- An index block that holds the roots of a forest stands above it. -/
theorem refs_node {blocks : ℕ → α} {j : ℕ} (he : e ≠ 0) (hm : ∀ x, x ≠ e → m' x = m x)
    (hb : ∀ j, j < Layout.width α β → Layout.entry (m' e) j = blocks j)
    (hn : ∀ q, ¬Forest m (Layout.width α β) (fun _ => k) blocks q e) :
    Refs m' (k + 1) e (j :: p) x ↔
      Forest m (Layout.width α β) (fun _ => k) blocks (j :: p) x := by
  have hcongr : ∀ q y, Forest m (Layout.width α β) (fun _ => k) blocks q y →
      ¬IsLeaf (fun _ => k) q → m' y = m y := fun q y hq _ => hm y fun h => hn q (h ▸ hq)
  constructor
  · rintro ⟨-, hj, h⟩
    rw [hb j hj] at h
    exact Forest.congr_symm hcongr ⟨hj, h⟩
  · intro h
    have h' := Forest.congr hcongr h
    refine ⟨he, h'.1, ?_⟩
    rw [hb j h'.1]
    exact h'.2

/-- The root of a tree is not below itself. -/
theorem Sole.not_below (hs : Sole (Refs m (k + 1) e)) (he : e ≠ 0) :
    ∀ p, ¬Forest m (Layout.width α β) (fun _ => k) (Layout.entry (m e)) p e := by
  rintro (_ | ⟨j, p⟩) h
  · exact h
  · cases hs [] (j :: p) e (refs_nil.mpr ⟨he, rfl⟩) (refs_succ.mpr ⟨he, h⟩)

/-- What grows below an index block does not reach the block. -/
theorem Grows.not_below (he : e ≠ 0) (hs : Sole (Refs m (k + 1) e)) (hue : U e)
    (ht : Grows K L B (Forest m (Layout.width α β) (fun _ => k) (Layout.entry (m e))) R' m m₁ U U') :
    ∀ q, ¬R' q e := fun q h => by
  rcases ht.source q e h with h | ⟨hn, -⟩
  · exact hs.not_below he q h
  · exact hn hue

/-- The forest below an index block grows, and the block is written back. -/
theorem Grows.node {blocks : ℕ → α} (he : e ≠ 0) (hs : Sole (Refs m (k + 1) e)) (hue : U e)
    (ht : Grows K (IsLeaf fun _ => k) B
      (Forest m (Layout.width α β) (fun _ => k) (Layout.entry (m e)))
      (Forest m₁ (Layout.width α β) (fun _ => k) blocks) m m₁ U U')
    (hm : ∀ x, x ≠ e → m' x = m₁ x)
    (hb : ∀ j, j < Layout.width α β → Layout.entry (m' e) j = blocks j) :
    Grows K (fun p => p.length = k + 1) B (Refs m (k + 1) e) (Refs m' (k + 1) e) m m' U U' := by
  have hroot : Refs m (k + 1) e [] e := refs_nil.mpr ⟨he, rfl⟩
  have hnew : ∀ q y, Forest m₁ (Layout.width α β) (fun _ => k) blocks q y → y ≠ e :=
    fun q y h hy => ht.not_below he hs hue q (hy ▸ h)
  have hentry : ∀ j p x, Refs m' (k + 1) e (j :: p) x ↔
      Forest m₁ (Layout.width α β) (fun _ => k) blocks (j :: p) x := fun j p x =>
    refs_node he hm hb (ht.not_below he hs hue)
  have hleaf : ∀ j (p : List ℕ), (j :: p).length = k + 1 ↔ IsLeaf (fun _ => k) (j :: p) :=
    fun j p => Nat.succ_inj
  refine ⟨ht.used, fun x hx hk h0 hl => ?_, ?_, ?_, ?_, ?_⟩
  · have hxe : x ≠ e := by
      rintro rfl
      exact absurd (hl [] hroot) (Nat.succ_ne_zero k).symm
    refine (hm x hxe).trans (ht.disk x hx hk h0 ?_)
    rintro (_ | ⟨j, p⟩) h
    · exact h
    · exact (hleaf j p).mp (hl (j :: p) (refs_succ.mpr ⟨he, h⟩))
  · rintro (_ | ⟨j, p⟩) x h
    · exact refs_nil.mpr (refs_nil.mp h)
    · exact (hentry j p x).mpr (ht.keep _ x (refs_succ.mp h).2)
  · rintro (_ | ⟨j, p⟩) x h
    · exact .inl (refs_nil.mpr (refs_nil.mp h))
    · exact (ht.source _ x ((hentry j p x).mp h)).imp (fun h => refs_succ.mpr ⟨he, h⟩) id
  · rintro (_ | ⟨i, p⟩) (_ | ⟨j, q⟩) x hp hq
    · rfl
    · exact absurd (refs_nil.mp hp).2 (hnew _ x ((hentry j q x).mp hq))
    · exact absurd (refs_nil.mp hq).2 (hnew _ x ((hentry i p x).mp hp))
    · exact ht.sole _ _ x ((hentry i p x).mp hp) ((hentry j q x).mp hq)
  · rintro (_ | ⟨j, p⟩) x h hl hn
    · cases hl
    · have h' := (hentry j p x).mp h
      rw [hm x (hnew _ x h')]
      exact ht.blank _ x h' ((hleaf j p).mp hl) hn

/-- The forest below an index block grows, but the block is not written back: the entries that
were new are lost. -/
theorem Grows.abandon {blocks : ℕ → α} (he : e ≠ 0) (hs : Sole (Refs m (k + 1) e)) (hue : U e)
    (hKe : e ∉ K)
    (ht : Grows K (IsLeaf fun _ => k) B
      (Forest m (Layout.width α β) (fun _ => k) (Layout.entry (m e)))
      (Forest m' (Layout.width α β) (fun _ => k) blocks) m m' U U') :
    Grows K (fun p => p.length = k + 1) B (Refs m (k + 1) e) (Refs m' (k + 1) e) m m' U U' := by
  have hme : m' e = m e := ht.disk e hue hKe he fun p hp => absurd hp (hs.not_below he p)
  -- an entry that is not 0 has kept its value
  have hkept : ∀ j, j < Layout.width α β → (Layout.entry (m e) j : α) ≠ 0 →
      Layout.entry (m e) j = blocks j := fun j hj h0 =>
    (refs_nil.mp (ht.keep [j] _ ⟨hj, refs_nil.mpr ⟨h0, rfl⟩⟩).2).2
  have hr : Grows K (IsLeaf fun _ => k) B
      (Forest m (Layout.width α β) (fun _ => k) (Layout.entry (m e)))
      (Forest m' (Layout.width α β) (fun _ => k) (Layout.entry (m e))) m m' U U' := by
    refine ht.restrict ?_ ?_
    · rintro (_ | ⟨j, p⟩) x h
      · exact h.elim
      · have h' := ht.keep _ x h
        refine ⟨h.1, ?_⟩
        rw [hkept j h.1 h.2.root_ne]
        exact h'.2
    · rintro (_ | ⟨j, p⟩) x h
      · exact h.elim
      · refine ⟨h.1, ?_⟩
        rw [← hkept j h.1 h.2.root_ne]
        exact h.2
  exact hr.node he hs hue (fun _ _ => rfl) fun j _ => by rw [hme]

end BlockTree

end CSE130
