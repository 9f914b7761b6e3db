import CSE130.Lab3.Attempts

/-! # What a deallocation gives back

`inode_deallocate` computes from the length alone which sectors to release.  When every data
sector below the length has its place, it finds each of these and each index block on the way to
them, releases it once, and touches nothing else (`inodeDeallocate_released`). -/

namespace CSE130.Lab3.Files

open BlockTree
open Function (update)
open State (deallocateLoop deallocateIndirect)

variable {st st' st₁ : State} {K X : Set Sector} {D D₁ D₂ : Sector → Prop} {m : Sector → Block}
  {e s x : Sector} {k n : ℕ} {C C₁ C₂ : List ℕ → Prop} {R : List ℕ → Sector → Prop}

/-- The sectors of `D` have been given back. -/
structure Released (K X : Set Sector) (D : Sector → Prop) (st st' : State) : Prop where
  passive : Passive st st'
  ground : Ground K X st'
  disk : ∀ x, x ∉ K → st'.disk x = st.disk x
  used : ∀ x, st'.Used x ↔ st.Used x ∧ ¬D x
  synced : Synced K X st → Synced K X st'

theorem Released.refl (g : Ground K X st) (hD : ∀ x, ¬D x) : Released K X D st st :=
  ⟨.refl st, g, fun _ _ => rfl, fun x => ⟨fun h => ⟨h, hD x⟩, And.left⟩, id⟩

theorem Released.trans (h₁ : Released K X D₁ st st₁) (h₂ : Released K X D₂ st₁ st')
    (hD : ∀ x, D x ↔ D₁ x ∨ D₂ x) : Released K X D st st' where
  passive := h₁.passive.trans h₂.passive
  ground := h₂.ground
  disk x hx := (h₂.disk x hx).trans (h₁.disk x hx)
  used x := by
    rw [h₂.used, h₁.used, hD, not_or, and_assoc]
  synced h := h₂.synced (h₁.synced h)

theorem freeMapRelease_released (g : Ground K X st) (hf : st.freeMapFile = true) (hs : st.Used s)
    (h0 : s ≠ 0) (hZ : s ∉ K ∪ X) :
    ∃ st', st.freeMapRelease s = some st' ∧ Released K X (fun x => x = s) st st' := by
  have hused : ∀ x, (st.mark s false).Used x ↔ st.Used x ∧ x ≠ s := fun x => by
    rw [used_mark]
    by_cases hx : x = s <;> simp [hx]
  have g' : Ground K X (st.mark s false) :=
    { zero := (hused 0).mpr ⟨g.zero, h0.symm⟩
      range := fun x hx => g.range x ((hused x).mp hx).1
      used := fun x hx => (hused x).mpr ⟨g.used x hx, ne_of_mem_of_not_mem hx hZ⟩
      fixedZero := g.fixedZero
      disjoint := g.disjoint
      backed := g.backed }
  have hstill := bitmapWrite_still g' hf
  refine ⟨(st.mark s false).bitmapWrite.2, if_pos ⟨g.range s hs, hs⟩,
    (passive_mark st s false).trans hstill.passive, g'.still hstill g.disjoint, hstill.disk,
    fun x => ?_, fun h => h.rewrite g' hf⟩
  rw [hstill.used, hused]

/-! ### The paths to be released -/

/-- The references on the way to the paths in `C`. -/
def Cut (C : List ℕ → Prop) (R : List ℕ → Sector → Prop) (p : List ℕ) (x : Sector) : Prop :=
  Onto C p ∧ R p x

theorem Cut.mono {p : List ℕ} (h : Cut C₁ R p x) (hC : ∀ p, C₁ p → C p) : Cut C R p x :=
  ⟨h.1.mono hC, h.2⟩

/-- After the sectors at `C₁` those at `C₂` are still in use. -/
theorem Released.rest (h : Released K X (fun x => ∃ p, Cut C₁ R p x) st st₁)
    (hp : Placed (K ∪ X) st.Used (Cut C R)) (h₁ : ∀ p, C₁ p → C p) (h₂ : ∀ p, C₂ p → C p)
    (hdisj : ∀ p x, R p x → Onto C₁ p → ¬Onto C₂ p) : Placed (K ∪ X) st₁.Used (Cut C₂ R) where
  sole p q x hx hy := hp.sole p q x (hx.mono h₂) (hy.mono h₂)
  used p x hx := by
    refine (h.used x).mpr ⟨hp.used p x (hx.mono h₂), fun ⟨q, hq⟩ => ?_⟩
    have hpq := hp.sole p q x (hx.mono h₂) (hq.mono h₁)
    exact hdisj q x hq.2 hq.1 (hpq ▸ hx.1)
  apart p x hx := hp.apart p x (hx.mono h₂)

/-- What `f` does that releases at most `128 ^ k` data sectors below one entry, and the index
blocks above them. -/
def Releases (K X : Set Sector) (m : Sector → Block) (k : ℕ)
    (f : State → Sector → ℕ → Option State) : Prop :=
  ∀ (st : State) (e : Sector) (n : ℕ), Ground K X st → st.freeMapFile = true →
    (∀ x, x ∉ K → st.disk x = m x) → 0 < n → n ≤ 128 ^ k →
    Placed (K ∪ X) st.Used (Cut (Leaves k n) (Refs m k e)) →
    (∀ p, Leaves k n p → ∃ x, Refs m k e p x) →
    ∃ st', f st e n = some st' ∧
      Released K X (fun x => ∃ p, Cut (Leaves k n) (Refs m k e) p x) st st'

theorem leaves_root (hn : 0 < n) : Onto (Leaves k n) [] :=
  ⟨_, ⟨0, hn, rfl⟩, List.nil_prefix⟩

theorem freeMapRelease_releases (K X : Set Sector) (m : Sector → Block) :
    Releases K X m 0 fun st e _ => st.freeMapRelease e := by
  intro st e n g hf _ hn _ hp hc
  obtain ⟨y, hy⟩ := hc [] ⟨0, hn, rfl⟩
  have he : e ≠ 0 := hy.root_ne
  have hcut : Cut (Leaves 0 n) (Refs m 0 e) [] e := ⟨leaves_root hn, refs_nil.mpr ⟨he, rfl⟩⟩
  obtain ⟨st', h, hr⟩ := freeMapRelease_released g hf (hp.used [] e hcut) he (hp.apart [] e hcut)
  refine ⟨st', h, hr.trans (.refl hr.ground fun _ => not_false) fun x => ?_⟩
  rw [or_false]
  constructor
  · rintro ⟨p, -, hx⟩
    cases p with
    | nil => exact (refs_nil.mp hx).2
    | cons j p => exact hx.elim
  · rintro rfl
    exact ⟨[], hcut⟩

section Loop

variable {f : State → Sector → ℕ → Option State} {M W : ℕ} {lev : ℕ → ℕ} {root b : ℕ → Sector}

theorem onto_leavesFrom {i : ℕ} {j : ℕ} {p : List ℕ} (h : Onto (LeavesFrom k i n) (j :: p)) :
    i ≤ j := by
  obtain ⟨_, ⟨t, _, rfl⟩, h⟩ := h
  rw [(List.cons_prefix_cons.mp h).1]
  exact Nat.le_add_right ..

theorem onto_cons_iff {i j : ℕ} {p : List ℕ} :
    Onto (fun p => ∃ q, p = i :: q ∧ C q) (j :: p) ↔ j = i ∧ Onto C p := by
  constructor
  · rintro ⟨_, ⟨q, rfl, hq⟩, h⟩
    exact ⟨(List.cons_prefix_cons.mp h).1, q, hq, (List.cons_prefix_cons.mp h).2⟩
  · rintro ⟨rfl, h⟩
    exact onto_cons ⟨p, rfl, h⟩

theorem Releases.tree {i : ℕ} (hf : Releases K X m k f) (g : Ground K X st)
    (hfile : st.freeMapFile = true) (hm : ∀ x, x ∉ K → st.disk x = m x) (hn : 0 < n)
    (hle : n ≤ 128 ^ k) (hi : i < W) (hlev : lev i = k)
    (hp : Placed (K ∪ X) st.Used
      (Cut (fun p => ∃ q, p = i :: q ∧ Leaves k n q) (Forest m W lev root)))
    (hc : ∀ p, (∃ q, p = i :: q ∧ Leaves k n q) → ∃ x, Forest m W lev root p x) :
    ∃ st', f st (root i) n = some st' ∧ Released K X (fun x =>
      ∃ p, Cut (fun p => ∃ q, p = i :: q ∧ Leaves k n q) (Forest m W lev root) p x) st st' := by
  have hcut : ∀ p x, Cut (Leaves k n) (Refs m k (root i)) p x ↔
      Cut (fun p => ∃ q, p = i :: q ∧ Leaves k n q) (Forest m W lev root) (i :: p) x := fun p x => by
    unfold Cut
    rw [onto_cons_iff]
    exact ⟨fun h => ⟨⟨rfl, h.1⟩, hi, hlev.symm ▸ h.2⟩, fun h => ⟨h.1.2, hlev ▸ h.2.2⟩⟩
  obtain ⟨st', h, hr⟩ := hf st (root i) n g hfile hm hn hle
    ⟨fun p q x h h' => (List.cons.inj (hp.sole _ _ x ((hcut p x).mp h) ((hcut q x).mp h'))).2,
      fun p x h => hp.used _ x ((hcut p x).mp h), fun p x h => hp.apart _ x ((hcut p x).mp h)⟩
    fun p hpl => (hc (i :: p) ⟨p, rfl, hpl⟩).imp fun x hx => hlev ▸ hx.2
  refine ⟨st', h, hr.trans (.refl hr.ground fun _ => not_false) fun x => ?_⟩
  rw [or_false]
  constructor
  · rintro ⟨p, hx⟩
    cases p with
    | nil => exact hx.2.elim
    | cons j p =>
        obtain ⟨rfl, -⟩ := onto_cons_iff.mp hx.1
        exact ⟨p, (hcut p x).mpr hx⟩
  · rintro ⟨p, hx⟩
    exact ⟨i :: p, (hcut p x).mp hx⟩

variable (lev) in
theorem deallocateLoop_released (hf : Releases K X m k f) (hMW : M ≤ W)
    (hlev : ∀ i, i < M → lev i = k) (hroot : ∀ i, i < M → root i = b i) :
    ∀ (count i : ℕ) (st : State) (n : ℕ), i + count ≤ M → (n + (128 ^ k - 1)) / 128 ^ k = count →
      Ground K X st → st.freeMapFile = true → (∀ x, x ∉ K → st.disk x = m x) →
      Placed (K ∪ X) st.Used (Cut (LeavesFrom k i n) (Forest m W lev root)) →
      (∀ p, LeavesFrom k i n p → ∃ x, Forest m W lev root p x) →
      ∃ st', deallocateLoop f (128 ^ k) b count i st n = some (0, st') ∧
        Released K X (fun x => ∃ p, Cut (LeavesFrom k i n) (Forest m W lev root) p x) st st'
  | 0, i, st, n, _, hcount, g, _, _, _, _ => by
      have hunit : 0 < 128 ^ k := Nat.pow_pos (by omega)
      obtain rfl := entries_zero hunit hcount
      exact ⟨st, rfl, .refl g fun x ⟨p, ⟨q, ⟨t, ht, _⟩, _⟩, _⟩ => absurd ht (Nat.not_lt_zero t)⟩
  | count + 1, i, st, n, hi, hcount, g, hfile, hm, hp, hc => by
      have hunit : 0 < 128 ^ k := Nat.pow_pos (by omega)
      have hn := entries_pos hunit hcount
      have hhead : ∀ p, (∃ q, p = i :: q ∧ Leaves k (min n (128 ^ k)) q) → LeavesFrom k i n p :=
        fun p h => by
          obtain ⟨t, ht, hp⟩ := leavesFrom_head (by omega) h
          exact ⟨t, by omega, hp⟩
      have htail : ∀ p, LeavesFrom k (i + 1) (n - 128 ^ k) p → LeavesFrom k i n p := fun p h =>
        leavesFrom_tail h
      obtain ⟨st₁, h₁, hr₁⟩ := hf.tree g hfile hm (n := min n (128 ^ k)) (by omega)
        (by omega) (show i < W by omega) (hlev i (by omega))
        ⟨fun p q x h h' => hp.sole p q x (h.mono hhead) (h'.mono hhead),
          fun p x h => hp.used p x (h.mono hhead), fun p x h => hp.apart p x (h.mono hhead)⟩
        fun p h => hc p (hhead p h)
      have hp₁ := hr₁.rest hp hhead htail fun p x hpx h h' => by
        cases p with
        | nil => exact hpx
        | cons j p =>
            have := onto_leavesFrom h'
            have := (onto_cons_iff.mp h).1
            omega
      obtain ⟨st', h', hr'⟩ := deallocateLoop_released hf hMW hlev hroot count (i + 1) st₁
        (n - 128 ^ k) (by omega) (entries_next hunit hcount) hr₁.ground
        (hr₁.passive.freeMapFile.trans hfile) (fun x hx => (hr₁.disk x hx).trans (hm x hx)) hp₁
        fun p h => hc p (htail p h)
      rw [hroot i (by omega)] at h₁
      unfold deallocateLoop
      simp only [h₁, Option.bind_eq_bind, Option.bind_some]
      rw [show n - min n (128 ^ k) = n - 128 ^ k by omega]
      refine ⟨st', h', hr₁.trans hr' fun x => ?_⟩
      constructor
      · rintro ⟨p, ⟨q, hq, hpq⟩, hx⟩
        rcases leavesFrom_split hq with hq | hq
        · exact .inl ⟨p, ⟨q, hq, hpq⟩, hx⟩
        · exact .inr ⟨p, ⟨q, hq, hpq⟩, hx⟩
      · rintro (⟨p, hpx⟩ | ⟨p, hpx⟩)
        · exact ⟨p, hpx.mono hhead⟩
        · exact ⟨p, hpx.mono htail⟩

end Loop

theorem deallocateIndirect_releases (K X : Set Sector) (m : Sector → Block) :
    ∀ k, k ≤ 2 → Releases K X m k (deallocateIndirect k)
  | 0, _ => freeMapRelease_releases K X m
  | k + 1, hk => fun st e n g hfile hm hn hle hp hc => by
      obtain ⟨y, hy⟩ := hc _ ⟨0, hn, rfl⟩
      have he : e ≠ 0 := hy.root_ne
      have hroot : Cut (Leaves (k + 1) n) (Refs m (k + 1) e) [] e :=
        ⟨leaves_root hn, refs_nil.mpr ⟨he, rfl⟩⟩
      have heZ := hp.apart [] e hroot
      have hcut : ∀ p x, Cut (LeavesFrom k 0 n) (Forest m 128 (fun _ => k) (word (m e))) p x →
          Cut (Leaves (k + 1) n) (Refs m (k + 1) e) p x := fun p x h => by
        cases p with
        | nil => exact h.2.elim
        | cons j p =>
            exact ⟨h.1.mono fun p h => (leavesFrom_zero p).mp h, refs_succ.mpr ⟨he, h.2⟩⟩
      obtain ⟨st₁, h₁, hr₁⟩ := deallocateLoop_released (fun _ => k)
        (deallocateIndirect_releases K X m k (by omega)) (Nat.le_refl 128) (fun _ _ => rfl) (fun i _ => rfl)
        ((n + (128 ^ k - 1)) / 128 ^ k) 0 st n
        (by have := entries_le hle; omega) rfl g hfile hm
        ⟨fun p q x h h' => hp.sole p q x (hcut p x h) (hcut q x h'),
          fun p x h => hp.used p x (hcut p x h), fun p x h => hp.apart p x (hcut p x h)⟩
        fun p h => by
          obtain ⟨x, hx⟩ := hc p ((leavesFrom_zero p).mp h)
          obtain ⟨t, _, rfl⟩ := h
          exact ⟨x, (refs_succ.mp hx).2⟩
      have hused : st₁.Used e := (hr₁.used e).mpr ⟨hp.used [] e hroot, fun ⟨p, hpe⟩ => by
        have hnil := hp.sole [] p e hroot (hcut p e hpe)
        subst hnil
        exact hpe.2⟩
      obtain ⟨st', h', hr'⟩ := freeMapRelease_released hr₁.ground
        (hr₁.passive.freeMapFile.trans hfile) hused he heZ
      unfold deallocateIndirect
      simp only [unit_eq hk, hm e fun h => heZ (.inl h), h₁, h', Option.bind_eq_bind,
        Option.bind_some, if_true]
      refine ⟨st', rfl, hr₁.trans hr' fun x => ?_⟩
      constructor
      · rintro ⟨p, hpx⟩
        cases p with
        | nil => exact .inr (refs_nil.mp hpx.2).2
        | cons j p =>
            exact .inl ⟨j :: p, hpx.1.mono fun p h => (leavesFrom_zero p).mpr h,
              (refs_succ.mp hpx.2).2⟩
      · rintro (⟨p, hpx⟩ | rfl)
        · exact ⟨p, hcut p x hpx⟩
        · exact ⟨[], hroot⟩

/-! ### The tree of an inode -/

/-- The paths to the first `l` data sectors below the root `i`. -/
def Under (k i l : ℕ) (p : List ℕ) : Prop := ∃ q, p = i :: q ∧ Leaves k l q

variable {d : InodeDisk} {l : ℕ}

theorem fileLeaves_direct {p : List ℕ} : LeavesFrom 0 0 l p ↔ ∃ t, t < l ∧ p = [t] := by
  simp only [LeavesFrom, leafPath, Nat.pow_zero, Nat.div_one, Nat.zero_add]

/-- The data sectors of an inode: the direct ones, and those below the two index blocks. -/
theorem fileLeaves_iff (hn : n ≤ 16635) {p : List ℕ} : FileLeaves n p ↔
    LeavesFrom 0 0 (min n 123) p ∨ Under 1 123 (min (n - 123) 128) p ∨
      Under 2 124 (min (n - 251) (128 * 128)) p := by
  rw [fileLeaves_direct]
  constructor
  · rintro ⟨i, hi, rfl⟩
    by_cases h₁ : i < 123
    · exact .inl ⟨i, by omega, if_pos h₁⟩
    · by_cases h₂ : i < 251
      · obtain ⟨t, rfl⟩ : ∃ t, i = 123 + t := ⟨i - 123, by omega⟩
        exact .inr (.inl ⟨_, filePath_indirect t (by omega), t, by omega, rfl⟩)
      · obtain ⟨t, rfl⟩ : ∃ t, i = 251 + t := ⟨i - 251, by omega⟩
        exact .inr (.inr ⟨_, filePath_doubly t (by omega), t, by omega, rfl⟩)
  · rintro (⟨t, ht, rfl⟩ | ⟨_, rfl, t, ht, rfl⟩ | ⟨_, rfl, t, ht, rfl⟩)
    · exact ⟨t, by omega, (if_pos (by omega)).symm⟩
    · exact ⟨123 + t, by omega, (filePath_indirect t (by omega)).symm⟩
    · exact ⟨251 + t, by omega, (filePath_doubly t (by omega)).symm⟩

/-- The indirect block, for `k = 1`, or the doubly indirect block, for `k = 2`. -/
theorem release_indirect (hk : k = 1 ∨ k = 2) (g : Ground K X st) (hfile : st.freeMapFile = true)
    (hm : ∀ x, x ∉ K → st.disk x = m x) (hroot : rootOf d (k + 122) = e) (hl : l ≤ 128 ^ k)
    (hp : Placed (K ∪ X) st.Used (Cut (Under k (k + 122) l) (Owned m d)))
    (hc : ∀ p, Under k (k + 122) l p → ∃ x, Owned m d p x) :
    ∃ st', (if 0 < l then deallocateIndirect k st e l else some st) = some st' ∧
      Released K X (fun x => ∃ p, Cut (Under k (k + 122) l) (Owned m d) p x) st st' := by
  by_cases h0 : 0 < l
  · rw [if_pos h0, ← hroot]
    exact (deallocateIndirect_releases K X m k (by omega)).tree g hfile hm h0 hl (by omega)
      (Nat.add_sub_cancel ..) hp hc
  · rw [if_neg h0]
    exact ⟨st, rfl, .refl g fun x ⟨p, ⟨q, ⟨r, _, t, ht, _⟩, _⟩, _⟩ => by omega⟩

theorem onto_or {p : List ℕ} : Onto (fun p => C₁ p ∨ C₂ p) p ↔ Onto C₁ p ∨ Onto C₂ p := by
  constructor
  · rintro ⟨q, hq | hq, hp⟩
    · exact .inl ⟨q, hq, hp⟩
    · exact .inr ⟨q, hq, hp⟩
  · rintro (⟨q, hq, hp⟩ | ⟨q, hq, hp⟩)
    · exact ⟨q, .inl hq, hp⟩
    · exact ⟨q, .inr hq, hp⟩

/-- `inode_deallocate` gives back exactly what the data sectors below the length need. -/
theorem inodeDeallocate_released (g : Ground K X st) (hfile : st.freeMapFile = true)
    (hm : ∀ x, x ∉ K → st.disk x = m x) (hn : bytesToSectors d.length = n) (hle : n ≤ 16635)
    (hp : Placed (K ∪ X) st.Used (Cut (FileLeaves n) (Owned m d)))
    (hc : ∀ p, FileLeaves n p → ∃ x, Owned m d p x) :
    ∃ st', st.inodeDeallocate d = some st' ∧
      Released K X (fun x => ∃ p, Cut (FileLeaves n) (Owned m d) p x) st st' := by
  have hhead : ∀ {p x}, Owned m d p x → ∃ j q, p = j :: q := fun {p} {x} h => by
    cases p with
    | nil => exact h.elim
    | cons j q => exact ⟨j, q, rfl⟩
  have hdirect : ∀ {j : ℕ} {q : List ℕ}, Onto (LeavesFrom 0 0 (min n 123)) (j :: q) → j < 123 := by
    rintro j q ⟨_, h, hq⟩
    obtain ⟨t, ht, rfl⟩ := fileLeaves_direct.mp h
    rw [(List.cons_prefix_cons.mp hq).1]
    omega
  -- the direct blocks
  obtain ⟨st₁, h₁, hr₁⟩ := deallocateLoop_released levelOf
    (freeMapRelease_releases K X m) (show 123 ≤ 125 by omega) (fun i hi => by unfold levelOf; omega)
    (show ∀ i, i < 123 → rootOf d i = d.directBlocks i from fun i hi => if_pos hi) (min n 123) 0 st
    (min n 123) (by omega) (by omega) g hfile hm
    ⟨fun p q x h h' => hp.sole p q x (h.mono fun p h => (fileLeaves_iff hle).mpr (.inl h))
        (h'.mono fun p h => (fileLeaves_iff hle).mpr (.inl h)),
      fun p x h => hp.used p x (h.mono fun p h => (fileLeaves_iff hle).mpr (.inl h)),
      fun p x h => hp.apart p x (h.mono fun p h => (fileLeaves_iff hle).mpr (.inl h))⟩
    fun p h => hc p ((fileLeaves_iff hle).mpr (.inl h))
  have hfile₁ := hr₁.passive.freeMapFile.trans hfile
  have hm₁ : ∀ x, x ∉ K → st₁.disk x = m x := fun x hx => (hr₁.disk x hx).trans (hm x hx)
  have hp₁ := hr₁.rest hp (fun p h => (fileLeaves_iff hle).mpr (.inl h))
    (fun p h => (fileLeaves_iff hle).mpr (.inr h)) fun p x hpx h h' => by
      obtain ⟨j, q, rfl⟩ := hhead hpx
      have hj := hdirect h
      rcases onto_or.mp h' with h' | h'
      · have := (onto_cons_iff.mp h').1
        omega
      · have := (onto_cons_iff.mp h').1
        omega
  -- the indirect block
  obtain ⟨st₂, h₂, hr₂⟩ := release_indirect (k := 1) (e := d.indirectBlock) (.inl rfl) hr₁.ground
    hfile₁ hm₁ rfl (show min (n - 123) 128 ≤ 128 ^ 1 by omega)
    ⟨fun p q x h h' => hp₁.sole p q x (h.mono fun p h => .inl h) (h'.mono fun p h => .inl h),
      fun p x h => hp₁.used p x (h.mono fun p h => .inl h),
      fun p x h => hp₁.apart p x (h.mono fun p h => .inl h)⟩
    fun p h => hc p ((fileLeaves_iff hle).mpr (.inr (.inl h)))
  have hp₂ := hr₂.rest hp₁ (fun p h => .inl h) (fun p h => .inr h) fun p x hpx h h' => by
    obtain ⟨j, q, rfl⟩ := hhead hpx
    have := (onto_cons_iff.mp h).1
    have := (onto_cons_iff.mp h').1
    omega
  -- the doubly indirect block
  obtain ⟨st₃, h₃, hr₃⟩ := release_indirect (k := 2) (e := d.doublyIndirectBlock) (.inr rfl)
    hr₂.ground (hr₂.passive.freeMapFile.trans hfile₁)
    (fun x hx => (hr₂.disk x hx).trans (hm₁ x hx)) rfl
    (show min (n - 251) (128 * 128) ≤ 128 ^ 2 by omega) hp₂
    fun p h => hc p ((fileLeaves_iff hle).mpr (.inr (.inr h)))
  refine ⟨st₃, ?_, (hr₁.trans (hr₂.trans hr₃ fun _ => Iff.rfl) fun x => ?_)⟩
  · unfold State.inodeDeallocate
    have h₁' : deallocateLoop (fun st e _ => st.freeMapRelease e) 1 d.directBlocks (min n 123) 0 st
      (min n 123) = some (0, st₁) := h₁
    simp only [hn, h₁', Option.bind_eq_bind, Option.bind_some]
    rw [show n - min n 123 = n - 123 by omega,
      show n - 123 - min (n - 123) 128 = n - 251 by omega]
    simp only [show n - 251 - min (n - 251) (128 * 128) = 0 by omega, if_true]
    split_ifs at h₂ h₃ ⊢
    · simp only [h₂, h₃, Option.bind_some]
    · simp only [h₂, Option.bind_some]
      exact h₃
    · obtain rfl := Option.some.inj h₂
      simp only [h₃, Option.bind_some]
    · obtain rfl := Option.some.inj h₂
      exact h₃
  · rw [← exists_or, ← exists_or]
    refine exists_congr fun p => ?_
    change _ ∧ Owned m d p x ↔
      _ ∧ Owned m d p x ∨ _ ∧ Owned m d p x ∨ _ ∧ Owned m d p x
    rw [← or_and_right, ← or_and_right, ← onto_or, ← onto_or]
    refine and_congr_left fun _ => exists_congr fun q => and_congr_left fun _ => ?_
    exact fileLeaves_iff hle

end CSE130.Lab3.Files
