import CSE130.Lab3.Release

/-! # Every sector has one owner

`Inv` says that the sectors of the live inodes are distinct and marked in the free map, together
with what keeps it so: every data sector below the length of an inode has its place, and the copy
of an open inode on the disk is an older one.  An operation on one inode leaves the others alone
(`Local`), so that each needs to be looked at only for the inode it works on. -/

namespace CSE130.Lab3.Files

open BlockTree
open Function (update)

variable {st st' st₁ st₂ : State} {K X : Set Sector} {d d' d₀ : InodeDisk} {m m' : Sector → Block}
  {s t x y : Sector} {p q : List ℕ} {i : Inode}

/-! ### The place of a data sector -/

theorem owned_cons {j : ℕ} : Owned m d (j :: p) x ↔
    j < 125 ∧ Refs m (levelOf j) (rootOf d j) p x := Iff.rfl

/-- The root above the data sector `i`. -/
def rootIndex (i : ℕ) : ℕ := if i < 123 then i else if i < 251 then 123 else 124

theorem filePath_cons (i : ℕ) :
    ∃ q, filePath i = rootIndex i :: q ∧ q.length = levelOf (rootIndex i) := by
  unfold filePath rootIndex levelOf
  split_ifs
  · exact ⟨[], rfl, by rw [List.length_nil]; omega⟩
  · exact ⟨_, rfl, leafPath_length ..⟩
  · exact ⟨_, rfl, leafPath_length ..⟩

theorem isLeaf_filePath (i : ℕ) : IsLeaf levelOf (filePath i) := by
  obtain ⟨q, hq, hl⟩ := filePath_cons i
  rw [hq]
  exact hl

theorem indexToSector_eq {i : ℕ} (hi : i < 16635) (h : Owned m d (filePath i) x) :
    indexToSector m d i = x := by
  unfold indexToSector
  unfold filePath at h
  by_cases h₁ : i < 123
  · rw [if_pos h₁] at h ⊢
    rw [(refs_nil.mp (owned_cons.mp h).2).2]
    exact (if_pos h₁).symm
  · rw [if_neg h₁] at h ⊢
    by_cases h₂ : i < 251
    · rw [if_pos h₂] at h ⊢
      have hr : Refs m 1 d.indirectBlock (leafPath 1 (i - 123)) x := (owned_cons.mp h).2
      have hx := (refs_nil.mp hr.2.2).2
      rw [hx, Nat.pow_zero, Nat.div_one]
      rfl
    · rw [if_neg h₂] at h ⊢
      rw [if_pos hi]
      have hr : Refs m 2 d.doublyIndirectBlock (leafPath 2 (i - 251)) x := (owned_cons.mp h).2
      have hx := (refs_nil.mp hr.2.2.2.2).2
      rw [hx, Nat.pow_zero, Nat.div_one, Nat.pow_one]
      rfl

/-- Every data sector below the length has its place. -/
structure Complete (m : Sector → Block) (d : InodeDisk) : Prop where
  small : bytesToSectors d.length ≤ 16635
  place : ∀ i, i < bytesToSectors d.length → ∃ x, Owned m d (filePath i) x

theorem Complete.sector (h : Complete m d) {pos : ℕ} (hpos : pos < d.length) :
    ∃ x, Owned m d (filePath (pos / 512)) x ∧ byteToSector m d pos = x := by
  have hlt : pos / 512 < bytesToSectors d.length := by
    unfold bytesToSectors
    omega
  obtain ⟨x, hx⟩ := h.place (pos / 512) hlt
  refine ⟨x, hx, ?_⟩
  unfold byteToSector
  rw [if_pos ⟨by omega, by omega⟩, Int.toNat_natCast]
  exact indexToSector_eq (by have := h.small; omega) hx

/-- The data sectors of an inode. -/
def dataSectors (m : Sector → Block) (d : InodeDisk) : Set Sector :=
  {x | ∃ p, IsLeaf levelOf p ∧ Owned m d p x}

/-- The index blocks of an inode. -/
def indexSectors (m : Sector → Block) (d : InodeDisk) : Set Sector :=
  {x | ∃ p, ¬IsLeaf levelOf p ∧ Owned m d p x}

theorem Complete.congr (h : Complete m d) (hm : ∀ x ∈ indexSectors m d, m' x = m x) :
    Complete m' d where
  small := h.small
  place j hj := (h.place j hj).imp fun _ hx => Forest.congr (fun q y hq hl => hm y ⟨q, hl, hq⟩) hx

theorem Complete.backed (h : Complete m d) :
    Backed (dataSectors m d) (indexSectors m d) m d := fun m' hm' pos hpos => by
  obtain ⟨x, hx, hb⟩ := (h.congr hm').sector hpos
  rw [hb]
  exact ⟨filePath (pos / 512), isLeaf_filePath _,
    Forest.congr_symm (fun q y hq hl => hm' y ⟨q, hl, hq⟩) hx⟩

/-! ### The copy of an inode on the disk -/

theorem rootOf_ofBlock (d : InodeDisk) : rootOf (.ofBlock d.toBlock) = rootOf d := by
  funext j
  unfold rootOf InodeDisk.ofBlock InodeDisk.toBlock
  simp only [word_ofWords]
  grind

theorem length_ofBlock (h : bytesToSectors d.length ≤ 16635) :
    (InodeDisk.ofBlock d.toBlock).length = d.length := by
  unfold InodeDisk.ofBlock InodeDisk.toBlock
  unfold bytesToSectors at h
  simp only [word_ofWords]
  change (UInt32.ofNat d.length).toNat = d.length
  rw [UInt32.toNat_ofNat']
  exact Nat.mod_eq_of_lt (by omega)

/-- The copy `d₀` on the disk has the roots that the length needs, and none that `d` has not. -/
structure Older (d₀ d : InodeDisk) : Prop where
  length : d₀.length = d.length
  root : ∀ j, rootOf d₀ j = 0 ∨ rootOf d₀ j = rootOf d j
  needed : ∀ i, i < bytesToSectors d.length → rootOf d₀ (rootIndex i) = rootOf d (rootIndex i)

theorem Older.owned (h : Older d₀ d) (hx : Owned m d₀ p x) : Owned m d p x := by
  cases p with
  | nil => exact hx.elim
  | cons j p =>
      refine ⟨hx.1, ?_⟩
      rcases h.root j with h0 | hj
      · exact absurd h0 hx.2.root_ne
      · rw [← hj]
        exact hx.2

theorem Older.complete (h : Older d₀ d) (hc : Complete m d) : Complete m d₀ where
  small := by
    rw [h.length]
    exact hc.small
  place i hi := by
    rw [h.length] at hi
    obtain ⟨x, hx⟩ := hc.place i hi
    obtain ⟨q, hq, -⟩ := filePath_cons i
    rw [hq] at hx ⊢
    refine ⟨x, hx.1, ?_⟩
    rw [h.needed i hi]
    exact hx.2

theorem older_ofBlock (h : bytesToSectors d.length ≤ 16635) : Older (.ofBlock d.toBlock) d :=
  ⟨length_ofBlock h, fun j => .inr (by rw [rootOf_ofBlock]), fun i _ => by rw [rootOf_ofBlock]⟩

/-! ### Owners -/

namespace State

/-- The data of an inode: those in memory while it is open. -/
def dataOf (st : State) (s : Sector) : InodeDisk :=
  match st.openInodes s with
  | some i => i.data
  | none => .ofBlock (st.disk s)

/-- The sectors that a live inode references: its own, at the path `[]`, and those of its tree. -/
def Owns (st : State) (s : Sector) (p : List ℕ) (x : Sector) : Prop :=
  st.live s = true ∧ (p = [] ∧ x = s ∨ Owned st.disk (st.dataOf s) p x)

/-- The data sectors of the free map's file. -/
def freeMapData (st : State) : Set Sector := dataSectors st.disk (st.dataOf 0)

/-- The index blocks of the free map's file. -/
def freeMapIndex (st : State) : Set Sector := indexSectors st.disk (st.dataOf 0)

end State

theorem dataOf_open (h : st.openInodes s = some i) : st.dataOf s = i.data := by
  unfold State.dataOf
  rw [h]

theorem dataOf_closed (h : st.openInodes s = none) : st.dataOf s = .ofBlock (st.disk s) := by
  unfold State.dataOf
  rw [h]

theorem owns_self (h : st.live s = true) : st.Owns s [] s := ⟨h, .inl ⟨rfl, rfl⟩⟩

/-- The invariant of the file system. -/
structure Inv (st : State) : Prop where
  sole : ∀ s p x t q, st.Owns s p x → st.Owns t q x → s = t ∧ p = q
  used : ∀ s p x, st.Owns s p x → st.Used x
  range : ∀ x, st.Used x → x < st.size
  complete : ∀ s, st.live s = true → Complete st.disk (st.dataOf s)
  opened : ∀ s i, st.openInodes s = some i → st.live s = true
  older : ∀ s i, st.openInodes s = some i → s ≠ 0 → Older (.ofBlock (st.disk s)) i.data
  freeMapFile : st.freeMapFile = true
  freeMap : ∃ i, st.openInodes 0 = some i ∧ i.data.length = bitmapFileSize st.size

namespace Inv

theorem live_zero (h : Inv st) : st.live 0 = true := by
  obtain ⟨i, hi, -⟩ := h.freeMap
  exact h.opened 0 i hi

theorem ground (h : Inv st) : Ground st.freeMapData st.freeMapIndex st where
  zero := h.used 0 [] 0 (owns_self h.live_zero)
  range := h.range
  used x hx := by
    obtain ⟨p, -, hx⟩ | ⟨p, -, hx⟩ := hx
    · exact h.used 0 p x ⟨h.live_zero, .inr hx⟩
    · exact h.used 0 p x ⟨h.live_zero, .inr hx⟩
  fixedZero := fun ⟨_, _, hx⟩ => hx.ne_zero rfl
  disjoint := fun x ⟨p, hp, hx⟩ ⟨q, hq, hy⟩ => by
    obtain ⟨-, rfl⟩ := h.sole 0 p x 0 q ⟨h.live_zero, .inr hx⟩ ⟨h.live_zero, .inr hy⟩
    exact hp hq
  backed _ := by
    obtain ⟨i, hi, hl⟩ := h.freeMap
    refine ⟨i, hi, hl, ?_⟩
    have hb := (h.complete 0 h.live_zero).backed
    rw [dataOf_open hi] at hb
    unfold State.freeMapData State.freeMapIndex
    rw [dataOf_open hi]
    exact hb

/-- No disk has that sector. -/
theorem noSector_free (h : Inv st) : ¬st.Used noSector := fun hu => by
  have h1 := UInt32.lt_iff_toNat_lt.mp (h.range noSector hu)
  have h2 : st.size.toNat < 2 ^ 32 := st.size.toNat_lt
  have h3 : noSector.toNat = 2 ^ 32 - 1 := rfl
  omega

theorem apart_freeMap (h : Inv st) (h0 : s ≠ 0) (hx : st.Owns s p x) :
    x ∉ st.freeMapData ∪ st.freeMapIndex := by
  rintro (⟨q, -, hy⟩ | ⟨q, -, hy⟩)
  · exact h0 (h.sole s p x 0 q hx ⟨h.live_zero, .inr hy⟩).1
  · exact h0 (h.sole s p x 0 q hx ⟨h.live_zero, .inr hy⟩).1

/-- The sectors of the tree of an inode are where a reservation or a deallocation wants them. -/
theorem placed (h : Inv st) (h0 : s ≠ 0) (hs : st.live s = true) :
    Placed (st.freeMapData ∪ st.freeMapIndex) st.Used (Owned st.disk (st.dataOf s)) where
  sole _ _ _ hx hy := (h.sole s _ _ s _ ⟨hs, .inr hx⟩ ⟨hs, .inr hy⟩).2
  used _ _ hx := h.used s _ _ ⟨hs, .inr hx⟩
  apart _ _ hx := h.apart_freeMap h0 ⟨hs, .inr hx⟩

end Inv

/-! ### Operations on one inode -/

/-- The inode `s` has been worked on: the others and their sectors have not changed, but for the
contents of the free map's file. -/
structure Local (s : Sector) (st st' : State) : Prop where
  size : st'.size = st.size
  freeMapFile : st'.freeMapFile = st.freeMapFile
  live : ∀ t, t ≠ s → st'.live t = st.live t
  openInodes : ∀ t, t ≠ s → st'.openInodes t = st.openInodes t
  disk : ∀ x, st.Used x → x ∉ st.freeMapData → x ≠ 0 → (∀ p, ¬st.Owns s p x) →
    st'.disk x = st.disk x
  used : ∀ x, st.Used x → (∀ p, ¬st.Owns s p x) → st'.Used x
  range : ∀ x, st'.Used x → x < st.size

namespace Local

/-- The sectors of another inode, or the index blocks of the free map's file. -/
theorem disk_eq (hl : Local s st st') (h : Inv st) (ht : t ≠ s) (hx : st.Owns t p x)
    (hp : t ≠ 0 ∨ p ≠ [] ∧ ¬IsLeaf levelOf p) : st'.disk x = st.disk x := by
  refine hl.disk x (h.used t p x hx) ?_ ?_ fun q hq => ht (h.sole t p x s q hx hq).1
  · rintro ⟨q, hq, hy⟩
    obtain ⟨rfl, rfl⟩ := h.sole t p x 0 q hx ⟨h.live_zero, .inr hy⟩
    rcases hp with h0 | ⟨-, hleaf⟩
    · exact h0 rfl
    · exact hleaf hq
  · rintro rfl
    obtain ⟨rfl, rfl⟩ := h.sole t p 0 0 [] hx (owns_self h.live_zero)
    rcases hp with h0 | ⟨hnil, -⟩
    · exact h0 rfl
    · exact hnil rfl

theorem dataOf_eq (hl : Local s st st') (h : Inv st) (ht : t ≠ s) (hlive : st.live t = true) :
    st'.dataOf t = st.dataOf t := by
  cases ho : st.openInodes t with
  | some i => rw [dataOf_open ho, dataOf_open ((hl.openInodes t ht).trans ho)]
  | none =>
      have h0 : t ≠ 0 := by
        rintro rfl
        obtain ⟨i, hi, -⟩ := h.freeMap
        rw [hi] at ho
        cases ho
      rw [dataOf_closed ho, dataOf_closed ((hl.openInodes t ht).trans ho),
        hl.disk_eq h ht (owns_self hlive) (.inl h0)]

theorem index_eq (hl : Local s st st') (h : Inv st) (ht : t ≠ s) (hlive : st.live t = true) :
    ∀ q y, Owned st.disk (st.dataOf t) q y → ¬IsLeaf levelOf q → st'.disk y = st.disk y := by
  intro q y hq hleaf
  refine hl.disk_eq h ht ⟨hlive, .inr hq⟩ (.inr ⟨?_, hleaf⟩)
  rintro rfl
  exact hq

theorem owned_iff (hl : Local s st st') (h : Inv st) (ht : t ≠ s) (hlive : st.live t = true) :
    Owned st'.disk (st.dataOf t) p x ↔ Owned st.disk (st.dataOf t) p x :=
  ⟨Forest.congr_symm (hl.index_eq h ht hlive), Forest.congr (hl.index_eq h ht hlive)⟩

theorem owns_iff (hl : Local s st st') (h : Inv st) (ht : t ≠ s) :
    st'.Owns t p x ↔ st.Owns t p x := by
  unfold State.Owns
  rw [hl.live t ht]
  refine and_congr_right fun hlive => ?_
  rw [hl.dataOf_eq h ht hlive, hl.owned_iff h ht hlive]

end Local

/-- Two operations on the same inode, when the first has taken only sectors that were free. -/
theorem Local.trans (h : Inv st) (h0 : s ≠ 0) (h₁ : Local s st st₁) (h₂ : Local s st₁ st')
    (hown : ∀ p x, st₁.Owns s p x → st.Used x → ∃ q, st.Owns s q x) : Local s st st' where
  size := h₂.size.trans h₁.size
  freeMapFile := h₂.freeMapFile.trans h₁.freeMapFile
  live t ht := (h₂.live t ht).trans (h₁.live t ht)
  openInodes t ht := (h₂.openInodes t ht).trans (h₁.openInodes t ht)
  disk x hx hk hx0 hn := by
    refine (h₂.disk x (h₁.used x hx hn) (fun ⟨p, hp, hpx⟩ => hk ⟨p, hp, ?_⟩) hx0 fun p hp =>
      (hown p x hp hx).elim hn).trans (h₁.disk x hx hk hx0 hn)
    rw [h₁.dataOf_eq h h0.symm h.live_zero] at hpx
    exact (h₁.owned_iff h h0.symm h.live_zero).mp hpx
  used x hx hn := h₂.used x (h₁.used x hx hn) fun p hp => (hown p x hp hx).elim hn
  range x hx := by
    rw [← h₁.size]
    exact h₂.range x hx

/-- What is to be shown of the inode that was worked on. -/
theorem Inv.step_local (h : Inv st) (h0 : s ≠ 0) (hl : Local s st st')
    (hown : ∀ p x, st'.Owns s p x → st'.Used x ∧ (st.Used x → ∃ q, st.Owns s q x))
    (hsole : ∀ p q x, st'.Owns s p x → st'.Owns s q x → p = q)
    (hcomplete : st'.live s = true → Complete st'.disk (st'.dataOf s))
    (hopen : ∀ i, st'.openInodes s = some i →
      st'.live s = true ∧ Older (.ofBlock (st'.disk s)) i.data) : Inv st' where
  sole := by
    -- a sector of `s` was a sector of `s` or of no inode
    have hapart : ∀ p x t q, t ≠ s → st'.Owns s p x → ¬st'.Owns t q x := fun p x t q ht hs ht' => by
      have ht' := (hl.owns_iff h ht).mp ht'
      obtain ⟨r, hr⟩ := (hown p x hs).2 (h.used t q x ht')
      exact ht (h.sole t q x s r ht' hr).1
    intro t p x u q ht hu
    by_cases hts : t = s
    · subst hts
      by_cases hus : u = t
      · subst hus
        exact ⟨rfl, hsole p q x ht hu⟩
      · exact absurd hu (hapart p x u q hus ht)
    · by_cases hus : u = s
      · subst hus
        exact absurd ht (hapart q x t p hts hu)
      · exact h.sole t p x u q ((hl.owns_iff h hts).mp ht) ((hl.owns_iff h hus).mp hu)
  used t p x ht := by
    by_cases hts : t = s
    · subst hts
      exact (hown p x ht).1
    · have ht := (hl.owns_iff h hts).mp ht
      exact hl.used x (h.used t p x ht) fun q hq => hts (h.sole t p x s q ht hq).1
  range x hx := by
    rw [hl.size]
    exact hl.range x hx
  complete t ht := by
    by_cases hts : t = s
    · subst hts
      exact hcomplete ht
    · rw [hl.live t hts] at ht
      rw [hl.dataOf_eq h hts ht]
      have hc := h.complete t ht
      exact ⟨hc.small, fun i hi => (hc.place i hi).imp fun x hx => (hl.owned_iff h hts ht).mpr hx⟩
  opened t i hi := by
    by_cases hts : t = s
    · subst hts
      exact (hopen i hi).1
    · rw [hl.openInodes t hts] at hi
      rw [hl.live t hts]
      exact h.opened t i hi
  older t i hi ht0 := by
    by_cases hts : t = s
    · subst hts
      exact (hopen i hi).2
    · rw [hl.openInodes t hts] at hi
      rw [hl.disk_eq h hts (owns_self (h.opened t i hi)) (.inl ht0)]
      exact h.older t i hi ht0
  freeMapFile := hl.freeMapFile.trans h.freeMapFile
  freeMap := by
    rw [hl.openInodes 0 h0.symm, hl.size]
    exact h.freeMap

/-- The sectors of an inode whose tree has grown. -/
theorem Inv.own_of_grows (h : Inv st) (hs : st.live s = true) (hs' : st'.Used s)
    {L B : List ℕ → Prop} (hg : Grows K L B (Owned st.disk (st.dataOf s))
      (Owned st'.disk (st'.dataOf s)) st.disk st'.disk st.Used st'.Used) :
    (∀ p x, st'.Owns s p x → st'.Used x ∧ (st.Used x → ∃ q, st.Owns s q x)) ∧
      ∀ p q x, st'.Owns s p x → st'.Owns s q x → p = q := by
  have hus := h.used s [] s (owns_self hs)
  have hroot : ∀ p, ¬Owned st'.disk (st'.dataOf s) p s := fun p hp => by
    rcases hg.source p s hp with hp | ⟨hn, -⟩
    · obtain ⟨-, rfl⟩ := h.sole s p s s [] ⟨hs, .inr hp⟩ (owns_self hs)
      exact hp
    · exact hn hus
  refine ⟨fun p x hx => ?_, fun p q x hp hq => ?_⟩
  · obtain ⟨-, ⟨rfl, rfl⟩ | hx⟩ := hx
    · exact ⟨hs', fun _ => ⟨[], owns_self hs⟩⟩
    · rcases hg.source p x hx with hx | ⟨hn, hu, -⟩
      · exact ⟨hg.used x (h.used s p x ⟨hs, .inr hx⟩), fun _ => ⟨p, hs, .inr hx⟩⟩
      · exact ⟨hu, fun hx => absurd hx hn⟩
  · obtain ⟨-, ⟨rfl, rfl⟩ | hp⟩ := hp
    · obtain ⟨-, ⟨rfl, -⟩ | hq⟩ := hq
      · rfl
      · exact absurd hq (hroot q)
    · obtain ⟨-, ⟨rfl, rfl⟩ | hq⟩ := hq
      · exact absurd hp (hroot p)
      · exact hg.sole p q x hp hq

/-- A root stays where it is. -/
theorem rootOf_kept (hk : ∀ p x, Owned m d p x → Owned m' d' p x) {j : ℕ} (hj : rootOf d j ≠ 0) :
    rootOf d' j = rootOf d j := by
  have hlt : j < 125 := by
    by_contra hge
    refine hj ?_
    unfold rootOf
    rw [if_neg (by omega), if_neg (by omega), if_neg (by omega)]
  exact (refs_nil.mp (hk [j] _ ⟨hlt, refs_nil.mpr ⟨hj, rfl⟩⟩).2).2.symm

theorem Older.kept (h : Older d₀ d) (hk : ∀ p x, Owned m d p x → Owned m' d' p x)
    (hc : Complete m d) (hl : d'.length = d.length) : Older d₀ d' where
  length := h.length.trans hl.symm
  root j := by
    rcases h.root j with h0 | hj
    · exact .inl h0
    · by_cases h0 : rootOf d j = 0
      · exact .inl (hj.trans h0)
      · exact .inr (hj.trans (rootOf_kept hk h0).symm)
  needed i hi := by
    rw [hl] at hi
    obtain ⟨x, hx⟩ := hc.place i hi
    obtain ⟨q, hq, -⟩ := filePath_cons i
    rw [hq] at hx
    rw [h.needed i hi, rootOf_kept hk hx.2.root_ne]

/-- The disk outside the tree of the inode, its sector and the free map's file. -/
theorem Local.of_grows {d d' : InodeDisk} (hs : st.live s = true)
    (hd : st.dataOf s = d) {L B : List ℕ → Prop}
    (hg : Grows (insert s st.freeMapData) L B (Owned st.disk d) (Owned st'.disk d') st.disk st'.disk
      st.Used st'.Used)
    (hsize : st'.size = st.size) (hfile : st'.freeMapFile = st.freeMapFile)
    (hlive : st'.live = st.live) (ho : ∀ t, t ≠ s → st'.openInodes t = st.openInodes t)
    (hrange : ∀ x, st'.Used x → x < st.size) : Local s st st' where
  size := hsize
  freeMapFile := hfile
  live t _ := by rw [hlive]
  openInodes := ho
  disk x hx hk h0 hn := by
    refine hg.disk x hx (fun hxk => ?_) h0 fun p hp => absurd ⟨hs, .inr (hd ▸ hp)⟩ (hn p)
    rcases Set.mem_insert_iff.mp hxk with rfl | hxk
    · exact hn [] (owns_self hs)
    · exact hk hxk
  used x hx _ := hg.used x hx
  range := hrange

end CSE130.Lab3.Files
