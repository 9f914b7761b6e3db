import CSE130.Lab3.Sharing

/-! # Files behave as byte arrays

The contents of an inode are the bytes before its end, each in the sector that `byte_to_sector`
gives for it.  `inode_read_at` reads a slice of them.  A write past the end of file exposes bytes
of sectors that were allocated before: these are zero (`Clean`), since a new sector is filled with
zeros and a write stops at the length it has just set. -/

namespace CSE130.Lab3.Files

open BlockTree Transition
open Function (update)

variable {st st' st₁ st₂ : State} {s t x : Sector} {i i' : Inode} {p : List ℕ}
  {m m' : Sector → Block} {d d' d₀ : InodeDisk} {buffer : ℕ → UInt8}

/-- The byte at a position of an inode. -/
def byteAt (m : Sector → Block) (d : InodeDisk) (pos : ℕ) : UInt8 :=
  m (byteToSector m d pos) (pos % 512)

/-- The bytes of an inode. -/
def contents (m : Sector → Block) (d : InodeDisk) : List UInt8 :=
  (List.range d.length).map (byteAt m d)

/-- The bytes `old`, extended with zeros as far as needed, with the first `size` bytes of `buffer`
laid over them at `offset`. -/
def laidOver (old : List UInt8) (buffer : ℕ → UInt8) (offset size : ℕ) : List UInt8 :=
  (List.range (max old.length (offset + size))).map fun pos =>
    if offset ≤ pos ∧ pos < offset + size then buffer (pos - offset) else old.getD pos 0

@[simp] theorem contents_length : (contents m d).length = d.length := by
  rw [contents, List.length_map, List.length_range]

/-! ### Reading -/

theorem byteAt_add {offset k : ℕ} (hk : k < 512 - offset % 512) (hl : offset + k < d.length) :
    byteAt m d (offset + k) = m (byteToSector m d offset) (offset % 512 + k) := by
  have hdiv : (offset + k) / 512 = offset / 512 := by omega
  have hmod : (offset + k) % 512 = offset % 512 + k := by omega
  unfold byteAt byteToSector
  rw [if_pos ⟨by omega, by omega⟩, if_pos ⟨by omega, by omega⟩, Int.toNat_natCast, Int.toNat_natCast,
    hdiv, hmod]

theorem readLoop_eq : ∀ (fuel : ℕ) (size : ℤ) (offset : ℕ), size ≤ fuel →
    readLoop m d true fuel size offset =
      (List.range (min size.toNat (d.length - offset))).map fun k => byteAt m d (offset + k)
  | 0, size, offset, hf => by
      rw [show min size.toNat (d.length - offset) = 0 by omega]
      rfl
  | fuel + 1, size, offset, hf => by
      unfold readLoop
      dsimp only
      have hc := chunkSize_le d.length size offset
      have hcd : chunkSize d.length size offset =
        min size (min ((d.length : ℤ) - offset) (512 - offset % 512 : ℕ)) := rfl
      by_cases hstop : size ≤ 0 ∨ chunkSize d.length size offset ≤ 0
      · rw [if_pos hstop, show min size.toNat (d.length - offset) = 0 by omega]
        rfl
      · rw [if_neg hstop, if_pos (.inr rfl)]
        obtain ⟨c, hcc⟩ : ∃ c : ℕ, chunkSize d.length size offset = c :=
          ⟨(chunkSize d.length size offset).toNat, by omega⟩
        rw [hcc] at hc hcd hstop ⊢
        rw [Int.toNat_natCast, readLoop_eq fuel (size - c) (offset + c) (by omega),
          show min size.toNat (d.length - offset) =
            c + min (size - c).toNat (d.length - (offset + c)) by omega,
          List.range_add, List.map_append, List.map_map]
        congr 1
        · refine List.map_congr_left fun k hk => ?_
          have hk := List.mem_range.mp hk
          exact (byteAt_add (by omega) (by omega)).symm
        · refine List.map_congr_left fun k _ => ?_
          rw [Function.comp_apply, Nat.add_assoc]

/-- `inode_read_at` reads exactly the bytes that are there before the end of file. -/
theorem inodeReadAt_eq (st : State) (i : Inode) (size : ℤ) (offset : ℕ) :
    (st.call fun _ => true).inodeReadAt i size offset =
      ((contents st.disk i.data).drop offset).take size.toNat := by
  change readLoop st.disk i.data true size.toNat size offset = _
  rw [readLoop_eq size.toNat size offset (by omega)]
  apply List.ext_getElem
  · rw [List.length_map, List.length_range, List.length_take, List.length_drop, contents_length]
  · intro k _ _
    rw [List.getElem_map, List.getElem_range, List.getElem_take, List.getElem_drop]
    simp only [contents, List.getElem_map, List.getElem_range]

/-! ### Writing -/

theorem leafPath_inj : ∀ {k t u : ℕ}, t < 128 ^ k → u < 128 ^ k → leafPath k t = leafPath k u → t = u
  | 0, t, u, ht, hu, _ => by omega
  | k + 1, t, u, _, _, h => by
      have hpow : 0 < 128 ^ k := Nat.pow_pos (by omega)
      obtain ⟨hdiv, hrest⟩ := List.cons.inj h
      have hmod := leafPath_inj (Nat.mod_lt t hpow) (Nat.mod_lt u hpow) hrest
      rw [← Nat.div_add_mod t (128 ^ k), ← Nat.div_add_mod u (128 ^ k), hdiv, hmod]

theorem filePath_inj {j k : ℕ} (hj : j < 16635) (hk : k < 16635) (h : filePath j = filePath k) :
    j = k := by
  unfold filePath at h
  split_ifs at h
  · exact (List.cons.inj h).1
  · cases (congrArg List.length h)
  · cases (congrArg List.length h)
  · cases (congrArg List.length h)
  · have := leafPath_inj (by omega) (by omega) (List.cons.inj h).2
    omega
  · cases (List.cons.inj h).1
  · cases (congrArg List.length h)
  · cases (List.cons.inj h).1
  · have := leafPath_inj (by omega) (by omega) (List.cons.inj h).2
    omega

theorem owned_update (hs : Sole (Owned m d)) (hp : IsLeaf levelOf p) (hx : Owned m d p x) (b : Block) :
    Owned (update m x b) d = Owned m d := by
  have hindex : ∀ q y, Owned m d q y → ¬IsLeaf levelOf q → update m x b y = m y := fun q y hq hl =>
    Function.update_of_ne (fun h => hl (by rw [hs q p x (h ▸ hq) hx]; exact hp)) ..
  funext q y
  exact propext ⟨Forest.congr_symm hindex, Forest.congr hindex⟩

/-- From `m` to `m'` the bytes `done` to `n` of the buffer are laid over the file at `offset`, and
the others have not changed, also those behind the end of file. -/
def Lays (buffer : ℕ → UInt8) (d : InodeDisk) (offset done n : ℕ) (m m' : Sector → Block) : Prop :=
  ∀ j x b, j < 16635 → Owned m d (filePath j) x → b < 512 →
    m' x b = if offset ≤ 512 * j + b ∧ 512 * j + b < offset + (n - done) then
      buffer (done + (512 * j + b - offset)) else m x b

theorem Lays.refl {offset n : ℕ} : Lays buffer d offset n n m m := by
  intro j x b _ _ _
  rw [if_neg (by omega)]

/-- The sector at `offset` is written, and then the rest. -/
theorem Lays.step {offset done n c : ℕ} {blk : Block} (hc : Complete m d) (hs : Sole (Owned m d))
    (hcs : c ≤ 512 - offset % 512) (hpos : 0 < c) (hl : offset + c ≤ d.length) (hn : done + c ≤ n)
    (hblk : ∀ b, b < 512 → blk b = if offset % 512 ≤ b ∧ b < offset % 512 + c then
      buffer (done + (b - offset % 512)) else m (byteToSector m d offset) b)
    (h : Lays buffer d (offset + c) (done + c) n (update m (byteToSector m d offset) blk) m') :
    Lays buffer d offset done n m m' := by
  obtain ⟨y, hy, hb⟩ := hc.sector (show offset < d.length by omega)
  rw [hb] at h hblk
  intro j x b hj hx hlt
  have hrest := h j x b hj (by rw [owned_update hs (isLeaf_filePath _) hy]; exact hx) hlt
  rw [hrest]
  have hsmall := hc.small
  unfold bytesToSectors at hsmall
  by_cases hjo : j = offset / 512
  · subst hjo
    obtain rfl := Forest.unique hy hx
    rw [Function.update_self, hblk b hlt]
    have hdiv := Nat.div_add_mod offset 512
    by_cases hlate : offset + c ≤ 512 * (offset / 512) + b ∧ 512 * (offset / 512) + b < offset + (n - done)
    · rw [if_pos (by omega), if_pos (by omega)]
      congr 1
      omega
    · rw [if_neg (by omega)]
      by_cases hin : offset % 512 ≤ b ∧ b < offset % 512 + c
      · rw [if_pos hin, if_pos (by omega)]
        congr 1
        omega
      · rw [if_neg hin, if_neg (by omega)]
  · have hne : x ≠ y := fun hxy => by
      have hpath := hs _ _ x hx (hxy ▸ hy)
      exact hjo (filePath_inj hj (by omega) hpath)
    rw [Function.update_of_ne hne]
    have hdiv := Nat.div_add_mod offset 512
    by_cases hlate : offset + c ≤ 512 * j + b ∧ 512 * j + b < offset + c + (n - (done + c))
    · rw [if_pos hlate, if_pos (by omega)]
      congr 1
      omega
    · rw [if_neg hlate, if_neg (by omega)]

/-- The loop of `inode_write_at` lays the bytes it counts, and stops at the end of file. -/
theorem writeLoop_lays {bounce : Bool} : ∀ (fuel : ℕ) (m : Sector → Block) (size : ℤ)
    (offset done : ℕ) {m' : Sector → Block} {n : ℕ}, Complete m d → Sole (Owned m d) →
    writeLoop d bounce buffer fuel m size offset done = (m', n) →
    done ≤ n ∧ (n : ℤ) ≤ done + max size 0 ∧ (done < n → offset + (n - done) ≤ d.length) ∧
      Lays buffer d offset done n m m'
  | 0, m, size, offset, done, m', n, _, _, h => by
      cases h
      exact ⟨Nat.le_refl _, by omega, fun h => absurd h (Nat.lt_irrefl _), .refl⟩
  | fuel + 1, m, size, offset, done, m', n, hc, hs, h => by
      unfold writeLoop at h
      dsimp only at h
      by_cases hstop : size ≤ 0 ∨ chunkSize d.length size offset ≤ 0
      · rw [if_pos hstop] at h
        cases h
        exact ⟨Nat.le_refl _, by omega, fun h => absurd h (Nat.lt_irrefl _), .refl⟩
      rw [if_neg hstop] at h
      obtain ⟨c, hcc⟩ : ∃ c : ℕ, chunkSize d.length size offset = c :=
        ⟨(chunkSize d.length size offset).toNat, by omega⟩
      have hle := chunkSize_le d.length size offset
      rw [hcc] at h hstop hle
      rw [Int.toNat_natCast] at h
      -- the sector at `offset` gets the bytes `done` to `done + c`
      have hnext : ∀ blk : Block, (∀ b, b < 512 → blk b =
            if offset % 512 ≤ b ∧ b < offset % 512 + c then buffer (done + (b - offset % 512))
            else m (byteToSector m d offset) b) →
          writeLoop d bounce buffer fuel (update m (byteToSector m d offset) blk) (size - c)
            (offset + c) (done + c) = (m', n) →
          done ≤ n ∧ (n : ℤ) ≤ done + max size 0 ∧ (done < n → offset + (n - done) ≤ d.length) ∧
            Lays buffer d offset done n m m' := by
        intro blk hblk h
        obtain ⟨y, hy, hb⟩ := hc.sector (show offset < d.length by omega)
        have howned := owned_update hs (isLeaf_filePath _) hy blk
        rw [← hb] at howned
        obtain ⟨hn, hmax, hend, hlays⟩ := writeLoop_lays fuel _ _ _ _
          ⟨hc.small, by rw [howned]; exact hc.place⟩ (by rw [howned]; exact hs) h
        exact ⟨by omega, by omega, fun _ => by omega,
          hlays.step hc hs (by omega) (by omega) (by omega) hn hblk⟩
      split_ifs at h with hfull hbounce hold
      · refine hnext _ (fun b hb => ?_) h
        rw [if_pos (by omega), hfull.1, Nat.sub_zero]
      · exact hnext _ (fun b hb => rfl) h
      · -- a sector is written without being read only when all of it is written
        omega
      · cases h
        exact ⟨Nat.le_refl _, by omega, fun h => absurd h (Nat.lt_irrefl _), .refl⟩

/-! ### The bytes of one inode -/

theorem byteAt_owned {pos : ℕ} (hc : Complete m d) (hpos : pos < d.length)
    (hx : Owned m d (filePath (pos / 512)) x) : byteAt m d pos = m x (pos % 512) := by
  obtain ⟨y, hy, hb⟩ := hc.sector hpos
  obtain rfl := Forest.unique hy hx
  rw [byteAt, hb]

theorem contents_getD {pos : ℕ} : (contents m d).getD pos 0 = if pos < d.length then byteAt m d pos else 0 := by
  rw [List.getD_eq_getElem?_getD]
  split_ifs with h
  · rw [List.getElem?_eq_getElem (by rw [contents_length]; exact h), Option.getD_some]
    simp only [contents, List.getElem_map, List.getElem_range]
  · rw [List.getElem?_eq_none (by rw [contents_length]; omega), Option.getD_none]

theorem Local.contents_eq (hl : Local s st st') (h : Inv st) (ht : t ≠ s) (h0 : t ≠ 0)
    (hlive : st.live t = true) :
    contents st'.disk (st'.dataOf t) = contents st.disk (st.dataOf t) := by
  rw [hl.dataOf_eq h ht hlive]
  refine List.map_congr_left fun pos hpos => ?_
  have hpos := List.mem_range.mp hpos
  have hc := h.complete t hlive
  obtain ⟨x, hx, -⟩ := hc.sector hpos
  rw [byteAt_owned hc hpos hx, byteAt_owned (hc.congr fun y ⟨q, hq, hy⟩ => hl.index_eq h ht hlive q y hy hq)
    hpos ((hl.owned_iff h ht hlive).mpr hx), hl.disk_eq h ht ⟨hlive, .inr hx⟩ (.inl h0)]

/-- The bytes behind the end of file are zero. -/
def ZeroBehind (m : Sector → Block) (d : InodeDisk) : Prop :=
  ∀ j x b, j < 16635 → Owned m d (filePath j) x → b < 512 → d.length ≤ 512 * j + b → m x b = 0

theorem ZeroBehind.of_sub (hz : ZeroBehind m d) (hsub : ∀ p x, Owned m d' p x → Owned m d p x)
    (hl : d'.length = d.length) : ZeroBehind m d' := by
  intro j x b hj hx hb hlt
  exact hz j x b hj (hsub _ x hx) hb (hl ▸ hlt)

theorem Local.zeroBehind (hl : Local s st st') (h : Inv st) (ht : t ≠ s) (h0 : t ≠ 0)
    (hlive : st.live t = true) (hz : ZeroBehind st.disk (st.dataOf t)) :
    ZeroBehind st'.disk (st'.dataOf t) := by
  rw [hl.dataOf_eq h ht hlive]
  intro j x b hj hx hb hlt
  have hx := (hl.owned_iff h ht hlive).mp hx
  rw [hl.disk_eq h ht ⟨hlive, .inr hx⟩ (.inl h0)]
  exact hz j x b hj hx hb hlt

/-! ### A write -/

/-- A data sector after the extension is an old one, or is filled with zeros. -/
theorem Extended.leaf {ok : Bool} {j : ℕ} (hx : Extended st s i ok i' st') (h : Inv st) (h0 : s ≠ 0)
    (hi : st.openInodes s = some i) (hj : Owned st'.disk i'.data (filePath j) x) :
    Owned st.disk i.data (filePath j) x ∧ st'.disk x = st.disk x ∨ st'.disk x = zeros ∧
      ∀ y, ¬Owned st.disk i.data (filePath j) y := by
  have hs := h.opened s i hi
  by_cases hu : st.Used x
  · have hold := (hx.grows.source _ x hj).resolve_right fun hn => hn.1 hu
    have howns : st.Owns s (filePath j) x := ⟨hs, .inr (by rw [dataOf_open hi]; exact hold)⟩
    refine .inl ⟨hold, hx.grows.disk x hu (fun hk => ?_) hold.ne_zero fun p hp => ?_⟩
    · rcases Set.mem_insert_iff.mp hk with rfl | hk
      · obtain ⟨-, hp⟩ := h.sole x _ x x [] howns (owns_self hs)
        rw [hp] at hold
        exact hold
      · exact h.apart_freeMap h0 howns (.inl hk)
    · obtain ⟨-, rfl⟩ := h.sole s _ x s p howns ⟨hs, .inr (by rw [dataOf_open hi]; exact hp)⟩
      exact isLeaf_filePath j
  · refine .inr ⟨hx.grows.blank _ x hj (isLeaf_filePath j) hu, fun y hy => hu ?_⟩
    obtain rfl := Forest.unique hj (hx.grows.keep _ y hy)
    exact h.used s _ x ⟨hs, .inr (by rw [dataOf_open hi]; exact hy)⟩

/-- The bytes of the data sectors after the extension: the old ones, with zeros behind. -/
theorem Extended.byte {ok : Bool} {j b : ℕ} (hx : Extended st s i ok i' st') (h : Inv st)
    (h0 : s ≠ 0) (hi : st.openInodes s = some i) (hz : ZeroBehind st.disk i.data) (hj : j < 16635)
    (hp : Owned st'.disk i'.data (filePath j) x) (hb : b < 512) :
    st'.disk x b = (contents st.disk i.data).getD (512 * j + b) 0 := by
  have hc := h.complete s (h.opened s i hi)
  rw [dataOf_open hi] at hc
  rw [contents_getD]
  rcases hx.leaf h h0 hi hp with ⟨hold, hdisk⟩ | ⟨hdisk, hnone⟩
  · rw [hdisk]
    split_ifs with hlt
    · have hdiv : (512 * j + b) / 512 = j := by omega
      have hmod : (512 * j + b) % 512 = b := by omega
      rw [byteAt_owned hc hlt (x := x) (by rw [hdiv]; exact hold), hmod]
    · exact hz j x b hj hold hb (not_lt.mp hlt)
  · rw [hdisk, if_neg]
    · rfl
    · intro hlt
      obtain ⟨y, hy, -⟩ := hc.sector hlt
      rw [show (512 * j + b) / 512 = j by omega] at hy
      exact hnone y hy

theorem Inv.opened_data (h : Inv st) (hi : st.openInodes s = some i) :
    Complete st.disk i.data ∧ Sole (Owned st.disk i.data) := by
  have hs := h.opened s i hi
  have hc := h.complete s hs
  rw [dataOf_open hi] at hc
  refine ⟨hc, fun p q x hp hq => ?_⟩
  rw [← dataOf_open hi] at hp hq
  exact (h.sole s p x s q ⟨hs, .inr hp⟩ ⟨hs, .inr hq⟩).2

/-- The first `n` bytes of the buffer have been written at `offset`. -/
structure Written (buffer : ℕ → UInt8) (offset n : ℕ) (m : Sector → Block) (d : InodeDisk)
    (m' : Sector → Block) (d' : InodeDisk) : Prop where
  byte : ∀ j x b, j < 16635 → Owned m' d' (filePath j) x → b < 512 →
    m' x b = if offset ≤ 512 * j + b ∧ 512 * j + b < offset + n then buffer (512 * j + b - offset)
      else (contents m d).getD (512 * j + b) 0
  grown : d.length ≤ d'.length
  inside : 0 < n → offset + n ≤ d'.length

theorem Written.zeroBehind {offset n : ℕ} (hw : Written buffer offset n m d m' d') :
    ZeroBehind m' d' := by
  intro j x b hj hx hb hlt
  have hin := hw.inside
  have hle := hw.grown
  rw [hw.byte j x b hj hx hb, if_neg (by omega), contents_getD, if_neg (by omega)]

theorem Written.contents_eq {offset n : ℕ} (hw : Written buffer offset n m d m' d')
    (hc : Complete m' d') (hl : d'.length = max d.length (offset + n)) :
    contents m' d' = laidOver (contents m d) buffer offset n := by
  unfold laidOver
  rw [contents_length, ← hl]
  refine List.map_congr_left fun pos hpos => ?_
  have hpos := List.mem_range.mp hpos
  have hsmall := hc.small
  unfold bytesToSectors at hsmall
  obtain ⟨x, hx, -⟩ := hc.sector hpos
  rw [byteAt_owned hc hpos hx, hw.byte _ x _ (by omega) hx (Nat.mod_lt pos (by omega)),
    Nat.div_add_mod]

theorem inodeWriteAt_written {size : ℤ} {offset n : ℕ} (h : Inv st) (h0 : s ≠ 0)
    (hi : st.openInodes s = some i) (hz : ZeroBehind st.disk i.data)
    (hcov : Covered (offT (offset + size)) st.heap) (hpos : 1 ≤ size) (hsize : offT size = size)
    (hoffset : offT offset = offset)
    (hw : st.inodeWriteAt s buffer size offset = some (n, st')) :
    ∃ i', st'.openInodes s = some i' ∧ Written buffer offset n st.disk i.data st'.disk i'.data ∧
      (n : ℤ) ≤ size ∧ ((n : ℤ) = size → i'.data.length = max i.data.length (offset + n)) := by
  have hold : ∀ {i' : Inode} {st₁ : State} {ok : Bool}, Extended st s i ok i' st₁ →
      i.data.length ≤ i'.data.length → Written buffer offset 0 st.disk i.data st₁.disk i'.data :=
    fun hx hl =>
      { byte := fun j x b hj hp hb => by
          rw [if_neg (by omega)]
          exact hx.byte h h0 hi hz hj hp hb
        grown := hl
        inside := fun hn => absurd hn (Nat.lt_irrefl 0) }
  rcases inodeWriteAt_cases hi hw with ⟨rfl, rfl, -⟩ | ⟨-, ok, i', st₁, he, hcase⟩
  · have hx : Extended _ s i true i _ := .refl h hi
    exact ⟨i, hi, hold hx (Nat.le_refl _), by omega, fun hn => by omega⟩
  have hx := inodeExtend_extended h h0 hi hcov he
  rcases hcase with ⟨rfl, rfl, rfl⟩ | ⟨rfl, hn, hst⟩
  · exact ⟨i', hx.openInodes, hold hx (hx.failed rfl).ge, by omega, fun hn => by omega⟩
  have hgrown : i.data.length ≤ i'.data.length ∧ offset + size ≤ i'.data.length ∧
      (i'.data.length : ℤ) ≤ max (i.data.length : ℤ) (offset + size) := by
    rcases inodeExtend_length h hi hpos hsize hoffset he with ⟨rfl, -, hl⟩ | ⟨hl, hl'⟩
    · omega
    · omega
  obtain ⟨hc, hsole⟩ := hx.inv.opened_data hx.openInodes
  have hin : Inside s i' st₁ st' := by
    rw [hst]
    exact writeLoop_inside hx.inv hx.openInodes
  rcases hloop : writeLoop i'.data (st₁.heap 0) buffer size.toNat st₁.disk size offset 0 with ⟨m', n'⟩
  rw [hloop] at hn hst
  dsimp only at hn hst
  subst hn
  obtain ⟨-, hmax, -, hlays⟩ := writeLoop_lays size.toNat st₁.disk size offset 0 hc hsole hloop
  have hdisk : st'.disk = m' := by
    rw [hst]
  refine ⟨i', by rw [hin.openInodes, hx.openInodes], ⟨fun j x b hj hp hb => ?_, hgrown.1, fun _ => ?_⟩,
    by omega, fun hn => ?_⟩
  · have hp := (hin.owned_iff hx.inv hx.openInodes).mp hp
    rw [hdisk, hlays j x b hj hp hb, Nat.sub_zero, hx.byte h h0 hi hz hj hp hb, Nat.zero_add]
  · omega
  · omega

/-! ### The bytes behind the end of file, in all runs -/

/-- In every file the bytes behind the end are zero. -/
def Clean (st : State) : Prop :=
  ∀ s, st.live s = true → s ≠ 0 → ZeroBehind st.disk (st.dataOf s)

/-- A write is of at least one byte. -/
def Positive (a : Action) : Prop :=
  ∀ s buffer size offset, a = .write s buffer size offset → 1 ≤ size

theorem Created.zeroBehind (hc : Created s st st') : ZeroBehind st'.disk (st'.dataOf s) := by
  intro j x b _ hx _ _
  rw [hc.blank x ⟨_, isLeaf_filePath j, hx⟩]
  rfl

theorem zeroBehind_recount (hi : st.openInodes s = some i) (hd : i'.data = i.data)
    (hz : ZeroBehind st.disk (st.dataOf s)) :
    ZeroBehind (st.setInode s (some i')).disk ((st.setInode s (some i')).dataOf s) := by
  rw [dataOf_setInode, hd, ← dataOf_open hi]
  exact hz

theorem inodeOpen_zeroBehind (hz : ZeroBehind st.disk (st.dataOf s)) :
    ZeroBehind (st.inodeOpen s).2.disk ((st.inodeOpen s).2.dataOf s) := by
  rcases inodeOpen_cases st s with ⟨i, hi, he⟩ | ⟨ho, he | he⟩
  · rw [he]
    exact zeroBehind_recount hi rfl hz
  · rw [he]
    exact hz
  · rw [he, dataOf_setInode]
    rw [dataOf_closed ho] at hz
    exact hz

theorem inodeClose_zeroBehind (h : Inv st) (h0 : s ≠ 0) (hz : ZeroBehind st.disk (st.dataOf s))
    (hc : st.inodeClose s = some st') (hlive : st'.live s = true) :
    ZeroBehind st'.disk (st'.dataOf s) := by
  rcases inodeClose_cases h h0 hc with ⟨i, -, -, hl, -⟩ | ⟨i, hi, rfl⟩ | ⟨i, i', hi, rfl, hd⟩
  · rw [hl, Function.update_self] at hlive
    cases hlive
  · have holder := h.older s i hi h0
    rw [dataOf_setInode_none]
    rw [dataOf_open hi] at hz
    exact hz.of_sub (fun p x hx => holder.owned hx) holder.length
  · exact zeroBehind_recount hi hd hz

/-- One operation on the inode keeps its bytes behind the end of file zero. -/
theorem act_zeroBehind {a : Action} (h : Inv st) (hg : Sound st (a, st.heap)) (hp : Positive a)
    (ha : a.inode = some s) (h0 : s ≠ 0) (hz : ZeroBehind st.disk (st.dataOf s))
    (hs : act a st = some st') (hlive : st'.live s = true) : ZeroBehind st'.disk (st'.dataOf s) := by
  cases (act_acts ha hs).2 with
  | opened => exact inodeOpen_zeroBehind hz
  | written hi hsize hoffset hw =>
      rw [dataOf_open hi] at hz
      obtain ⟨i', hi', hwritten, -⟩ := inodeWriteAt_written h h0 hi hz hg (hp s _ _ _ rfl) hsize hoffset hw
      rw [dataOf_open hi']
      exact hwritten.zeroBehind
  | closed hc => exact inodeClose_zeroBehind h h0 hz hc hlive
  | recounted hi hd => exact zeroBehind_recount hi hd hz

theorem Clean.act {a : Action} (hz : Clean st) (h : Inv st) (hg : Sound st (a, st.heap))
    (hp : Positive a) (hs : act a st = some st') : Clean st' := by
  intro t ht h0
  obtain ⟨-, u, hloc, hu⟩ := act_local h hg hs
  by_cases htu : t = u
  · subst htu
    by_cases hold : st.live t = true
    · exact act_zeroBehind h hg hp (hu.resolve_right fun hn => by simp [hold] at hn) h0 (hz t hold h0) hs ht
    · exact (act_created h hg hs (Bool.not_eq_true _ ▸ hold) ht).zeroBehind
  · rw [hloc.live t htu] at ht
    exact hloc.zeroBehind h htu h0 ht (hz t ht h0)

theorem Clean.step {a : Action × (ℕ → Bool)} (hz : Clean st) (h : Inv st) (hg : Sound st a)
    (hp : Positive a.1) (hs : Files.step a st = some st') : Clean st' :=
  have hz' : Clean (st.call a.2) := hz
  hz'.act h.call hg hp hs

theorem clean_format {disk : Sector → Block} {size : Sector} {heap : ℕ → Bool}
    (hf : State.format disk size heap = some st) : Clean st := by
  obtain ⟨st₁, -, -, hc, hlive, -⟩ := format_created hf
  intro s hs h0
  by_cases h1 : s = 1
  · subst h1
    exact hc.zeroBehind
  · rw [hc.live, Function.update_of_ne h1, hlive s h0] at hs
    cases hs

/-! ### Every write -/

theorem inodeExtend_total {size : ℤ} {offset : ℕ} (h : Inv st) (h0 : s ≠ 0)
    (hi : st.openInodes s = some i) (hcov : Covered (offT (offset + size)) st.heap)
    (hpos : 1 ≤ size) (hmax : offset + size ≤ 16635 * 512) :
    ∃ ok i' st', st.inodeExtend s i size offset = some (ok, i', st') ∧
      (ok = false → st'.allocFailed = true) := by
  unfold State.inodeExtend
  split_ifs with hb
  · have hplaced := h.placed h0 (h.opened s i hi)
    rw [dataOf_open hi] at hplaced
    have hoff := offT_of_lt (x := offset + size) (by omega) (by omega)
    obtain ⟨ok, d, st', hr, -, -, hres⟩ := inodeReserve_cases h.ground hplaced (hcov.settled id)
      (by omega)
    have hsmall : bytesToSectors (offT (offset + size)).toNat ≤ 16635 := by
      rw [hoff]
      unfold bytesToSectors
      omega
    rw [if_neg fun hbig => absurd hbig.2 (not_lt.mpr hsmall)] at hres
    simp only [hres, Option.bind_eq_bind, Option.bind_some]
    cases ok with
    | false => exact ⟨false, _, _, rfl, fun _ => hr.failed rfl⟩
    | true => exact ⟨true, _, _, rfl, nofun⟩
  · exact ⟨true, i, st, rfl, nofun⟩

/-- The extension makes room for all of a write, so the loop stops early only where it gets no
bounce buffer. -/
theorem inodeExtend_writes {size : ℤ} {offset : ℕ} (h : Inv st) (hi : st.openInodes s = some i)
    (hpos : 1 ≤ size) (hsize : offT size = size) (hoffset : offT offset = offset)
    (he : st.inodeExtend s i size offset = some (true, i', st'))
    (hb : (needsBounce i'.data size.toNat size offset && !st'.heap 0) = false) :
    ((writeLoop i'.data (st'.heap 0) buffer size.toNat st'.disk size offset 0).2 : ℤ) = size := by
  have hlen : offset + size ≤ i'.data.length := by
    rcases inodeExtend_length h hi hpos hsize hoffset he with ⟨rfl, -, hl⟩ | ⟨-, hl⟩
    · exact hl
    · exact hl.ge
  have hall : ((writeLoop i'.data (st'.heap 0) buffer size.toNat st'.disk size offset 0).2 : ℤ) = (0 : ℕ) + size :=
    writeLoop_whole hb (by omega) (by omega) hlen
  omega

/-- `inode_write_at` returns, and writes everything when no allocation fails. -/
theorem inodeWriteAt_total (buffer : ℕ → UInt8) {size : ℤ} {offset : ℕ} (h : Inv st) (h0 : s ≠ 0)
    (hi : st.openInodes s = some i) (hd : i.denyWriteCnt = 0)
    (hcov : Covered (offT (offset + size)) st.heap) (hpos : 1 ≤ size)
    (hmax : offset + size ≤ 16635 * 512) : ∃ n st',
      st.inodeWriteAt s buffer size offset = some (n, st') ∧
        (st'.allocFailed = false → (n : ℤ) = size) := by
  obtain ⟨ok, i', st₁, he, hfailed⟩ := inodeExtend_total h h0 hi hcov hpos hmax
  unfold State.inodeWriteAt
  rw [hi]
  simp only [hd, ne_eq, not_true, if_false, he, Option.bind_eq_bind, Option.bind_some]
  cases ok with
  | false =>
      refine ⟨0, st₁, rfl, fun hf => ?_⟩
      rw [hfailed rfl] at hf
      cases hf
  | true =>
      refine ⟨_, _, rfl, fun hf => ?_⟩
      exact inodeExtend_writes h hi hpos (offT_of_lt (by omega) (by omega))
        (offT_of_lt (by omega) (by omega)) he (Bool.or_eq_false_iff.mp hf).2

/-- **Files are byte arrays**: in every run in which each write is of at least one byte, a write
on which nothing fails puts the buffer over the old contents, extended with zeros, and leaves the
other files alone; `inode_read_at` returns the bytes before the end of file. -/
theorem write_contents {disk : Sector → Block} {size : Sector} {heap : ℕ → Bool} {st₀ : State}
    (hf : State.format disk size heap = some st₀)
    (hr : Reachable step (fun st a => Sound st a ∧ Positive a.1) st₀ st) (h0 : s ≠ 0)
    (hi : st.openInodes s = some i) (hd : i.denyWriteCnt = 0) (buffer : ℕ → UInt8) (count : ℤ)
    (offset : ℕ) (hpos : 1 ≤ count) (hmax : offset + count ≤ 16635 * 512) :
    (∃ n st', (st.call fun _ => true).inodeWriteAt s buffer count offset = some (n, st') ∧
      (st'.allocFailed = false → (n : ℤ) = count ∧ ∃ i', st'.openInodes s = some i' ∧
        contents st'.disk i'.data = laidOver (contents st.disk i.data) buffer offset n) ∧
      ∀ t, t ≠ 0 → t ≠ s → st.live t = true →
        contents st'.disk (st'.dataOf t) = contents st.disk (st.dataOf t)) ∧
      ∀ (st : State) (i : Inode) (size : ℤ) (offset : ℕ),
        (st.call fun _ => true).inodeReadAt i size offset =
          ((contents st.disk i.data).drop offset).take size.toNat := by
  refine ⟨?_, inodeReadAt_eq⟩
  obtain ⟨hinv, hclean⟩ : Inv st ∧ Clean st := hr.invariant (I := fun st => Inv st ∧ Clean st)
    ⟨inv_format hf, clean_format hf⟩ fun _ _ _ _ h hg hs => ⟨h.1.step hg.1 hs, h.2.step h.1 hg.1 hg.2 hs⟩
  have h : Inv (st.call fun _ => true) := hinv.call
  have hcov : Covered (offT (offset + count)) (st.call fun _ => true).heap := .inr fun _ hk => hk
  have hz : ZeroBehind (st.call fun _ => true).disk i.data := by
    have hz := hclean s (hinv.opened s i hi) h0
    rw [dataOf_open hi] at hz
    exact hz
  obtain ⟨n, st', hw, hfull⟩ := inodeWriteAt_total buffer h h0 hi hd hcov hpos hmax
  obtain ⟨i', hi', hwritten, -, hlen⟩ := inodeWriteAt_written h h0 hi hz hcov hpos
    (offT_of_lt (by omega) (by omega)) (offT_of_lt (by omega) (by omega)) hw
  obtain ⟨hinv', hloc⟩ := inodeWriteAt_local h h0 hi hcov hw
  refine ⟨n, st', hw, fun hf => ?_, fun t ht hts hlive => hloc.contents_eq h hts ht hlive⟩
  have hn : (n : ℤ) = count := hfull hf
  exact ⟨hn, i', hi', hwritten.contents_eq (hinv'.opened_data hi').1 (hlen hn)⟩

/-- What is to be seen of a write of one byte to an empty file. -/
def firstWrite : Option (List ℕ × List Bool) := do
  let st₀ ← State.format (fun _ => zeros) 40 fun _ => true
  let st ← execute step [(.create 0 false true, fun _ => true), (.open 4, fun _ => true)] st₀
  let i ← st.openInodes 4
  let (n, st') ← (st.call fun _ => true).inodeWriteAt 4 (fun _ => 7) 1 2
  some ([n, i.denyWriteCnt, i.data.length, ((contents st.disk (st.dataOf 0)).getD 0 0).toNat,
    ((contents st'.disk (st'.dataOf 0)).getD 0 0).toNat], [st'.allocFailed, st.live 0])

theorem firstWrite_eq : firstWrite = some ([1, 0, 0, 31, 63], [false, true]) := by
  decide +kernel

theorem first_write : ∃ st₀ st i st', State.format (fun _ => zeros) 40 (fun _ => true) = some st₀ ∧
    Reachable step (fun st a => Sound st a ∧ Positive a.1) st₀ st ∧ st.openInodes 4 = some i ∧
    (st.call fun _ => true).inodeWriteAt 4 (fun _ => 7) 1 2 = some (1, st') ∧
    (i.denyWriteCnt = 0 ∧ i.data.length = 0 ∧ st'.allocFailed = false ∧ st.live 0 = true) ∧
    contents st'.disk (st'.dataOf 0) ≠ contents st.disk (st.dataOf 0) := by
  have h := firstWrite_eq
  unfold firstWrite at h
  simp only [Option.bind_eq_bind, Option.bind_eq_some_iff] at h
  obtain ⟨st₀, h₀, st, hrun, i, hi, ⟨n, st'⟩, hw, hfacts⟩ := h
  simp only [Option.some.injEq, Prod.mk.injEq, List.cons.injEq] at hfacts
  obtain ⟨⟨rfl, hdeny, hlen, hold, hnew, -⟩, hfailed, hlive, -⟩ := hfacts
  refine ⟨st₀, st, i, st', h₀, execute_reachable (fun st a ha => ?_) .refl hrun, hi, hw,
    ⟨hdeny, hlen, hfailed, hlive⟩, fun heq => ?_⟩
  · simp only [List.mem_cons, List.not_mem_nil, or_false] at ha
    rcases ha with rfl | rfl
    · exact ⟨.inl (by decide), by rintro _ _ _ _ ⟨⟩⟩
    · exact ⟨trivial, by rintro _ _ _ _ ⟨⟩⟩
  · rw [heq, hold] at hnew
    cases hnew

theorem write_contents_gap : ∃ st₀ st i st' i',
    State.format (fun _ => zeros) 40 (fun _ => true) = some st₀ ∧
    Reachable step (fun st a => Sound st a ∧ Positive a.1) st₀ st ∧ st.openInodes 4 = some i ∧
    (st.call fun _ => true).inodeWriteAt 4 (fun _ => 7) 1 2 = some (1, st') ∧
    st'.openInodes 4 = some i' ∧ contents st'.disk i'.data = [0, 0, 7] := by
  obtain ⟨st₀, st, i, st', h₀, hr, hi, hw, ⟨hdeny, hlen, hfailed, -⟩, -⟩ := first_write
  obtain ⟨⟨n, st₁, hw₁, hdone, -⟩, -⟩ := write_contents h₀ hr (by decide) hi hdeny (fun _ => 7)
    1 2 (by decide) (by decide)
  obtain ⟨rfl, rfl⟩ := Prod.mk.inj (Option.some.inj (hw.symm.trans hw₁))
  obtain ⟨-, i', hi', hc⟩ := hdone hfailed
  refine ⟨st₀, st, i, st', i', h₀, hr, hi, hw, hi', ?_⟩
  rw [hc, show contents st.disk i.data = [] from List.eq_nil_of_length_eq_zero (by
    rw [contents_length, hlen])]
  decide

/-- The file of the free map is the exception: its contents change when a write takes sectors. -/
theorem write_contents_freeMap : ∃ st₀ st i st',
    State.format (fun _ => zeros) 40 (fun _ => true) = some st₀ ∧
    Reachable step (fun st a => Sound st a ∧ Positive a.1) st₀ st ∧
    st.openInodes 4 = some i ∧ i.denyWriteCnt = 0 ∧
    (st.call fun _ => true).inodeWriteAt 4 (fun _ => 7) 1 2 = some (1, st') ∧
    st'.allocFailed = false ∧ st.live 0 = true ∧
    contents st'.disk (st'.dataOf 0) ≠ contents st.disk (st.dataOf 0) := by
  obtain ⟨st₀, st, i, st', h₀, hr, hi, hw, ⟨hdeny, -, hfailed, hlive⟩, hne⟩ := first_write
  exact ⟨st₀, st, i, st', h₀, hr, hi, hdeny, hw, hfailed, hlive, hne⟩

end CSE130.Lab3.Files
