import CSE130.Lab3.Reservation

/-! # Whether a write can shrink a file

`inode_write_at` looks for the end of file at `offset + size - 1`.  With a size of 0 at the offset 0
this is the position -1, which no sector holds, and the file is "extended" to the length 0.  A
write of at least one byte never shrinks a file; a write of no bytes leaves it alone only inside
the file, where it is refused, and where nothing can be reserved (`write_keeps`). -/

namespace CSE130.Lab3.Files

open BlockTree Traced
open Function (update)

variable {st st' st₁ : State} {s x : Sector} {i i' : Inode} {d : InodeDisk} {m : Sector → Block}
  {buffer : ℕ → UInt8} {size : ℤ} {offset n : ℕ}

/-- A write has not shrunk the file: the bytes outside the written range are the same, and a write
of no bytes has changed nothing. -/
structure Keeps (size : ℤ) (offset : ℕ) (st : State) (d : InodeDisk) (st' : State) (d' : InodeDisk) :
    Prop where
  length : d.length ≤ d'.length
  bytes : ∀ pos : ℕ, pos < d.length → ¬(offset ≤ pos ∧ (pos : ℤ) < offset + size) →
    byteAt st'.disk d' pos = byteAt st.disk d pos
  nothing : size = 0 → contents st'.disk d' = contents st.disk d ∧ st'.freeMap = st.freeMap

theorem keeps_congr {d' : InodeDisk} (hdisk : st'.disk = st₁.disk) (hmap : st'.freeMap = st₁.freeMap) :
    Keeps size offset st d st' d' ↔ Keeps size offset st d st₁ d' := by
  constructor
  · rintro ⟨hl, hb, hn⟩
    rw [hdisk] at hb hn
    rw [hmap] at hn
    exact ⟨hl, hb, hn⟩
  · rintro ⟨hl, hb, hn⟩
    rw [← hdisk] at hb hn
    rw [← hmap] at hn
    exact ⟨hl, hb, hn⟩

/-- The writes that keep the file, when `malloc` does not fail for an index block. -/
def Harmless (st : State) (i : Inode) (size : ℤ) (offset : ℕ) : Prop :=
  0 < size ∨ i.denyWriteCnt ≠ 0 ∨ 0 < offset ∧ offset ≤ i.data.length ∨
    offset = 0 ∧ i.data.length = 0 ∨
    i.data.length < offset ∧ inodeNeeded st.disk i.data offset ≠ [] ∧ ¬Room st 1

/-! ### The extension -/

theorem inodeExtend_inside (h : Inv st) (hi : st.openInodes s = some i) (hpos : 0 < offset + size)
    (hle : offset + size ≤ i.data.length) :
    st.inodeExtend s i size offset = some (true, i, st) := by
  have hc := h.complete s (h.opened s i hi)
  rw [dataOf_open hi] at hc
  have hsmall := hc.small
  unfold bytesToSectors at hsmall
  unfold State.inodeExtend
  rw [offT_of_lt (by omega) (by omega), if_neg]
  obtain ⟨pos, hp⟩ : ∃ pos : ℕ, (pos : ℤ) = offset + size - 1 := ⟨(offset + size - 1).toNat, by omega⟩
  rw [← hp]
  exact h.sector_ne hi (by omega)

theorem Extended.byteAt_eq {ok : Bool} {pos : ℕ} (hx : Extended st s i ok i' st') (h : Inv st)
    (h0 : s ≠ 0) (hi : st.openInodes s = some i) (hl : i.data.length ≤ i'.data.length)
    (hpos : pos < i.data.length) : byteAt st'.disk i'.data pos = byteAt st.disk i.data pos := by
  have hc := (h.opened_data hi).1
  obtain ⟨x, hx₁, -⟩ := hc.sector hpos
  have hx₂ := hx.grows.keep _ x hx₁
  rw [byteAt_owned hc hpos hx₁,
    byteAt_owned (hx.inv.opened_data hx.openInodes).1 (by omega) hx₂]
  rcases hx.leaf h h0 hi hx₂ with ⟨-, hdisk⟩ | ⟨-, hnone⟩
  · rw [hdisk]
  · exact absurd hx₁ (hnone x)

theorem Extended.contents_eq {ok : Bool} (hx : Extended st s i ok i' st') (h : Inv st) (h0 : s ≠ 0)
    (hi : st.openInodes s = some i) (hl : i'.data.length = i.data.length) :
    contents st'.disk i'.data = contents st.disk i.data := by
  unfold contents
  rw [hl]
  exact List.map_congr_left fun pos hpos => hx.byteAt_eq h h0 hi hl.ge (List.mem_range.mp hpos)

theorem writeLoop_keeps {bounce : Bool} {fuel pos : ℕ} (h : Inv st) (hi : st.openInodes s = some i)
    (hpos : pos < i.data.length) (hout : ¬(offset ≤ pos ∧ (pos : ℤ) < offset + size)) :
    byteAt (writeLoop i.data bounce buffer fuel st.disk size offset 0).1 i.data pos =
      byteAt st.disk i.data pos := by
  obtain ⟨hc, hsole⟩ := h.opened_data hi
  obtain ⟨x, hx, -⟩ := hc.sector hpos
  have hsmall := hc.small
  unfold bytesToSectors at hsmall
  have hin : Inside s i st { st with
      disk := (writeLoop i.data bounce buffer fuel st.disk size offset 0).1 } := writeLoop_inside h hi
  have hc' : Complete (writeLoop i.data bounce buffer fuel st.disk size offset 0).1 i.data :=
    ⟨hc.small, fun j hj => (hc.place j hj).imp fun y hy => (hin.owned_iff h hi).mpr hy⟩
  have hx' := (hin.owned_iff h hi).mpr hx
  rw [byteAt_owned hc hpos hx, byteAt_owned hc' hpos hx']
  obtain ⟨-, hmax, -, hlays⟩ := writeLoop_lays fuel st.disk size offset 0 hc hsole
    (Prod.mk.eta (p := writeLoop i.data bounce buffer fuel st.disk size offset 0)).symm
  rw [hlays _ x _ (by omega) hx (Nat.mod_lt pos (by omega)), Nat.div_add_mod, if_neg (by omega)]

/-! ### A write of some bytes -/

theorem inodeWriteAt_keeps (h : Inv st) (hi : st.openInodes s = some i)
    (hu : i.data.length < offset + size → s ≠ 0 ∧ Unspoiled st i.data (offT (offset + size)))
    (hpos : 0 < size) (hsize : offT size = size) (hoffset : offT offset = offset)
    (hw : st.inodeWriteAt s buffer size offset = some (n, st')) :
    ∃ i', st'.openInodes s = some i' ∧ Keeps size offset st i.data st' i'.data := by
  have hne : size ≠ 0 := by omega
  rcases inodeWriteAt_cases hi hw with ⟨-, rfl, -⟩ | ⟨-, ok, i', st₁, he, hcase⟩
  · exact ⟨i, hi, Nat.le_refl _, fun _ _ _ => rfl, fun h => absurd h hne⟩
  -- what the extension leaves behind
  have hext : Inv st₁ ∧ st₁.openInodes s = some i' ∧ i.data.length ≤ i'.data.length ∧
      ∀ pos, pos < i.data.length → byteAt st₁.disk i'.data pos = byteAt st.disk i.data pos := by
    by_cases hin : offset + size ≤ i.data.length
    · rw [inodeExtend_inside h hi (by omega) hin] at he
      cases he
      exact ⟨h, hi, Nat.le_refl _, fun _ _ => rfl⟩
    · obtain ⟨h0, hu⟩ := hu (not_le.mp hin)
      have hx := inodeExtend_unspoiled h h0 hi hu he
      have hl : i.data.length ≤ i'.data.length := by
        cases ok with
        | false => exact (hx.failed rfl).ge
        | true =>
            rcases inodeExtend_length h hi (by omega) hsize hoffset he with ⟨rfl, -⟩ | ⟨hl, hl'⟩
            · exact Nat.le_refl _
            · omega
      exact ⟨hx.inv, hx.openInodes, hl, fun pos hpos => hx.byteAt_eq h h0 hi hl hpos⟩
  obtain ⟨hinv, hi', hl, hbytes⟩ := hext
  rcases hcase with ⟨-, -, rfl⟩ | ⟨-, -, rfl⟩
  · exact ⟨i', hi', hl, fun pos hp _ => hbytes pos hp, fun h => absurd h hne⟩
  · refine ⟨i', hi', hl, fun pos hp hout => ?_, fun h => absurd h hne⟩
    exact (writeLoop_keeps hinv hi' (by omega) hout).trans (hbytes pos hp)

/-! ### A write of no bytes -/

theorem inodeWriteAt_zero (hi : st.openInodes s = some i) (hd : i.denyWriteCnt = 0)
    (hw : st.inodeWriteAt s buffer 0 offset = some (n, st')) :
    ∃ ok i' st₁, st.inodeExtend s i 0 offset = some (ok, i', st₁) ∧ st'.disk = st₁.disk ∧
      st'.freeMap = st₁.freeMap ∧ st'.openInodes = st₁.openInodes := by
  rcases inodeWriteAt_cases hi hw with ⟨-, -, hne⟩ | ⟨-, ok, i', st₁, he, hcase⟩
  · exact absurd hd hne
  · rcases hcase with ⟨-, -, rfl⟩ | ⟨-, -, rfl⟩
    · exact ⟨ok, i', st', he, rfl, rfl, rfl⟩
    · exact ⟨ok, i', st₁, he, rfl, rfl, rfl⟩

theorem inodeExtend_start (st : State) (s : Sector) (i : Inode) :
    ∃ st₁, st.inodeExtend s i 0 0 = some (true, { i with data := { i.data with length := 0 } }, st₁) ∧
      st₁.freeMap = st.freeMap ∧
      st₁.openInodes s = some { i with data := { i.data with length := 0 } } := by
  have hb : byteToSector st.disk i.data (offT ((0 : ℕ) + 0 - 1)) = noSector :=
    if_neg fun h => absurd h.1 (by decide)
  refine ⟨(st.setInode s (some { i with data := { i.data with length := 0 } })).write s
    (InodeDisk.toBlock { i.data with length := 0 }), ?_, rfl, Function.update_self ..⟩
  unfold State.inodeExtend
  rw [if_pos hb]
  rfl

theorem inodeExtend_behind {ok : Bool} (hl : i.data.length < offset) (hoffset : offT offset = offset)
    (he : st.inodeExtend s i 0 offset = some (ok, i', st₁)) :
    ∃ d st₂, st.inodeReserve i.data offset = some (ok, d, st₂) ∧ st₁.freeMap = st₂.freeMap ∧
      (ok = true → i'.data.length = offset) := by
  have hlt := offT_eq hoffset
  unfold State.inodeExtend at he
  rw [show (offset : ℤ) + 0 - 1 = offset - 1 by omega, offT_of_lt (by omega) (by omega),
    show (offset : ℤ) + 0 = offset by omega, hoffset, if_pos] at he
  · simp only [Option.bind_eq_bind, Option.bind_eq_some_iff] at he
    obtain ⟨⟨ok₂, d, st₂⟩, hr, he⟩ := he
    cases ok₂ with
    | false =>
        cases he
        exact ⟨d, st₂, hr, rfl, nofun⟩
    | true =>
        cases he
        exact ⟨d, st₂, hr, rfl, fun _ => Int.toNat_natCast offset⟩
  · exact if_neg (by omega)

/-- A write of no bytes keeps the file only where it does not get to the extension, or this
changes nothing. -/
theorem inodeWriteAt_zero_keeps (h : Inv st) (h0 : s ≠ 0) (hi : st.openInodes s = some i)
    (hoffset : offT offset = offset) (hg : Granted st (inodeNeeded st.disk i.data offset))
    (hw : st.inodeWriteAt s buffer 0 offset = some (n, st')) :
    (∃ i', st'.openInodes s = some i' ∧ Keeps 0 offset st i.data st' i'.data) ↔
      Harmless st i 0 offset := by
  have hplaced := h.placed h0 (h.opened s i hi)
  rw [dataOf_open hi] at hplaced
  by_cases hd : i.denyWriteCnt = 0
  swap
  · refine iff_of_true ?_ (.inr (.inl hd))
    rcases inodeWriteAt_cases hi hw with ⟨-, rfl, -⟩ | ⟨hd', -⟩
    · exact ⟨i, hi, Nat.le_refl _, fun _ _ _ => rfl, fun _ => ⟨rfl, rfl⟩⟩
    · exact absurd hd' hd
  obtain ⟨ok, i', st₁, he, hdisk, hmap, hopen⟩ := inodeWriteAt_zero hi hd hw
  -- the file after the extension
  have hkeeps : st₁.openInodes s = some i' →
      ((∃ i', st'.openInodes s = some i' ∧ Keeps 0 offset st i.data st' i'.data) ↔
        Keeps 0 offset st i.data st₁ i'.data) := fun hi' => by
    rw [hopen, hi']
    simp only [Option.some.injEq, exists_eq_left', keeps_congr hdisk hmap]
  have hlast : Harmless st i 0 offset ↔ 0 < offset ∧ offset ≤ i.data.length ∨
      offset = 0 ∧ i.data.length = 0 ∨
      i.data.length < offset ∧ inodeNeeded st.disk i.data offset ≠ [] ∧ ¬Room st 1 :=
    ⟨fun h => (h.resolve_left (lt_irrefl 0)).resolve_left fun hn => hn hd, fun h => .inr (.inr h)⟩
  rw [hlast]
  rcases Nat.lt_trichotomy offset 0 with hlt | rfl | hpos
  · omega
  · -- the position before the file
    obtain ⟨st₂, he₂, hmap₂, hi₂⟩ := inodeExtend_start st s i
    rw [he₂] at he
    cases he
    rw [hkeeps hi₂]
    constructor
    · intro hk
      exact .inr (.inl ⟨rfl, Nat.le_zero.mp hk.length⟩)
    · rintro (⟨hpos, -⟩ | ⟨-, hl⟩ | ⟨hl, -⟩)
      · omega
      · refine ⟨hl.le, fun pos hp => absurd hp (by omega), fun _ => ⟨?_, hmap₂⟩⟩
        unfold contents
        rw [hl]
        rfl
      · omega
  by_cases hle : offset ≤ i.data.length
  · rw [inodeExtend_inside h hi (by omega) (by omega)] at he
    cases he
    rw [hkeeps hi]
    exact iff_of_true ⟨Nat.le_refl _, fun _ _ _ => rfl, fun _ => ⟨rfl, rfl⟩⟩ (.inl ⟨hpos, hle⟩)
  · obtain ⟨d, st₂, hr, hmap₂, hlen⟩ := inodeExtend_behind (not_le.mp hle) hoffset he
    have hx := inodeExtend_unspoiled h h0 hi (by
      rw [show (offset : ℤ) + 0 = offset by omega, hoffset]
      exact unspoiled_of_granted h.ground hplaced hg) he
    have hfailed := reserve_failed h.ground hplaced (by omega) hg hr
    rw [hkeeps hx.openInodes]
    constructor
    · intro hk
      obtain ⟨hcontents, hsame⟩ := hk.nothing rfl
      have hl := congrArg List.length hcontents
      rw [contents_length, contents_length] at hl
      refine .inr (.inr ⟨by omega, hfailed.mp ⟨?_, hmap₂ ▸ hsame⟩⟩)
      cases ok with
      | false => rfl
      | true => exact absurd (hlen rfl) (by omega)
    · rintro (⟨-, hle'⟩ | ⟨h0, -⟩ | ⟨-, hnone⟩)
      · omega
      · omega
      · obtain ⟨rfl, hsame⟩ := hfailed.mpr hnone
        have hl := hx.failed rfl
        exact ⟨hl.ge, fun pos hp _ => hx.byteAt_eq h h0 hi hl.ge hp, fun _ =>
          ⟨hx.contents_eq h h0 hi hl, hmap₂.trans hsame⟩⟩

/-- **Which writes keep the file**: as long as `malloc` does not fail for an index block, a write
of some bytes always does, and a write of no bytes where it does not reach the extension, or this
changes nothing.  The kernel writes inode 0, the file of the free map, inside its length only. -/
theorem write_keeps (h : Inv st) (hi : st.openInodes s = some i)
    (hs : s = 0 → 0 < size ∧ offset + size ≤ i.data.length) (h0 : 0 ≤ size) (hsize : offT size = size)
    (hoffset : offT offset = offset)
    (hg : Granted st (inodeNeeded st.disk i.data (offT (offset + size))))
    (hw : st.inodeWriteAt s buffer size offset = some (n, st')) :
    (∃ i', st'.openInodes s = some i' ∧ Keeps size offset st i.data st' i'.data) ↔
      Harmless st i size offset := by
  rcases h0.lt_or_eq with hpos | rfl
  · refine iff_of_true ?_ (.inl hpos)
    refine inodeWriteAt_keeps h hi (fun hlt => ?_) hpos hsize hoffset hw
    have hs0 : s ≠ 0 := fun h0 => absurd (hs h0).2 (not_le.mpr hlt)
    have hplaced := h.placed hs0 (h.opened s i hi)
    rw [dataOf_open hi] at hplaced
    exact ⟨hs0, unspoiled_of_granted h.ground hplaced hg⟩
  · have hs0 : s ≠ 0 := fun h0 => absurd (hs h0).1 (lt_irrefl 0)
    rw [show (offset : ℤ) + 0 = offset by omega, hoffset] at hg
    exact inodeWriteAt_zero_keeps h hs0 hi hoffset hg hw

/-! ### A file of 600 bytes -/

/-- What is to be seen of a run in which a file is created and opened, and of two writes: 3 bytes
past its end, and none at its start. -/
def writeRun : Option (List Bool) := do
  let st₀ ← State.format (fun _ => zeros) 40 fun _ => true
  let st₁ ← step (.create 600 false true, fun _ => true) st₀
  let st₂ ← step (.open 4, fun _ => true) st₁
  let i ← st₂.openInodes 4
  let _ ← (st₂.call fun _ => true).inodeWriteAt 4 (fun _ => 7) 3 2000
  let (n, st₃) ← (st₂.call fun _ => true).inodeWriteAt 4 (fun _ => 7) 0 0
  let i' ← st₃.openInodes 4
  some [i.data.length == 600, n == 0, i'.data.length == 0]

theorem write_run : ∃ st₀ st₁ st₂ i r n st₃ i',
    State.format (fun _ => zeros) 40 (fun _ => true) = some st₀ ∧
    step (.create 600 false true, fun _ => true) st₀ = some st₁ ∧
    step (.open 4, fun _ => true) st₁ = some st₂ ∧
    (st₂.call fun _ => true).openInodes 4 = some i ∧
    (st₂.call fun _ => true).inodeWriteAt 4 (fun _ => 7) 3 2000 = some r ∧
    (st₂.call fun _ => true).inodeWriteAt 4 (fun _ => 7) 0 0 = some (n, st₃) ∧
    st₃.openInodes 4 = some i' ∧ i.data.length = 600 ∧ n = 0 ∧ i'.data.length = 0 := by
  have h : writeRun = some [true, true, true] := by decide +kernel
  unfold writeRun at h
  simp only [Option.bind_eq_bind, Option.bind_eq_some_iff] at h
  obtain ⟨st₀, h₀, st₁, h₁, st₂, h₂, i, hi, r, hr, ⟨n, st₃⟩, hw, i', hi', hfacts⟩ := h
  simp only [Option.some.injEq, List.cons.injEq, beq_iff_eq, and_true] at hfacts
  exact ⟨st₀, st₁, st₂, i, r, n, st₃, i', h₀, h₁, h₂, hi, hr, hw, hi', hfacts⟩

theorem write_keeps_behind : ∃ st₀ st₁ st₂ i n st₃ i',
    State.format (fun _ => zeros) 40 (fun _ => true) = some st₀ ∧
    step (.create 600 false true, fun _ => true) st₀ = some st₁ ∧
    step (.open 4, fun _ => true) st₁ = some st₂ ∧ st₂.openInodes 4 = some i ∧
    (st₂.call fun _ => true).inodeWriteAt 4 (fun _ => 7) 3 2000 = some (n, st₃) ∧
    st₃.openInodes 4 = some i' ∧ Keeps 3 2000 (st₂.call fun _ => true) i.data st₃ i'.data := by
  obtain ⟨st₀, st₁, st₂, i, ⟨n, st₃⟩, -, -, -, h₀, h₁, h₂, hi, hw, -⟩ := write_run
  have hfirst : Sound st₀ (.create 600 false true, fun _ => true) := Or.inl (by decide)
  have hsecond : Sound st₁ (.open 4, fun _ => true) := trivial
  have hinv : Inv (st₂.call fun _ => true) :=
    (((inv_format h₀).step hfirst h₁).step hsecond h₂).call
  obtain ⟨i', hi', hk⟩ := (write_keeps hinv hi (fun h => absurd h (by decide)) (by omega) (by decide)
    (by decide) (fun j _ _ hlt => ⟨hlt, fun _ _ _ _ => rfl⟩) hw).mpr (.inl (by omega))
  exact ⟨st₀, st₁, st₂, i, n, st₃, i', h₀, h₁, h₂, hi, hw, hi', hk⟩

/-- A write of no bytes at the start of a file of 600 bytes empties it. -/
theorem write_shrinks : ∃ st₀ st₁ st₂ i n st₃ i',
    State.format (fun _ => zeros) 40 (fun _ => true) = some st₀ ∧
    step (.create 600 false true, fun _ => true) st₀ = some st₁ ∧
    step (.open 4, fun _ => true) st₁ = some st₂ ∧
    (st₂.call fun _ => true).openInodes 4 = some i ∧ i.data.length = 600 ∧
    (st₂.call fun _ => true).inodeWriteAt 4 (fun _ => 7) 0 0 = some (n, st₃) ∧
    st₃.openInodes 4 = some i' ∧ i'.data.length = 0 ∧
    ¬Keeps 0 0 (st₂.call fun _ => true) i.data st₃ i'.data := by
  obtain ⟨st₀, st₁, st₂, i, -, n, st₃, i', h₀, h₁, h₂, hi, -, hw, hi', hl, -, hl'⟩ := write_run
  exact ⟨st₀, st₁, st₂, i, n, st₃, i', h₀, h₁, h₂, hi, hl, hw, hi', hl', fun hk => by
    have := hk.length
    omega⟩

end CSE130.Lab3.Files
