import CSE130.Lab3.ZeroWrites

/-! # Sizes that no file can have

The system calls `create` and `write` take an `unsigned`, and the file system an `off_t`.
`inode_create` asserts that its length is not negative, and `inode_reserve` that 16635 sectors are
enough; nobody looks at the size before.  A write with a negative size that ends at the start of
the file sets its length to 0, and one that ends behind the file makes it longer
(`sizes_checked`). -/

namespace CSE130.Lab3.Files

open BlockTree Traced
open Function (update)

variable {st st' st₁ : State} {K X : Set Sector} {s : Sector} {i i' : Inode} {d d' : InodeDisk}
  {m : Sector → Block} {buffer : ℕ → UInt8} {n : UInt32} {size length : ℤ} {offset k : ℕ}
  {found added ok : Bool}

/-- The length of the largest file: 123 + 128 + 128 * 128 sectors. -/
def maxLength : ℤ := 16635 * 512

/-- The inode that `calloc` clears. -/
def newInode : InodeDisk := ⟨fun _ => 0, 0, 0, false, 0⟩

/-- `sys_create` for a size from the user: `found` says whether the directory is opened, and
`added` is the result of `dir_add`. -/
def State.sysCreate (st : State) (initialSize : UInt32) (found added : Bool) : Option (Bool × State) :=
  if found then
    match st.freeMapAllocate with
    | (none, st) => some (false, st)
    | (some s, st) => do
        let (created, st) ← st.inodeCreate s (offT initialSize.toNat) false
        if created && added then some (true, { st with live := update st.live s true })
        else (st.freeMapRelease s).map fun st => (false, st)
  else some (false, st)

/-- `sys_write` on a file, for a size from the user and the position of the file. -/
def State.sysWrite (st : State) (s : Sector) (buffer : ℕ → UInt8) (size : UInt32) (pos : ℕ) :
    Option (ℕ × State) :=
  st.inodeWriteAt s buffer (offT size.toNat) pos

/-- The call returns, and no file has a size that is negative or above the limit. -/
def CreatesWithin (st : State) (n : UInt32) (found added : Bool) : Prop :=
  ∃ ok st', st.sysCreate n found added = some (ok, st') ∧
    (offT n.toNat < 0 ∨ maxLength < offT n.toNat → ok = false)

/-- The call returns, and where the size is negative or the file would grow above the limit,
nothing is written and the length stays. -/
def WritesWithin (st : State) (s : Sector) (buffer : ℕ → UInt8) (n : UInt32) (offset : ℕ) : Prop :=
  ∃ k st', st.sysWrite s buffer n offset = some (k, st') ∧
    (offT n.toNat < 0 ∨ maxLength < offset + offT n.toNat →
      k = 0 ∧ (st'.dataOf s).length = (st.dataOf s).length)

/-- The sizes for which `create` does this: it does not get to the inode, or the size is within the
limit, or there is no memory for the inode, or the sectors run out below the limit. -/
def CreateFits (st : State) (n : UInt32) (found : Bool) : Prop :=
  found = false ∨ ¬Room st 1 ∨ 0 ≤ offT n.toNat ∧
    (offT n.toNat ≤ maxLength ∨ st.heap 1 = false ∨
      ¬Suffices (inodeNeeded st.disk newInode (offT n.toNat)) (st.free - 1) fun j => st.Pays (j + 2))

/-- The sizes for which `write` does this, for an inode that may be written: a negative size that
leads in front of the file, or into it, or one that needs more sectors than there are, and another
size that leads up to the limit, or beyond the type. -/
def WriteFits (st : State) (i : Inode) (n : UInt32) (offset : ℕ) : Prop :=
  let last := offset + offT n.toNat
  i.denyWriteCnt ≠ 0 ∨
    (if offT n.toNat < 0 then last < 0 ∨ 0 < last ∧ last ≤ i.data.length ∨ last = 0 ∧ i.data.length = 0
      else last ≤ maxLength ∨ 2 ^ 31 ≤ last) ∨
    ¬Suffices (inodeNeeded st.disk i.data last) st.free st.Pays

/-! ### Reservation -/

theorem inodeReserve_limit (g : Ground K X st) (hp : Placed (K ∪ X) st.Used (Owned st.disk d))
    (h0 : 0 ≤ length) : ∃ ok d' st', (ok = true ↔ Suffices (inodeNeeded st.disk d length) st.free st.Pays) ∧
      d'.length = d.length ∧ Passive st st' ∧ (∀ x, st.Used x → st'.Used x) ∧ Ground K X st' ∧
      st.inodeReserve d length =
        if ok = true ∧ maxLength < length then none else some (ok, d', st') := by
  obtain ⟨ok, d', st', ha, hl, -, h⟩ := inodeReserveLog_attempt g hp h0
  have hs := ha.supplied []
  rw [List.append_nil] at hs
  refine ⟨ok, d', st', (hs.trans (and_iff_left trivial)).symm, hl, ha.reserve.passive,
    ha.reserve.grows.used, ha.reserve.ground, ?_⟩
  have hlimit : 16635 < bytesToSectors length.toNat ↔ maxLength < length := by
    unfold bytesToSectors maxLength
    omega
  rw [← inodeReserveLog_value, Traced.value, h]
  simp only [hlimit]
  split_ifs
  · rfl
  · rfl

theorem needed_newInode {m' : Sector → Block} {isDir : Bool} {l : ℕ} :
    inodeNeeded m' ⟨fun _ => 0, 0, 0, isDir, l⟩ length = inodeNeeded m newInode length := by
  unfold inodeNeeded newInode
  dsimp only
  have hempty : ∀ {k n}, k ≤ 2 → n ≤ 128 ^ k → needed m' k 0 n = needed m k 0 n := fun hk hn =>
    needed_congr hk hn fun _ _ h => absurd rfl h.root_ne
  have hdata : ∀ {n}, n ≤ 1 → needed m' 0 0 n = needed m 0 0 n := fun hn =>
    hempty (k := 0) (by omega) (by omega)
  rw [neededLoop_congr fun _ _ _ _ hn => hdata hn, hempty (k := 1) (by omega) (by omega),
    hempty (k := 2) (by omega) (by omega)]

/-! ### Creation -/

/-- What is left to a creation that has its sector. -/
structure Seated (K X : Set Sector) (s : Sector) (st st₁ : State) : Prop where
  ground : Ground K X st₁
  used : st₁.Used s
  fresh : ¬st.Used s
  room : Room st 1
  freeMapFile : st₁.freeMapFile = true
  free : st₁.free = st.free - 1
  heap : st₁.heap = fun j => st.heap (j + 1)
  pays : st₁.Pays = fun j => st.Pays (j + 1)

theorem allocate_seated (g : Ground K X st) (hf : st.freeMapFile = true)
    (ha : st.freeMapAllocate = (some s, st₁)) : Seated K X s st st₁ := by
  have hroom : Room st 1 := (allocate_room g ha 0).mpr (room_zero st₁)
  obtain ⟨-, hr, -⟩ | ⟨-, -, hpays⟩ := allocate_pays g ha
  · cases hr
  obtain ⟨t, st₂, ha', hn, hs, hstill⟩ | ⟨st₂, ha', -⟩ := allocate_cases g
  swap
  · rw [ha] at ha'
    cases ha'
  rw [ha] at ha'
  cases ha'
  have hfree := free_mark hs hn
  have hheap : st₁.heap = fun j => st.heap (j + 1) := by
    unfold State.freeMapAllocate at ha
    cases hscan : st.scan with
    | none =>
        rw [hscan] at ha
        cases ha
    | some t =>
        have hshift := bitmapWrite_heap (g.mark (scan_some hscan).2) hf
        rw [hscan] at ha
        cases hw : (st.mark t true).bitmapWrite with
        | mk ok st₂ =>
            rw [hw] at hshift
            simp only [show (st.mark t true).freeMapFile = true from hf, hw, if_true] at ha
            cases ok with
            | false => cases ha
            | true =>
                cases ha
                exact hshift
  exact ⟨(g.mark hs).still hstill g.disjoint, hstill.used.mpr (used_mark.mpr (by rw [if_pos rfl])), hn,
    hroom, hstill.passive.freeMapFile.trans hf, by rw [hstill.free]; omega, hheap, hpays⟩

/-- `inode_create` ends in an assertion for a negative length, and for a length above the limit
when memory and sectors last. -/
theorem inodeCreate_limit (g : Ground K X st₁) (hs : s ∉ X) :
    (length < 0 ∧ st₁.inodeCreate s length false = none) ∨
      0 ≤ length ∧ (st₁.inodeCreate s length false = none ↔ maxLength < length ∧ st₁.heap 0 = true ∧
        Suffices (inodeNeeded m newInode length) st₁.free fun j => st₁.Pays (j + 1)) ∧
      ∀ ok st', st₁.inodeCreate s length false = some (ok, st') →
        Ground K X st' ∧ st'.freeMapFile = st₁.freeMapFile ∧ (∀ x, st₁.Used x → st'.Used x) ∧
          (maxLength < length → ok = false) := by
  unfold State.inodeCreate
  by_cases hneg : length < 0
  · exact .inl ⟨hneg, if_pos hneg⟩
  rw [if_neg hneg]
  refine .inr ⟨not_lt.mp hneg, ?_⟩
  have hmalloc := malloc_still (K := K) st₁
  have hpays : st₁.malloc.2.Pays = fun j => st₁.Pays (j + 1) := rfl
  cases hm : st₁.malloc with
  | mk ok₁ st₂ =>
      have hok₁ : ok₁ = st₁.heap 0 := congrArg Prod.fst hm.symm
      rw [hm] at hmalloc hpays
      have g₂ := g.still hmalloc g.disjoint
      dsimp only
      cases ok₁ with
      | false =>
          rw [if_neg (nofun : ¬false = true), ← hok₁]
          refine ⟨iff_of_false nofun fun h => Bool.noConfusion h.2.1, fun ok st' hc => ?_⟩
          cases hc
          exact ⟨g₂, hmalloc.passive.freeMapFile, fun x => hmalloc.used.mpr, fun _ => rfl⟩
      | true =>
          rw [if_pos rfl, ← hok₁]
          have hp : Placed (K ∪ X) st₂.Used (Owned st₂.disk ⟨fun _ => 0, 0, 0, false, length.toNat⟩) :=
            placed_empty
          obtain ⟨ok, d, st₃, hok, -, hpassive, hused, g₃, hr⟩ :=
            inodeReserve_limit g₂ hp (not_lt.mp hneg)
          rw [needed_newInode (m := m), hmalloc.free, hpays] at hok
          rw [hr]
          split_ifs with hbig
          · exact ⟨iff_of_true rfl ⟨hbig.2, rfl, hok.mp hbig.1⟩, nofun⟩
          · refine ⟨iff_of_false nofun fun h => hbig ⟨hok.mpr h.2.2, h.1⟩, fun ok' st' hc => ?_⟩
            simp only [Option.bind_eq_bind, Option.bind_some, Option.some.injEq, Prod.mk.injEq] at hc
            obtain ⟨rfl, rfl⟩ := hc
            have hfile := hpassive.freeMapFile.trans hmalloc.passive.freeMapFile
            have hused : ∀ x, st₁.Used x → st₃.Used x := fun x hx => hused x (hmalloc.used.mpr hx)
            cases ok with
            | false => exact ⟨g₃, hfile, hused, fun _ => rfl⟩
            | true => exact ⟨g₃.write hs, hfile, hused, fun hlt => absurd ⟨rfl, hlt⟩ hbig⟩

theorem create_within (h : Inv st) : CreatesWithin st n found added ↔ CreateFits st n found := by
  unfold CreatesWithin CreateFits State.sysCreate
  cases found with
  | false => exact iff_of_true ⟨false, st, rfl, fun _ => rfl⟩ (.inl rfl)
  | true =>
  rw [if_pos rfl, or_iff_right (nofun : ¬true = false)]
  cases ha : st.freeMapAllocate with
  | mk r st₁ =>
  cases r with
  | none => exact iff_of_true ⟨false, st₁, rfl, fun _ => rfl⟩ (.inl (allocate_no_room h.ground ha))
  | some s =>
  have hs := allocate_seated h.ground h.freeMapFile ha
  have hX : s ∉ st.freeMapData ∪ st.freeMapIndex := fun hx => hs.fresh (h.ground.used s hx)
  rw [or_iff_right (not_not_intro hs.room)]
  dsimp only
  obtain ⟨hneg, hc⟩ | ⟨h0, hc, hsome⟩ := inodeCreate_limit (m := st.disk)
    hs.ground fun hx => hX (.inr hx)
  · rw [hc]
    refine iff_of_false ?_ fun hr => absurd hr.1 (not_le.mpr hneg)
    rintro ⟨_, _, hr, -⟩
    cases hr
  rw [hs.heap, hs.free, hs.pays] at hc
  cases hcreate : st₁.inodeCreate s (offT n.toNat) false with
  | none =>
      obtain ⟨hbig, hm, hsuff⟩ := hc.mp hcreate
      refine iff_of_false ?_ ?_
      · rintro ⟨_, _, hr, -⟩
        cases hr
      · rintro ⟨-, hle | hm' | hno⟩
        · exact absurd hle (not_le.mpr hbig)
        · exact Bool.noConfusion (hm.symm.trans hm')
        · exact hno hsuff
  | some r =>
      obtain ⟨created, st₂⟩ := r
      obtain ⟨g₂, hf, hused, hbig⟩ := hsome created st₂ hcreate
      refine iff_of_true ?_ ⟨h0, ?_⟩
      · -- the call goes on to the directory, or gives the sector back
        rw [Option.bind_eq_bind, Option.bind_some]
        dsimp only
        split_ifs with hok
        · obtain ⟨hcreated, -⟩ := Bool.and_eq_true_iff.mp hok
          refine ⟨true, _, rfl, fun hbad => absurd hcreated ?_⟩
          rw [hbig (hbad.resolve_left (not_lt.mpr h0))]
          exact Bool.noConfusion
        · obtain ⟨st₃, hr, -⟩ := freeMapRelease_released g₂ (hf.trans hs.freeMapFile) (hused s hs.used)
            (h.ground.ne_zero hs.fresh) hX
          rw [hr]
          exact ⟨false, st₃, rfl, fun _ => rfl⟩
      · by_contra hno
        obtain ⟨hlt, hno⟩ := not_or.mp hno
        obtain ⟨hm, hsuff⟩ := not_or.mp hno
        have hnone := hc.mpr ⟨not_le.mp hlt, Bool.eq_true_of_not_eq_false hm, not_not.mp hsuff⟩
        rw [hcreate] at hnone
        cases hnone

/-! ### Writing -/

theorem offT_range (x : ℤ) : -2 ^ 31 ≤ offT x ∧ offT x < 2 ^ 31 := by
  unfold offT
  rw [Int.bmod_def]
  split_ifs <;> omega

theorem inodeExtend_outside (h : Inv st) (hi : st.openInodes s = some i) (hoffset : offT offset = offset)
    (hlow : -2 ^ 31 ≤ size) (hhigh : size < 2 ^ 31)
    (hout : offset + size ≤ 0 ∨ i.data.length < offset + size) :
    byteToSector st.disk i.data (offT (offset + size - 1)) = noSector := by
  have hlt := offT_eq hoffset
  have hsmall := (h.opened_data hi).1.small
  unfold bytesToSectors at hsmall
  unfold byteToSector offT
  rw [Int.bmod_def, if_neg]
  split_ifs <;> omega

theorem inodeExtend_settled (h : Inv st) (hi : st.openInodes s = some i) (hoffset : offT offset = offset)
    (hlow : -2 ^ 31 ≤ size) (hhigh : size < 2 ^ 31)
    (hend : offset + size < 0 ∨ 0 < offset + size ∧ offset + size ≤ i.data.length ∨
      2 ^ 31 ≤ offset + size) :
    ∃ ok st₁, st.inodeExtend s i size offset = some (ok, i, st₁) ∧ st₁.openInodes s = some i ∧
      (i.data.length < offset + size → ok = false) := by
  have hlt := offT_eq hoffset
  have hsmall := (h.opened_data hi).1.small
  unfold bytesToSectors at hsmall
  obtain hneg | ⟨hpos, hle⟩ | hbig := hend
  case inr.inl =>
    exact ⟨true, st, inodeExtend_inside h hi hpos hle, hi, fun hlt => absurd hlt (not_lt.mpr hle)⟩
  all_goals
    have hno : offT (offset + size) < 0 := by
      unfold offT
      rw [Int.bmod_def]
      split_ifs <;> omega
    have hr : st.inodeReserve i.data (offT (offset + size)) = some (false, i.data, st) := if_pos hno
    refine ⟨false, st.setInode s (some i), ?_, Function.update_self .., fun _ => rfl⟩
    unfold State.inodeExtend
    rw [if_pos (inodeExtend_outside h hi hoffset hlow hhigh (by omega)), hr]
    rfl

theorem inodeExtend_limit (h : Inv st) (h0 : s ≠ 0) (hi : st.openInodes s = some i)
    (hoffset : offT offset = offset) (hlow : -2 ^ 31 ≤ size) (hhigh : size < 2 ^ 31)
    (hout : offset + size = 0 ∨ i.data.length < offset + size) (hmax : offset + size < 2 ^ 31) :
    ∃ ok, (ok = true ↔ Suffices (inodeNeeded st.disk i.data (offset + size)) st.free st.Pays) ∧
      (ok = true ∧ maxLength < offset + size → st.inodeExtend s i size offset = none) ∧
      (¬(ok = true ∧ maxLength < offset + size) → ∃ i' st₁,
        st.inodeExtend s i size offset = some (ok, i', st₁) ∧ st₁.openInodes s = some i' ∧
          (ok = true → (i'.data.length : ℤ) = offset + size) ∧
          (ok = false → i'.data.length = i.data.length)) := by
  have hplaced := h.placed h0 (h.opened s i hi)
  rw [dataOf_open hi] at hplaced
  have hpos : 0 ≤ (offset : ℤ) + size := by omega
  have hend := inodeExtend_outside h hi hoffset hlow hhigh (by omega)
  obtain ⟨ok, d, st₁, hok, hl, -, -, -, hr⟩ := inodeReserve_limit h.ground hplaced hpos
  refine ⟨ok, hok, fun hbig => ?_, fun hbig => ?_⟩
  · rw [if_pos hbig] at hr
    unfold State.inodeExtend
    rw [if_pos hend, offT_of_lt hpos hmax, hr]
    rfl
  · rw [if_neg hbig] at hr
    unfold State.inodeExtend
    rw [if_pos hend, offT_of_lt hpos hmax, hr]
    cases ok with
    | false => exact ⟨_, _, rfl, Function.update_self .., nofun, fun _ => hl⟩
    | true => exact ⟨_, _, rfl, Function.update_self .., fun _ => Int.toNat_of_nonneg hpos, nofun⟩

theorem inodeWriteAt_extended (buffer : ℕ → UInt8) (hi : st.openInodes s = some i) (hd : i.denyWriteCnt = 0)
    (he : st.inodeExtend s i size offset = some (ok, i', st₁)) (hi' : st₁.openInodes s = some i') :
    ∃ k st', st.inodeWriteAt s buffer size offset = some (k, st') ∧ st'.dataOf s = i'.data ∧
      (ok = false ∨ size ≤ 0 → k = 0) := by
  unfold State.inodeWriteAt
  rw [hi]
  dsimp only
  rw [if_neg (not_not_intro hd), he]
  cases ok with
  | false => exact ⟨0, st₁, rfl, dataOf_open hi', fun _ => rfl⟩
  | true =>
      refine ⟨_, _, rfl, dataOf_open hi', fun hsize => ?_⟩
      rw [Int.toNat_of_nonpos (hsize.resolve_left Bool.noConfusion)]
      rfl

theorem write_within (h : Inv st) (h0 : s ≠ 0) (hi : st.openInodes s = some i)
    (hoffset : offT offset = offset) : WritesWithin st s buffer n offset ↔ WriteFits st i n offset := by
  unfold WritesWithin WriteFits State.sysWrite
  rw [dataOf_open hi]
  obtain ⟨hlow, hhigh⟩ := offT_range n.toNat
  generalize offT n.toNat = size at hlow hhigh ⊢
  have hpos := offT_eq hoffset
  have hsmall := (h.opened_data hi).1.small
  unfold bytesToSectors at hsmall
  by_cases hd : i.denyWriteCnt = 0
  swap
  · refine iff_of_true ⟨0, st, ?_, fun _ => ⟨rfl, by rw [dataOf_open hi]⟩⟩ (.inl hd)
    unfold State.inodeWriteAt
    rw [hi]
    exact if_pos hd
  dsimp only
  rw [or_iff_right (not_not_intro hd)]
  have hmax : maxLength = 16635 * 512 := rfl
  by_cases hout : (offset + size = 0 ∨ (i.data.length : ℤ) < offset + size) ∧ offset + size < 2 ^ 31
  swap
  · -- the length is not touched
    obtain ⟨ok, st₁, he, hi₁, hno⟩ := inodeExtend_settled h hi hoffset hlow hhigh (by omega)
    obtain ⟨k, st', hw, hdata, hk⟩ := inodeWriteAt_extended buffer hi hd he hi₁
    refine iff_of_true ⟨k, st', hw, fun hbad => ⟨hk ?_, by rw [hdata]⟩⟩ (.inl ?_)
    · by_cases hlt : (i.data.length : ℤ) < offset + size
      · exact .inl (hno hlt)
      · exact .inr (by omega)
    · split_ifs with hneg
      · omega
      · omega
  obtain ⟨hout, hlt⟩ := hout
  obtain ⟨ok, hok, hnone, hsome⟩ := inodeExtend_limit h h0 hi hoffset hlow hhigh hout hlt
  rw [← hok]
  by_cases hbig : ok = true ∧ maxLength < offset + size
  · refine iff_of_false ?_ ?_
    · rintro ⟨k, st', hw, -⟩
      obtain ⟨-, -, hne⟩ | ⟨-, _, _, _, he, -⟩ := inodeWriteAt_cases hi hw
      · exact hne hd
      · rw [hnone hbig] at he
        cases he
    · rintro (hfits | hno)
      · split_ifs at hfits with hneg
        · omega
        · omega
      · exact hno hbig.1
  · obtain ⟨i', st₁, he, hi₁, hl, hsame⟩ := hsome hbig
    obtain ⟨k, st', hw, hdata, hk⟩ := inodeWriteAt_extended buffer hi hd he hi₁
    rw [hw]
    simp only [Option.some.injEq, Prod.mk.injEq, ↓existsAndEq, true_and, hdata]
    cases ok with
    | false =>
        exact iff_of_true (fun _ => ⟨hk (.inl rfl), hsame rfl⟩) (.inr Bool.noConfusion)
    | true =>
        have hl := hl rfl
        have hle : ¬maxLength < offset + size := fun hlt => hbig ⟨rfl, hlt⟩
        rw [or_iff_left (not_not_intro rfl)]
        split_ifs with hneg
        · have hk : k = 0 := hk (.inr hneg.le)
          constructor
          · intro hkeeps
            have := (hkeeps (.inl hneg)).2
            omega
          · intro hfits _
            exact ⟨hk, by omega⟩
        · exact iff_of_true (fun hbad => absurd hbad (by omega)) (.inl (not_lt.mp hle))

/-- **The sizes that are refused**: exactly where the condition holds does each of the two calls
return, and refuse the sizes that no file can have. -/
theorem sizes_checked (h : Inv st) (h0 : s ≠ 0) (hi : st.openInodes s = some i)
    (hoffset : offT offset = offset) :
    (CreatesWithin st n found added ↔ CreateFits st n found) ∧
      (WritesWithin st s buffer n offset ↔ WriteFits st i n offset) :=
  ⟨create_within h, write_within h h0 hi hoffset⟩

/-! ### A file of 600 bytes -/

/-- What is to be seen of a run in which a file is created and opened: a write of -1 bytes at the
position 1, and a creation with the size -1. -/
def sizesRun : Option (List Bool) := do
  let st₀ ← State.format (fun _ => zeros) 40 fun _ => true
  let st₁ ← step (.create 600 false true, fun _ => true) st₀
  let st₂ ← step (.open 4, fun _ => true) st₁
  let i ← st₂.openInodes 4
  let (n, st₃) ← (st₂.call fun _ => true).sysWrite 4 (fun _ => 7) 0xffffffff 1
  some [((st₂.call fun _ => true).sysCreate 0xffffffff true true).isNone, n == 0,
    i.denyWriteCnt == 0, i.data.length == 600, (st₃.dataOf 4).length == 0]

theorem sizes_run : ∃ st i n st₃, Inv st ∧ st.openInodes 4 = some i ∧
    st.sysWrite 4 (fun _ => 7) 0xffffffff 1 = some (n, st₃) ∧
    st.sysCreate 0xffffffff true true = none ∧ n = 0 ∧ i.denyWriteCnt = 0 ∧ i.data.length = 600 ∧
    (st₃.dataOf 4).length = 0 := by
  have h : sizesRun = some [true, true, true, true, true] := by decide +kernel
  unfold sizesRun at h
  simp only [Option.bind_eq_bind, Option.bind_eq_some_iff] at h
  obtain ⟨st₀, h₀, st₁, h₁, st₂, h₂, i, hi, ⟨n, st₃⟩, hw, hfacts⟩ := h
  simp only [Option.some.injEq, List.cons.injEq, beq_iff_eq, Option.isNone_iff_eq_none, and_true] at hfacts
  have hfirst : Sound st₀ (.create 600 false true, fun _ => true) := Or.inl (by decide)
  have hsecond : Sound st₁ (.open 4, fun _ => true) := trivial
  exact ⟨_, i, n, st₃, (((inv_format h₀).step hfirst h₁).step hsecond h₂).call, hi, hw, hfacts⟩

/-- Three bytes behind the end of the file, and a new file of three bytes. -/
theorem sizes_checked_small : ∃ st, Inv st ∧ CreatesWithin st 3 true true ∧
    WritesWithin st 4 (fun _ => 7) 3 2000 := by
  obtain ⟨st, i, -, -, hinv, hi, -⟩ := sizes_run
  have hoffset : offT (2000 : ℕ) = (2000 : ℕ) := by decide
  have h : (CreatesWithin st 3 true true ↔ CreateFits st 3 true) ∧
      (WritesWithin st 4 (fun _ => 7) 3 2000 ↔ WriteFits st i 3 2000) :=
    sizes_checked hinv (by decide) hi hoffset
  refine ⟨st, hinv, h.1.mpr (.inr (.inr ⟨by decide, .inl (by decide)⟩)), h.2.mpr (.inr (.inl ?_))⟩
  rw [if_neg (by decide)]
  exact .inl (by decide)

/-- A new file of -1 bytes ends in a kernel panic, and a write of -1 bytes empties a file. -/
theorem sizes_unchecked : ∃ st i, Inv st ∧ st.openInodes 4 = some i ∧ i.data.length = 600 ∧
    ¬CreatesWithin st 0xffffffff true true ∧ ¬WritesWithin st 4 (fun _ => 7) 0xffffffff 1 := by
  obtain ⟨st, i, n, st₃, hinv, hi, hw, hc, -, -, hl, hl₃⟩ := sizes_run
  refine ⟨st, i, hinv, hi, hl, ?_, ?_⟩
  · rintro ⟨ok, st', hr, -⟩
    rw [hc] at hr
    cases hr
  · rintro ⟨k, st', hr, hsame⟩
    rw [hw] at hr
    cases hr
    have := (hsame (.inl (by decide))).2
    rw [hl₃, dataOf_open hi, hl] at this
    cases this

end CSE130.Lab3.Files
