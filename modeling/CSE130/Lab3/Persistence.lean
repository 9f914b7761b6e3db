import CSE130.Lab3.Creation

/-! # What is left after a restart

`filesys_done` closes the free map's file and flushes the buffer cache, and `filesys_init (false)`
reads the free map from its file again.  The open inodes are gone, and with them what is in memory
only.  Between calls that had memory and whose paths led to files there is no such thing: the
free map's file is the bitmap, and each inode is in its sector (`files_persist`). -/

namespace CSE130.Lab3.Files

open BlockTree Transition
open Function (update)

variable {st st' st₀ st₁ : State} {s t x : Sector} {i i' : Inode} {m : Sector → Block}
  {d d' : InodeDisk} {freeMap : Sector → Bool} {size : Sector} {bytes : List UInt8}
  {heap : ℕ → Bool} {live : Sector → Bool} {e : DirEntry}

/-! ### The restart -/

/-- The bit of a sector that `bitmap_read` finds in the bytes of the file; `last_mask` clears those
behind the last sector. -/
def bitmapRead (bytes : List UInt8) (size : Sector) (s : Sector) : Bool :=
  s < size && (bytes.getD (s.toNat / 8) 0).toNat.testBit (s.toNat % 8)

/-- `free_map_open`. -/
def State.freeMapOpen (st : State) : Option State := do
  let (ok, st) := st.inodeOpen 0
  if ok = false then none
  else do
    let (ok, st) ← st.fileOpen 0
    if ok = false then none
    else do
      let i ← st.openInodes 0
      let bytes := st.inodeReadAt i (bitmapFileSize st.size) 0
      if bytes.length = bitmapFileSize st.size then
        some { st with
          freeMap := bitmapRead bytes st.size
          freeMapFile := true
          heap := fun k => st.heap (k + 1) }
      else none

/-- `filesys_init (false)`; `disk` is what the buffer cache shows. -/
def filesysInit (disk : Sector → Block) (size : Sector) (live : Sector → Bool) (heap : ℕ → Bool) :
    Option State :=
  if size ≤ 1 then none
  else State.freeMapOpen ⟨disk, fun s => s == 0 || s == 1, size, false, fun _ => none, live, heap, false⟩

/-- `filesys_done`: `free_map_close`, and `buffer_cache_close`. -/
def filesysDone (st : State) (c : Cache) : Option Cache := do
  let _ ← st.inodeClose 0
  c.bufferCacheClose

/-- The calls on files: those of `filesys.c`, and `file_write` and `file_close` on the inode of an
open file. -/
inductive FileCall where
  | create (cwd : Option Sector) (path : List UInt8) (initialSize : ℤ) (isDir : Bool) (e : DirEntry)
  | open (cwd : Option Sector) (path : List UInt8)
  | write (s : Sector) (buffer : ℕ → UInt8) (size : ℤ) (offset : ℕ)
  | remove (cwd : Option Sector) (path : List UInt8)
  | close (s : Sector)

/-- A call. -/
def fileCall (c : FileCall) (st : State) : Option State :=
  match c with
  | .create cwd path initialSize isDir e =>
      if offT initialSize = initialSize then
        (Paths.filesysCreate st cwd path initialSize isDir e).map Prod.snd
      else none
  | .open cwd path => (Paths.filesysOpen st cwd path).map Prod.snd
  | .write s buffer size offset =>
      if offT size = size ∧ offT offset = offset then
        (st.inodeWriteAt s buffer size offset).map Prod.snd
      else none
  | .remove cwd path => (Paths.filesysRemove st cwd path).map Prod.snd
  | .close s => st.inodeClose s

/-- A call with the answers that `malloc` gives to it. -/
def fileStep (c : FileCall × (ℕ → Bool)) (st : State) : Option State := fileCall c.1 (st.call c.2)

/-- The call does what it is for; a write is of at least one byte. -/
def Succeeds (st : State) (c : FileCall × (ℕ → Bool)) : Prop :=
  match c.1 with
  | .create cwd path initialSize isDir e =>
      ∃ st', Paths.filesysCreate (st.call c.2) cwd path initialSize isDir e = some (true, st')
  | .write s buffer size offset => 1 ≤ size ∧
      ∃ st', (st.call c.2).inodeWriteAt s buffer size offset = some (size.toNat, st')
  | .remove cwd path => ∃ st', Paths.filesysRemove (st.call c.2) cwd path = some (true, st')
  | _ => True

/-- The paths lead to files, and the free map's file is left alone. -/
def ToFiles (st : State) (c : FileCall) : Prop :=
  match c with
  | .create cwd path _ _ _ => ∀ d ∈ pathDir st cwd (splitPathFilename path).1, IsFile st d
  | .open cwd path => ∀ s ∈ resolve st cwd path, IsFile st s
  | .write s _ _ _ => s ≠ 0
  | .remove cwd path => (∀ s ∈ victim st cwd path, IsFile st s) ∧
      ∀ d ∈ pathDir st cwd (splitPathFilename path).1, IsFile st d
  | .close s => s ≠ 0

/-- There is memory for the call, and its paths lead to files. -/
def Regular (st : State) (c : FileCall × (ℕ → Bool)) : Prop :=
  (∀ k, c.2 k = true) ∧ ToFiles st c.1

/-- All files are closed; inodes are in sectors of the device. -/
def Closed (st : State) : Prop := ∀ s, s ≠ 0 → s < st.size → st.openInodes s = none

/-- Started with a new file system, or again after a shutdown. -/
inductive Booted : State → Prop
  | format {disk : Sector → Block} {size : Sector} {heap : ℕ → Bool} {e : DirEntry} {st : State} :
      (∀ k, heap k = true) → Paths.doFormat disk size heap e = some st → Booted st
  | again {heap : ℕ → Bool} {st₀ st st' : State} : Booted st₀ →
      Reachable fileStep (fun st c => Succeeds st c ∧ Regular st c) st₀ st → Closed st →
      (∀ k, heap k = true) → filesysInit st.disk st.size st.live heap = some st' → Booted st'

/-! ### The bitmap -/

theorem testBit_byte (f : ℕ → Bool) {k : ℕ} (hk : k < 8) :
    (UInt8.ofNat ((List.range 8).map fun b => if f b then 2 ^ b else 0).sum).toNat.testBit k = f k := by
  have hall : ∀ b₀ b₁ b₂ b₃ b₄ b₅ b₆ b₇ : Bool, ∀ k : Fin 8,
      (UInt8.ofNat ((List.range 8).map fun b =>
        if [b₀, b₁, b₂, b₃, b₄, b₅, b₆, b₇].getD b false then 2 ^ b else 0).sum).toNat.testBit k =
          [b₀, b₁, b₂, b₃, b₄, b₅, b₆, b₇].getD k false := by
    decide +kernel
  have hf : ∀ b, b < 8 → [f 0, f 1, f 2, f 3, f 4, f 5, f 6, f 7].getD b false = f b := by
    intro b hb
    change ((List.range 8).map f).getD b false = f b
    rw [List.getD_eq_getElem?_getD, List.getElem?_map, List.getElem?_range hb]
    rfl
  have hsum : (List.range 8).map (fun b => if f b then 2 ^ b else 0) = (List.range 8).map fun b =>
      if [f 0, f 1, f 2, f 3, f 4, f 5, f 6, f 7].getD b false then 2 ^ b else 0 := by
    refine List.map_congr_left fun b hb => ?_
    rw [hf b (List.mem_range.mp hb)]
  rw [hsum, hall (f 0) (f 1) (f 2) (f 3) (f 4) (f 5) (f 6) (f 7) ⟨k, hk⟩, hf k hk]

/-- The bytes that `bitmap_write` writes are the bits that `bitmap_read` reads. -/
theorem bitmapRead_bytes (hs : s < size) :
    bitmapRead ((List.range (bitmapFileSize size)).map (bitmapByte freeMap size)) size s =
      freeMap s := by
  have hlt := UInt32.lt_iff_toNat_lt.mp hs
  have hbyte : s.toNat / 8 < bitmapFileSize size := by
    unfold bitmapFileSize
    omega
  have hpos : 8 * (s.toNat / 8) + s.toNat % 8 = s.toNat := Nat.div_add_mod ..
  unfold bitmapRead
  rw [decide_eq_true hs, Bool.true_and, List.getD_eq_getElem?_getD, List.getElem?_map,
    List.getElem?_range hbyte, Option.map_some, Option.getD_some]
  unfold bitmapByte
  rw [testBit_byte _ (Nat.mod_lt _ (by decide)), hpos, UInt32.ofNat_toNat, decide_eq_true hlt,
    Bool.true_and]

/-! ### The free map's file -/

/-- The copy of an inode on the disk leads to the same sectors. -/
theorem byteToSector_ofBlock (hd : bytesToSectors d.length ≤ 16635) (m : Sector → Block) (pos : ℤ) :
    byteToSector m (.ofBlock d.toBlock) pos = byteToSector m d pos := by
  have hroot : ∀ j, rootOf (.ofBlock d.toBlock) j = rootOf d j := fun j => by rw [rootOf_ofBlock]
  have hindirect : (InodeDisk.ofBlock d.toBlock).indirectBlock = d.indirectBlock := hroot 123
  have hdoubly : (InodeDisk.ofBlock d.toBlock).doublyIndirectBlock = d.doublyIndirectBlock := hroot 124
  unfold byteToSector indexToSector
  rw [length_ofBlock hd, hindirect, hdoubly]
  split_ifs with hpos h₁
  · have h := hroot (pos.toNat / 512)
    unfold rootOf at h
    rwa [if_pos h₁, if_pos h₁] at h
  · rfl
  · rfl
  · rfl
  · rfl

/-- `inode_write_at` sees of an inode only where its bytes are. -/
theorem writeLoop_congr {buffer : ℕ → UInt8} {bounce : Bool} (hlen : d'.length = d.length)
    (hsec : ∀ m pos, byteToSector m d' pos = byteToSector m d pos) :
    ∀ (fuel : ℕ) (m : Sector → Block) (size : ℤ) (offset done : ℕ),
      writeLoop d' bounce buffer fuel m size offset done =
        writeLoop d bounce buffer fuel m size offset done
  | 0, _, _, _, _ => rfl
  | fuel + 1, m, size, offset, done => by
      unfold writeLoop
      dsimp only
      simp only [hlen, hsec, writeLoop_congr hlen hsec fuel]

theorem Inv.freeMap_length (h : Inv st) (hi : st.openInodes 0 = some i) :
    i.data.length = bitmapFileSize st.size := by
  obtain ⟨j, hj, hlen⟩ := h.freeMap
  cases hi.symm.trans hj
  exact hlen

theorem Saved.bitmap (hv : Saved st) (h : Inv st) (hi : st.openInodes 0 = some i) :
    contents st.disk i.data = (List.range (bitmapFileSize st.size)).map
      (bitmapByte st.freeMap st.size) := by
  obtain ⟨j, m, hj, -, hX, hK⟩ := hv.synced.file h.freeMapFile
  cases hi.symm.trans hj
  have hlen := h.freeMap_length hi
  obtain ⟨hc, hs⟩ := h.opened_data hi
  unfold State.freeMapIndex at hX
  unfold State.freeMapData at hK
  rw [dataOf_open hi] at hX hK
  -- the tree is the same in `m`
  have howned : ∀ p x, Owned m i.data p x ↔ Owned st.disk i.data p x := fun p x =>
    ⟨Forest.congr_symm fun q y hq hl => hX y ⟨q, hl, hq⟩,
      Forest.congr fun q y hq hl => hX y ⟨q, hl, hq⟩⟩
  have hcm : Complete m i.data := hc.congr hX
  have hsm : Sole (Owned m i.data) := fun p q x hp hq =>
    hs p q x ((howned p x).mp hp) ((howned q x).mp hq)
  rcases hw : writeLoop i.data true (bitmapByte st.freeMap st.size) (bitmapFileSize st.size) m
    (bitmapFileSize st.size) 0 0 with ⟨m', n⟩
  have hfull : ((writeLoop i.data true (bitmapByte st.freeMap st.size) (bitmapFileSize st.size) m
      (bitmapFileSize st.size) 0 0).2 : ℤ) = (0 : ℕ) + (bitmapFileSize st.size : ℤ) :=
    writeLoop_full (by omega) (by omega) (by omega)
  rw [hw] at hfull
  obtain ⟨-, -, -, hlays⟩ := writeLoop_lays _ m _ 0 0 hcm hsm hw
  have hon : st.bitmapOn i.data m = m' := by
    unfold State.bitmapOn
    rw [hw]
  rw [hon] at hK
  unfold contents
  rw [hlen]
  refine List.map_congr_left fun pos hpos => ?_
  have hpos := List.mem_range.mp hpos
  obtain ⟨x, hx, -⟩ := hc.sector (hlen ▸ hpos)
  have hsmall := hc.small
  unfold bytesToSectors at hsmall
  have hbyte := hlays (pos / 512) x (pos % 512) (by omega) ((howned _ x).mpr hx)
    (Nat.mod_lt _ (by decide))
  have hn : n = bitmapFileSize st.size := by
    have : ((m', n).2 : ℤ) = n := rfl
    omega
  rw [byteAt_owned hc (hlen ▸ hpos) hx, hK x ⟨_, isLeaf_filePath _, hx⟩, hbyte,
    if_pos (by omega)]
  congr 1
  omega

/-- The state after `filesys_init (false)`. -/
def State.restarted (st : State) (heap : ℕ → Bool) : State :=
  { st with
    openInodes := update (fun _ => none) 0 (some ⟨1, false, 0, .ofBlock (st.disk 0)⟩)
    heap := heap
    freeMapFile := true
    allocFailed := false }

/-- What holds between calls that have memory and whose paths lead to files. -/
structure Up (st : State) : Prop where
  healthy : Healthy st
  clean : Clean st
  saved : Saved st
  size : 1 < st.size

/-- The free map's inode as it is read again. -/
theorem Up.loaded (h : Up st) (hi : st.openInodes 0 = some i) :
    st.disk 0 = i.data.toBlock ∧ (InodeDisk.ofBlock (st.disk 0)).length = bitmapFileSize st.size := by
  obtain ⟨j, m, hj, h0, -⟩ := h.saved.synced.file h.healthy.inv.freeMapFile
  cases hi.symm.trans hj
  have hsmall := (h.healthy.inv.opened_data hi).1.small
  exact ⟨h0, by rw [h0, length_ofBlock hsmall, h.healthy.inv.freeMap_length hi]⟩

theorem Up.read (h : Up st) : contents st.disk (.ofBlock (st.disk 0)) =
    (List.range (bitmapFileSize st.size)).map (bitmapByte st.freeMap st.size) := by
  obtain ⟨i, hi, -⟩ := h.saved.freeMapFile
  rw [(h.loaded hi).1, contents_ofBlock (h.healthy.inv.opened_data hi).1,
    h.saved.bitmap h.healthy.inv hi]

theorem Up.bits (h : Up st) :
    bitmapRead (contents st.disk (.ofBlock (st.disk 0))) st.size = st.freeMap := by
  funext s
  by_cases hs : s < st.size
  · rw [h.read, bitmapRead_bytes hs]
  · have hfree : st.freeMap s = false := by
      by_contra hne
      exact hs (h.healthy.inv.range s (Bool.eq_true_of_not_eq_false hne))
    unfold bitmapRead
    rw [decide_eq_false hs, Bool.false_and, hfree]

theorem filesysInit_eq (h : Up st) (hm : ∀ k, heap k = true) :
    filesysInit st.disk st.size st.live heap = some (st.restarted fun k => heap (k + 3)) := by
  obtain ⟨i, hi, -⟩ := h.saved.freeMapFile
  obtain ⟨-, hlen⟩ := h.loaded hi
  have hread : readLoop st.disk (.ofBlock (st.disk 0)) true (bitmapFileSize st.size : ℤ).toNat
      (bitmapFileSize st.size) 0 = contents st.disk (.ofBlock (st.disk 0)) := by
    rw [readLoop_eq _ _ _ (by omega), hlen]
    unfold contents
    rw [hlen, Int.toNat_natCast, Nat.sub_zero, Nat.min_self]
    simp only [Nat.zero_add]
  unfold filesysInit State.freeMapOpen
  rw [if_neg (UInt32.not_le.mpr h.size)]
  simp only [State.inodeOpen, State.malloc, hm, State.fileOpen, State.dirOpen, State.setInode,
    State.inodeReadAt, Function.update_self, if_true, Bool.true_eq_false, if_false,
    Option.bind_eq_bind, Option.bind_some, hread, contents_length, hlen, h.bits]
  rfl

theorem restarted_closed (hs : s ≠ 0) : (st.restarted heap).openInodes s = none := by
  unfold State.restarted
  dsimp only
  rw [Function.update_of_ne hs]

theorem restarted_zero :
    (st.restarted heap).openInodes 0 = some ⟨1, false, 0, .ofBlock (st.disk 0)⟩ := by
  unfold State.restarted
  dsimp only
  rw [Function.update_self]

theorem Up.not_open (h : Up st) (hclosed : Closed st) (hs : s ≠ 0) : st.openInodes s = none := by
  cases hi : st.openInodes s with
  | none => rfl
  | some i =>
      have hinv := h.healthy.inv
      have hlt := hinv.range s (hinv.used s [] s (owns_self (hinv.opened s i hi)))
      exact hi.symm.trans (hclosed s hs hlt)

/-- The inodes of the files are those from before. -/
theorem Up.restarted_dataOf (h : Up st) (heap : ℕ → Bool) (hclosed : Closed st) (hs : s ≠ 0) :
    (st.restarted heap).dataOf s = st.dataOf s := by
  rw [dataOf_closed (restarted_closed hs), dataOf_closed (h.not_open hclosed hs)]
  rfl

theorem Up.restarted_root (h : Up st) (heap : ℕ → Bool) (s : Sector) (hclosed : Closed st) :
    rootOf ((st.restarted heap).dataOf s) = rootOf (st.dataOf s) ∧
      ((st.restarted heap).dataOf s).length = (st.dataOf s).length := by
  by_cases hs : s = 0
  · subst hs
    obtain ⟨i, hi, -⟩ := h.saved.freeMapFile
    obtain ⟨h0, hlen⟩ := h.loaded hi
    rw [dataOf_open restarted_zero, dataOf_open hi]
    refine ⟨?_, hlen.trans (h.healthy.inv.freeMap_length hi).symm⟩
    change rootOf (.ofBlock (st.disk 0)) = _
    rw [h0, rootOf_ofBlock]
  · rw [h.restarted_dataOf heap hclosed hs]
    exact ⟨rfl, rfl⟩

theorem Up.restarted_owned (h : Up st) (hclosed : Closed st) (s : Sector) :
    Owned (st.restarted heap).disk ((st.restarted heap).dataOf s) = Owned st.disk (st.dataOf s) := by
  unfold Owned
  rw [(h.restarted_root heap s hclosed).1]
  rfl

theorem Up.restarted_inv (h : Up st) (hclosed : Closed st) : Inv (st.restarted heap) := by
  have hinv := h.healthy.inv
  have howns : ∀ s p x, (st.restarted heap).Owns s p x ↔ st.Owns s p x := fun s p x => by
    unfold State.Owns
    rw [h.restarted_owned hclosed s]
    rfl
  constructor
  · intro s p x t q hs ht
    exact hinv.sole s p x t q ((howns s p x).mp hs) ((howns t q x).mp ht)
  · intro s p x hs
    exact hinv.used s p x ((howns s p x).mp hs)
  · exact hinv.range
  · intro s hs
    have hc := hinv.complete s hs
    obtain ⟨hroot, hlen⟩ := h.restarted_root heap s hclosed
    refine ⟨by rw [hlen]; exact hc.small, ?_⟩
    rw [hlen, h.restarted_owned hclosed s]
    exact hc.place
  · intro s i hi
    by_cases hs : s = 0
    · subst hs
      exact hinv.live_zero
    · rw [restarted_closed hs] at hi
      cases hi
  · intro s i hi hs
    rw [restarted_closed hs] at hi
    cases hi
  · rfl
  · obtain ⟨i, hi, -⟩ := h.saved.freeMapFile
    exact ⟨_, restarted_zero, (h.loaded hi).2⟩

theorem Up.restarted (h : Up st) (hclosed : Closed st) (hm : ∀ k, heap k = true) :
    Up (st.restarted heap) := by
  obtain ⟨i, hi, -⟩ := h.saved.freeMapFile
  obtain ⟨h0, hlen⟩ := h.loaded hi
  have hsmall := (h.healthy.inv.opened_data hi).1.small
  have hdata : (st.restarted heap).freeMapData = st.freeMapData := by
    unfold State.freeMapData dataSectors
    rw [h.restarted_owned hclosed 0]
  have hindex : (st.restarted heap).freeMapIndex = st.freeMapIndex := by
    unfold State.freeMapIndex indexSectors
    rw [h.restarted_owned hclosed 0]
  refine ⟨⟨h.restarted_inv hclosed, ?_⟩, ?_, ⟨?_, ⟨_, restarted_zero, rfl, rfl⟩, ?_⟩, h.size⟩
  · intro s j hj
    by_cases hs : s = 0
    · subst hs
      rw [restarted_zero] at hj
      cases hj
      exact Nat.one_ne_zero
    · rw [restarted_closed hs] at hj
      cases hj
  · intro s hs hs0
    rw [h.restarted_dataOf heap hclosed hs0]
    exact h.clean s hs hs0
  · rw [hdata, hindex]
    refine ⟨hm, h.saved.synced.outside, fun _ => ?_⟩
    obtain ⟨j, m, hj, -, hX, hK⟩ := h.saved.synced.file h.healthy.inv.freeMapFile
    cases hi.symm.trans hj
    refine ⟨_, m, restarted_zero, ?_, hX, fun x hx => (hK x hx).trans ?_⟩
    · change st.disk 0 = (InodeDisk.ofBlock (st.disk 0)).toBlock
      rw [h0, toBlock_ofBlock]
    · -- the bitmap is written to the same sectors
      change st.bitmapOn i.data m x = st.bitmapOn (.ofBlock (st.disk 0)) m x
      rw [h0]
      unfold State.bitmapOn
      rw [writeLoop_congr (length_ofBlock hsmall) (byteToSector_ofBlock hsmall)]
  · intro s hs hs0
    rw [h.restarted_dataOf heap hclosed hs0]
    exact h.saved.stored s hs hs0

/-! ### Calls -/

theorem Up.works (h : Up st) (hw : Works Set.univ true st st') : Up st' := by
  obtain ⟨hhealthy, hb⟩ := h.healthy.works hw
  exact ⟨hhealthy, h.clean.deeds h.healthy hw.deeds, hw.saves h.healthy h.clean h.saved,
    hb.size ▸ h.size⟩

theorem Up.call (h : Up st) (hm : ∀ k, heap k = true) : Up (st.call heap) :=
  ⟨⟨h.healthy.inv.call, h.healthy.counted⟩, h.clean, h.saved.call hm, h.size⟩

/-- A write of a file, when all is written. -/
theorem write_work {buffer : ℕ → UInt8} {size : ℤ} {offset : ℕ} (h0 : s ≠ 0)
    (hm : ∀ k, st.heap k = true) (hpos : 1 ≤ size) (hsize : offT size = size)
    (hoffset : offT offset = offset)
    (hw : st.inodeWriteAt s buffer size offset = some (size.toNat, st')) :
    Work Set.univ true st st' := by
  have hcov := covered_of_memory hm (offT (offset + size))
  refine ⟨.act (a := .write s buffer size offset) (fun _ _ => Set.mem_univ _) hcov ?_ ?_ ?_,
    fun _ => inodeWriteAt_saves h0 hcov hpos hsize hoffset hw⟩
  · rintro t b n o heq
    cases heq
    exact hpos
  · rintro - t b n o heq
    cases heq
    exact ⟨st', hw⟩
  · unfold Files.act
    dsimp only
    rw [if_pos ⟨h0, hsize, hoffset⟩, hw]
    rfl

/-- Where the paths lead does not depend on `malloc`. -/
theorem ToFiles.call {c : FileCall} (heap : ℕ → Bool) (h : ToFiles st c) :
    ToFiles (st.call heap) c := by
  cases c with
  | create cwd path =>
      intro d hd
      have hd : pathDir (st.drift heap false) cwd (splitPathFilename path).1 = some d := hd
      rw [pathDir_drift] at hd
      exact h d hd
  | «open» cwd path =>
      intro s hs
      have hs : resolve (st.drift heap false) cwd path = some s := hs
      rw [resolve_drift] at hs
      exact h s hs
  | write => exact h
  | remove cwd path =>
      refine ⟨fun s hs => ?_, fun d hd => ?_⟩
      · have hs : victim (st.drift heap false) cwd path = some s := hs
        rw [victim_drift] at hs
        exact h.1 s hs
      · have hd : pathDir (st.drift heap false) cwd (splitPathFilename path).1 = some d := hd
        rw [pathDir_drift] at hd
        exact h.2 d hd
  | close => exact h

theorem Up.step {c : FileCall × (ℕ → Bool)} (h : Up st) (hc : Succeeds st c ∧ Regular st c)
    (hs : fileStep c st = some st') : Up st' := by
  obtain ⟨c, heap⟩ := c
  obtain ⟨hok, hm, hreg⟩ := hc
  have hu := h.call hm
  have hreg := hreg.call heap
  refine hu.works ?_
  unfold fileStep fileCall at hs
  unfold Succeeds at hok
  unfold ToFiles at hreg
  dsimp only at hs hok hreg hm
  cases c with
  | create cwd path initialSize isDir e =>
      dsimp only at hs hok hreg
      obtain ⟨st₁, hok⟩ := hok
      split_ifs at hs with hsize
      rw [hok] at hs
      cases hs
      have hw := filesysCreate_works hu.healthy
        (fun d hd => ⟨hreg d hd, covered_of_memory hm _⟩) hsize (covered_of_memory hm initialSize) hok
      exact Works.mono hw (Set.subset_univ _) fun _ => rfl
  | «open» cwd path =>
      dsimp only at hs hreg
      obtain ⟨⟨r, st₁⟩, ho, rfl⟩ := Option.map_eq_some_iff.mp hs
      exact filesysOpen_works hu.healthy hreg ho
  | write s buffer size offset =>
      dsimp only at hs hok hreg
      obtain ⟨hpos, st₁, hw⟩ := hok
      split_ifs at hs with hrange
      rw [hw] at hs
      cases hs
      exact .single (write_work hreg hm hpos hrange.1 hrange.2 hw)
  | remove cwd path =>
      dsimp only at hs hok hreg
      obtain ⟨st₁, hok⟩ := hok
      rw [hok] at hs
      cases hs
      exact filesysRemove_works hu.healthy
        (fun d hd => ⟨hreg.2 d hd, covered_of_memory hm _⟩) hreg.1 hok
  | close s =>
      dsimp only at hs hreg
      exact .single (close_work (Set.mem_univ s) hreg hs)

theorem up_doFormat {disk : Sector → Block} (hf : Paths.doFormat disk size heap e = some st)
    (hm : ∀ k, heap k = true) : Up st := by
  obtain ⟨st₁, st₂, st₃, hformat, h, h1, hd, hw, hclose⟩ := doFormat_cases hf
  have hsize := h.inv.range 1 (h.inv.used 1 [] 1 (owns_self h1.1))
  have hu : Up st₁ := ⟨h, clean_format hformat, saved_format hformat hm, hsize⟩
  exact hu.works (((opened_works (Set.mem_univ _) h1 hd).tail (writeEntry_work (Set.mem_univ _)
    h1.2 (by decide) (.inl (by decide)) hw)).tail (close_work (Set.mem_univ _) h1.2 hclose))

theorem Up.reachable {G : State → FileCall × (ℕ → Bool) → Prop} (h : Up st₀)
    (hG : ∀ st c, G st c → Succeeds st c ∧ Regular st c) (hr : Reachable fileStep G st₀ st) : Up st :=
  hr.invariant (I := Up) h fun _ _ _ _ hu hg hs => hu.step (hG _ _ hg) hs

theorem Booted.up (hb : Booted st) : Up st := by
  induction hb with
  | format hm hf => exact up_doFormat hf hm
  | again _ hr hclosed hm hinit ih =>
      have hu := ih.reachable (fun _ _ h => h) hr
      rw [filesysInit_eq hu hm] at hinit
      cases hinit
      exact hu.restarted hclosed fun k => hm (k + 3)

/-- The file is the same. -/
structure SameFile (st st' : State) (s : Sector) : Prop where
  isDir : (st'.dataOf s).isDir = (st.dataOf s).isDir
  contents : contents st'.disk (st'.dataOf s) = contents st.disk (st.dataOf s)

theorem SameFile.trans (h : SameFile st st₁ s) (h' : SameFile st₁ st' s) : SameFile st st' s :=
  ⟨h'.isDir.trans h.isDir, h'.contents.trans h.contents⟩

/-- A directory that is the same has the same names. -/
theorem SameFile.lookup (h : SameFile st st' s) (name : Name) :
    lookup st'.disk (st'.dataOf s) name = lookup st.disk (st.dataOf s) name := by
  rw [lookup_eq, lookup_eq, h.contents]

theorem isDir_ofBlock (d : InodeDisk) : (InodeDisk.ofBlock d.toBlock).isDir = d.isDir := by
  unfold InodeDisk.ofBlock InodeDisk.toBlock
  simp only [word_ofWords]
  cases d.isDir <;> rfl

theorem Up.close_same (h : Up st) (h0 : s ≠ 0) (hc : st.inodeClose s = some st')
    (ht : st'.live t = true) (ht0 : t ≠ 0) : st.live t = true ∧ SameFile st st' t := by
  have hinv := h.healthy.inv
  obtain ⟨-, hl⟩ := inodeClose_local hinv h0 hc
  by_cases hts : t = s
  · subst hts
    obtain ⟨i, hi⟩ := inodeClose_open hc
    have hlive := hinv.opened t i hi
    have hstored := h.saved.stored t hlive h0
    refine ⟨hlive, ?_, (inodeClose_stored hinv h0 hc ht hstored).2⟩
    obtain ⟨-, -, -, hgone, -⟩ | ⟨j, hj, rfl⟩ | ⟨j, j', hj, rfl, hd⟩ := inodeClose_cases hinv h0 hc
    · rw [hgone, Function.update_self] at ht
      cases ht
    · rw [dataOf_setInode_none, hstored, isDir_ofBlock]
    · rw [dataOf_setInode, dataOf_open hj, hd]
  · rw [hl.live t hts] at ht
    exact ⟨ht, by rw [hl.dataOf_eq hinv hts ht], hl.contents_eq hinv hts ht0 ht⟩

/-- The files are closed one after the other. -/
def Closes (st : State) (c : FileCall × (ℕ → Bool)) : Prop :=
  (Succeeds st c ∧ Regular st c) ∧ ∃ s, c.1 = .close s

theorem closes_same (h : Up st₀) (hr : Reachable fileStep Closes st₀ st) :
    Up st ∧ ∀ t, st.live t = true → t ≠ 0 → st₀.live t = true ∧ SameFile st₀ st t := by
  refine hr.invariant (I := fun st => Up st ∧ ∀ t, st.live t = true → t ≠ 0 →
    st₀.live t = true ∧ SameFile st₀ st t) ⟨h, fun t ht _ => ⟨ht, rfl, rfl⟩⟩ ?_
  rintro st ⟨c, heap⟩ st' - ⟨hu, hsame⟩ ⟨hg, s, rfl⟩ hs
  have hs : (st.call heap).inodeClose s = some st' := hs
  refine ⟨hu.step hg hs, fun t ht ht0 => ?_⟩
  obtain ⟨hlive, hclose⟩ := (hu.call hg.2.1).close_same hg.2.2 hs ht ht0
  obtain ⟨hlive₀, hopen⟩ := hsame t hlive ht0
  exact ⟨hlive₀, hopen.trans ⟨hclose.isDir, hclose.contents⟩⟩

/-! ### The restart on the device -/

/-- The cache shows the disk. -/
def Shows (c : Cache) (m : Sector → Block) : Prop :=
  ∀ s x, (hx : x < 512) → m s x = (c.contents s)[x]

/-- `filesys_done` leaves all that the cache shows on the device. -/
theorem filesysDone_spec (hi : st.openInodes 0 = some i) (hcnt : i.openCnt = 1)
    (hrem : i.removed = false) {c : Cache} (hc : c.Idle) :
    ∃ c₁, filesysDone st c = some c₁ ∧ c₁.device = c.contents := by
  obtain ⟨c₁, hclose, -, -, hdevice, -⟩ := Cache.close_spec hc
  have hdone : st.inodeClose 0 = some (st.setInode 0 none) := by
    unfold State.inodeClose
    rw [hi]
    dsimp only
    rw [if_pos (by rw [hcnt]), if_neg (by rw [hrem]; exact Bool.false_ne_true)]
  refine ⟨c₁, ?_, hdevice.trans (Cache.contents_eq_view hc.inv.coherent).symm⟩
  unfold filesysDone
  rw [hdone]
  exact hclose

theorem contents_init (c : Cache) : c.bufferCacheInit.contents = c.device := by
  obtain ⟨hc, hview⟩ := Cache.init_spec c
  rw [Cache.contents_eq_view hc.inv.coherent, hview]

/-- The cache shows the same before and after a restart. -/
theorem filesysDone_shows (hi : st.openInodes 0 = some i) (hcnt : i.openCnt = 1)
    (hrem : i.removed = false) {c : Cache} (hc : c.Idle) (hshow : Shows c m) :
    ∃ c₁, filesysDone st c = some c₁ ∧
      ∀ c₂ : Cache, c₂.device = c₁.device → Shows c₂.bufferCacheInit m := by
  obtain ⟨c₁, hdone, hdevice⟩ := filesysDone_spec hi hcnt hrem hc
  refine ⟨c₁, hdone, fun c₂ hc₂ s x hx => ?_⟩
  rw [hshow s x hx, contents_init, hc₂, hdevice]

variable {c₀ c : Cache} {l : List (Cache × CacheOp)}

/-- **Files persist.**  After any calls that succeed, have memory and lead to files, when all files
are closed, the cache that `filesys_init (false)` starts with shows the disk that the one before
showed; the free map that is read is the one before, and each file and directory, with its names, is
as it was before the files were closed.  The next calls may follow. -/
theorem files_persist (hb : Booted st₀)
    (hr : Reachable fileStep (fun st c => Succeeds st c ∧ Regular st c) st₀ st₁)
    (hclose : Reachable fileStep Closes st₁ st) (hclosed : Closed st)
    (hcache : Run cacheStep anyOp c₀.bufferCacheInit l c) (hshow : Shows c st.disk) :
    ∃ c₁, filesysDone st c = some c₁ ∧ ∀ (c₂ : Cache) heap, c₂.device = c₁.device → (∀ k, heap k = true) →
      Shows c₂.bufferCacheInit st.disk ∧
      ∃ st', filesysInit st.disk st.size st.live heap = some st' ∧ st'.freeMap = st.freeMap ∧
        (∀ s, st.live s = true → s ≠ 0 → SameFile st₁ st' s ∧
          ∀ name, lookup st'.disk (st'.dataOf s) name = lookup st₁.disk (st₁.dataOf s) name) ∧
        Booted st' := by
  have hu₁ := hb.up.reachable (fun _ _ h => h) hr
  obtain ⟨hu, hsame⟩ := closes_same hu₁ hclose
  obtain ⟨i, hi, hcnt, hrem⟩ := hu.saved.freeMapFile
  obtain ⟨c₁, hdone, hshow₂⟩ := filesysDone_shows hi hcnt hrem (run_view hcache).1 hshow
  refine ⟨c₁, hdone, fun c₂ heap hc₂ hm => ⟨hshow₂ c₂ hc₂, ?_⟩⟩
  have hinit := filesysInit_eq hu hm
  refine ⟨_, hinit, rfl, fun s hs h0 => ?_, .again hb ?_ hclosed hm hinit⟩
  · obtain ⟨-, hfile⟩ := hsame s hs h0
    have hdata := hu.restarted_dataOf (fun k => heap (k + 3)) hclosed h0
    have hthen := hfile.trans ⟨by rw [hdata], by rw [hdata]; rfl⟩
    exact ⟨hthen, hthen.lookup⟩
  · obtain ⟨l₁, hr₁⟩ := hclose
    exact hr.run (fun _ _ h => h.1) hr₁

/-! ### Calls on a new file system -/

theorem map_fst_eq {α β : Type} {o : Option (α × β)} {a : α} :
    o.map Prod.fst = some a ↔ ∃ b, o = some (a, b) := by
  cases o with
  | none => simp
  | some x =>
      obtain ⟨a', b⟩ := x
      simp

instance (st : State) : (c : FileCall × (ℕ → Bool)) → Decidable (Succeeds st c)
  | (.create .., _) => decidable_of_iff _ map_fst_eq
  | (.open .., _) => .isTrue trivial
  | (.write .., _) => decidable_of_iff _ (and_congr_right' map_fst_eq)
  | (.remove .., _) => decidable_of_iff _ map_fst_eq
  | (.close .., _) => .isTrue trivial

instance (st : State) (s : Sector) : Decidable (IsFile st s) :=
  inferInstanceAs (Decidable (_ ∧ _))

instance (st : State) : (c : FileCall) → Decidable (ToFiles st c)
  | .create cwd path _ _ _ => (pathDir st cwd (splitPathFilename path).1).decidableForallMem
  | .open cwd path => (resolve st cwd path).decidableForallMem
  | .write s .. => inferInstanceAs (Decidable (s ≠ 0))
  | .remove cwd path => @instDecidableAnd _ _ (victim st cwd path).decidableForallMem
      (pathDir st cwd (splitPathFilename path).1).decidableForallMem
  | .close s => inferInstanceAs (Decidable (s ≠ 0))

/-- The calls `as` on a new file system of forty sectors, as long as each meets `g`. -/
def onNew (g : State → FileCall × (ℕ → Bool) → Bool) (as : List (FileCall × (ℕ → Bool))) :
    Option State := do
  let st₀ ← Paths.doFormat (fun _ => zeros) 40 (fun _ => true) ⟨0, List.replicate 15 0, 1⟩
  execute (checked g fileStep) as st₀

theorem onNew_reachable {g : State → FileCall × (ℕ → Bool) → Bool}
    {as : List (FileCall × (ℕ → Bool))} (h : onNew g as = some st) : ∃ st₀,
      Paths.doFormat (fun _ => zeros) 40 (fun _ => true) ⟨0, List.replicate 15 0, 1⟩ = some st₀ ∧
      Reachable fileStep (fun st c => g st c = true ∧ c ∈ as) st₀ st := by
  unfold onNew at h
  rw [Option.bind_eq_bind] at h
  obtain ⟨st₀, h₀, h⟩ := Option.bind_eq_some_iff.mp h
  obtain ⟨l, hr⟩ := execute_reachable (G := fun _ c => c ∈ as) (fun _ _ hc => hc) .refl h
  exact ⟨st₀, h₀, l, hr.of_checked⟩

/-- Of the forty sectors none but that of the free map has an open inode. -/
def allClosed (st : State) : Bool :=
  st.size == 40 && (List.range 40).all fun k => k == 0 || (st.openInodes (UInt32.ofNat k)).isNone

theorem closed_of_allClosed (h : allClosed st = true) : Closed st := by
  unfold allClosed at h
  rw [Bool.and_eq_true, beq_iff_eq, List.all_eq_true] at h
  obtain ⟨hsize, hall⟩ := h
  intro s h0 hs
  have hlt : s.toNat < 40 := by
    rw [hsize, UInt32.lt_iff_toNat_lt] at hs
    exact hs
  have hnone := hall s.toNat (List.mem_range.mpr hlt)
  rw [UInt32.ofNat_toNat, Bool.or_eq_true, beq_iff_eq, Option.isNone_iff_eq_none] at hnone
  exact hnone.resolve_left fun h => h0 (UInt32.toNat_inj.mp h)

/-- A device with the disk `m`, and a cache that is empty. -/
def deviceOf (m : Sector → Block) (size : Sector) : Cache :=
  { blankDisk with device := fun s => Vector.ofFn fun x => m s x, size := size }

theorem shows_deviceOf (m : Sector → Block) (size : Sector) :
    Shows (deviceOf m size).bufferCacheInit m := by
  intro s x hx
  rw [contents_init]
  unfold deviceOf
  dsimp only
  rw [Vector.getElem_ofFn]

/-- `"/a"`. -/
def pathA : List UInt8 := [47, 97]

/-- A file is made and written. -/
def writing : List (FileCall × (ℕ → Bool)) :=
  [.create none pathA 0 false ⟨0, [], 0⟩, .open none pathA, .write 4 (fun _ => 7) 2 1].map
    fun c => (c, fun _ => true)

theorem files_persist_written : ∃ st₀ st₁ st c₁ st',
    Paths.doFormat (fun _ => zeros) 40 (fun _ => true) ⟨0, List.replicate 15 0, 1⟩ = some st₀ ∧
    Reachable fileStep (fun st c => Succeeds st c ∧ Regular st c) st₀ st₁ ∧
    Reachable fileStep Closes st₁ st ∧ Closed st ∧
    filesysDone st (deviceOf st.disk 40).bufferCacheInit = some c₁ ∧
    filesysInit st.disk st.size st.live (fun _ => true) = some st' ∧ st'.freeMap = st.freeMap ∧
    contents st'.disk (st'.dataOf 4) = [0, 7, 7] := by
  have h : ((onNew (fun st c => decide (Succeeds st c ∧ ToFiles st c.1)) writing).bind fun st₁ =>
      (fileStep (.close 4, fun _ => true) st₁).map fun st =>
        (allClosed st, st.live 4, contents st₁.disk (st₁.dataOf 4))) = some (true, true, [0, 7, 7]) := by
    decide +kernel
  obtain ⟨st₁, h₁, h⟩ := Option.bind_eq_some_iff.mp h
  obtain ⟨st, hclose, hfacts⟩ := Option.map_eq_some_iff.mp h
  simp only [Prod.mk.injEq] at hfacts
  obtain ⟨hall, hlive, hbytes⟩ := hfacts
  obtain ⟨st₀, h₀, l, hr⟩ := onNew_reachable h₁
  have hr : Reachable fileStep (fun st c => Succeeds st c ∧ Regular st c) st₀ st₁ := by
    refine ⟨l, hr.mono fun st c hc => ?_⟩
    obtain ⟨hok, hto⟩ := of_decide_eq_true hc.1
    obtain ⟨a, -, rfl⟩ := List.mem_map.mp hc.2
    exact ⟨hok, fun _ => rfl, hto⟩
  have hcloses : Closes st₁ (.close 4, fun _ => true) :=
    ⟨⟨trivial, fun _ => rfl, show (4 : Sector) ≠ 0 by decide⟩, 4, rfl⟩
  have hc : Reachable fileStep Closes st₁ st := .tail .refl hcloses hclose
  have hclosed := closed_of_allClosed hall
  obtain ⟨c₁, hdone, h⟩ := files_persist (.format (fun _ => rfl) h₀) hr hc hclosed .nil
    (shows_deviceOf st.disk 40)
  obtain ⟨-, st', hinit, hmap, hsame, -⟩ := h c₁ (fun _ => true) rfl fun _ => rfl
  exact ⟨st₀, st₁, st, c₁, st', h₀, hr, hc, hclosed, hdone, hinit, hmap,
    (hsame 4 hlive (by decide)).1.contents.trans hbytes⟩

/-- After the shutdown the free map that is read is another one. -/
def Loses (st : State) : Prop :=
  ∃ (c c₁ c₂ : Cache) (st' : State), c.Idle ∧ Shows c st.disk ∧ filesysDone st c = some c₁ ∧ c₂.device = c₁.device ∧
    Shows c₂.bufferCacheInit st.disk ∧
    filesysInit st.disk st.size st.live (fun _ => true) = some st' ∧ st'.freeMap ≠ st.freeMap

/-- What decides whether the bit of the sector `s` is lost. -/
def lossOf (s : Sector) (st : State) : Option (Bool × ℕ × Bool × Bool × Bool) := do
  let i ← st.openInodes 0
  let st' ← filesysInit st.disk st.size st.live fun _ => true
  some (allClosed st, i.openCnt, i.removed, st.freeMap s, st'.freeMap s)

theorem loses_of_lossOf {b : Bool} (h : lossOf s st = some (true, 1, false, b, !b)) :
    Closed st ∧ Loses st := by
  unfold lossOf at h
  simp only [Option.bind_eq_bind, Option.bind_eq_some_iff] at h
  obtain ⟨i, hi, st', hinit, hfacts⟩ := h
  simp only [Option.some.injEq, Prod.mk.injEq] at hfacts
  obtain ⟨hall, hcnt, hrem, hold, hnew⟩ := hfacts
  have hidle := (Cache.init_spec (deviceOf st.disk st.size)).1
  have hshow := shows_deviceOf st.disk st.size
  obtain ⟨c₁, hdone, hshow₂⟩ := filesysDone_shows hi hcnt hrem hidle hshow
  refine ⟨closed_of_allClosed hall, _, c₁, c₁, st', hidle, hshow, hdone, rfl, hshow₂ c₁ rfl, hinit,
    fun heq => ?_⟩
  rw [heq, hold] at hnew
  cases b <;> cases hnew

/-- A file is made and removed, and there is no memory for the bytes of the free map. -/
def removing : List (FileCall × (ℕ → Bool)) :=
  [(.create none pathA 0 false ⟨0, [], 0⟩, fun _ => true), (.remove none pathA, fun k => k < 4)]

theorem lossOf_removing : (onNew (fun st c => decide (Succeeds st c ∧ ToFiles st c.1)) removing).bind
    (lossOf 4) = some (true, 1, false, false, true) := by
  decide +kernel

/-- A file of zeros is made.  As a directory it has the sector 0 for its parent, so `"/a/.."` is the
free map's inode; a byte of its file is set. -/
def overwriting : List (FileCall × (ℕ → Bool)) :=
  [.create none pathA 20 false ⟨0, [], 0⟩, .open none (pathA ++ [slash] ++ dotDot),
    .write 0 (fun _ => 255) 1 1, .close 0].map fun c => (c, fun _ => true)

theorem lossOf_overwriting : (onNew (fun st c => decide (Succeeds st c)) overwriting).bind
    (lossOf 8) = some (true, 1, false, false, true) := by
  decide +kernel

/-- A release without memory is not written to the free map's file, and neither does the shutdown
write it; a path through a file may lead to the free map itself. -/
theorem free_map_lost :
    (∃ st₀ st, Paths.doFormat (fun _ => zeros) 40 (fun _ => true) ⟨0, List.replicate 15 0, 1⟩ =
        some st₀ ∧
      Reachable fileStep (fun st c => Succeeds st c ∧ ToFiles st c.1) st₀ st ∧ Closed st ∧ Loses st) ∧
    ∃ st₀ st, Paths.doFormat (fun _ => zeros) 40 (fun _ => true) ⟨0, List.replicate 15 0, 1⟩ =
        some st₀ ∧
      Reachable fileStep (fun st c => Succeeds st c ∧ ∀ k, c.2 k = true) st₀ st ∧ Closed st ∧
      Loses st := by
  constructor
  · obtain ⟨st, h, hloss⟩ := Option.bind_eq_some_iff.mp lossOf_removing
    obtain ⟨st₀, h₀, l, hr⟩ := onNew_reachable h
    exact ⟨st₀, st, h₀, ⟨l, hr.mono fun _ _ hc => of_decide_eq_true hc.1⟩, loses_of_lossOf hloss⟩
  · obtain ⟨st, h, hloss⟩ := Option.bind_eq_some_iff.mp lossOf_overwriting
    obtain ⟨st₀, h₀, l, hr⟩ := onNew_reachable h
    refine ⟨st₀, st, h₀, ⟨l, hr.mono fun _ c hc => ?_⟩, loses_of_lossOf hloss⟩
    obtain ⟨a, -, rfl⟩ := List.mem_map.mp hc.2
    exact ⟨of_decide_eq_true hc.1, fun _ => rfl⟩

end CSE130.Lab3.Files
