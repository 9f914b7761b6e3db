import CSE130.Lab3.Inode
import CSE130.Lib.BlockTree
import Mathlib.Data.Nat.Notation

/-! # What a reservation does to the disk

`inode_reserve` lets the tree of an inode grow (`BlockTree.Grows`) through its three levels, with
every failure on the way: the blocks that come in were free, no other block in use changes, and
on success every index below the new length has its sector. -/

namespace CSE130.Lab3.Files

open BlockTree
open Function (update)
open State (reserveIndirect reserveLoop)

/-! ### Words -/

theorem toNat_byte (v k : ℕ) : (UInt8.ofNat (v / 256 ^ k)).toNat = v / 256 ^ k % 256 := by
  simp only [UInt8.toNat_ofNat']

@[simp] theorem word_ofWords (w : ℕ → UInt32) (i : ℕ) : word (ofWords w) i = w i := by
  have hlt : (w i).toNat < 2 ^ 32 := (w i).toNat_lt
  have hbyte : ∀ j, j < 4 → (ofWords w (4 * i + j)).toNat = (w i).toNat / 256 ^ j % 256 :=
    fun j hj => by
      have hdiv : (4 * i + j) / 4 = i := by omega
      have hmod : (4 * i + j) % 4 = j := by omega
      unfold ofWords
      rw [hdiv, hmod, toNat_byte]
  have h0 := hbyte 0 (by omega)
  have h1 := hbyte 1 (by omega)
  have h2 := hbyte 2 (by omega)
  have h3 := hbyte 3 (by omega)
  apply UInt32.toNat_inj.mp
  unfold word
  rw [Nat.add_zero] at h0
  rw [h0, h1, h2, h3, UInt32.toNat_ofNat']
  omega

@[simp] theorem word_zeros (i : ℕ) : word zeros i = 0 := rfl

instance : Layout Sector Block where
  width := 128
  entry := word
  blank := zeros
  entry_blank _ _ := word_zeros _

/-! ### The state during an operation -/

variable {st st' st₁ : State} {K X Z : Set Sector} {k : ℕ} {d d' : InodeDisk} {buffer : ℕ → UInt8}
  {s e x : Sector} {m : Sector → Block} {i : Inode}

/-- The sector is in use. -/
def State.Used (st : State) (x : Sector) : Prop := st.freeMap x = true

/-- Once `malloc` has failed it fails for the rest of an operation. -/
def Steady (heap : ℕ → Bool) : Prop := ∀ k, heap k = false → heap (k + 1) = false

theorem Steady.of_first {heap : ℕ → Bool} (h : Steady heap) (h0 : heap 0 = false) :
    ∀ k, heap k = false
  | 0 => h0
  | k + 1 => h k (h.of_first h0 k)

/-- Allocations depend on `malloc` when the free map has its file. -/
def Settled (st : State) : Prop := st.freeMapFile = true → Steady st.heap

/-- What reservations and releases leave alone. -/
structure Passive (st st' : State) : Prop where
  size : st'.size = st.size
  freeMapFile : st'.freeMapFile = st.freeMapFile
  openInodes : st'.openInodes = st.openInodes
  live : st'.live = st.live
  steady : Steady st.heap → Steady st'.heap
  failed : st.allocFailed = true → st'.allocFailed = true

theorem Passive.refl (st : State) : Passive st st := ⟨rfl, rfl, rfl, rfl, id, id⟩

theorem Passive.trans (h : Passive st st₁) (h' : Passive st₁ st') : Passive st st' :=
  ⟨h'.size.trans h.size, h'.freeMapFile.trans h.freeMapFile, h'.openInodes.trans h.openInodes,
    h'.live.trans h.live, fun hs => h'.steady (h.steady hs), fun hf => h'.failed (h.failed hf)⟩

theorem Passive.settled (h : Passive st st') (hs : Settled st) : Settled st' := fun hf =>
  h.steady (hs (h.freeMapFile ▸ hf))

theorem passive_write (st : State) (s : Sector) (b : Block) : Passive st (st.write s b) :=
  ⟨rfl, rfl, rfl, rfl, id, id⟩

theorem passive_mark (st : State) (s : Sector) (b : Bool) : Passive st (st.mark s b) :=
  ⟨rfl, rfl, rfl, rfl, id, id⟩

/-- Only sectors of `Z` have changed, and none was taken or given back. -/
structure Still (Z : Set Sector) (st st' : State) : Prop where
  passive : Passive st st'
  freeMap : st'.freeMap = st.freeMap
  disk : ∀ x, x ∉ Z → st'.disk x = st.disk x

theorem Still.refl (st : State) : Still Z st st := ⟨.refl st, rfl, fun _ _ => rfl⟩

theorem Still.trans (h : Still Z st st₁) (h' : Still Z st₁ st') : Still Z st st' :=
  ⟨h.passive.trans h'.passive, h'.freeMap.trans h.freeMap,
    fun x hx => (h'.disk x hx).trans (h.disk x hx)⟩

theorem Still.mono {Z' : Set Sector} (h : Still Z st st') (hZ : Z ⊆ Z') : Still Z' st st' :=
  { h with disk := fun x hx => h.disk x fun hz => hx (hZ hz) }

theorem Still.used (h : Still Z st st') : st'.Used x ↔ st.Used x := by
  unfold State.Used
  rw [h.freeMap]

theorem Still.scan (h : Still Z st st') : st'.scan = st.scan := by
  unfold State.scan
  rw [h.freeMap, h.passive.size]

/-- Every position of the inode `d` is in a sector of `K`, whatever is on the disk outside `X`. -/
def Backed (K X : Set Sector) (m : Sector → Block) (d : InodeDisk) : Prop :=
  ∀ m' : Sector → Block, (∀ x ∈ X, m' x = m x) → ∀ pos : ℕ, pos < d.length →
    byteToSector m' d pos ∈ K

theorem Backed.congr {m m' : Sector → Block} (h : Backed K X m d) (hm : ∀ x ∈ X, m' x = m x) :
    Backed K X m' d :=
  fun m'' hm'' => h m'' fun x hx => (hm'' x hx).trans (hm x hx)

/-- The ground on which an allocation stands: `K` are the data sectors of the free map's file, and
`X` its index blocks. -/
structure Ground (K X : Set Sector) (st : State) : Prop where
  zero : st.Used 0
  range : ∀ x, st.Used x → x < st.size
  used : ∀ x ∈ K ∪ X, st.Used x
  fixedZero : (0 : Sector) ∉ X
  disjoint : ∀ x ∈ X, x ∉ K
  backed : st.freeMapFile = true → ∃ i, st.openInodes 0 = some i ∧
    i.data.length = bitmapFileSize st.size ∧ Backed K X st.disk i.data

theorem Ground.next (g : Ground K X st) (hp : Passive st st') (hu : ∀ x, st.Used x → st'.Used x)
    (hr : ∀ x, st'.Used x → x < st.size) (hm : ∀ x ∈ X, st'.disk x = st.disk x) :
    Ground K X st' where
  zero := hu 0 g.zero
  range x hx := by
    rw [hp.size]
    exact hr x hx
  used x hx := hu x (g.used x hx)
  fixedZero := g.fixedZero
  disjoint := g.disjoint
  backed hf := by
    rw [hp.freeMapFile] at hf
    obtain ⟨i, hi, hl, hb⟩ := g.backed hf
    exact ⟨i, by rw [hp.openInodes, hi], by rw [hp.size, hl], hb.congr hm⟩

theorem Ground.still (g : Ground K X st) (h : Still Z st st') (hZ : ∀ x ∈ X, x ∉ Z) :
    Ground K X st' :=
  g.next h.passive (fun _ => h.used.mpr) (fun x hx => g.range x (h.used.mp hx)) fun x hx =>
    h.disk x (hZ x hx)

theorem used_mark {b : Bool} : (st.mark s b).Used x ↔ if x = s then b = true else st.Used x := by
  change update st.freeMap s b x = true ↔ _
  rw [Function.update_apply]
  split_ifs
  · rfl
  · rfl

theorem Ground.mark (g : Ground K X st) (hs : s < st.size) : Ground K X (st.mark s true) := by
  refine g.next (passive_mark st s true) (fun x hx => used_mark.mpr ?_) (fun x hx => ?_)
    fun _ _ => rfl
  · split_ifs
    · rfl
    · exact hx
  · have h := used_mark.mp hx
    split_ifs at h with hxs
    · rw [hxs]
      exact hs
    · exact g.range x h

theorem Ground.write {b : Block} (g : Ground K X st) (hs : s ∉ X) : Ground K X (st.write s b) :=
  g.next (passive_write st s b) (fun _ h => h) g.range fun _ hx =>
    Function.update_of_ne (ne_of_mem_of_not_mem hx hs) ..

/-! ### Writing inside an inode -/

theorem chunkSize_le (length : ℕ) (size : ℤ) (offset : ℕ) :
    chunkSize length size offset ≤ size ∧
      (offset : ℤ) + chunkSize length size offset ≤ length ∧
      chunkSize length size offset ≤ (512 - offset % 512 : ℕ) := by
  unfold chunkSize
  omega

/-- A write inside an inode changes the sectors of the inode only. -/
theorem writeLoop_other {bounce : Bool} : ∀ {fuel : ℕ} {m : Sector → Block} {size : ℤ}
    {offset done : ℕ}, Backed K X m d → (∀ x ∈ X, x ∉ K) → x ∉ K →
    (writeLoop d bounce buffer fuel m size offset done).1 x = m x
  | 0, _, _, _, _, _, _, _ => rfl
  | fuel + 1, m, size, offset, done, hb, hX, hx => by
      unfold writeLoop
      dsimp only
      split_ifs with hstop hfull hbounce
      · rfl
      all_goals
        first
        | rfl
        | have hpos := chunkSize_le d.length size offset
          have hK := hb m (fun _ _ => rfl) offset (by omega)
          have hne : ∀ y, y ∉ K → y ≠ byteToSector m d offset := fun y hy h => hy (by rw [h]; exact hK)
          have hb' : ∀ b, Backed K X (update m (byteToSector m d offset) b) d := fun b =>
            hb.congr fun y hy => Function.update_of_ne (hne y (hX y hy)) ..
          rw [writeLoop_other (hb' _) hX hx, Function.update_of_ne (hne x hx)]

/-- How much is written depends neither on the bytes nor on the disk. -/
theorem writeLoop_count {bounce : Bool} {buffer' : ℕ → UInt8} : ∀ {fuel : ℕ}
    {m m' : Sector → Block} {size : ℤ} {offset done : ℕ},
    (writeLoop d bounce buffer fuel m size offset done).2 =
      (writeLoop d bounce buffer' fuel m' size offset done).2
  | 0, _, _, _, _, _ => rfl
  | fuel + 1, m, m', size, offset, done => by
      unfold writeLoop
      dsimp only
      split_ifs
      · rfl
      · exact writeLoop_count
      · exact writeLoop_count
      · exact writeLoop_count
      · rfl

/-- Unless the loop asks for a bounce buffer and gets none, everything before the end of file is
written. -/
theorem writeLoop_whole {bounce : Bool} : ∀ {fuel : ℕ} {m : Sector → Block} {size : ℤ}
    {offset done : ℕ}, (needsBounce d fuel size offset && !bounce) = false → 0 ≤ size →
    size ≤ fuel → offset + size ≤ d.length →
    ((writeLoop d bounce buffer fuel m size offset done).2 : ℤ) = done + size
  | 0, m, size, offset, done, _, h0, hf, _ => by
      change (done : ℤ) = done + size
      omega
  | fuel + 1, m, size, offset, done, hb, h0, hf, hl => by
      have hc : chunkSize d.length size offset = min size (512 - offset % 512 : ℕ) := by
        unfold chunkSize
        omega
      unfold needsBounce at hb
      unfold writeLoop
      dsimp only at hb ⊢
      rw [hc] at hb ⊢
      by_cases hstop : size ≤ 0 ∨ min size (512 - offset % 512 : ℕ) ≤ 0
      · rw [if_pos hstop]
        change (done : ℤ) = _
        omega
      rw [if_neg hstop] at hb ⊢
      by_cases hfull : offset % 512 = 0 ∧ min size (512 - offset % 512 : ℕ) = 512
      · rw [if_pos hfull] at hb ⊢
        rw [writeLoop_whole hb (by omega) (by omega) (by omega)]
        omega
      -- the chunk is a part of a sector, so there is a buffer, and the rest is written as well
      rw [if_neg hfull] at hb ⊢
      obtain rfl : bounce = true := by simpa using hb
      rw [if_pos rfl, writeLoop_whole (by rw [Bool.not_true, Bool.and_false]) (by omega) (by omega)
        (by omega)]
      omega

/-- With a bounce buffer everything before the end of file is written. -/
theorem writeLoop_full {fuel : ℕ} {m : Sector → Block} {size : ℤ} {offset done : ℕ} :
    0 ≤ size → size ≤ fuel → offset + size ≤ d.length →
    ((writeLoop d true buffer fuel m size offset done).2 : ℤ) = done + size :=
  writeLoop_whole (by rw [Bool.not_true, Bool.and_false])

/-! ### The free map -/

theorem bitmapWrite_eq (hi : st.openInodes 0 = some i) : st.bitmapWrite =
    ((writeLoop i.data (st.heap 0) (bitmapByte st.freeMap st.size) (bitmapFileSize st.size) st.disk
        (bitmapFileSize st.size) 0 0).2 == bitmapFileSize st.size,
      { st with
        disk := (writeLoop i.data (st.heap 0) (bitmapByte st.freeMap st.size)
          (bitmapFileSize st.size) st.disk (bitmapFileSize st.size) 0 0).1
        heap := fun k => st.heap (k + 1) }) := by
  unfold State.bitmapWrite
  rw [hi]

theorem bitmapWrite_still (g : Ground K X st) (hf : st.freeMapFile = true) :
    Still K st st.bitmapWrite.2 := by
  obtain ⟨i, hi, -, hb⟩ := g.backed hf
  rw [bitmapWrite_eq hi]
  exact ⟨⟨rfl, rfl, rfl, rfl, fun h k => h (k + 1), id⟩, rfl, fun x hx =>
    writeLoop_other hb g.disjoint hx⟩

/-- The bitmap is not written to the end when there is no memory. -/
def State.Short (st : State) : Prop := ∃ i, st.openInodes 0 = some i ∧ ∀ buffer m,
  (writeLoop i.data false buffer (bitmapFileSize st.size) m (bitmapFileSize st.size) 0 0).2 ≠
    bitmapFileSize st.size

theorem bitmapWrite_failed (g : Ground K X st) (hf : st.freeMapFile = true)
    (h : st.bitmapWrite.1 = false) : st.heap 0 = false ∧ st.Short := by
  obtain ⟨i, hi, hl, -⟩ := g.backed hf
  rw [bitmapWrite_eq hi] at h
  have hne := beq_eq_false_iff_ne.mp h
  cases h0 : st.heap 0 with
  | false =>
      rw [h0] at hne
      exact ⟨rfl, i, hi, fun buffer m hm => hne (writeLoop_count.trans hm)⟩
  | true =>
      rw [h0] at hne
      have hfull : ((writeLoop i.data true (bitmapByte st.freeMap st.size) (bitmapFileSize st.size)
          st.disk (bitmapFileSize st.size) 0 0).2 : ℤ) = (0 : ℕ) + (bitmapFileSize st.size : ℤ) :=
        writeLoop_full (by omega) (by omega) (by omega)
      omega

/-- No sector can be allocated any more. -/
def State.Dry (st : State) : Prop :=
  st.scan = none ∨ st.freeMapFile = true ∧ (∀ k, st.heap k = false) ∧ st.Short

theorem scan_some (h : st.scan = some s) : ¬st.Used s ∧ s < st.size := by
  unfold State.scan at h
  have hs := List.find?_some h
  obtain ⟨j, hj, rfl⟩ := List.mem_map.mp (List.mem_of_find?_eq_some h)
  refine ⟨fun hu => ?_, ?_⟩
  · rw [hu] at hs
    cases hs
  · have hlt : j < st.size.toNat := List.mem_range.mp hj
    have hsize : st.size.toNat < 2 ^ 32 := st.size.toNat_lt
    rw [UInt32.lt_iff_toNat_lt, UInt32.toNat_ofNat']
    omega

/-- `free_map_allocate` takes a sector that was free, or takes none; then no later allocation
succeeds either, as long as `malloc` does not recover. -/
theorem allocate_cases (g : Ground K X st) :
    (∃ s st', st.freeMapAllocate = (some s, st') ∧ ¬st.Used s ∧ s < st.size ∧
      Still K (st.mark s true) st') ∨
    ∃ st', st.freeMapAllocate = (none, st') ∧ Still K st st' ∧ st'.allocFailed = true ∧
      (Settled st → st'.Dry) := by
  unfold State.freeMapAllocate
  cases hscan : st.scan with
  | none => exact .inr ⟨_, rfl, ⟨⟨rfl, rfl, rfl, rfl, id, fun _ => rfl⟩, rfl, fun _ _ => rfl⟩, rfl,
      fun _ => .inl hscan⟩
  | some s =>
      obtain ⟨hn, hs⟩ := scan_some hscan
      cases hf : st.freeMapFile with
      | false => exact .inl ⟨s, st.mark s true, by simp only [State.mark, hf]; rfl, hn, hs, .refl _⟩
      | true =>
          have g' := g.mark hs
          have hf' : (st.mark s true).freeMapFile = true := hf
          have hstill := bitmapWrite_still g' hf'
          have hfail := bitmapWrite_failed g' hf'
          rcases h₁ : (st.mark s true).bitmapWrite with ⟨ok, st₁⟩
          rw [h₁] at hstill hfail
          simp only [hf', h₁, if_true]
          cases ok with
          | true => exact .inl ⟨s, st₁, rfl, hn, hs, hstill⟩
          | false =>
              obtain ⟨h0, i, hi, hshort⟩ := hfail rfl
              have hfree : update st₁.freeMap s false = st.freeMap := by
                rw [hstill.freeMap]
                change update (update st.freeMap s true) s false = _
                rw [Function.update_idem]
                exact Function.update_eq_self_iff.mpr (Bool.eq_false_iff.mpr hn).symm
              have hp := hstill.passive
              have hheap : st₁.heap = fun k => st.heap (k + 1) := by
                rw [bitmapWrite_eq hi] at h₁
                exact (congrArg (fun r => r.2.heap) h₁).symm
              refine .inr ⟨_, rfl, ⟨⟨hp.size, hp.freeMapFile, hp.openInodes, hp.live, hp.steady,
                fun _ => rfl⟩, hfree, hstill.disk⟩, rfl, fun hset => .inr ⟨hp.freeMapFile.trans hf,
                  fun k => ?_, i, ?_, ?_⟩⟩
              · change st₁.heap k = false
                rw [hheap]
                exact (hset hf).of_first h0 (k + 1)
              · exact (congrFun hp.openInodes 0).trans hi
              · change ∀ buffer m, (writeLoop i.data false buffer (bitmapFileSize st₁.size) m
                  (bitmapFileSize st₁.size) 0 0).2 ≠ bitmapFileSize st₁.size
                rw [hp.size]
                exact hshort

/-! ### The free map's file -/

/-- The disk `m` with the bitmap written to the file of the inode `d`. -/
def State.bitmapOn (st : State) (d : InodeDisk) (m : Sector → Block) : Sector → Block :=
  (writeLoop d true (bitmapByte st.freeMap st.size) (bitmapFileSize st.size) m
    (bitmapFileSize st.size) 0 0).1

/-- There is memory, and the free map's file is up to date: its inode is in sector 0, and its data
sectors are as a write of the bitmap has left them. -/
structure Synced (K X : Set Sector) (st : State) : Prop where
  memory : ∀ k, st.heap k = true
  outside : (0 : Sector) ∉ K
  file : st.freeMapFile = true → ∃ i m, st.openInodes 0 = some i ∧ st.disk 0 = i.data.toBlock ∧
    (∀ x ∈ X, m x = st.disk x) ∧ ∀ x ∈ K, st.disk x = st.bitmapOn i.data m x

/-- What the free map's file depends on is as before. -/
theorem Synced.next (h : Synced K X st) (hm : ∀ k, st'.heap k = true)
    (hf : st'.freeMapFile = st.freeMapFile) (hmap : st'.freeMap = st.freeMap)
    (hsize : st'.size = st.size) (ho : st'.openInodes 0 = st.openInodes 0)
    (hd : ∀ x, x ∈ K ∪ X ∨ x = 0 → st'.disk x = st.disk x) : Synced K X st' where
  memory := hm
  outside := h.outside
  file hfile := by
    obtain ⟨i, m, hi, h0, hX, hK⟩ := h.file (hf ▸ hfile)
    refine ⟨i, m, ho.trans hi, (hd 0 (.inr rfl)).trans h0, fun x hx => ?_, fun x hx => ?_⟩
    · rw [hX x hx, hd x (.inl (.inr hx))]
    · unfold State.bitmapOn
      rw [hd x (.inl (.inl hx)), hmap, hsize]
      exact hK x hx

theorem Synced.write {b : Block} (h : Synced K X st) (hs : s ∉ K ∪ X) (h0 : s ≠ 0) :
    Synced K X (st.write s b) := by
  refine h.next h.memory rfl rfl rfl rfl fun x hx => Function.update_of_ne ?_ ..
  rintro rfl
  exact hx.elim hs h0

/-- After the bitmap has been written, the file is up to date. -/
theorem bitmapWrite_synced {i : Inode} (hm : ∀ k, st.heap k = true) (hout : (0 : Sector) ∉ K)
    (g : Ground K X st) (hf : st.freeMapFile = true) (hi : st.openInodes 0 = some i)
    (h0 : st.disk 0 = i.data.toBlock) : Synced K X st.bitmapWrite.2 := by
  have hother := (bitmapWrite_still g hf).disk
  rw [bitmapWrite_eq hi] at hother ⊢
  refine ⟨fun k => hm (k + 1), hout, fun _ => ⟨i, st.disk, hi, (hother 0 hout).trans h0,
    fun x hx => (hother x (g.disjoint x hx)).symm, fun x _ => ?_⟩⟩
  unfold State.bitmapOn
  dsimp only
  rw [hm 0]

/-- The bitmap is written after a change. -/
theorem Synced.rewrite {b : Bool} (h : Synced K X st) (g : Ground K X (st.mark s b))
    (hf : st.freeMapFile = true) : Synced K X (st.mark s b).bitmapWrite.2 := by
  obtain ⟨i, m, hi, h0, -⟩ := h.file hf
  exact bitmapWrite_synced h.memory h.outside g hf hi h0

theorem allocate_synced (g : Ground K X st) (ha : st.freeMapAllocate = (some s, st'))
    (h : Synced K X st) : Synced K X st' := by
  unfold State.freeMapAllocate at ha
  cases hscan : st.scan with
  | none =>
      rw [hscan] at ha
      cases ha
  | some t =>
      rw [hscan] at ha
      have g' := g.mark (scan_some hscan).2
      cases hf : st.freeMapFile with
      | false =>
          have hf' : (st.mark t true).freeMapFile = false := hf
          simp only [hf', Bool.false_eq_true, if_false] at ha
          cases ha
          refine ⟨h.memory, h.outside, fun hfile => ?_⟩
          rw [hf'] at hfile
          cases hfile
      | true =>
          have hf' : (st.mark t true).freeMapFile = true := hf
          have hsync := h.rewrite g' hf
          rcases hw : (st.mark t true).bitmapWrite with ⟨ok, st₁⟩
          rw [hw] at hsync
          simp only [hf', hw, if_true] at ha
          cases ok with
          | false => cases ha
          | true =>
              cases ha
              exact hsync

/-! ### When no sector can be allocated -/

theorem Dry.refused (hd : st.Dry) : st.freeMapAllocate.1 = none := by
  unfold State.freeMapAllocate
  cases hscan : st.scan with
  | none => rfl
  | some s =>
      obtain hnone | ⟨hf, hheap, i, hi, hshort⟩ := hd
      · rw [hnone] at hscan
        cases hscan
      · have hfail : (st.mark s true).bitmapWrite.1 = false := by
          rw [bitmapWrite_eq (show (st.mark s true).openInodes 0 = some i from hi)]
          change ((writeLoop i.data (st.heap 0) _ _ _ _ _ _).2 == _) = false
          rw [hheap 0]
          exact beq_eq_false_iff_ne.mpr (hshort _ _)
        rcases h₁ : (st.mark s true).bitmapWrite with ⟨ok, st₁⟩
        rw [h₁] at hfail
        have hf' : (st.mark s true).freeMapFile = true := hf
        simp only [hf', h₁, if_true]
        rw [show ok = false from hfail]
        rfl

theorem allocate_dry (g : Ground K X st) (hd : st.Dry) :
    ∃ st', st.freeMapAllocate = (none, st') ∧ Still K st st' ∧ st'.allocFailed = true ∧ st'.Dry := by
  have hset : st.scan = none ∨ Settled st := hd.imp id fun h _ k _ => h.2.1 (k + 1)
  rcases allocate_cases g with ⟨s, st', h, -⟩ | ⟨st', h, hs, hfail, hdry⟩
  · have hn := Dry.refused hd
    rw [h] at hn
    cases hn
  · refine ⟨st', h, hs, hfail, ?_⟩
    rcases hset with hscan | hset
    · exact .inl (hs.scan.trans hscan)
    · exact hdry hset

/-- A reservation that takes nothing; sector 0 may have been overwritten. -/
def Refuses (K X : Set Sector) (k : ℕ) : Prop := ∀ (st : State) (n : ℕ), Ground K X st → st.Dry →
  0 < n → ∃ st', reserveIndirect k st 0 n = some (false, 0, st') ∧ Still (insert 0 K) st st' ∧
    st'.allocFailed = true

theorem Ground.insert_zero (g : Ground K X st) : ∀ x ∈ X, x ∉ insert 0 K := fun x hx h => by
  rcases Set.mem_insert_iff.mp h with rfl | h
  · exact g.fixedZero hx
  · exact g.disjoint x hx h

/-- When an index block is not allocated, the first entry fails. -/
theorem indexSector_refused {n : ℕ} (hk : Refuses K X k) (g : Ground K X st)
    (ha : st.freeMapAllocate = (none, st₁)) (hs : Still K st st₁) (hd : st₁.Dry) (hn : 0 < n) :
    ∃ st', reserveIndirect (k + 1) st 0 n = some (false, 0, st') ∧ Still (insert 0 K) st st' ∧
      st'.allocFailed = true := by
  have h0 : Still (insert 0 K) st (st₁.write 0 zeros) :=
    (hs.mono (Set.subset_insert 0 K)).trans ⟨passive_write st₁ 0 zeros, rfl, fun x hx =>
      Function.update_of_ne (ne_of_mem_of_not_mem (Set.mem_insert 0 K) hx).symm ..⟩
  obtain ⟨unit, hunit⟩ : ∃ unit, unit = if k = 0 then 1 else 128 := ⟨_, rfl⟩
  have hpos : 0 < unit := by
    rw [hunit]
    split_ifs <;> omega
  obtain ⟨count, hcount⟩ : ∃ count, (n + (unit - 1)) / unit = count + 1 :=
    Nat.exists_eq_succ_of_ne_zero (Nat.div_pos (by omega) hpos).ne'
  obtain ⟨st', h', hs', hf'⟩ := hk (st₁.write 0 zeros) (min n unit) (g.still h0 g.insert_zero) hd
    (by omega)
  refine ⟨st', ?_, h0.trans hs', hf'⟩
  have hindex : st.indexSector 0 = (0, st₁.write 0 zeros) := by
    unfold State.indexSector
    rw [if_pos rfl, ha]
  have hzero : word ((st₁.write 0 zeros).disk 0) 0 = 0 := by
    change word (update st₁.disk 0 zeros 0) 0 = 0
    rw [Function.update_self]
    rfl
  unfold reserveIndirect
  simp only [hindex, ← hunit, hcount]
  unfold reserveLoop
  rw [hzero]
  simp only [h', Option.bind_eq_bind, Option.bind_some, if_false, Bool.false_eq_true]

theorem reserveIndirect_dry : ∀ k, Refuses K X k
  | 0 => fun st n g hd _ => by
      obtain ⟨st', h, hs, hf, -⟩ := allocate_dry g hd
      refine ⟨st', ?_, hs.mono (Set.subset_insert 0 K), hf⟩
      unfold reserveIndirect State.reserveSector
      rw [if_pos rfl, h]
  | k + 1 => fun st n g hd hn => by
      obtain ⟨st₁, h, hs, -, hd₁⟩ := allocate_dry g hd
      exact indexSector_refused (reserveIndirect_dry k) g h hs hd₁ hn

/-! ### How many allocations can be made -/

/-- The number of free sectors. -/
def State.free (st : State) : ℕ :=
  ((List.range st.size.toNat).map UInt32.ofNat).countP fun s => !st.freeMap s

/-- There are `k` free sectors, and where the bitmap cannot be written without a buffer, memory
for so many writes. -/
def Room (st : State) (k : ℕ) : Prop :=
  k ≤ st.free ∧ (st.freeMapFile = true → st.Short → ∀ j, j < k → st.heap j = true)

theorem Room.mono {k l : ℕ} (h : Room st l) (hk : k ≤ l) : Room st k :=
  ⟨by have := h.1; omega, fun hf hs j hj => h.2 hf hs j (by omega)⟩

theorem mem_sectors (hs : s < st.size) : s ∈ (List.range st.size.toNat).map UInt32.ofNat :=
  List.mem_map.mpr ⟨s.toNat, List.mem_range.mpr (UInt32.lt_iff_toNat_lt.mp hs), UInt32.ofNat_toNat⟩

theorem nodup_sectors (st : State) : ((List.range st.size.toNat).map UInt32.ofNat).Nodup := by
  refine List.Nodup.map_on (fun a ha b hb h => ?_) List.nodup_range
  have hsize : st.size.toNat < 2 ^ 32 := st.size.toNat_lt
  have ha := List.mem_range.mp ha
  have hb := List.mem_range.mp hb
  have := congrArg UInt32.toNat h
  rw [UInt32.toNat_ofNat', UInt32.toNat_ofNat', Nat.mod_eq_of_lt (by omega),
    Nat.mod_eq_of_lt (by omega)] at this
  exact this

theorem free_mark (hs : s < st.size) (hn : ¬st.Used s) : (st.mark s true).free + 1 = st.free := by
  obtain ⟨l₁, l₂, hl⟩ := List.append_of_mem (mem_sectors hs)
  have hnodup := nodup_sectors st
  unfold State.free
  rw [show (st.mark s true).size = st.size from rfl]
  rw [hl] at hnodup ⊢
  have hother : ∀ l : List Sector, s ∉ l →
      l.countP (fun x => !(st.mark s true).freeMap x) = l.countP fun x => !st.freeMap x := by
    intro l hl
    refine List.countP_congr fun x hx => ?_
    rw [show (st.mark s true).freeMap x = st.freeMap x from
      Function.update_of_ne (ne_of_mem_of_not_mem hx hl) ..]
  have hself : (st.mark s true).freeMap s = true := Function.update_self ..
  obtain ⟨-, h₂, hd⟩ := List.nodup_append.mp hnodup
  rw [List.countP_append, List.countP_append, List.countP_cons, List.countP_cons,
    hother l₁ fun h => hd s h s List.mem_cons_self rfl, hother l₂ (List.nodup_cons.mp h₂).1, hself,
    Bool.eq_false_iff.mpr hn]
  simp only [Bool.not_true, Bool.false_eq_true, if_false, Bool.not_false, if_true]
  omega

theorem free_le (hu : ∀ x, st.Used x → st'.Used x) (hsize : st'.size = st.size) :
    st'.free ≤ st.free := by
  unfold State.free
  rw [hsize]
  refine List.countP_mono_left fun x _ hx => ?_
  have hn := Bool.eq_false_iff.mpr fun h => Bool.eq_false_iff.mp (Bool.not_eq_true' .. ▸ hx) (hu x h)
  rw [hn]
  rfl

/-- When a sector is taken, fewer are free. -/
theorem free_lt (hu : ∀ x, st.Used x → st'.Used x) (hsize : st'.size = st.size) (hs : s < st.size)
    (hn : ¬st.Used s) (hs' : st'.Used s) : st'.free < st.free := by
  have hmark := free_mark hs hn
  have hle : st'.free ≤ (st.mark s true).free := by
    refine free_le (fun x hx => ?_) hsize
    have hx := used_mark.mp hx
    split_ifs at hx with hxs
    · rw [hxs]
      exact hs'
    · exact hu x hx
  omega

/-- Writing the bitmap succeeds when there is memory for a buffer, or none is needed. -/
theorem bitmapWrite_room (g : Ground K X st) (hf : st.freeMapFile = true) :
    st.bitmapWrite.1 = true ↔ (st.Short → st.heap 0 = true) := by
  constructor
  · rintro hok ⟨i, hi, hshort⟩
    by_contra h0
    rw [bitmapWrite_eq hi, Bool.eq_false_iff.mpr h0] at hok
    exact hshort _ _ (eq_of_beq hok)
  · intro h
    by_contra hfail
    obtain ⟨h0, hshort⟩ := bitmapWrite_failed g hf (Bool.eq_false_iff.mpr hfail)
    rw [h hshort] at h0
    cases h0

theorem bitmapWrite_heap (g : Ground K X st) (hf : st.freeMapFile = true) :
    st.bitmapWrite.2.heap = fun k => st.heap (k + 1) := by
  obtain ⟨i, hi, -⟩ := g.backed hf
  rw [bitmapWrite_eq hi]

theorem Still.short (h : Still Z st st') : st'.Short ↔ st.Short := by
  unfold State.Short
  rw [h.passive.openInodes, h.passive.size]

theorem Still.free (h : Still Z st st') : st'.free = st.free := by
  unfold State.free
  rw [h.freeMap, h.passive.size]

/-- A sector that is allocated counts. -/
theorem allocate_room (g : Ground K X st) (h : st.freeMapAllocate = (some s, st')) (k : ℕ) :
    Room st (k + 1) ↔ Room st' k := by
  unfold State.freeMapAllocate at h
  cases hscan : st.scan with
  | none =>
      rw [hscan] at h
      cases h
  | some t =>
      obtain ⟨hn, ht⟩ := scan_some hscan
      have hfree := free_mark ht hn
      rw [hscan] at h
      unfold Room
      cases hf : st.freeMapFile with
      | false =>
          have hf' : (st.mark t true).freeMapFile = false := hf
          simp only [hf', Bool.false_eq_true, if_false] at h
          cases h
          rw [hf']
          exact and_congr (by omega) (iff_of_true nofun nofun)
      | true =>
          have g' := g.mark ht
          have hf' : (st.mark t true).freeMapFile = true := hf
          have hstill := bitmapWrite_still g' hf'
          have hheap := bitmapWrite_heap g' hf'
          have hroom := bitmapWrite_room g' hf'
          rcases h₁ : (st.mark t true).bitmapWrite with ⟨ok, st₁⟩
          rw [h₁] at hstill hheap hroom
          simp only [hf', h₁, if_true] at h
          cases ok with
          | false => cases h
          | true =>
              cases h
              have hshort : st'.Short ↔ st.Short := hstill.short
              have hcount : st'.free = (st.mark s true).free := hstill.free
              have h0 := hroom.mp rfl
              have hheap : st'.heap = fun k => st.heap (k + 1) := hheap
              rw [hstill.passive.freeMapFile, hf', hcount, hshort, hheap]
              refine and_congr (by omega) (imp_congr_right fun _ => forall_congr' fun hs => ?_)
              constructor
              · exact fun hall j hj => hall (j + 1) (by omega)
              · intro hall j hj
                cases j with
                | zero => exact h0 hs
                | succ j => exact hall j (by omega)

theorem scan_none : st.scan = none ↔ st.free = 0 := by
  unfold State.scan State.free
  rw [List.countP_eq_zero]
  exact List.find?_eq_none

theorem allocate_no_room (g : Ground K X st) (h : st.freeMapAllocate = (none, st')) :
    ¬Room st 1 := by
  rintro ⟨hfree, hmem⟩
  unfold State.freeMapAllocate at h
  cases hscan : st.scan with
  | none =>
      have := scan_none.mp hscan
      omega
  | some t =>
      obtain ⟨-, ht⟩ := scan_some hscan
      rw [hscan] at h
      cases hf : st.freeMapFile with
      | false =>
          have hf' : (st.mark t true).freeMapFile = false := hf
          simp only [hf', Bool.false_eq_true, if_false] at h
          cases h
      | true =>
          have hf' : (st.mark t true).freeMapFile = true := hf
          have hok := (bitmapWrite_room (g.mark ht) hf').mpr fun hs => hmem hf hs 0 Nat.one_pos
          rcases h₁ : (st.mark t true).bitmapWrite with ⟨ok, st₁⟩
          rw [h₁] at hok
          simp only [hf', h₁, if_true] at h
          rw [show ok = true from hok] at h
          cases h

/-! ### Reservations -/

/-- The prefixes of the paths in `C`. -/
def Onto (C : List ℕ → Prop) (p : List ℕ) : Prop := ∃ q, C q ∧ p <+: q

/-- From the references `R` to `R'`, at the paths on the way to those in `C`; on success these
are there, and every sector that was taken is referenced. -/
structure Reserve (K X : Set Sector) (L B C : List ℕ → Prop) (R R' : List ℕ → Sector → Prop)
    (ok : Bool) (st st' : State) : Prop where
  passive : Passive st st'
  ground : Ground K X st'
  grows : Grows K L B R R' st.disk st'.disk st.Used st'.Used
  complete : ok = true → ∀ p, C p → ∃ x, R' p x
  tight : ok = true → ∀ x, st'.Used x → st.Used x ∨ ∃ p, R' p x
  failed : ok = false → st'.allocFailed = true
  synced : ok = true → Synced K X st → Synced K X st'

variable {L B C C₁ C₂ : List ℕ → Prop} {R R₁ R₂ R' : List ℕ → Sector → Prop} {ok ok₁ ok₂ : Bool}

theorem Reserve.refl (g : Ground K X st) (h : Placed (K ∪ X) st.Used R) :
    Reserve K X L B (fun _ => False) R R true st st where
  passive := .refl st
  ground := g
  grows := .refl h.sole h.used
  complete _ _ h := h.elim
  tight _ _ h := .inl h
  failed h := nomatch h
  synced _ := id

theorem Reserve.trans (g : Ground K X st) (h₁ : Reserve K X L B C₁ R R₁ ok₁ st st₁)
    (h₂ : Reserve K X L B C₂ R₁ R₂ ok₂ st₁ st') :
    Reserve K X L B (fun p => C₁ p ∨ C₂ p) R R₂ (ok₁ && ok₂) st st' where
  passive := h₁.passive.trans h₂.passive
  ground := h₂.ground
  grows := h₁.grows.trans h₂.grows (fun x hx => g.used x (.inl hx)) g.zero
  complete hok p hp := by
    obtain ⟨hok₁, hok₂⟩ := Bool.and_eq_true_iff.mp hok
    rcases hp with hp | hp
    · obtain ⟨x, hx⟩ := h₁.complete hok₁ p hp
      exact ⟨x, h₂.grows.keep p x hx⟩
    · exact h₂.complete hok₂ p hp
  tight hok x hx := by
    obtain ⟨hok₁, hok₂⟩ := Bool.and_eq_true_iff.mp hok
    rcases h₂.tight hok₂ x hx with hx | hx
    · exact (h₁.tight hok₁ x hx).imp id fun ⟨p, hp⟩ => ⟨p, h₂.grows.keep p x hp⟩
    · exact .inr hx
  failed hok := by
    rcases Bool.and_eq_false_iff.mp hok with hok | hok
    · exact h₂.passive.failed (h₁.failed hok)
    · exact h₂.failed hok
  synced hok hs := by
    obtain ⟨hok₁, hok₂⟩ := Bool.and_eq_true_iff.mp hok
    exact h₂.synced hok₂ (h₁.synced hok₁ hs)

theorem Reserve.mono {B' C' : List ℕ → Prop} (h : Reserve K X L B C R R' ok st st')
    (hB : ∀ p, B p → B' p) (hC : ok = true → ∀ p, C' p → C p) :
    Reserve K X L B' C' R R' ok st st' :=
  { h with
    grows := h.grows.mono hB
    complete := fun hok p hp => h.complete hok p (hC hok p hp) }

theorem Reserve.placed (g : Ground K X st) (h : Reserve K X L B C R R' ok st st')
    (hp : Placed (K ∪ X) st.Used R) : Placed (K ∪ X) st'.Used R' :=
  h.grows.placed hp g.used

/-- The reservation of one tree of a forest. -/
theorem Reserve.replace {n i : ℕ} {lev : ℕ → ℕ} {root : ℕ → Sector} {e' : Sector} (hi : i < n)
    (hp : Placed (K ∪ X) st.Used (Forest st.disk n lev root))
    (h : Reserve K X (fun p => p.length = lev i) B C (Refs st.disk (lev i) (root i))
      (Refs st'.disk (lev i) e') ok st st') :
    Reserve K X (IsLeaf lev) (fun p => ∃ q, p = i :: q ∧ B q) (fun p => ∃ q, p = i :: q ∧ C q)
      (Forest st.disk n lev root) (Forest st'.disk n lev (update root i e')) ok st st' where
  passive := h.passive
  ground := h.ground
  grows := h.grows.replace hi hp.sole hp.used fun p x hx hk => hp.apart p x hx (.inl hk)
  complete hok p := by
    rintro ⟨q, rfl, hq⟩
    obtain ⟨x, hx⟩ := h.complete hok q hq
    refine ⟨x, hi, ?_⟩
    rw [Function.update_self]
    exact hx
  tight hok x hx := by
    refine (h.tight hok x hx).imp id fun ⟨p, hp⟩ => ⟨i :: p, hi, ?_⟩
    rw [Function.update_self]
    exact hp
  failed := h.failed
  synced := h.synced

/-- A reservation that takes nothing. -/
theorem Still.reserve {k : ℕ} (hs : Still (insert 0 K) st st') (g : Ground K X st)
    (hf : st'.allocFailed = true) : Reserve K X (fun p => p.length = k) B C (Refs st.disk k 0)
      (Refs st'.disk k 0) false st st' where
  passive := hs.passive
  ground := g.still hs g.insert_zero
  grows :=
    { used := fun _ hx => hs.used.mpr hx
      disk := fun x _ hk h0 _ => hs.disk x fun h => (Set.mem_insert_iff.mp h).elim h0 hk
      keep := fun _ _ h => absurd rfl h.root_ne
      source := fun _ _ h => absurd rfl h.root_ne
      sole := fun _ _ _ h => absurd rfl h.root_ne
      blank := fun _ _ h => absurd rfl h.root_ne }
  complete h := nomatch h
  tight h := nomatch h
  failed _ := hf
  synced h := nomatch h

/-- A sector is allocated and filled with zeros. -/
theorem Still.reserve_fresh {k : ℕ} (hs : Still K (st.mark s true) st₁) (g : Ground K X st)
    (ha : st.freeMapAllocate = (some s, st₁)) (hn : ¬st.Used s) (hr : s < st.size) (hB : B []) (hC : ∀ p, C p → p = []) :
    Reserve K X (fun p => p.length = k) B C (Refs st.disk k 0)
      (Refs (st₁.write s zeros).disk k s) true st (st₁.write s zeros) := by
  have hX : ∀ x ∈ K ∪ X, x ≠ s := fun x hx h => hn (h ▸ g.used x hx)
  have h0 : s ≠ 0 := fun h => hn (h ▸ g.zero)
  have hU : ∀ x, (st₁.write s zeros).Used x ↔ st.Used x ∨ x = s := fun x => by
    rw [show (st₁.write s zeros).Used x ↔ st₁.Used x from Iff.rfl, hs.used, used_mark]
    by_cases hx : x = s <;> simp [hx]
  have hself : (st₁.write s zeros).disk s = zeros := Function.update_self ..
  refine ⟨((passive_mark st s true).trans hs.passive).trans (passive_write st₁ s zeros),
    ((g.mark hr).still hs g.disjoint).write fun h => hX s (.inr h) rfl,
    .fresh hU h0 hn (fun x hx hk _ => ?_) hself hB, fun _ p hp => ⟨s, ?_⟩,
    fun _ x hx => ((hU x).mp hx).imp id ?_, nofun,
    fun _ h => (allocate_synced g ha h).write (fun h => hX s h rfl) h0⟩
  · have hxs : x ≠ s := by
      rintro rfl
      exact hn hx
    exact (Function.update_of_ne hxs ..).trans (hs.disk x hk)
  · rw [hC p hp]
    exact refs_nil.mpr ⟨h0, rfl⟩
  · rintro rfl
    exact ⟨[], refs_nil.mpr ⟨h0, rfl⟩⟩

/-! ### The levels of index blocks -/

/-- The path to the data sector `t` below `k` levels of index blocks. -/
def leafPath : ℕ → ℕ → List ℕ
  | 0, _ => []
  | k + 1, t => (t / 128 ^ k) :: leafPath k (t % 128 ^ k)

@[simp] theorem leafPath_length : ∀ k t : ℕ, (leafPath k t).length = k
  | 0, _ => rfl
  | k + 1, t => by rw [leafPath, List.length_cons, leafPath_length k]

/-- The paths to the first `n` data sectors of a tree. -/
def Leaves (k n : ℕ) (p : List ℕ) : Prop := ∃ t, t < n ∧ p = leafPath k t

/-- The paths to the first `n` data sectors of a forest, from the tree `i` on. -/
def LeavesFrom (k i n : ℕ) (p : List ℕ) : Prop :=
  ∃ t, t < n ∧ p = (i + t / 128 ^ k) :: leafPath k (t % 128 ^ k)

/-! The number of entries for `n` sectors, `u` below each. -/

theorem entries_zero {u n : ℕ} (hu : 0 < u) (h : (n + (u - 1)) / u = 0) : n = 0 := by
  have := Nat.div_eq_zero_iff.mp h
  omega

theorem entries_pos {u n count : ℕ} (hu : 0 < u) (h : (n + (u - 1)) / u = count + 1) : 0 < n := by
  rcases Nat.eq_zero_or_pos n with rfl | hn
  · rw [Nat.div_eq_of_lt (by omega)] at h
    omega
  · exact hn

theorem entries_next {u n count : ℕ} (hu : 0 < u) (h : (n + (u - 1)) / u = count + 1) :
    (n - u + (u - 1)) / u = count := by
  rcases Nat.lt_or_ge u n with hlt | hle
  · rw [show n + (u - 1) = n - u + (u - 1) + u by omega, Nat.add_div_right _ hu] at h
    omega
  · have hn := entries_pos hu h
    rw [show n + (u - 1) = n - 1 + u by omega, Nat.add_div_right _ hu,
      Nat.div_eq_of_lt (by omega)] at h
    rw [Nat.div_eq_of_lt (by omega)]
    omega

theorem leavesFrom_head {i n : ℕ} {p : List ℕ} (hn : n ≤ 128 ^ k)
    (h : ∃ q, p = i :: q ∧ Leaves k n q) : LeavesFrom k i n p := by
  obtain ⟨q, rfl, t, ht, rfl⟩ := h
  refine ⟨t, ht, ?_⟩
  rw [Nat.div_eq_of_lt (by omega), Nat.mod_eq_of_lt (by omega), Nat.add_zero]

theorem leavesFrom_tail {i n : ℕ} {p : List ℕ} (h : LeavesFrom k (i + 1) (n - 128 ^ k) p) :
    LeavesFrom k i n p := by
  obtain ⟨t, ht, rfl⟩ := h
  refine ⟨t + 128 ^ k, by omega, ?_⟩
  rw [Nat.add_div_right _ (Nat.pow_pos (by omega)), Nat.add_mod_right, Nat.add_right_comm,
    Nat.add_assoc]

theorem leavesFrom_split {i n : ℕ} {p : List ℕ} (h : LeavesFrom k i n p) :
    (∃ q, p = i :: q ∧ Leaves k (min n (128 ^ k)) q) ∨
      LeavesFrom k (i + 1) (n - 128 ^ k) p := by
  obtain ⟨t, ht, rfl⟩ := h
  by_cases hlt : t < 128 ^ k
  · rw [Nat.div_eq_of_lt hlt, Nat.mod_eq_of_lt hlt]
    exact .inl ⟨leafPath k t, rfl, t, by omega, rfl⟩
  · refine .inr ⟨t - 128 ^ k, by omega, ?_⟩
    obtain ⟨u, rfl⟩ : ∃ u, t = u + 128 ^ k := ⟨t - 128 ^ k, by omega⟩
    rw [Nat.add_sub_cancel, Nat.add_div_right _ (Nat.pow_pos (by omega)), Nat.add_mod_right,
      Nat.add_right_comm, Nat.add_assoc]

theorem Onto.mono (hC : ∀ p, C p → C₁ p) {p : List ℕ} (h : Onto C p) : Onto C₁ p := by
  obtain ⟨q, hq, hp⟩ := h
  exact ⟨q, hC q hq, hp⟩

theorem onto_cons {i : ℕ} {p : List ℕ} (h : ∃ q, p = i :: q ∧ Onto C q) :
    Onto (fun p => ∃ q, p = i :: q ∧ C q) p := by
  obtain ⟨q, rfl, r, hr, hq⟩ := h
  exact ⟨i :: r, ⟨r, rfl, hr⟩, List.cons_prefix_cons.mpr ⟨rfl, hq⟩⟩

/-- The block above a forest is written back. -/
theorem Reserve.node {b : ℕ → Sector} (he : e ≠ 0)
    (hp : Placed (K ∪ X) st.Used (Refs st.disk (k + 1) e))
    (h : Reserve K X (IsLeaf fun _ => k) B C (Forest st.disk 128 (fun _ => k) (word (st.disk e)))
      (Forest st₁.disk 128 (fun _ => k) b) ok st st₁) :
    Reserve K X (fun p => p.length = k + 1) B C (Refs st.disk (k + 1) e)
      (Refs (st₁.write e (ofWords b)).disk (k + 1) e) ok st (st₁.write e (ofWords b)) := by
  have hroot : Refs st.disk (k + 1) e [] e := refs_nil.mpr ⟨he, rfl⟩
  have hue := hp.used [] e hroot
  have hm : ∀ x, x ≠ e → (st₁.write e (ofWords b)).disk x = st₁.disk x := fun x hx =>
    Function.update_of_ne hx ..
  have hb : ∀ j, j < Layout.width Sector Block →
      (Layout.entry ((st₁.write e (ofWords b)).disk e) j : Sector) = b j := fun j _ => by
    change word (update st₁.disk e (ofWords b) e) j = b j
    rw [Function.update_self, word_ofWords]
  have hrefs : ∀ p x, Forest st₁.disk 128 (fun _ => k) b p x →
      Refs (st₁.write e (ofWords b)).disk (k + 1) e p x := by
    rintro (_ | ⟨j, p⟩) x hx
    · exact hx.elim
    · exact (refs_node he hm hb (h.grows.not_below he hp.sole hue)).mpr hx
  refine ⟨h.passive.trans (passive_write st₁ e _), h.ground.write fun hX =>
    hp.apart [] e hroot (.inr hX), h.grows.node he hp.sole hue hm hb, fun hok p hC => ?_,
    fun hok x hx => ?_, h.failed, fun hok hs => (h.synced hok hs).write (hp.apart [] e hroot) he⟩
  · obtain ⟨x, hx⟩ := h.complete hok p hC
    exact ⟨x, hrefs p x hx⟩
  · exact (h.tight hok x hx).imp id fun ⟨p, hpx⟩ => ⟨p, hrefs p x hpx⟩

/-- An entry has failed, and the block above it is not written back. -/
theorem Reserve.abandon {b : ℕ → Sector} (he : e ≠ 0)
    (hp : Placed (K ∪ X) st.Used (Refs st.disk (k + 1) e))
    (h : Reserve K X (IsLeaf fun _ => k) B C (Forest st.disk 128 (fun _ => k) (word (st.disk e)))
      (Forest st₁.disk 128 (fun _ => k) b) false st st₁) :
    Reserve K X (fun p => p.length = k + 1) B C (Refs st.disk (k + 1) e)
      (Refs st₁.disk (k + 1) e) false st st₁ where
  passive := h.passive
  ground := h.ground
  grows := by
    have hroot : Refs st.disk (k + 1) e [] e := refs_nil.mpr ⟨he, rfl⟩
    exact h.grows.abandon he hp.sole (hp.used [] e hroot) fun hK => hp.apart [] e hroot (.inl hK)
  complete := nofun
  tight := nofun
  failed := h.failed
  synced := nofun

/-- An index block is not allocated: whatever follows in its place takes sectors that nothing
refers to. -/
theorem Reserve.spoiled {k : ℕ} {B₁ : List ℕ → Prop} (hs : Still (insert 0 K) st st₁) (hf : st₁.allocFailed = true)
    (hR : ∀ p x, ¬R p x) (h : Reserve K X L B₁ C₁ R R' ok st₁ st') (hm : ∀ x, x ≠ 0 → m x = st'.disk x) :
    Reserve K X (fun p => p.length = k) B C (Refs st.disk k 0) (Refs m k 0) false st
      { st' with disk := m } where
  passive := (hs.passive.trans h.passive).trans ⟨rfl, rfl, rfl, rfl, id, id⟩
  ground := h.ground.next ⟨rfl, rfl, rfl, rfl, id, id⟩ (fun _ hx => hx) h.ground.range fun x hx =>
    hm x fun h0 => h.ground.fixedZero (h0 ▸ hx)
  grows :=
    { used := fun x hx => h.grows.used x (hs.used.mpr hx)
      disk := fun x hx hk h0 _ => by
        refine (hm x h0).trans ((h.grows.disk x (hs.used.mpr hx) hk h0 fun p hp =>
          absurd hp (hR p x)).trans (hs.disk x fun h => ?_))
        exact (Set.mem_insert_iff.mp h).elim h0 hk
      keep := fun _ _ h => absurd rfl h.root_ne
      source := fun _ _ h => absurd rfl h.root_ne
      sole := fun _ _ _ h => absurd rfl h.root_ne
      blank := fun _ _ h => absurd rfl h.root_ne }
  complete h := nomatch h
  tight h := nomatch h
  failed _ := h.passive.failed hf
  synced h := nomatch h

/-- The trees behind one that has grown are as they were. -/
theorem Reserve.beside {n i j : ℕ} {lev : ℕ → ℕ} {root : ℕ → Sector} {e' : Sector}
    (h : Reserve K X (fun p => p.length = lev i) B C (Refs st.disk (lev i) (root i)) (Refs st'.disk (lev i) e')
      ok st st') (hp : Placed (K ∪ X) st.Used (Forest st.disk n lev root)) (hi : i < n) (hj : j < n)
    (hij : j ≠ i) : ∀ q y, Refs st.disk (lev j) (root j) q y → st'.disk y = st.disk y := by
  intro q y hq
  have hy : Forest st.disk n lev root (j :: q) y := ⟨hj, hq⟩
  refine h.grows.disk y (hp.used _ y hy) (fun hk => hp.apart _ y hy (.inl hk)) hq.ne_zero
    fun p hp' => ?_
  exact absurd (List.cons.inj (hp.sole (j :: q) (i :: p) y hy ⟨hi, hp'⟩)).1 hij

/-- Below an index block the tree is a forest. -/
theorem leavesFrom_zero {n : ℕ} (p : List ℕ) : LeavesFrom k 0 n p ↔ Leaves (k + 1) n p := by
  simp only [LeavesFrom, Leaves, leafPath, Nat.zero_add]

/-- The size of the subtrees at a level. -/
theorem unit_eq (hk : k + 1 ≤ 2) : (if k = 0 then 1 else 128) = 128 ^ k := by
  obtain rfl | rfl : k = 0 ∨ k = 1 := by omega
  · rfl
  · rfl

theorem entries_le {n : ℕ} (hn : n ≤ 128 ^ (k + 1)) : (n + (128 ^ k - 1)) / 128 ^ k ≤ 128 := by
  have hpow : 0 < 128 ^ k := Nat.pow_pos (by omega)
  have hmul : 128 ^ (k + 1) = 128 * 128 ^ k := Nat.pow_succ'
  rw [← Nat.lt_succ_iff, Nat.div_lt_iff_lt_mul hpow]
  omega

/-! ### The tree of an inode -/

/-- The roots of the trees of an inode: the direct blocks, the indirect and the doubly indirect
block. -/
def rootOf (d : InodeDisk) (j : ℕ) : Sector :=
  if j < 123 then d.directBlocks j
  else if j = 123 then d.indirectBlock
  else if j = 124 then d.doublyIndirectBlock
  else 0

/-- The levels of index blocks below a root. -/
def levelOf (j : ℕ) : ℕ := j - 122

/-- The path `p` leads from the inode `d` to the sector `x`. -/
def Owned (m : Sector → Block) (d : InodeDisk) : List ℕ → Sector → Prop :=
  Forest m 125 levelOf (rootOf d)

/-- The path to the data sector `i`. -/
def filePath (i : ℕ) : List ℕ :=
  if i < 123 then [i]
  else if i < 251 then 123 :: leafPath 1 (i - 123)
  else 124 :: leafPath 2 (i - 251)

/-- The paths to the first `n` data sectors. -/
def FileLeaves (n : ℕ) (p : List ℕ) : Prop := ∃ i, i < n ∧ p = filePath i

theorem rootOf_indirect (d : InodeDisk) (e : Sector) :
    rootOf { d with indirectBlock := e } = update (rootOf d) 123 e := by
  funext j
  rw [Function.update_apply]
  unfold rootOf
  grind

theorem rootOf_doubly (d : InodeDisk) (e : Sector) :
    rootOf { d with doublyIndirectBlock := e } = update (rootOf d) 124 e := by
  funext j
  rw [Function.update_apply]
  unfold rootOf
  grind

theorem rootOf_direct (d : InodeDisk) (b : ℕ → Sector) (i : ℕ) (e : Sector) (hi : i < 123) :
    rootOf { d with directBlocks := update b i e } =
      update (rootOf { d with directBlocks := b }) i e := by
  funext j
  rw [Function.update_apply]
  unfold rootOf
  simp only [Function.update_apply]
  grind

end CSE130.Lab3.Files
