import CSE130.Lab3.Cache
import Mathlib.Algebra.Ring.Int.Defs
import Mathlib.Data.UInt

/-! # Inodes and the free map of Lab 3 (`filesys/inode.c`, `filesys/free-map.c`)

The disk is what the buffer cache shows of it (`Cache.contents`, `cache_refines_disk`), a sector
as a function from the offset of a byte.  The free map is a file itself: each allocation and each
release writes the bitmap to the inode at sector 0.

`malloc` answers as `heap` says, one answer after the other; `none` is a kernel panic.  Beside the
kernel's own variables the state has two that only record: `live`, the sectors with the inode of
a file, and `allocFailed`, that `malloc` or `free_map_allocate` has said no. -/

namespace CSE130.Lab3.Files

open Function (update)

/-- The bytes of a sector, by offset; those from `BLOCK_SECTOR_SIZE` on do not count. -/
abbrev Block := ℕ → UInt8

/-- The array `zeros`. -/
def zeros : Block := fun _ => 0

/-- The word at the index `i` of an array of words. -/
def word (b : Block) (i : ℕ) : UInt32 :=
  UInt32.ofNat ((b (4 * i)).toNat + 256 * ((b (4 * i + 1)).toNat +
    256 * ((b (4 * i + 2)).toNat + 256 * (b (4 * i + 3)).toNat)))

/-- An array of words in memory. -/
def ofWords (w : ℕ → UInt32) : Block :=
  fun x => UInt8.ofNat ((w (x / 4)).toNat / 256 ^ (x % 4))

/-- `INODE_MAGIC`. -/
def inodeMagic : UInt32 := 0x494e4f44

/-- `struct inode_disk`; `direct_blocks` has 123 entries. -/
structure InodeDisk where
  directBlocks : ℕ → Sector
  indirectBlock : Sector
  doublyIndirectBlock : Sector
  isDir : Bool
  length : ℕ

/-- The 128 words of a `struct inode_disk`. -/
def InodeDisk.toBlock (d : InodeDisk) : Block :=
  ofWords fun i =>
    if i < 123 then d.directBlocks i
    else if i = 123 then d.indirectBlock
    else if i = 124 then d.doublyIndirectBlock
    else if i = 125 then if d.isDir then 1 else 0
    else if i = 126 then UInt32.ofNat d.length
    else inodeMagic

/-- A sector read as a `struct inode_disk`. -/
def InodeDisk.ofBlock (b : Block) : InodeDisk :=
  ⟨word b, word b 123, word b 124, word b 125 != 0, (word b 126).toNat⟩

/-- `struct inode`. -/
structure Inode where
  openCnt : ℕ
  removed : Bool
  denyWriteCnt : ℕ
  data : InodeDisk

/-- The static variables of `inode.c` and `free-map.c`, and the disk. -/
structure State where
  disk : Sector → Block
  /-- `free_map`: the sectors in use. -/
  freeMap : Sector → Bool
  /-- `block_size (fs_device)`. -/
  size : Sector
  /-- `free_map_file != NULL`. -/
  freeMapFile : Bool
  /-- `open_inodes`, by sector. -/
  openInodes : Sector → Option Inode
  /-- The sectors with the inode of a file. -/
  live : Sector → Bool
  /-- The answers of `malloc` from now on. -/
  heap : ℕ → Bool
  /-- An allocation has failed. -/
  allocFailed : Bool

/-- An `int` or `off_t`. -/
def offT (x : ℤ) : ℤ := Int.bmod x (2 ^ 32)

/-- `bytes_to_sectors`. -/
def bytesToSectors (size : ℕ) : ℕ := (size + 511) / 512

/-! ### Reading and writing the bytes of an inode -/

/-- `(block_sector_t) -1` -/
def noSector : Sector := 0xffffffff

/-- `index_to_sector`. -/
def indexToSector (m : Sector → Block) (d : InodeDisk) (index : ℕ) : Sector :=
  if index < 123 then d.directBlocks index
  else if index < 251 then word (m d.indirectBlock) (index - 123)
  else if index < 16635 then
    word (m (word (m d.doublyIndirectBlock) ((index - 251) / 128))) ((index - 251) % 128)
  else noSector

/-- `byte_to_sector`. -/
def byteToSector (m : Sector → Block) (d : InodeDisk) (pos : ℤ) : Sector :=
  if 0 ≤ pos ∧ pos < d.length then indexToSector m d (pos.toNat / 512) else noSector

/-- `chunk_size` in the loops of `inode_read_at` and `inode_write_at`. -/
def chunkSize (length : ℕ) (size : ℤ) (offset : ℕ) : ℤ :=
  min size (min ((length : ℤ) - offset) (512 - offset % 512 : ℕ))

/-- The loop of `inode_read_at`: the bytes read.  `bounce` says whether there is memory for the
bounce buffer. -/
def readLoop (m : Sector → Block) (d : InodeDisk) (bounce : Bool) : ℕ → ℤ → ℕ → List UInt8
  | 0, _, _ => []
  | fuel + 1, size, offset =>
      let chunk := chunkSize d.length size offset
      if size ≤ 0 ∨ chunk ≤ 0 then []
      else if offset % 512 = 0 ∧ chunk = 512 ∨ bounce then
        ((List.range chunk.toNat).map fun i =>
          m (byteToSector m d offset) (offset % 512 + i)) ++
        readLoop m d bounce fuel (size - chunk) (offset + chunk.toNat)
      else []

/-- The loop of `inode_write_at`, when `done` bytes are written: the disk and the bytes written
in the end. -/
def writeLoop (d : InodeDisk) (bounce : Bool) (buffer : ℕ → UInt8) :
    ℕ → (Sector → Block) → ℤ → ℕ → ℕ → (Sector → Block) × ℕ
  | 0, m, _, _, done => (m, done)
  | fuel + 1, m, size, offset, done =>
      let chunk := chunkSize d.length size offset
      let sector := byteToSector m d offset
      let ofs := offset % 512
      if size ≤ 0 ∨ chunk ≤ 0 then (m, done)
      else if ofs = 0 ∧ chunk = 512 then
        writeLoop d bounce buffer fuel (update m sector fun x => buffer (done + x))
          (size - chunk) (offset + chunk.toNat) (done + chunk.toNat)
      else if bounce then
        let old := if 0 < ofs ∨ chunk < (512 - ofs : ℕ) then m sector else zeros
        writeLoop d bounce buffer fuel
          (update m sector fun x =>
            if ofs ≤ x ∧ x < ofs + chunk.toNat then buffer (done + (x - ofs)) else old x)
          (size - chunk) (offset + chunk.toNat) (done + chunk.toNat)
      else (m, done)

/-- The loop of `inode_write_at` comes to a chunk that is not a whole sector: this is where it
calls `malloc` for the bounce buffer. -/
def needsBounce (d : InodeDisk) : ℕ → ℤ → ℕ → Bool
  | 0, _, _ => false
  | fuel + 1, size, offset =>
      let chunk := chunkSize d.length size offset
      if size ≤ 0 ∨ chunk ≤ 0 then false
      else if offset % 512 = 0 ∧ chunk = 512 then
        needsBounce d fuel (size - chunk) (offset + chunk.toNat)
      else true

/-! ### The free map -/

/-- `bitmap_file_size`. -/
def bitmapFileSize (size : Sector) : ℕ := 4 * ((size.toNat + 31) / 32)

/-- The byte `j` of the bitmap. -/
def bitmapByte (freeMap : Sector → Bool) (size : Sector) (j : ℕ) : UInt8 :=
  UInt8.ofNat ((List.range 8).map fun b =>
    if 8 * j + b < size.toNat && freeMap (UInt32.ofNat (8 * j + b)) then 2 ^ b else 0).sum

namespace State

/-- `malloc`, where a null pointer is tested for. -/
def malloc (st : State) : Bool × State :=
  (st.heap 0,
    { st with heap := fun k => st.heap (k + 1), allocFailed := st.allocFailed || !st.heap 0 })

/-- `bitmap_write (free_map, free_map_file)`: a write inside the free map's file. -/
def bitmapWrite (st : State) : Bool × State :=
  match st.openInodes 0 with
  | none => (false, st)
  | some i =>
      let size := bitmapFileSize st.size
      let (m, n) := writeLoop i.data (st.heap 0) (bitmapByte st.freeMap st.size) size st.disk size 0 0
      (n == size, { st with disk := m, heap := fun k => st.heap (k + 1) })

/-- `bitmap_set`. -/
def mark (st : State) (s : Sector) (b : Bool) : State :=
  { st with freeMap := update st.freeMap s b }

/-- `bitmap_scan` for one sector that is not in use. -/
def scan (st : State) : Option Sector :=
  ((List.range st.size.toNat).map UInt32.ofNat).find? fun s => !st.freeMap s

/-- `free_map_allocate (1, ..)`. -/
def freeMapAllocate (st : State) : Option Sector × State :=
  match st.scan with
  | none => (none, { st with allocFailed := true })
  | some s =>
      let st := st.mark s true
      if st.freeMapFile then
        let (ok, st) := st.bitmapWrite
        if ok then (some s, st) else (none, { st.mark s false with allocFailed := true })
      else (some s, st)

/-- `free_map_release (s, 1)`. -/
def freeMapRelease (st : State) (s : Sector) : Option State :=
  if s < st.size ∧ st.freeMap s = true then some (st.mark s false).bitmapWrite.2 else none

/-- `buffer_cache_write`. -/
def write (st : State) (s : Sector) (b : Block) : State :=
  { st with disk := update st.disk s b }

/-! ### Reservation -/

/-- The base case of `inode_reserve_indirect`, and the body of the loop over the direct blocks
in `inode_reserve`. -/
def reserveSector (st : State) (e : Sector) : Bool × Sector × State :=
  if e = 0 then
    match st.freeMapAllocate with
    | (none, st) => (false, e, st)
    | (some s, st) => (true, s, st.write s zeros)
  else (true, e, st)

/-- An index block that is not yet allocated.  The result of `free_map_allocate` is not tested:
when it fails, sector 0 is taken for the block. -/
def indexSector (st : State) (e : Sector) : Sector × State :=
  if e = 0 then
    match st.freeMapAllocate with
    | (none, st) => (e, st.write e zeros)
    | (some s, st) => (s, st.write s zeros)
  else (e, st)

/-- The loop over the entries of an index block, `count` of them from `i` on.  `f` reserves below
one entry. -/
def reserveLoop (f : State → Sector → ℕ → Option (Bool × Sector × State)) (unit : ℕ) :
    ℕ → ℕ → State → (ℕ → Sector) → ℕ → Option (Bool × (ℕ → Sector) × ℕ × State)
  | 0, _, st, blocks, numSectors => some (true, blocks, numSectors, st)
  | count + 1, i, st, blocks, numSectors => do
      let subsize := min numSectors unit
      let (ok, e, st) ← f st (blocks i) subsize
      if ok then reserveLoop f unit count (i + 1) st (update blocks i e) (numSectors - subsize)
      else some (false, update blocks i e, numSectors, st)

/-- `inode_reserve_indirect (&e, num_sectors, level)`. -/
def reserveIndirect : ℕ → State → Sector → ℕ → Option (Bool × Sector × State)
  | 0, st, e, _ => some (st.reserveSector e)
  | level + 1, st, e, numSectors => do
      let (e, st) := st.indexSector e
      let unit := if level = 0 then 1 else 128
      let l := (numSectors + (unit - 1)) / unit
      let (ok, blocks, rest, st) ←
        reserveLoop (reserveIndirect level) unit l 0 st (word (st.disk e)) numSectors
      if ok then
        if rest = 0 then some (true, e, st.write e (ofWords blocks)) else none
      else some (false, e, st)

/-- `inode_reserve`. -/
def inodeReserve (st : State) (d : InodeDisk) (length : ℤ) : Option (Bool × InodeDisk × State) :=
  if length < 0 then some (false, d, st)
  else do
    let numSectors := bytesToSectors length.toNat
    let l := min numSectors 123
    let (ok, direct, _, st) ←
      reserveLoop (fun st e _ => some (st.reserveSector e)) 1 l 0 st d.directBlocks l
    let d := { d with directBlocks := direct }
    let numSectors := numSectors - l
    if ok = false then some (false, d, st)
    else if numSectors = 0 then some (true, d, st)
    else do
      let l := min numSectors 128
      let (ok, e, st) ← reserveIndirect 1 st d.indirectBlock l
      let d := { d with indirectBlock := e }
      let numSectors := numSectors - l
      if ok = false then some (false, d, st)
      else if numSectors = 0 then some (true, d, st)
      else do
        let l := min numSectors (128 * 128)
        let (ok, e, st) ← reserveIndirect 2 st d.doublyIndirectBlock l
        let d := { d with doublyIndirectBlock := e }
        let numSectors := numSectors - l
        if ok = false then some (false, d, st)
        else if numSectors = 0 then some (true, d, st)
        else none

/-! ### Deallocation -/

/-- The loop over the first entries of an index block; `f` releases what is below one. -/
def deallocateLoop (f : State → Sector → ℕ → Option State) (unit : ℕ) (blocks : ℕ → Sector) :
    ℕ → ℕ → State → ℕ → Option (ℕ × State)
  | 0, _, st, numSectors => some (numSectors, st)
  | count + 1, i, st, numSectors => do
      let subsize := min numSectors unit
      let st ← f st (blocks i) subsize
      deallocateLoop f unit blocks count (i + 1) st (numSectors - subsize)

/-- `inode_deallocate_indirect (e, num_sectors, level)`. -/
def deallocateIndirect : ℕ → State → Sector → ℕ → Option State
  | 0, st, e, _ => st.freeMapRelease e
  | level + 1, st, e, numSectors => do
      let unit := if level = 0 then 1 else 128
      let l := (numSectors + (unit - 1)) / unit
      let (rest, st) ←
        deallocateLoop (deallocateIndirect level) unit (word (st.disk e)) l 0 st numSectors
      if rest = 0 then st.freeMapRelease e else none

/-- `inode_deallocate`. -/
def inodeDeallocate (st : State) (d : InodeDisk) : Option State := do
  let numSectors := bytesToSectors d.length
  let l := min numSectors 123
  let (_, st) ← deallocateLoop (fun st e _ => st.freeMapRelease e) 1 d.directBlocks l 0 st l
  let numSectors := numSectors - l
  let l := min numSectors 128
  let st ← if 0 < l then deallocateIndirect 1 st d.indirectBlock l else some st
  let numSectors := numSectors - l
  let l := min numSectors (128 * 128)
  let st ← if 0 < l then deallocateIndirect 2 st d.doublyIndirectBlock l else some st
  if numSectors - l = 0 then some st else none

/-! ### The operations on inodes -/

/-- Put an entry to `open_inodes`, or take it out. -/
def setInode (st : State) (s : Sector) (i : Option Inode) : State :=
  { st with openInodes := update st.openInodes s i }

/-- `inode_create (s, length, is_dir)`. -/
def inodeCreate (st : State) (s : Sector) (length : ℤ) (isDir : Bool) : Option (Bool × State) :=
  if length < 0 then none
  else
    let (ok, st) := st.malloc
    if ok then do
      let (ok, d, st) ← st.inodeReserve ⟨fun _ => 0, 0, 0, isDir, length.toNat⟩ length
      some (ok, if ok then st.write s d.toBlock else st)
    else some (false, st)

/-- `inode_open (s)`, with a null pointer when there is no memory. -/
def inodeOpen (st : State) (s : Sector) : Bool × State :=
  match st.openInodes s with
  | some i => (true, st.setInode s (some { i with openCnt := i.openCnt + 1 }))
  | none =>
      let (ok, st) := st.malloc
      if ok then (true, st.setInode s (some ⟨1, false, 0, .ofBlock (st.disk s)⟩)) else (false, st)

/-- `inode_close`. -/
def inodeClose (st : State) (s : Sector) : Option State :=
  match st.openInodes s with
  | none => none
  | some i =>
      if i.openCnt - 1 = 0 then
        let st := st.setInode s none
        if i.removed then do
          let st ← st.freeMapRelease s
          let st ← st.inodeDeallocate i.data
          some { st with live := update st.live s false }
        else some st
      else some (st.setInode s (some { i with openCnt := i.openCnt - 1 }))

/-- `inode_remove`. -/
def inodeRemove (st : State) (s : Sector) : Option State :=
  (st.openInodes s).map fun i => st.setInode s (some { i with removed := true })

/-- `inode_deny_write`. -/
def inodeDenyWrite (st : State) (s : Sector) : Option State :=
  match st.openInodes s with
  | none => none
  | some i =>
      if i.denyWriteCnt + 1 ≤ i.openCnt then
        some (st.setInode s (some { i with denyWriteCnt := i.denyWriteCnt + 1 }))
      else none

/-- `inode_allow_write`. -/
def inodeAllowWrite (st : State) (s : Sector) : Option State :=
  match st.openInodes s with
  | none => none
  | some i =>
      if 0 < i.denyWriteCnt ∧ i.denyWriteCnt ≤ i.openCnt then
        some (st.setInode s (some { i with denyWriteCnt := i.denyWriteCnt - 1 }))
      else none

/-- `inode_read_at`: the bytes stored to the buffer. -/
def inodeReadAt (st : State) (i : Inode) (size : ℤ) (offset : ℕ) : List UInt8 :=
  readLoop st.disk i.data (st.heap 0) size.toNat size offset

/-- The first part of `inode_write_at`: a write past the end of file extends the inode. -/
def inodeExtend (st : State) (s : Sector) (i : Inode) (size : ℤ) (offset : ℕ) :
    Option (Bool × Inode × State) :=
  if byteToSector st.disk i.data (offT (offset + size - 1)) = noSector then do
    let (ok, d, st) ← st.inodeReserve i.data (offT (offset + size))
    if ok then
      let i := { i with data := { d with length := (offT (offset + size)).toNat } }
      some (true, i, (st.setInode s (some i)).write s i.data.toBlock)
    else
      let i := { i with data := d }
      some (false, i, st.setInode s (some i))
  else some (true, i, st)

/-- `inode_write_at`: the bytes written. -/
def inodeWriteAt (st : State) (s : Sector) (buffer : ℕ → UInt8) (size : ℤ) (offset : ℕ) :
    Option (ℕ × State) :=
  match st.openInodes s with
  | none => none
  | some i =>
      if i.denyWriteCnt ≠ 0 then some (0, st)
      else do
        let (ok, i, st) ← st.inodeExtend s i size offset
        if ok then
          let (m, n) := writeLoop i.data (st.heap 0) buffer size.toNat st.disk size offset 0
          some (n, { st with
            disk := m
            heap := fun k => st.heap (k + 1)
            allocFailed := st.allocFailed || needsBounce i.data size.toNat size offset && !st.heap 0 })
        else some (0, st)

/-- `filesys_create` without the directory: `added` is the result of `dir_add`. -/
def filesysCreate (st : State) (length : ℤ) (isDir added : Bool) : Option State :=
  match st.freeMapAllocate with
  | (none, st) => some st
  | (some s, st) => do
      let (ok, st) ← st.inodeCreate s length isDir
      if ok && added then some { st with live := update st.live s true }
      else st.freeMapRelease s

/-- `free_map_init`, and `do_format` with a root directory that is still empty. -/
def format (disk : Sector → Block) (size : Sector) (heap : ℕ → Bool) : Option State :=
  if size ≤ 1 then none
  else do
    let st : State := ⟨disk, fun s => s == 0 || s == 1, size, false, fun _ => none, fun _ => false,
      heap, false⟩
    let (ok, st) ← st.inodeCreate 0 (bitmapFileSize size) false
    if ok = false then none
    else
      let (ok, st) := { st with live := update st.live 0 true }.inodeOpen 0
      if ok = false then none
      else
        let (ok, st) := { st with freeMapFile := true }.bitmapWrite
        if ok = false then none
        else do
          let (ok, st) ← st.inodeCreate 1 320 true
          if ok then some { st with live := update st.live 1 true } else none

end State

/-- The operations on files. -/
inductive Action where
  | create (length : ℤ) (isDir added : Bool)
  | open (s : Sector)
  | write (s : Sector) (buffer : ℕ → UInt8) (size : ℤ) (offset : ℕ)
  | remove (s : Sector)
  | close (s : Sector)
  | denyWrite (s : Sector)
  | allowWrite (s : Sector)

/-- One operation.  Only files are opened, the free map's own file stays with the kernel, and
lengths and offsets are of type `off_t`. -/
def act (a : Action) (st : State) : Option State :=
  match a with
  | .create length isDir added =>
      if offT length = length then st.filesysCreate length isDir added else none
  | .open s => if st.live s ∧ s ≠ 0 then some (st.inodeOpen s).2 else none
  | .write s buffer size offset =>
      if s ≠ 0 ∧ offT size = size ∧ offT offset = offset then
        (st.inodeWriteAt s buffer size offset).map Prod.snd
      else none
  | .remove s => if s ≠ 0 then st.inodeRemove s else none
  | .close s => if s ≠ 0 then st.inodeClose s else none
  | .denyWrite s => if s ≠ 0 then st.inodeDenyWrite s else none
  | .allowWrite s => if s ≠ 0 then st.inodeAllowWrite s else none

/-- A step: an operation with the answers that `malloc` gives to it. -/
def step (a : Action × (ℕ → Bool)) (st : State) : Option State :=
  act a.1 { st with heap := a.2, allocFailed := false }

end CSE130.Lab3.Files
