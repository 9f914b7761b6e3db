import CSE130.Lib.Memory
import Mathlib.Logic.Function.Basic
import Mathlib.Algebra.Order.Ring.Nat

/-! # Block devices and partitions

A block device is a disk or a partition of another device (`devices/block.c`, `devices/partition.c`).
Sector numbers are taken modulo `2 ^ 32`, and `none` is a panic, or, in the scan for partitions, that
the recursion has not come to its end within the given depth.  `malloc` has memory for the tables and
for the descriptors of the partitions; where it has none, the scan panics.

`read_partition_table` is called for a sector, but reads sector 0 of the device.  So every extended
partition on it seems to contain the partitions of the whole device, once more and moved
(`readPartitionTable_eq`), and if an extended one of these moved copies begins within the device, too,
the recursion does not end (`partitionScan_returns_iff`).  Whatever the table says, a
partition that is registered lies within its device, and reads and writes of it reach just its own
sectors (`partitionScan_registered`). -/

namespace CSE130.Lab3.Partition

open Function (update)

/-- `enum block_type`. -/
inductive BlockType where
  | kernel | filesys | scratch | swap | raw | foreign
  deriving DecidableEq

/-- `struct block`; the driver of a partition has the block it belongs to and its start. -/
inductive Block where
  | disk (id : ℕ) (type : BlockType) (size : ℕ)
  | partition (block : Block) (start : ℕ) (type : BlockType) (size : ℕ)
  deriving DecidableEq

/-- The sectors of the disks. -/
abbrev Disks := ℕ → ℕ → Mem

namespace Block

/-- `block_size`. -/
def size : Block → ℕ
  | disk _ _ size => size
  | partition _ _ _ size => size

@[simp] theorem size_disk {id size : ℕ} {type : BlockType} : (disk id type size).size = size := rfl

@[simp] theorem size_partition {block : Block} {start size : ℕ} {type : BlockType} :
    (partition block start type size).size = size := rfl

/-- `block_type`. -/
def type : Block → BlockType
  | disk _ type _ => type
  | partition _ _ type _ => type

/-- The disk that a block is on. -/
def diskId : Block → ℕ
  | disk id _ _ => id
  | partition block _ _ _ => block.diskId

/-- The sector of the disk that the block begins with. -/
def origin : Block → ℕ
  | disk _ _ _ => 0
  | partition block start _ _ => block.origin + start

/-- Neither the block nor one that it is a partition of belongs to another system. -/
def Writable : Block → Prop
  | disk _ type _ => type ≠ .foreign
  | partition block _ type _ => type ≠ .foreign ∧ block.Writable

/-- Partitions are within the blocks that they are partitions of. -/
def Inside : Block → Prop
  | disk _ _ size => size ≤ 2 ^ 32
  | partition block start _ size => start + size ≤ block.size ∧ block.Inside

end Block

/-- `block_read`, with `check_sector`, the driver of a disk and `partition_read`. -/
def blockRead (disks : Disks) : Block → ℕ → Option Mem
  | .disk id _ size, sector => if sector ≥ size then none else some (disks id sector)
  | .partition block start _ size, sector =>
      if sector ≥ size then none else blockRead disks block ((start + sector) % 2 ^ 32)

/-- `block_write`, with `check_sector`, the driver of a disk and `partition_write`. -/
def blockWrite (disks : Disks) (buffer : Mem) : Block → ℕ → Option Disks
  | .disk id type size, sector =>
      if sector ≥ size ∨ type = .foreign then none
      else some (update disks id (update (disks id) sector buffer))
  | .partition block start type size, sector =>
      if sector ≥ size ∨ type = .foreign then none
      else blockWrite disks buffer block ((start + sector) % 2 ^ 32)

/-! ### Reading the table -/

/-- `struct partition_table_entry`. -/
structure PartitionTableEntry where
  type : UInt8
  offset : ℕ
  size : ℕ
  deriving DecidableEq

/-- `partitions[i]` of `struct partition_table`. -/
def entry (pt : Mem) (i : ℕ) : PartitionTableEntry where
  type := pt (446 + 16 * i + 4)
  offset := pt.word (446 + 16 * i + 8)
  size := pt.word (446 + 16 * i + 12)

/-- `partitions`. -/
def partitions (pt : Mem) : List PartitionTableEntry := (List.range 4).map (entry pt)

/-- `signature`. -/
def signature (pt : Mem) : ℕ := (pt 510).toNat + (pt 511).toNat * 256

/-- `e->size == 0 || e->type == 0`. -/
def PartitionTableEntry.Empty (e : PartitionTableEntry) : Prop := e.size = 0 ∨ e.type = 0

/-- The types of extended partitions. -/
def PartitionTableEntry.Extended (e : PartitionTableEntry) : Prop :=
  e.type = 0x05 ∨ e.type = 0x0f ∨ e.type = 0x85 ∨ e.type = 0xc5

instance (e : PartitionTableEntry) : Decidable e.Empty := inferInstanceAs (Decidable (_ ∨ _))
instance (e : PartitionTableEntry) : Decidable e.Extended := inferInstanceAs (Decidable (_ ∨ _))

/-- The type of a block for the type of its partition. -/
def blockType (partType : UInt8) : BlockType :=
  if partType = 0x20 then .kernel else if partType = 0x21 then .filesys
  else if partType = 0x22 then .scratch else if partType = 0x23 then .swap else .foreign

/-- The partitions of a device that have been found: their number, and those registered. -/
structure Found where
  partNr : ℕ := 0
  blocks : List Block := []
  deriving DecidableEq

/-- `found_partition`. -/
def foundPartition (block : Block) (partType : UInt8) (start size : ℕ) (s : Found) : Found :=
  if start ≥ block.size then s
  else if (start + size) % 2 ^ 32 < start ∨ (start + size) % 2 ^ 32 > block.size then s
  else { s with blocks := s.blocks ++ [.partition block start (blockType partType) size] }

/-- An entry that is neither empty nor extended. -/
def countPartition (block : Block) (sector : ℕ) (e : PartitionTableEntry) (s : Found) : Found :=
  foundPartition block e.type ((e.offset + sector) % 2 ^ 32) e.size { s with partNr := s.partNr + 1 }

/-- The branch for an extended partition; `table` reads a partition table. -/
def descend (table : ℕ → ℕ → Found → Option Found) (sector primaryExtendedSector : ℕ)
    (e : PartitionTableEntry) (s : Found) : Option Found :=
  if sector = 0 then table e.offset e.offset s
  else table ((e.offset + primaryExtendedSector) % 2 ^ 32) primaryExtendedSector s

/-- The loop over the entries. -/
def parsePartitions (table : ℕ → ℕ → Found → Option Found) (block : Block)
    (sector primaryExtendedSector : ℕ) : List PartitionTableEntry → Found → Option Found
  | [], s => some s
  | e :: es, s =>
      if e.Empty then parsePartitions table block sector primaryExtendedSector es s
      else if e.Extended then
        (descend table sector primaryExtendedSector e s).bind fun s =>
          parsePartitions table block sector primaryExtendedSector es s
      else
        parsePartitions table block sector primaryExtendedSector es (countPartition block sector e s)

/-- `read_partition_table`. -/
def readPartitionTable (disks : Disks) (block : Block) : ℕ → ℕ → ℕ → Found → Option Found
  | 0, _, _, _ => none
  | depth + 1, sector, primaryExtendedSector, s =>
      if sector ≥ block.size then some s
      else
        (blockRead disks block 0).bind fun pt =>
          if signature pt ≠ 0xaa55 then some s
          else
            parsePartitions (readPartitionTable disks block depth) block sector
              primaryExtendedSector (partitions pt) s

/-- `partition_scan`. -/
def partitionScan (disks : Disks) (block : Block) (depth : ℕ) : Option Found :=
  readPartitionTable disks block depth 0 0 {}

/-! ### Sectors -/

variable {disks disks' : Disks} {block b b' : Block} {buffer pt : Mem} {e : PartitionTableEntry}
  {es : List PartitionTableEntry} {s s' : Found} {sector start size depth primary n n' : ℕ}

theorem Block.Inside.end_le (h : b.Inside) : b.origin + b.size ≤ 2 ^ 32 := by
  have hle : ∀ {b : Block}, b.Inside → ∃ total, b.origin + b.size ≤ total ∧ total ≤ 2 ^ 32 := by
    intro b
    induction b with
    | disk id type size => exact fun h => ⟨size, by simp [Block.origin, Block.size], h⟩
    | partition block start type size ih =>
        rintro ⟨hsize, hblock⟩
        obtain ⟨total, htotal, hmax⟩ := ih hblock
        refine ⟨total, ?_, hmax⟩
        simp only [Block.origin, Block.size]
        omega
  obtain ⟨total, htotal, hmax⟩ := hle h
  omega

theorem Block.Inside.sector_mod {type : BlockType} (h : (Block.partition block start type size).Inside)
    (hs : sector < size) : (start + sector) % 2 ^ 32 = start + sector := by
  have hend := h.2.end_le
  have hsize := h.1
  exact Nat.mod_eq_of_lt (by omega)

/-- Within a block a read does not fail, and gives a sector of the disk. -/
theorem blockRead_eq (h : b.Inside) :
    blockRead disks b sector = if sector < b.size then some (disks b.diskId (b.origin + sector))
      else none := by
  induction b generalizing sector with
  | disk id type size =>
      rw [Block.size_disk, blockRead, Block.diskId, Block.origin, Nat.zero_add]
      by_cases hs : sector < size
      · rw [if_neg (by omega), if_pos hs]
      · rw [if_pos (by omega), if_neg hs]
  | partition block start type size ih =>
      rw [Block.size_partition, blockRead, Block.diskId, Block.origin]
      by_cases hs : sector < size
      · have hsize := h.1
        rw [if_neg (by omega), if_pos hs, h.sector_mod hs, ih h.2, if_pos (by omega), Nat.add_assoc]
      · rw [if_pos (by omega), if_neg hs]

/-- The disks after a sector of a block has been written. -/
def written (disks : Disks) (buffer : Mem) (b : Block) (sector : ℕ) : Disks :=
  update disks b.diskId (update (disks b.diskId) (b.origin + sector) buffer)

theorem blockWrite_eq (h : b.Inside) (hw : b.Writable) :
    blockWrite disks buffer b sector =
      if sector < b.size then some (written disks buffer b sector) else none := by
  unfold written
  induction b generalizing sector with
  | disk id type size =>
      have htype : type ≠ .foreign := hw
      rw [Block.size_disk, blockWrite, Block.diskId, Block.origin, Nat.zero_add]
      by_cases hs : sector < size
      · rw [if_neg (not_or.mpr ⟨by omega, htype⟩), if_pos hs]
      · rw [if_pos (Or.inl (by omega)), if_neg hs]
  | partition block start type size ih =>
      rw [Block.size_partition, blockWrite, Block.diskId, Block.origin]
      by_cases hs : sector < size
      · have hsize := h.1
        rw [if_neg (not_or.mpr ⟨by omega, hw.1⟩), if_pos hs, h.sector_mod hs, ih h.2 hw.2,
          if_pos (by omega), Nat.add_assoc]
      · rw [if_pos (Or.inl (by omega)), if_neg hs]

theorem blockRead_written (h : b.Inside) (hn : n < b.size)
    (hother : b'.diskId ≠ b.diskId ∨ b'.origin + n' ≠ b.origin + n) :
    blockRead (written disks buffer b' n') b n = blockRead disks b n := by
  rw [blockRead_eq h, blockRead_eq h, if_pos hn, if_pos hn, written]
  by_cases hid : b'.diskId = b.diskId
  · rw [hid, Function.update_self, Function.update_of_ne (by omega)]
  · rw [Function.update_of_ne (Ne.symm hid)]

/-! ### The blocks that are registered -/

/-- What the scan of a device registers. -/
def Registered (block b : Block) : Prop :=
  ∃ start type size, b = .partition block start type size ∧ start + size ≤ block.size

theorem word_lt (m : Mem) (a : ℕ) : m.word a < 2 ^ 32 := by
  unfold Mem.word
  have h₀ := (m a).toNat_lt
  have h₁ := (m (a + 1)).toNat_lt
  have h₂ := (m (a + 2)).toNat_lt
  have h₃ := (m (a + 3)).toNat_lt
  omega

theorem size_lt_of_mem (he : e ∈ partitions pt) : e.size < 2 ^ 32 := by
  obtain ⟨i, -, rfl⟩ := List.mem_map.mp he
  exact word_lt _ _

/-- The sum of start and size does not wrap, as it would be less than the start. -/
theorem foundPartition_registered (partType : UInt8) (h : ∀ b ∈ s.blocks, Registered block b)
    (hmax : block.size ≤ 2 ^ 32) (hsize : size < 2 ^ 32) :
    ∀ b ∈ (foundPartition block partType start size s).blocks, Registered block b := by
  unfold foundPartition
  split_ifs with hstart hend
  · exact h
  · exact h
  · intro b hb
    rcases List.mem_append.mp hb with hb | hb
    · exact h b hb
    · refine ⟨start, blockType partType, size, List.mem_singleton.mp hb, ?_⟩
      rw [not_or] at hend
      omega

theorem countPartition_registered (h : ∀ b ∈ s.blocks, Registered block b)
    (hmax : block.size ≤ 2 ^ 32) (hsize : e.size < 2 ^ 32) :
    ∀ b ∈ (countPartition block sector e s).blocks, Registered block b := by
  unfold countPartition
  exact foundPartition_registered e.type h hmax hsize

variable {table : ℕ → ℕ → Found → Option Found}

theorem parsePartitions_registered (hmax : block.size ≤ 2 ^ 32)
    (htable : ∀ sector primary s s', (∀ b ∈ s.blocks, Registered block b) →
      table sector primary s = some s' → ∀ b ∈ s'.blocks, Registered block b)
    (hes : ∀ e ∈ es, e.size < 2 ^ 32) (h : ∀ b ∈ s.blocks, Registered block b)
    (hs : parsePartitions table block sector primary es s = some s') :
    ∀ b ∈ s'.blocks, Registered block b := by
  induction es generalizing s with
  | nil =>
      obtain rfl : s = s' := Option.some.inj hs
      exact h
  | cons e es ih =>
      have ih := fun s => @ih s fun x hx => hes x (List.mem_cons_of_mem _ hx)
      rw [parsePartitions] at hs
      by_cases hempty : e.Empty
      · rw [if_pos hempty] at hs
        exact ih s h hs
      rw [if_neg hempty] at hs
      by_cases hextended : e.Extended
      · rw [if_pos hextended] at hs
        obtain ⟨s₁, hs₁, hs⟩ := Option.bind_eq_some_iff.mp hs
        refine ih s₁ ?_ hs
        unfold descend at hs₁
        split_ifs at hs₁
        · exact htable _ _ _ _ h hs₁
        · exact htable _ _ _ _ h hs₁
      · rw [if_neg hextended] at hs
        exact ih _ (countPartition_registered h hmax (hes e List.mem_cons_self)) hs

theorem readPartitionTable_registered (hmax : block.size ≤ 2 ^ 32) :
    ∀ {depth sector primary : ℕ} {s s' : Found}, (∀ b ∈ s.blocks, Registered block b) →
      readPartitionTable disks block depth sector primary s = some s' →
      ∀ b ∈ s'.blocks, Registered block b := by
  intro depth
  induction depth with
  | zero =>
      intro sector primary s s' _ hs
      simp [readPartitionTable] at hs
  | succ depth ih =>
      intro sector primary s s' h hs
      rw [readPartitionTable] at hs
      split_ifs at hs with hsector
      · obtain rfl : s = s' := Option.some.inj hs
        exact h
      · obtain ⟨pt, -, hs⟩ := Option.bind_eq_some_iff.mp hs
        split_ifs at hs with hsignature
        · obtain rfl : s = s' := Option.some.inj hs
          exact h
        · exact parsePartitions_registered hmax (fun _ _ _ _ h hs => ih h hs)
            (fun _ he => size_lt_of_mem he) h hs

/-- **A registered partition is a part of its device**: every sector of it is the sector of the device
that many behind its start, beyond its end there is a panic, and a write changes nothing outside of it. -/
theorem partitionScan_registered (h : block.Inside) (hs : partitionScan disks block depth = some s) :
    ∀ b ∈ s.blocks, b.Inside ∧ ∃ start, start + b.size ≤ block.size ∧
      (∀ disks n, blockRead disks b n = if n < b.size then blockRead disks block (start + n) else none) ∧
      (b.type ≠ .foreign → block.Writable → ∀ disks buffer n, n < b.size →
        ∃ disks', blockWrite disks buffer b n = some disks' ∧ blockRead disks' b n = some buffer ∧
          ∀ n', n' ≠ start + n → blockRead disks' block n' = blockRead disks block n') := by
  intro b hb
  have hmax : block.size ≤ 2 ^ 32 := (Nat.le_add_left _ _).trans h.end_le
  obtain ⟨start, type, size, rfl, hend⟩ :=
    readPartitionTable_registered hmax (by simp) hs b hb
  have hin : (Block.partition block start type size).Inside := ⟨hend, h⟩
  refine ⟨hin, start, hend, fun disks n => ?_, fun htype hwritable disks buffer n hn => ?_⟩
  · rw [blockRead_eq hin]
    by_cases hn : n < (Block.partition block start type size).size
    · rw [if_pos hn, if_pos hn, blockRead_eq h, if_pos (by rw [Block.size_partition] at hn; omega),
        Block.diskId, Block.origin, Nat.add_assoc]
    · rw [if_neg hn, if_neg hn]
  · refine ⟨written disks buffer (.partition block start type size) n, ?_, ?_, fun n' hne => ?_⟩
    · rw [blockWrite_eq hin ⟨htype, hwritable⟩, if_pos hn]
    · rw [blockRead_eq hin, if_pos hn, written, Function.update_self, Function.update_self]
    · by_cases hn' : n' < block.size
      · refine blockRead_written h hn' (Or.inr ?_)
        rw [Block.origin]
        omega
      · rw [blockRead_eq h, blockRead_eq h, if_neg hn', if_neg hn']

/-- A disk with one partition. -/
theorem partitionScan_registered_one : ∃ s, partitionScan (fun _ _ x => if x = 510 then 0x55
    else if x = 511 then 0xaa else if x = 450 then 0x21 else if x = 454 then 5 else if x = 458 then 10 else 0)
    (.disk 0 .raw 100) 1 = some s ∧ s.blocks = [.partition (.disk 0 .raw 100) 5 .filesys 10] ∧
      ∀ b ∈ s.blocks, b.Inside ∧ ∃ start, start + b.size ≤ (Block.disk 0 .raw 100).size ∧
        (∀ disks n, blockRead disks b n =
          if n < b.size then blockRead disks (.disk 0 .raw 100) (start + n) else none) ∧
        (b.type ≠ .foreign → (Block.disk 0 .raw 100).Writable → ∀ disks buffer n, n < b.size →
          ∃ disks', blockWrite disks buffer b n = some disks' ∧ blockRead disks' b n = some buffer ∧
            ∀ n', n' ≠ start + n →
              blockRead disks' (.disk 0 .raw 100) n' = blockRead disks (.disk 0 .raw 100) n') := by
  have hscan : partitionScan (fun _ _ x => if x = 510 then 0x55 else if x = 511 then 0xaa
      else if x = 450 then 0x21 else if x = 454 then 5 else if x = 458 then 10 else 0)
      (.disk 0 .raw 100) 1 = some ⟨1, [.partition (.disk 0 .raw 100) 5 .filesys 10]⟩ := by
    decide +kernel
  exact ⟨_, hscan, rfl, partitionScan_registered (show 100 ≤ 2 ^ 32 by decide) hscan⟩

/-! ### When the scan ends -/

/-- The entry is taken for that of an extended partition. -/
def PartitionTableEntry.Descends (e : PartitionTableEntry) : Prop := ¬ e.Empty ∧ e.Extended

instance (e : PartitionTableEntry) : Decidable e.Descends := inferInstanceAs (Decidable (_ ∧ _))

/-- One round of the loop over the entries, when the tables of extended partitions do what `g` does. -/
def scanEntry (block : Block) (sector : ℕ) (g : PartitionTableEntry → Found → Found) (s : Found)
    (e : PartitionTableEntry) : Found :=
  if e.Empty then s else if e.Extended then g e s else countPartition block sector e s

theorem parsePartitions_eq_foldl {g : PartitionTableEntry → Found → Found}
    (h : ∀ e ∈ es, e.Descends → ∀ s, descend table sector primary e s = some (g e s)) :
    parsePartitions table block sector primary es s =
      some (es.foldl (scanEntry block sector g) s) := by
  induction es generalizing s with
  | nil => rfl
  | cons e es ih =>
      have ih := fun s => @ih s fun x hx => h x (List.mem_cons_of_mem _ hx)
      rw [parsePartitions, List.foldl_cons, scanEntry]
      by_cases hempty : e.Empty
      · rw [if_pos hempty, if_pos hempty, ih]
      · rw [if_neg hempty, if_neg hempty]
        by_cases hextended : e.Extended
        · rw [if_pos hextended, if_pos hextended, h e List.mem_cons_self ⟨hempty, hextended⟩,
            Option.bind_some, ih]
        · rw [if_neg hextended, if_neg hextended, ih]

theorem parsePartitions_eq_none (he : e ∈ es) (hd : e.Descends)
    (h : ∀ s, descend table sector primary e s = none) :
    parsePartitions table block sector primary es s = none := by
  induction es generalizing s with
  | nil => cases he
  | cons x es ih =>
      rw [parsePartitions]
      rcases List.mem_cons.mp he with rfl | he
      · rw [if_neg hd.1, if_pos hd.2, h, Option.bind_none]
      · have ih := fun s => @ih s he
        by_cases hempty : x.Empty
        · rw [if_pos hempty, ih]
        rw [if_neg hempty]
        by_cases hextended : x.Extended
        · rw [if_pos hextended]
          cases descend table sector primary x s with
          | none => rfl
          | some s₁ => exact ih s₁
        · rw [if_neg hextended, ih]

/-- The table that is read whatever the sector is. -/
def firstTable (disks : Disks) (block : Block) : Mem := disks block.diskId block.origin

theorem readPartitionTable_succ (h : block.Inside) (hs : sector < block.size)
    (hsignature : signature (firstTable disks block) = 0xaa55) :
    readPartitionTable disks block (depth + 1) sector primary s =
      parsePartitions (readPartitionTable disks block depth) block sector primary
        (partitions (firstTable disks block)) s := by
  have hread : blockRead disks block 0 = some (firstTable disks block) := by
    rw [blockRead_eq h, if_pos (by omega), Nat.add_zero, firstTable]
  rw [readPartitionTable, if_neg (by omega), hread, Option.bind_some, if_neg (not_not.mpr hsignature)]

/-- An extended partition within the device leads to the place of another one within the device. -/
def LoopsBack (disks : Disks) (block : Block) : Prop :=
  ∃ e ∈ partitions (firstTable disks block), e.Descends ∧ e.offset < block.size ∧
    ∃ e' ∈ partitions (firstTable disks block), e'.Descends ∧
      (e'.offset + e.offset) % 2 ^ 32 < block.size

instance (disks : Disks) (block : Block) : Decidable (LoopsBack disks block) :=
  inferInstanceAs (Decidable (∃ e ∈ _, _))

theorem readPartitionTable_loops {e' : PartitionTableEntry} (h : block.Inside)
    (hsignature : signature (firstTable disks block) = 0xaa55)
    (he : e ∈ partitions (firstTable disks block)) (hd : e.Descends) (hlt : e.offset < block.size)
    (he' : e' ∈ partitions (firstTable disks block)) (hd' : e'.Descends)
    (hlt' : (e'.offset + e.offset) % 2 ^ 32 < block.size) :
    readPartitionTable disks block depth e.offset e.offset s = none ∧
      readPartitionTable disks block depth ((e'.offset + e.offset) % 2 ^ 32) e.offset s = none := by
  induction depth generalizing s with
  | zero => exact ⟨rfl, rfl⟩
  | succ depth ih =>
      constructor
      · rw [readPartitionTable_succ h hlt hsignature]
        by_cases h0 : e.offset = 0
        · refine parsePartitions_eq_none he hd fun s => ?_
          rw [descend, if_pos h0]
          exact ih.1
        · refine parsePartitions_eq_none he' hd' fun s => ?_
          rw [descend, if_neg h0]
          exact ih.2
      · rw [readPartitionTable_succ h hlt' hsignature]
        by_cases h0 : (e'.offset + e.offset) % 2 ^ 32 = 0
        · refine parsePartitions_eq_none he hd fun s => ?_
          rw [descend, if_pos h0]
          exact ih.1
        · refine parsePartitions_eq_none he' hd' fun s => ?_
          rw [descend, if_neg h0]
          exact ih.2

/-- What the scan finds: for an extended partition within the device the other partitions again, each
moved by its offset. -/
def found (block : Block) (es : List PartitionTableEntry) : Found :=
  es.foldl (scanEntry block 0 fun e s =>
    if e.offset ≥ block.size then s else es.foldl (scanEntry block e.offset fun _ s => s) s) {}

theorem readPartitionTable_end (hs : sector ≥ block.size) :
    readPartitionTable disks block (depth + 1) sector primary s = some s := by
  rw [readPartitionTable, if_pos hs]

theorem readPartitionTable_eq (depth : ℕ) (h : block.Inside) (hpos : 0 < block.size)
    (hsignature : signature (firstTable disks block) = 0xaa55) (hloop : ¬ LoopsBack disks block) :
    partitionScan disks block (depth + 3) =
      some (found block (partitions (firstTable disks block))) := by
  rw [partitionScan, readPartitionTable_succ h hpos hsignature, found]
  refine parsePartitions_eq_foldl fun e he hd s => ?_
  rw [descend, if_pos rfl]
  by_cases hlt : e.offset < block.size
  · rw [if_neg (by omega), readPartitionTable_succ h hlt hsignature]
    have h0 : e.offset ≠ 0 := by
      intro h0
      exact hloop ⟨e, he, hd, hlt, e, he, hd, by simpa [h0] using hpos⟩
    refine parsePartitions_eq_foldl fun e' he' hd' s => ?_
    rw [descend, if_neg h0]
    refine readPartitionTable_end (Nat.le_of_not_lt fun hlt' => ?_)
    exact hloop ⟨e, he, hd, hlt, e', he', hd', hlt'⟩
  · rw [if_pos (by omega), readPartitionTable_end (by omega)]

theorem parsePartitions_mono {table' : ℕ → ℕ → Found → Option Found}
    (h : ∀ sector primary s s', table sector primary s = some s' → table' sector primary s = some s')
    (hs : parsePartitions table block sector primary es s = some s') :
    parsePartitions table' block sector primary es s = some s' := by
  induction es generalizing s with
  | nil => exact hs
  | cons e es ih =>
      rw [parsePartitions] at hs ⊢
      by_cases hempty : e.Empty
      · rw [if_pos hempty] at hs ⊢
        exact ih hs
      rw [if_neg hempty] at hs ⊢
      by_cases hextended : e.Extended
      · rw [if_pos hextended] at hs ⊢
        obtain ⟨s₁, hs₁, hs⟩ := Option.bind_eq_some_iff.mp hs
        have hs₁' : descend table' sector primary e s = some s₁ := by
          unfold descend at hs₁ ⊢
          split_ifs at hs₁ ⊢ <;> exact h _ _ _ _ hs₁
        rw [hs₁', Option.bind_some]
        exact ih hs
      · rw [if_neg hextended] at hs ⊢
        exact ih hs

theorem readPartitionTable_mono :
    ∀ {depth sector primary : ℕ} {s s' : Found},
      readPartitionTable disks block depth sector primary s = some s' →
      readPartitionTable disks block (depth + 1) sector primary s = some s' := by
  intro depth
  induction depth with
  | zero =>
      intro sector primary s s' hs
      simp [readPartitionTable] at hs
  | succ depth ih =>
      intro sector primary s s' hs
      rw [readPartitionTable] at hs ⊢
      by_cases hsector : sector ≥ block.size
      · rw [if_pos hsector] at hs ⊢
        exact hs
      · rw [if_neg hsector] at hs ⊢
        obtain ⟨pt, hpt, hs⟩ := Option.bind_eq_some_iff.mp hs
        rw [hpt, Option.bind_some]
        by_cases hsignature : signature pt ≠ 0xaa55
        · rw [if_pos hsignature] at hs ⊢
          exact hs
        · rw [if_neg hsignature] at hs ⊢
          exact parsePartitions_mono (fun _ _ _ _ => ih) hs

/-- **When the scan ends**: unless there is no table, exactly if no extended partition within the device
leads to one within the device again.  Then the other partitions have been found, and for each extended
one within the device they have been found once more, moved by its offset. -/
theorem partitionScan_returns_iff (h : block.Inside) :
    ((∃ depth s, partitionScan disks block depth = some s) ↔
      block.size = 0 ∨ signature (firstTable disks block) ≠ 0xaa55 ∨ ¬ LoopsBack disks block) ∧
    ∀ depth s, 0 < block.size → signature (firstTable disks block) = 0xaa55 →
      partitionScan disks block depth = some s →
      s = found block (partitions (firstTable disks block)) := by
  have hreturns : ∀ depth s, 0 < block.size → signature (firstTable disks block) = 0xaa55 →
      partitionScan disks block depth = some s → ¬ LoopsBack disks block := by
    rintro depth s hpos hsignature hs ⟨e, he, hd, hlt, e', he', hd', hlt'⟩
    cases depth with
    | zero => simp [partitionScan, readPartitionTable] at hs
    | succ depth =>
        rw [partitionScan, readPartitionTable_succ h hpos hsignature,
          parsePartitions_eq_none he hd] at hs
        · cases hs
        · intro s
          rw [descend, if_pos rfl]
          exact (readPartitionTable_loops h hsignature he hd hlt he' hd' hlt').1
  refine ⟨⟨?_, ?_⟩, fun depth s hpos hsignature hs => ?_⟩
  · rintro ⟨depth, s, hs⟩
    by_cases hpos : 0 < block.size
    · by_cases hsignature : signature (firstTable disks block) = 0xaa55
      · exact Or.inr (Or.inr (hreturns depth s hpos hsignature hs))
      · exact Or.inr (Or.inl hsignature)
    · exact Or.inl (by omega)
  · intro hends
    by_cases hpos : 0 < block.size
    · by_cases hsignature : signature (firstTable disks block) = 0xaa55
      · have hloop := (hends.resolve_left (by omega)).resolve_left (not_not.mpr hsignature)
        exact ⟨3, _, readPartitionTable_eq 0 h hpos hsignature hloop⟩
      · have hread : blockRead disks block 0 = some (firstTable disks block) := by
          rw [blockRead_eq h, if_pos hpos, Nat.add_zero, firstTable]
        refine ⟨1, {}, ?_⟩
        rw [partitionScan, readPartitionTable, if_neg (by omega), hread, Option.bind_some,
          if_pos hsignature]
    · exact ⟨1, {}, readPartitionTable_end (by omega)⟩
  · have hfound := readPartitionTable_eq depth h hpos hsignature
      (hreturns depth s hpos hsignature hs)
    have hs₃ : partitionScan disks block (depth + 3) = some s :=
      readPartitionTable_mono (readPartitionTable_mono (readPartitionTable_mono hs))
    exact Option.some.inj (hs₃.symm.trans hfound)

/-- A table with a partition at sector 5 and an extended one at sector 60. -/
def twoEntries : Disks := fun _ _ x =>
  if x = 510 then 0x55 else if x = 511 then 0xaa
  else if x = 450 then 0x21 else if x = 454 then 5 else if x = 458 then 10
  else if x = 466 then 0x05 else if x = 470 then 60 else if x = 474 then 30 else 0

/-- On 100 sectors the scan ends, and has found the partition at two places. -/
theorem partitionScan_returns_iff_extended :
    (∃ depth s, partitionScan twoEntries (.disk 0 .raw 100) depth = some s) ∧
    (∀ depth s, partitionScan twoEntries (.disk 0 .raw 100) depth = some s →
      s = ⟨2, [.partition (.disk 0 .raw 100) 5 .filesys 10,
        .partition (.disk 0 .raw 100) 65 .filesys 10]⟩) ∧
    ¬ ∃ depth s, partitionScan twoEntries (.disk 0 .raw 200) depth = some s := by
  obtain ⟨hiff, hfound⟩ := @partitionScan_returns_iff twoEntries (.disk 0 .raw 100)
    (show 100 ≤ 2 ^ 32 by decide)
  obtain ⟨hiff', -⟩ := @partitionScan_returns_iff twoEntries (.disk 0 .raw 200)
    (show 200 ≤ 2 ^ 32 by decide)
  have hsignature : signature (firstTable twoEntries (.disk 0 .raw 100)) = 0xaa55 := by decide +kernel
  have hloop : ¬ LoopsBack twoEntries (.disk 0 .raw 100) := by decide +kernel
  have hcopies : found (.disk 0 .raw 100) (partitions (firstTable twoEntries (.disk 0 .raw 100))) =
      ⟨2, [.partition (.disk 0 .raw 100) 5 .filesys 10,
        .partition (.disk 0 .raw 100) 65 .filesys 10]⟩ := by
    decide +kernel
  have hloops : ¬ ((Block.disk 0 .raw 200).size = 0 ∨
      signature (firstTable twoEntries (.disk 0 .raw 200)) ≠ 0xaa55 ∨
      ¬ LoopsBack twoEntries (.disk 0 .raw 200)) := by
    decide +kernel
  refine ⟨hiff.mpr (.inr (.inr hloop)), fun depth s hs => ?_, fun h => hloops (hiff'.mp h)⟩
  rw [hfound depth s (by decide) hsignature hs, hcopies]

end CSE130.Lab3.Partition
