import CSE130.Lab3.Ustar
import Mathlib.Data.List.GetD

/-! # Archives on the scratch device (`filesys/fsutil.c`)

`fsutil_append` writes a file behind the files that it has written before: a header, the bytes in
sectors of 512, and a marker for the end of the archive, which the next file is written over.
`fsutil_extract` reads the files from the beginning of the device.

The marker should be two sectors of zeros.  Both calls of `block_write` are for the same sector, the
second from one byte further on in the buffer, so that its last byte is whatever comes after the
buffer in the heap, and the sector behind it keeps what it held.

The calls of `malloc` and of the file system are a parameter (`FileSystem`), and each of them may fail or
panic.  What they do where they succeed is a `View`; the one of the kernel's own file system is in
`Archives.lean`. -/

namespace CSE130.Lab3.Fsutil

open Function (update)
open Ustar Layout

/-- `BLOCK_SECTOR_SIZE`. -/
def blockSectorSize : ℕ := 512

abbrev Sector := List UInt8

/-- A block device. -/
structure Device where
  size : ℕ
  block : ℕ → Sector

/-- A file: a name, which a null byte ends, and as many bytes as an `off_t` can count. -/
structure File where
  name : List UInt8
  bytes : List UInt8
  name_ne : 0 ∉ name
  size_le : bytes.length ≤ intMax

/-- The panics, with what their texts name. -/
inductive Panic where
  /-- `"Access past end of device %s (sector=%"PRDSNu", size=%"PRDSNu")\n"`. -/
  | pastEnd (sector size : ℕ)
  /-- `"couldn't allocate buffer"`. -/
  | noBuffer
  /-- `"couldn't allocate buffers"`. -/
  | noBuffers
  /-- `"couldn't open scratch device"`. -/
  | noScratch
  /-- `"%s: open failed"`. -/
  | openFailed (fileName : List UInt8)
  /-- `"%s: name too long for ustar format"`. -/
  | nameTooLong (fileName : List UInt8)
  /-- `"%s: out of space on scratch device"`. -/
  | outOfSpace (fileName : List UInt8)
  /-- `"%s: read failed with %"PROTd" bytes unread"`. -/
  | readFailed (fileName : List UInt8) (size : ℕ)
  /-- `"bad ustar header in sector %"PRDSNu" (%s)"`. -/
  | badHeader (sector : ℕ) (error : String)
  /-- `"%s: create failed"`. -/
  | createFailed (fileName : List UInt8)
  /-- `"%s: write failed with %d bytes unwritten"`. -/
  | writeFailed (fileName : List UInt8) (size : ℕ)
  /-- A panic in the file system. -/
  | inside
  deriving DecidableEq

namespace Device

/-- `block_read`. -/
def read (sector : ℕ) (d : Device) : Except Panic Sector :=
  if sector < d.size then .ok (d.block sector) else .error (.pastEnd sector d.size)

/-- `block_write`. -/
def write (sector : ℕ) (buffer : Sector) (d : Device) : Except Panic Device :=
  if sector < d.size then .ok { d with block := update d.block sector buffer }
  else .error (.pastEnd sector d.size)

end Device

/-- What `fsutil.c` calls: `malloc`, which says whether there is memory, and the functions of `filesys.c`
and `file.c`.  `σ` are the states, and `φ` the open files without their position, which is passed; `none` is a
panic. -/
structure FileSystem (σ φ : Type) where
  malloc : σ → Bool × σ
  filesysCreate (name : List UInt8) (initialSize : ℕ) : σ → Option (Bool × σ)
  filesysOpen (name : List UInt8) : σ → Option (Option φ × σ)
  fileLength : φ → σ → ℕ
  fileRead (file : φ) (size pos : ℕ) : σ → Option (List UInt8 × σ)
  fileWrite (file : φ) (buffer : List UInt8) (pos : ℕ) : σ → Option (ℕ × σ)
  fileClose : φ → σ → Option σ

variable {σ φ : Type} (F : FileSystem σ φ)

/-- How many bytes of `size` are in the next sector. -/
def chunkSize (size : ℕ) : ℕ := if size > blockSectorSize then blockSectorSize else size

theorem chunkSize_pos {size : ℕ} (h : 0 < size) : 0 < chunkSize size := by
  unfold chunkSize blockSectorSize
  split <;> omega

/-! ### `fsutil_append` -/

/-- The rest of a sector is filled with zeros. -/
def pad (chunk : List UInt8) : Sector :=
  chunk ++ List.replicate (blockSectorSize - chunk.length) 0

/-- The loop of `fsutil_append`: `size` bytes, from `pos` on, are still to be copied. -/
def copyOut (fileName : List UInt8) (src : φ) (size pos sector : ℕ) (dst : Device) (st : σ) :
    Except Panic (ℕ × Device × σ) :=
  if _h : 0 < size then
    if dst.size ≤ sector then .error (.outOfSpace fileName)
    else
      match F.fileRead src (chunkSize size) pos st with
      | none => .error .inside
      | some (buffer, st) =>
          if buffer.length ≠ chunkSize size then .error (.readFailed fileName size)
          else
            match dst.write sector (pad buffer) with
            | .error e => .error e
            | .ok dst =>
                copyOut fileName src (size - chunkSize size) (pos + chunkSize size) (sector + 1) dst st
  else .ok (sector, dst, st)
termination_by size
decreasing_by
  have hpos := chunkSize_pos _h
  omega

/-- `fsutil_append`, from its static variable `sector` on; `scratch` is the device that `block_get_role`
returns, and `after` the byte behind the buffer. -/
def fsutilAppend (fileName : List UInt8) (after : UInt8) (sector : ℕ) (scratch : Option Device) (st : σ) :
    Except Panic (ℕ × Device × σ) :=
  match F.malloc st with
  | (false, _) => .error .noBuffer
  | (true, st) =>
      match F.filesysOpen fileName st with
      | none => .error .inside
      | some (none, _) => .error (.openFailed fileName)
      | some (some src, st) =>
          let size := F.fileLength src st
          match scratch with
          | none => .error .noScratch
          | some dst =>
              match ustarMakeHeader fileName .regular size with
              | none => .error (.nameTooLong fileName)
              | some header => do
                  let dst ← dst.write sector header
                  let (sector, dst, st) ← copyOut F fileName src size 0 (sector + 1) dst st
                  let buffer := List.replicate blockSectorSize 0
                  let dst ← dst.write sector buffer
                  let dst ← dst.write sector ((buffer ++ [after]).drop 1)
                  match F.fileClose src st with
                  | none => .error .inside
                  | some st => .ok (sector, dst, st)

/-- One file after the other. -/
def appendAll : List (File × UInt8) → ℕ → Device → σ → Except Panic (ℕ × Device × σ)
  | [], sector, d, st => .ok (sector, d, st)
  | (f, after) :: l, sector, d, st => do
      let (sector, d, st) ← fsutilAppend F f.name after sector (some d) st
      appendAll l sector d st

/-! ### `fsutil_extract` -/

/-- The loop that copies one file. -/
def copyIn (src : Device) (fileName : List UInt8) (dst : φ) (size pos sector : ℕ) (st : σ) :
    Except Panic (ℕ × σ) :=
  if _h : 0 < size then
    match src.read sector with
    | .error e => .error e
    | .ok data =>
        match F.fileWrite dst (data.take (chunkSize size)) pos st with
        | none => .error .inside
        | some (n, st) =>
            if n ≠ chunkSize size then .error (.writeFailed fileName size)
            else copyIn src fileName dst (size - chunkSize size) (pos + chunkSize size) (sector + 1) st
  else .ok (sector, st)
termination_by size
decreasing_by
  have hpos := chunkSize_pos _h
  omega

variable {F} in
theorem copyIn_le {src : Device} {fileName : List UInt8} {dst : φ} {size pos sector sector' : ℕ} {st st' : σ}
    (h : copyIn F src fileName dst size pos sector st = .ok (sector', st')) : sector ≤ sector' := by
  induction size using Nat.strongRecOn generalizing pos sector st with
  | _ size ih =>
      rw [copyIn] at h
      split at h
      · rename_i hpos
        have hchunk := chunkSize_pos hpos
        split at h
        · cases h
        · split at h
          · cases h
          · split at h
            · cases h
            · exact Nat.le_of_succ_le (ih _ (by omega) h)
      · obtain ⟨rfl, -⟩ := Prod.mk.inj (Except.ok.inj h)
        exact Nat.le_refl sector

/-- The loop of `fsutil_extract`. -/
def extractLoop (src : Device) (sector : ℕ) (st : σ) : Except Panic σ :=
  if _h : sector < src.size then
    match ustarParseHeader (src.block sector) with
    | .error e => .error (.badHeader sector e)
    | .ok entry =>
        match entry.type with
        | .eof => .ok st
        | .directory => extractLoop src (sector + 1) st
        | .regular =>
            let fileName := entry.fileName.getD []
            match F.filesysCreate fileName entry.size st with
            | none => .error .inside
            | some (false, _) => .error (.createFailed fileName)
            | some (true, st) =>
                match F.filesysOpen fileName st with
                | none => .error .inside
                | some (none, _) => .error (.openFailed fileName)
                | some (some dst, st) =>
                    match _hcopy : copyIn F src fileName dst entry.size 0 (sector + 1) st with
                    | .error e => .error e
                    | .ok (sector, st) =>
                        match F.fileClose dst st with
                        | none => .error .inside
                        | some st => extractLoop src sector st
  else .error (.pastEnd sector src.size)
termination_by src.size - sector
decreasing_by
  · omega
  · have hle := copyIn_le _hcopy
    omega

/-- `fsutil_extract` of a fresh kernel, whose static variable `sector` is 0. -/
def fsutilExtract (scratch : Option Device) (st : σ) : Except Panic (Device × σ) :=
  let (header, st) := F.malloc st
  let (data, st) := F.malloc st
  if header = false ∨ data = false then .error .noBuffers
  else
    match scratch with
    | none => .error .noScratch
    | some src => do
        let st ← extractLoop F src 0 st
        let header := List.replicate blockSectorSize 0
        let src ← src.write 0 header
        let src ← src.write 1 header
        return (src, st)

/-! ### The calls of the file system alone -/

/-- How many sectors so many bytes take up. -/
def dataCount (size : ℕ) : ℕ := (size + 511) / 512

/-- `n` chunks are read. -/
def readAll (src : φ) : ℕ → ℕ → ℕ → σ → Option σ
  | 0, _, _, st => some st
  | n + 1, size, pos, st =>
      (F.fileRead src (chunkSize size) pos st).bind fun (buffer, st) =>
        if buffer.length = chunkSize size then
          readAll src n (size - chunkSize size) (pos + chunkSize size) st
        else none

/-- What an append needs of the file system: its buffer, and to read a whole file. -/
def get (name : List UInt8) (st : σ) : Option σ :=
  match F.malloc st with
  | (false, _) => none
  | (true, st) =>
      match F.filesysOpen name st with
      | some (some src, st) =>
          (readAll F src (dataCount (F.fileLength src st)) (F.fileLength src st) 0 st).bind (F.fileClose src)
      | _ => none

def getAll : List (List UInt8) → σ → Option σ
  | [], st => some st
  | name :: l, st => (get F name st).bind (getAll l)

/-- `n` chunks are written. -/
def writeAll (dst : φ) : ℕ → List UInt8 → ℕ → σ → Option σ
  | 0, _, _, st => some st
  | n + 1, rest, pos, st =>
      (F.fileWrite dst (rest.take (chunkSize rest.length)) pos st).bind fun (k, st) =>
        if k = chunkSize rest.length then
          writeAll dst n (rest.drop (chunkSize rest.length)) (pos + chunkSize rest.length) st
        else none

/-- What the extraction of a file needs of the file system. -/
def put (name bytes : List UInt8) (st : σ) : Option σ :=
  match F.filesysCreate name bytes.length st with
  | some (true, st) =>
      match F.filesysOpen name st with
      | some (some dst, st) => (writeAll F dst (dataCount bytes.length) bytes 0 st).bind (F.fileClose dst)
      | _ => none
  | _ => none

/-- The name that a file is stored under. -/
def File.storedName (f : File) : List UInt8 := stripAntisocialPrefixes f.name

def putAll : List File → σ → Option σ
  | [], st => some st
  | f :: l, st => (put F f.storedName f.bytes st).bind (putAll l)

/-- What `fsutil_extract` needs of the file system. -/
def extractAll (l : List File) (st : σ) : Option σ :=
  if (F.malloc st).1 ∧ (F.malloc (F.malloc st).2).1 then putAll F l (F.malloc (F.malloc st).2).2 else none

/-- The contents of the files. -/
abbrev FileMap := List UInt8 → Option (List UInt8)

/-- What a file system holds under the names `names`, in the states `Good`; `Opened st file name` says that
`file` is open and has the name.  The calls do what they are for where they succeed. -/
structure View (F : FileSystem σ φ) where
  names : Set (List UInt8)
  files : σ → FileMap
  Good : σ → Prop
  Opened : σ → φ → List UInt8 → Prop
  malloc {st : σ} : Good st → Good (F.malloc st).2 ∧ files (F.malloc st).2 = files st
  create {st st' : σ} {name : List UInt8} {size : ℕ} : Good st → name ∈ names → size ≤ intMax →
    F.filesysCreate name size st = some (true, st') → files st name = none ∧ Good st' ∧
      files st' = update (files st) name (some (List.replicate size 0))
  opens {st st' : σ} {name : List UInt8} {file : φ} : Good st → name ∈ names →
    F.filesysOpen name st = some (some file, st') → Good st' ∧ Opened st' file name ∧ files st' = files st
  length {st : σ} {name bytes : List UInt8} {file : φ} : Good st → Opened st file name →
    files st name = some bytes → F.fileLength file st = bytes.length
  read {st st' : σ} {name bytes buffer : List UInt8} {file : φ} {size pos : ℕ} : Good st →
    Opened st file name → files st name = some bytes → pos + size ≤ bytes.length →
    F.fileRead file size pos st = some (buffer, st') → buffer.length = size →
      buffer = (bytes.drop pos).take size ∧ Good st' ∧ Opened st' file name ∧ files st' = files st
  write {st st' : σ} {name bytes buffer : List UInt8} {file : φ} {pos : ℕ} : Good st →
    Opened st file name → files st name = some bytes → buffer ≠ [] → pos + buffer.length ≤ bytes.length →
    F.fileWrite file buffer pos st = some (buffer.length, st') → Good st' ∧ Opened st' file name ∧
      files st' = update (files st) name (some (bytes.take pos ++ buffer ++ bytes.drop (pos + buffer.length)))
  close {st st' : σ} {name : List UInt8} {file : φ} : Good st → Opened st file name →
    F.fileClose file st = some st' → Good st' ∧ files st' = files st

variable {F} {V : View F} {st st' : σ} {file : φ} {name fileName done rest bytes : List UInt8}
  {size pos sector n : ℕ} {f : File} {fl : List File}

theorem chunkSize_eq (size : ℕ) : chunkSize size = min blockSectorSize size := by
  unfold chunkSize
  split <;> omega

theorem chunkSize_le (size : ℕ) : chunkSize size ≤ size := by
  rw [chunkSize_eq]
  exact Nat.min_le_right _ _

theorem dataCount_chunk (h : 0 < size) : dataCount size = dataCount (size - chunkSize size) + 1 := by
  unfold dataCount chunkSize blockSectorSize
  split <;> omega

theorem readAll_chunk (h : 0 < size) : readAll F file (dataCount size) size pos st =
    (F.fileRead file (chunkSize size) pos st).bind fun x =>
      if x.1.length = chunkSize size then
        readAll F file (dataCount (size - chunkSize size)) (size - chunkSize size) (pos + chunkSize size) x.2
      else none := by
  rw [dataCount_chunk h]
  rfl

theorem writeAll_chunk (h : rest ≠ []) : writeAll F file (dataCount rest.length) rest pos st =
    (F.fileWrite file (rest.take (chunkSize rest.length)) pos st).bind fun x =>
      if x.1 = chunkSize rest.length then
        writeAll F file (dataCount (rest.drop (chunkSize rest.length)).length)
          (rest.drop (chunkSize rest.length)) (pos + chunkSize rest.length) x.2
      else none := by
  rw [dataCount_chunk (List.length_pos_iff.mpr h), List.length_drop]
  rfl

/-- What is known while a file is open. -/
structure View.Has (V : View F) (fs : FileMap) (st : σ) (file : φ) (name bytes : List UInt8) : Prop where
  good : V.Good st
  opened : V.Opened st file name
  files : V.files st = fs
  bytes : fs name = some bytes

variable {fs : FileMap}

theorem View.Has.read (h : V.Has fs st file name (done ++ rest)) {x : List UInt8 × σ}
    (hread : F.fileRead file (chunkSize rest.length) done.length st = some x)
    (hlength : x.1.length = chunkSize rest.length) :
    x.1 = rest.take (chunkSize rest.length) ∧ V.Has fs x.2 file name (done ++ rest) := by
  have hle := chunkSize_le rest.length
  obtain ⟨hbuffer, hgood, hopened, hfiles⟩ := V.read h.good h.opened (by rw [h.files, h.bytes])
    (by rw [List.length_append]; omega) hread hlength
  rw [List.drop_left] at hbuffer
  exact ⟨hbuffer, hgood, hopened, hfiles.trans h.files, h.bytes⟩

theorem View.Has.write (h : V.Has fs st file name (done ++ List.replicate rest.length 0)) (hne : rest ≠ [])
    {x : ℕ × σ} (hwrite : F.fileWrite file (rest.take (chunkSize rest.length)) done.length st = some x)
    (hn : x.1 = chunkSize rest.length) :
    V.Has (update fs name (some ((done ++ rest.take (chunkSize rest.length)) ++
        List.replicate (rest.drop (chunkSize rest.length)).length 0))) x.2 file name
      ((done ++ rest.take (chunkSize rest.length)) ++
        List.replicate (rest.drop (chunkSize rest.length)).length 0) := by
  have hpos := chunkSize_pos (List.length_pos_iff.mpr hne)
  have hle := chunkSize_le rest.length
  have hlength : (rest.take (chunkSize rest.length)).length = chunkSize rest.length := by
    rw [List.length_take, Nat.min_eq_left hle]
  have hwrite : F.fileWrite file (rest.take (chunkSize rest.length)) done.length st =
      some ((rest.take (chunkSize rest.length)).length, x.2) := by
    rw [hwrite, hlength, ← hn]
  obtain ⟨hgood, hopened, hfiles⟩ := V.write h.good h.opened (by rw [h.files, h.bytes])
    (List.ne_nil_of_length_pos (hlength.symm ▸ hpos))
    (by rw [hlength, List.length_append, List.length_replicate]; omega) hwrite
  have hbytes : (done ++ List.replicate rest.length (0 : UInt8)).take done.length ++
      rest.take (chunkSize rest.length) ++ (done ++ List.replicate rest.length (0 : UInt8)).drop
        (done.length + (rest.take (chunkSize rest.length)).length) =
      (done ++ rest.take (chunkSize rest.length)) ++
        List.replicate (rest.drop (chunkSize rest.length)).length 0 := by
    rw [hlength, List.take_left, List.drop_append, List.drop_of_length_le (by omega), List.length_drop]
    simp
  rw [h.files, hbytes] at hfiles
  exact ⟨hgood, hopened, hfiles, Function.update_self ..⟩

theorem View.Has.readAll (h : V.Has fs st file name (done ++ rest))
    (hread : readAll F file (dataCount rest.length) rest.length done.length st = some st') :
    V.Has fs st' file name (done ++ rest) := by
  induction hn : rest.length using Nat.strongRecOn generalizing done rest st with
  | _ _ ih =>
      by_cases hne : rest = []
      · subst hne
        cases hread
        exact h
      · have hpos := List.length_pos_iff.mpr hne
        have hle := chunkSize_le rest.length
        have hchunk := chunkSize_pos hpos
        rw [readAll_chunk hpos] at hread
        obtain ⟨x, hx, hread⟩ := Option.bind_eq_some_iff.mp hread
        split_ifs at hread with hlength
        obtain ⟨-, h⟩ := h.read hx hlength
        have hsplit : done ++ rest =
            (done ++ rest.take (chunkSize rest.length)) ++ rest.drop (chunkSize rest.length) := by
          rw [List.append_assoc, List.take_append_drop]
        have htake : (rest.take (chunkSize rest.length)).length = chunkSize rest.length := by
          rw [List.length_take, Nat.min_eq_left hle]
        have hlengths : done.length + chunkSize rest.length =
            (done ++ rest.take (chunkSize rest.length)).length := by
          rw [List.length_append, htake]
        rw [← List.length_drop, hlengths] at hread
        rw [hsplit] at h ⊢
        exact ih _ (by rw [List.length_drop]; omega) h hread rfl

theorem View.Has.writeAll (h : V.Has fs st file name (done ++ List.replicate rest.length 0))
    (hwrite : writeAll F file (dataCount rest.length) rest done.length st = some st') :
    V.Has (update fs name (some (done ++ rest))) st' file name (done ++ rest) := by
  induction hn : rest.length using Nat.strongRecOn generalizing done rest st fs with
  | _ _ ih =>
      by_cases hne : rest = []
      · subst hne
        cases hwrite
        rw [List.length_nil, List.replicate_zero, List.append_nil] at h
        rw [List.append_nil, ← h.bytes, Function.update_eq_self]
        exact h
      · have hpos := List.length_pos_iff.mpr hne
        have hle := chunkSize_le rest.length
        have hchunk := chunkSize_pos hpos
        rw [writeAll_chunk hne] at hwrite
        obtain ⟨x, hx, hwrite⟩ := Option.bind_eq_some_iff.mp hwrite
        split_ifs at hwrite with hk
        have h := h.write hne hx hk
        have hsplit : done ++ rest =
            (done ++ rest.take (chunkSize rest.length)) ++ rest.drop (chunkSize rest.length) := by
          rw [List.append_assoc, List.take_append_drop]
        have hlengths : done.length + chunkSize rest.length =
            (done ++ rest.take (chunkSize rest.length)).length := by
          rw [List.length_append, List.length_take, Nat.min_eq_left hle]
        rw [hlengths] at hwrite
        have hlast := ih _ (by rw [List.length_drop]; omega) h hwrite rfl
        rw [Function.update_idem] at hlast
        rw [hsplit]
        exact hlast

/-- A file that is read whole leaves the file system as it is. -/
theorem View.get (hgood : V.Good st) (hname : name ∈ V.names) (hfile : V.files st name = some bytes)
    (hget : get F name st = some st') : V.Good st' ∧ V.files st' = V.files st := by
  obtain ⟨hmem, hsame⟩ := V.malloc hgood
  unfold Fsutil.get at hget
  rcases hm : F.malloc st with ⟨ok, st₁⟩
  rw [hm] at hget hmem hsame
  cases ok with
  | false => cases hget
  | true =>
      dsimp only at hget hmem hsame
      split at hget
      · rename_i src st₂ hopen
        obtain ⟨hgood₂, hopened, hfiles⟩ := V.opens hmem hname hopen
        obtain ⟨st₃, hread, hclose⟩ := Option.bind_eq_some_iff.mp hget
        have hhas : V.Has (V.files st) st₂ src name ([] ++ bytes) :=
          ⟨hgood₂, hopened, hfiles.trans hsame, hfile⟩
        have hlength : F.fileLength src st₂ = bytes.length :=
          V.length hgood₂ hopened (by rw [hfiles, hsame, hfile])
        rw [hlength] at hread
        have hlast := hhas.readAll hread
        obtain ⟨hgood', hfiles'⟩ := V.close hlast.good hlast.opened hclose
        exact ⟨hgood', hfiles'.trans hlast.files⟩
      · cases hget

/-- A file that is put is there, and everything else is as before. -/
theorem View.put (hgood : V.Good st) (hname : name ∈ V.names) (hsize : bytes.length ≤ intMax)
    (hput : put F name bytes st = some st') :
    V.files st name = none ∧ V.Good st' ∧ V.files st' = update (V.files st) name (some bytes) := by
  unfold Fsutil.put at hput
  split at hput
  · rename_i st₁ hcreate
    obtain ⟨hnone, hgood₁, hfiles₁⟩ := V.create hgood hname hsize hcreate
    split at hput
    · rename_i dst st₂ hopen
      obtain ⟨hgood₂, hopened, hfiles₂⟩ := V.opens hgood₁ hname hopen
      obtain ⟨st₃, hwrite, hclose⟩ := Option.bind_eq_some_iff.mp hput
      have hhas : V.Has (update (V.files st) name (some (List.replicate bytes.length 0))) st₂ dst name
          ([] ++ List.replicate bytes.length 0) :=
        ⟨hgood₂, hopened, hfiles₂.trans hfiles₁, Function.update_self ..⟩
      have hlast := hhas.writeAll hwrite
      rw [Function.update_idem] at hlast
      obtain ⟨hgood', hfiles'⟩ := V.close hlast.good hlast.opened hclose
      exact ⟨hnone, hgood', hfiles'.trans hlast.files⟩
    · cases hput
  · cases hput

/-- The files are there, and everything else is as before. -/
def Recreated (fl : List File) (fs fs' : FileMap) : Prop :=
  (∀ f ∈ fl, fs' f.storedName = some f.bytes) ∧
    ∀ name, name ∉ fl.map File.storedName → fs' name = fs name

/-- All files are put, and none of them under a name that is taken. -/
theorem View.putAll (hgood : V.Good st) (hnames : ∀ f ∈ fl, f.storedName ∈ V.names)
    (hput : putAll F fl st = some st') : Recreated fl (V.files st) (V.files st') ∧
      ∀ f ∈ fl, V.files st f.storedName = none := by
  induction fl generalizing st with
  | nil =>
      cases hput
      exact ⟨⟨by simp, fun _ _ => rfl⟩, by simp⟩
  | cons f fl ih =>
      obtain ⟨hname, hnames⟩ := List.forall_mem_cons.mp hnames
      obtain ⟨st₁, hfirst, hrest⟩ := Option.bind_eq_some_iff.mp hput
      obtain ⟨hnone, hgood₁, hfiles₁⟩ := V.put hgood hname f.size_le hfirst
      obtain ⟨⟨hthere, hother⟩, hfree⟩ := ih hgood₁ hnames hrest
      -- the name is taken now
      have hnew : ∀ g ∈ fl, g.storedName ≠ f.storedName := by
        intro g hg heq
        have hg := hfree g hg
        rw [hfiles₁, heq, Function.update_self] at hg
        cases hg
      have hnot : f.storedName ∉ fl.map File.storedName := by
        intro hmem
        obtain ⟨g, hg, heq⟩ := List.mem_map.mp hmem
        exact hnew g hg heq
      refine ⟨⟨List.forall_mem_cons.mpr ⟨?_, hthere⟩, ?_⟩, List.forall_mem_cons.mpr ⟨hnone, ?_⟩⟩
      · rw [hother _ hnot, hfiles₁, Function.update_self]
      · intro name hn
        rw [List.map_cons, List.mem_cons, not_or] at hn
        rw [hother name hn.2, hfiles₁, Function.update_of_ne hn.1]
      · intro g hg
        have hg' := hfree g hg
        rwa [hfiles₁, Function.update_of_ne (hnew g hg)] at hg'

/-! ### Sectors from the beginning of a device -/

variable {L M : List Sector} {D : ℕ → Sector} {x : Sector} {after : UInt8} {l : List (File × UInt8)}

/-- The sectors `L`, and `D` behind them. -/
def overlay (L : List Sector) (D : ℕ → Sector) : ℕ → Sector := fun i => L.getD i (D i)

theorem overlay_of_le {i : ℕ} (h : L.length ≤ i) : overlay L D i = D i := by
  rw [overlay, List.getD_eq_getElem?_getD, List.getElem?_eq_none h, Option.getD_none]

theorem overlay_append_cons : overlay (L ++ x :: M) D L.length = x := by
  simp [overlay]

theorem update_overlay : update (overlay L D) L.length x = overlay (L ++ [x]) D := by
  funext i
  obtain hlt | rfl | hgt := Nat.lt_trichotomy i L.length
  · rw [Function.update_of_ne (Nat.ne_of_lt hlt), overlay, overlay, List.getD_append _ _ _ _ hlt]
  · rw [Function.update_self, overlay_append_cons]
  · rw [Function.update_of_ne (Nat.ne_of_gt hgt), overlay_of_le (Nat.le_of_lt hgt), overlay_of_le]
    rw [List.length_append, List.length_singleton]
    exact hgt

theorem update_overlay_behind :
    update (overlay L D) L.length x = overlay L (update D L.length x) := by
  funext i
  obtain hlt | rfl | hgt := Nat.lt_trichotomy i L.length
  · rw [Function.update_of_ne (Nat.ne_of_lt hlt), overlay, overlay, List.getD_eq_getElem _ _ hlt,
      List.getD_eq_getElem _ _ hlt]
  · rw [Function.update_self, overlay_of_le (Nat.le_refl _), Function.update_self]
  · rw [Function.update_of_ne (Nat.ne_of_gt hgt), overlay_of_le (Nat.le_of_lt hgt),
      overlay_of_le (Nat.le_of_lt hgt), Function.update_of_ne (Nat.ne_of_gt hgt)]

/-! ### What an archive consists of -/

theorem length_drop_lt {rest : List UInt8} (h : rest ≠ []) :
    (rest.drop blockSectorSize).length < rest.length := by
  have hpos := List.length_pos_iff.mpr h
  rw [List.length_drop, blockSectorSize]
  omega

/-- The bytes of a file, in sectors. -/
def dataSectors (rest : List UInt8) : List Sector :=
  if _h : rest = [] then []
  else pad (rest.take blockSectorSize) :: dataSectors (rest.drop blockSectorSize)
termination_by rest.length
decreasing_by exact length_drop_lt _h

theorem length_dataSectors (rest : List UInt8) :
    (dataSectors rest).length = (rest.length + 511) / 512 := by
  induction rest using dataSectors.induct with
  | case1 => simp [dataSectors]
  | case2 rest hne ih =>
      have hpos := List.length_pos_iff.mpr hne
      rw [dataSectors, dif_neg hne, List.length_cons, ih, List.length_drop, blockSectorSize]
      omega

/-- The header that a file gets. -/
def File.header (f : File) : Sector :=
  pack fields (made f.storedName .regular f.bytes.length)

def File.record (f : File) : List Sector := f.header :: dataSectors f.bytes

/-- The sectors that a file takes up. -/
def File.sectors (f : File) : ℕ := 1 + (f.bytes.length + 511) / 512

theorem File.length_record (f : File) : f.record.length = f.sectors := by
  rw [File.record, List.length_cons, length_dataSectors, File.sectors, Nat.add_comm]

def archive (l : List File) : List Sector := l.flatMap File.record

/-- The sectors that the files take up. -/
def sectors (l : List File) : ℕ := (l.map File.sectors).sum

theorem length_archive (l : List File) : (archive l).length = sectors l := by
  rw [archive, List.length_flatMap, sectors]
  congr 1
  exact List.map_congr_left fun f _ => f.length_record

/-- The two sectors of the end of an archive, one written over the other. -/
def marker (after : UInt8) : Sector := (List.replicate blockSectorSize 0 ++ [after]).drop 1

/-- A sector of zeros. -/
def zeros : Sector := List.replicate blockSectorSize 0

theorem marker_eq_zeros_iff : marker after = zeros ↔ after = 0 := by
  have hle : 1 ≤ (List.replicate blockSectorSize (0 : UInt8)).length := by
    rw [List.length_replicate]
    decide
  have hdrop : marker after = List.replicate (blockSectorSize - 1) 0 ++ [after] := by
    rw [marker, List.drop_append_of_le_length hle, List.drop_replicate]
  have hzeros : zeros = List.replicate (blockSectorSize - 1) 0 ++ [0] := List.replicate_succ'
  rw [hdrop, hzeros]
  simp

theorem drop_chunk (rest : List UInt8) :
    rest.drop blockSectorSize = rest.drop (chunkSize rest.length) := by
  rw [chunkSize_eq]
  by_cases hle : blockSectorSize ≤ rest.length
  · rw [Nat.min_eq_left hle]
  · rw [Nat.min_eq_right (by omega), List.drop_length, List.drop_of_length_le (by omega)]

theorem dataSectors_chunk (hne : rest ≠ []) : dataSectors rest =
    pad (rest.take (chunkSize rest.length)) :: dataSectors (rest.drop (chunkSize rest.length)) := by
  have htake : rest.take blockSectorSize = rest.take (chunkSize rest.length) := by
    rw [chunkSize_eq, List.take_eq_take_iff]
    omega
  rw [dataSectors, dif_neg hne, htake, drop_chunk]

theorem length_take_chunk (rest : List UInt8) :
    (rest.take (chunkSize rest.length)).length = chunkSize rest.length := by
  rw [List.length_take, Nat.min_eq_left (chunkSize_le _)]

theorem take_pad_chunk (rest : List UInt8) : (pad (rest.take (chunkSize rest.length))).take
    (chunkSize rest.length) = rest.take (chunkSize rest.length) := by
  rw [pad, List.take_append_of_le_length (Nat.le_of_eq (length_take_chunk rest).symm), List.take_take,
    Nat.min_self]

/-! ### Appending -/

theorem write_of_lt {d : Device} (h : sector < d.size) :
    d.write sector x = .ok { d with block := update d.block sector x } := if_pos h

/-- Where there is room, the loop of `fsutil_append` stops only where the file cannot be read. -/
theorem copyOut_eq (h : V.Has fs st file name (done ++ rest)) (hroom : (L ++ dataSectors rest).length ≤ n) :
    (copyOut F fileName file rest.length done.length L.length ⟨n, overlay L D⟩ st).toOption =
      (readAll F file (dataCount rest.length) rest.length done.length st).map fun st' =>
        ((L ++ dataSectors rest).length, ⟨n, overlay (L ++ dataSectors rest) D⟩, st') := by
  induction hn : rest.length using Nat.strongRecOn generalizing L done rest st with
  | _ _ ih =>
      subst hn
      by_cases hne : rest = []
      · subst hne
        rw [copyOut, dif_neg (by simp), dataSectors, dif_pos rfl, List.append_nil]
        rfl
      · have hpos := List.length_pos_iff.mpr hne
        have hchunk := chunkSize_pos hpos
        have hsplit : L ++ dataSectors rest = (L ++ [pad (rest.take (chunkSize rest.length))]) ++
            dataSectors (rest.drop (chunkSize rest.length)) := by
          rw [dataSectors_chunk hne, List.append_assoc, List.singleton_append]
        rw [hsplit] at hroom ⊢
        have hnext : L.length + 1 = (L ++ [pad (rest.take (chunkSize rest.length))]).length := by simp
        have hlt : L.length < n := by
          rw [List.length_append, ← hnext] at hroom
          omega
        rw [copyOut, dif_pos hpos, if_neg (Nat.not_le.mpr hlt), readAll_chunk hpos]
        cases hread : F.fileRead file (chunkSize rest.length) done.length st with
        | none => rfl
        | some x =>
            obtain ⟨buffer, st₁⟩ := x
            dsimp only [Option.bind_some]
            by_cases hlength : buffer.length = chunkSize rest.length
            · obtain ⟨hbuffer, h⟩ := h.read hread hlength
              dsimp only at hbuffer h
              rw [if_neg (not_not.mpr hlength), if_pos hlength, write_of_lt hlt, hbuffer]
              dsimp only
              have hdone : done.length + chunkSize rest.length =
                  (done ++ rest.take (chunkSize rest.length)).length := by
                rw [List.length_append, length_take_chunk]
              have hbytes : done ++ rest =
                  (done ++ rest.take (chunkSize rest.length)) ++ rest.drop (chunkSize rest.length) := by
                rw [List.append_assoc, List.take_append_drop]
              rw [update_overlay, hdone, hnext, ← List.length_drop]
              rw [hbytes] at h
              exact ih _ (by rw [List.length_drop]; omega) h hroom rfl
            · rw [if_pos hlength, if_neg hlength]
              rfl

/-- A name that there is room for in a header. -/
def File.Storable (f : File) : Prop := f.storedName.length ≤ 99

instance (f : File) : Decidable f.Storable := inferInstanceAs (Decidable (_ ≤ _))

/-- The file system holds a file, under a name that it knows. -/
def View.Holds (V : View F) (fs : FileMap) (f : File) : Prop :=
  f.name ∈ V.names ∧ fs f.name = some f.bytes

theorem toOption_ok {ε α : Type} (a : α) : (Except.ok a : Except ε α).toOption = some a := rfl

theorem toOption_bind {ε α β : Type} (x : Except ε α) (g : α → Except ε β) :
    (x >>= g).toOption = x.toOption.bind fun a => (g a).toOption := by
  cases x <;> rfl

/-- One file behind the sectors `L`. -/
theorem fsutilAppend_eq (after : UInt8) (hgood : V.Good st) (hfile : V.Holds (V.files st) f)
    (hname : f.Storable) (hroom : (L ++ f.record).length < n) :
    (fsutilAppend F f.name after L.length (some ⟨n, overlay L D⟩) st).toOption =
      (get F f.name st).map fun st' => ((L ++ f.record).length,
        ⟨n, overlay (L ++ f.record) (update D (L ++ f.record).length (marker after))⟩, st') := by
  obtain ⟨hmem, hsame⟩ := V.malloc hgood
  unfold fsutilAppend get
  rcases hm : F.malloc st with ⟨ok, st₁⟩
  rw [hm] at hmem hsame
  cases ok with
  | false => rfl
  | true =>
      dsimp only at hmem hsame ⊢
      cases hopen : F.filesysOpen f.name st₁ with
      | none => rfl
      | some x =>
          obtain ⟨_ | src, st₂⟩ := x
          · rfl
          · dsimp only
            obtain ⟨hgood₂, hopened, hfiles⟩ := V.opens hmem hfile.1 hopen
            have hhas : V.Has (V.files st) st₂ src f.name ([] ++ f.bytes) :=
              ⟨hgood₂, hopened, hfiles.trans hsame, hfile.2⟩
            have hlength : F.fileLength src st₂ = f.bytes.length :=
              V.length hgood₂ hopened (by rw [hfiles, hsame, hfile.2])
            have hheader : ustarMakeHeader f.name .regular f.bytes.length = some f.header :=
              ustarMakeHeader_eq hname f.bytes.length
            have hsplit : L ++ f.record = (L ++ [f.header]) ++ dataSectors f.bytes := by
              rw [File.record, List.append_assoc, List.singleton_append]
            rw [hsplit] at hroom ⊢
            have hnext : L.length + 1 = (L ++ [f.header]).length := by simp
            have hlt : L.length < n := by
              rw [List.length_append, ← hnext] at hroom
              omega
            have hcopy : (copyOut F f.name src f.bytes.length 0 (L ++ [f.header]).length
                ⟨n, overlay (L ++ [f.header]) D⟩ st₂).toOption = _ := copyOut_eq hhas (Nat.le_of_lt hroom)
            rw [hlength, hheader]
            dsimp only
            rw [toOption_bind, write_of_lt hlt, toOption_ok, Option.bind_some]
            dsimp only
            rw [update_overlay, hnext, toOption_bind, hcopy]
            cases hread : readAll F src (dataCount f.bytes.length) f.bytes.length 0 st₂ with
            | none => rfl
            | some st₃ =>
                dsimp only [Option.map_some, Option.bind_some]
                rw [toOption_bind, write_of_lt hroom, toOption_ok, Option.bind_some]
                dsimp only
                rw [toOption_bind, write_of_lt hroom, toOption_ok, Option.bind_some]
                dsimp only
                rw [Function.update_idem, update_overlay_behind]
                cases F.fileClose src st₃ <;> rfl

/-- After the files have been appended: the archive, the marker, and what was there before. -/
structure Appended (l : List (File × UInt8)) (hne : l ≠ []) (D D' : ℕ → Sector) (sector : ℕ) :
    Prop where
  marker : D' sector = marker (l.getLast hne).2
  behind : ∀ i > sector, D' i = D i

theorem appendAll_eq (hne : l ≠ []) (hgood : V.Good st) (hfiles : ∀ x ∈ l, V.Holds (V.files st) x.1)
    (hnames : ∀ x ∈ l, x.1.Storable) (hroom : (L ++ archive (l.map Prod.fst)).length < n) :
    ∃ D', ((appendAll F l L.length ⟨n, overlay L D⟩ st).toOption =
        (getAll F (l.map fun x => x.1.name) st).map fun st' =>
          ((L ++ archive (l.map Prod.fst)).length,
            ⟨n, overlay (L ++ archive (l.map Prod.fst)) D'⟩, st')) ∧
      Appended l hne D D' (L ++ archive (l.map Prod.fst)).length := by
  induction l generalizing L D st with
  | nil => exact absurd rfl hne
  | cons x l ih =>
      obtain ⟨f, after⟩ := x
      obtain ⟨hname, hnames⟩ := List.forall_mem_cons.mp hnames
      obtain ⟨hfile, hfiles⟩ := List.forall_mem_cons.mp hfiles
      have hsplit : L ++ archive (((f, after) :: l).map Prod.fst) =
          (L ++ f.record) ++ archive (l.map Prod.fst) := by
        rw [List.map_cons, archive, List.flatMap_cons, List.append_assoc]
        rfl
      rw [hsplit] at hroom ⊢
      have hfirst : (L ++ f.record).length < n := by
        rw [List.length_append] at hroom
        omega
      have hstep := fsutilAppend_eq (D := D) after hgood hfile hname hfirst
      unfold appendAll
      rw [toOption_bind, hstep]
      by_cases hl : l = []
      · subst hl
        refine ⟨update D (L ++ f.record).length (marker after), ?_, ?_, ?_⟩
        · cases hget : get F f.name st <;> simp [appendAll, archive, getAll, hget, Except.toOption]
        · simp [archive]
        · intro i hi
          apply Function.update_of_ne
          simp only [List.map_nil, archive, List.flatMap_nil, List.append_nil] at hi
          omega
      · have hbehind : ∀ {D'}, Appended l hl (update D (L ++ f.record).length (marker after)) D'
            ((L ++ f.record) ++ archive (l.map Prod.fst)).length →
            Appended ((f, after) :: l) hne D D' ((L ++ f.record) ++ archive (l.map Prod.fst)).length := by
          intro D' happended
          refine ⟨?_, fun i hi => ?_⟩
          · rw [List.getLast_cons hl]
            exact happended.marker
          · rw [happended.behind i hi]
            apply Function.update_of_ne
            rw [List.length_append] at hi
            omega
        cases hget : get F f.name st with
        | none =>
            obtain ⟨D', -, happended⟩ :=
              ih (D := update D (L ++ f.record).length (marker after)) hl hgood hfiles hnames hroom
            exact ⟨D', by simp [getAll, hget], hbehind happended⟩
        | some st₁ =>
            obtain ⟨hgood₁, hsame⟩ := V.get hgood hfile.1 hfile.2 hget
            obtain ⟨D', hrun, happended⟩ :=
              ih (D := update D (L ++ f.record).length (marker after)) hl hgood₁ (hsame ▸ hfiles) hnames hroom
            refine ⟨D', ?_, hbehind happended⟩
            dsimp only [Option.map_some, Option.bind_some]
            rw [hrun, List.map_cons, getAll, hget, Option.bind_some]

/-! ### Extracting -/

/-- Where a sector of a device is. -/
theorem overlay_at {A B : List Sector} (hL : L = A ++ x :: B) : overlay L D A.length = x := by
  rw [hL, overlay_append_cons]

theorem read_at {A B : List Sector} (hL : L = A ++ x :: B) (hroom : L.length ≤ n) :
    (Device.mk n (overlay L D)).read A.length = .ok x := by
  have hlt : A.length < n := by
    rw [hL] at hroom
    simp only [List.length_append, List.length_cons] at hroom
    omega
  rw [Device.read, if_pos hlt]
  dsimp only
  rw [overlay_at hL]

/-- The loop that copies a file stops only where the file cannot be written. -/
theorem copyIn_eq {A B : List Sector} (hL : L = A ++ (dataSectors rest ++ B)) (hroom : L.length ≤ n) :
    (copyIn F ⟨n, overlay L D⟩ fileName file rest.length pos A.length st).toOption =
      (writeAll F file (dataCount rest.length) rest pos st).map fun st' =>
        ((A ++ dataSectors rest).length, st') := by
  induction hn : rest.length using Nat.strongRecOn generalizing A rest pos st with
  | _ _ ih =>
      subst hn
      by_cases hne : rest = []
      · subst hne
        rw [copyIn, dif_neg (by simp), dataSectors, dif_pos rfl, List.append_nil]
        rfl
      · have hpos := List.length_pos_iff.mpr hne
        have hchunk := chunkSize_pos hpos
        have hsectors := dataSectors_chunk hne
        have hread := read_at (D := D) (hL.trans (by rw [hsectors]; rfl)) hroom
        have hall : (A ++ [pad (rest.take (chunkSize rest.length))]) ++
            dataSectors (rest.drop (chunkSize rest.length)) = A ++ dataSectors rest := by
          rw [hsectors, List.append_assoc, List.singleton_append]
        have hnext : A.length + 1 = (A ++ [pad (rest.take (chunkSize rest.length))]).length := by simp
        rw [copyIn, dif_pos hpos, hread, writeAll_chunk hne]
        dsimp only
        rw [take_pad_chunk]
        cases F.fileWrite file (rest.take (chunkSize rest.length)) pos st with
        | none => rfl
        | some x =>
            obtain ⟨k, st₁⟩ := x
            dsimp only [Option.bind_some]
            by_cases hk : k = chunkSize rest.length
            · rw [if_neg (not_not.mpr hk), if_pos hk, hnext, ← List.length_drop, ← hall]
              exact ih _ (by rw [List.length_drop]; omega) (by rw [← List.append_assoc, hall, hL,
                List.append_assoc]) rfl
            · rw [if_pos hk, if_neg hk]
              rfl

theorem File.parse_header (hname : f.Storable) :
    ustarParseHeader f.header = .ok ⟨some f.storedName, .regular, f.bytes.length⟩ :=
  ustarParseHeader_made (stripped_strip f.name) (zero_notMem_strip f.name_ne) hname f.size_le
    (by decide)

/-- A file is read from its sectors where the file system lets it be put, and nowhere else. -/
theorem extractLoop_file {A B : List Sector} (hL : L = A ++ (f.record ++ B)) (hroom : L.length ≤ n)
    (hname : f.Storable) : (extractLoop F ⟨n, overlay L D⟩ A.length st).toOption =
      (put F f.storedName f.bytes st).bind fun st' =>
        (extractLoop F ⟨n, overlay L D⟩ (A ++ f.record).length st').toOption := by
  have hlt : A.length < n := by
    rw [hL, File.record] at hroom
    simp only [List.length_append, List.length_cons] at hroom
    omega
  have hparse : ustarParseHeader ((Device.mk n (overlay L D)).block A.length) =
      .ok ⟨some f.storedName, .regular, f.bytes.length⟩ := by
    dsimp only
    rw [overlay_at hL, f.parse_header hname]
  have hdata : L = (A ++ [f.header]) ++ (dataSectors f.bytes ++ B) := by
    rw [hL, File.record]
    simp
  have hall : (A ++ [f.header]) ++ dataSectors f.bytes = A ++ f.record := by
    rw [File.record, List.append_assoc, List.singleton_append]
  have hnext : A.length + 1 = (A ++ [f.header]).length := by simp
  rw [extractLoop, dif_pos hlt, hparse]
  dsimp only [Option.getD_some]
  unfold put
  cases hcreate : F.filesysCreate f.storedName f.bytes.length st with
  | none => rfl
  | some x =>
      obtain ⟨_ | _, st₁⟩ := x
      · rfl
      · dsimp only
        cases hopen : F.filesysOpen f.storedName st₁ with
        | none => rfl
        | some y =>
            obtain ⟨_ | dst, st₂⟩ := y
            · rfl
            · dsimp only
              have hcopy : (copyIn F ⟨n, overlay L D⟩ f.storedName dst f.bytes.length 0
                  (A ++ [f.header]).length st₂).toOption = _ := copyIn_eq hdata hroom
              rw [← hnext, hall] at hcopy
              cases hwrite : writeAll F dst (dataCount f.bytes.length) f.bytes 0 st₂ with
              | none =>
                  rw [hwrite] at hcopy
                  cases hin : copyIn F ⟨n, overlay L D⟩ f.storedName dst f.bytes.length 0
                    (A.length + 1) st₂ with
                  | error e => rfl
                  | ok z =>
                      rw [hin] at hcopy
                      cases hcopy
              | some st₃ =>
                  rw [hwrite] at hcopy
                  cases hin : copyIn F ⟨n, overlay L D⟩ f.storedName dst f.bytes.length 0
                    (A.length + 1) st₂ with
                  | error e =>
                      rw [hin] at hcopy
                      cases hcopy
                  | ok z =>
                      rw [hin] at hcopy
                      obtain rfl := Option.some.inj hcopy
                      dsimp only [Option.bind_some]
                      cases F.fileClose dst st₃ <;> rfl

theorem archive_cons (A B : List Sector) :
    A ++ (archive (f :: fl) ++ B) = A ++ (f.record ++ (archive fl ++ B)) := by
  rw [archive, List.flatMap_cons, List.append_assoc]
  rfl

/-- The files of an archive are put one after the other. -/
theorem extractLoop_archive {A B : List Sector} (hL : L = A ++ (archive fl ++ B))
    (hroom : L.length ≤ n) (hnames : ∀ f ∈ fl, f.Storable) :
    (extractLoop F ⟨n, overlay L D⟩ A.length st).toOption =
      (putAll F fl st).bind fun st' =>
        (extractLoop F ⟨n, overlay L D⟩ (A ++ archive fl).length st').toOption := by
  induction fl generalizing A st with
  | nil => simp [archive, putAll]
  | cons f fl ih =>
      obtain ⟨hname, hnames⟩ := List.forall_mem_cons.mp hnames
      have hsplit := hL.trans (archive_cons A B)
      have hend : A ++ archive (f :: fl) = (A ++ f.record) ++ archive fl := by
        simpa using archive_cons A []
      rw [extractLoop_file hsplit hroom hname, hend, putAll, Option.bind_assoc]
      congr 1
      funext st₁
      exact ih (by rw [hsplit, List.append_assoc]) hnames

theorem extractLoop_eof {d : Device} (hlt : sector < d.size) (hzeros : d.block sector = zeros) :
    extractLoop F d sector st = .ok st := by
  have hparse : ustarParseHeader (d.block sector) = .ok ⟨none, .eof, 0⟩ := by
    have hall : zeros.all (· = 0) = true :=
      List.all_eq_true.mpr fun b hb => decide_eq_true (List.eq_of_mem_replicate hb)
    unfold ustarParseHeader
    rw [hzeros, if_pos hall]
  rw [extractLoop, dif_pos hlt, hparse]

/-- An archive that is ended is extracted where the file system lets all its files be put. -/
theorem fsutilExtract_eq (hroom : (archive fl).length + 1 < n) (hnames : ∀ f ∈ fl, f.Storable)
    (hzeros : overlay (archive fl) D (archive fl).length = zeros) :
    (fsutilExtract F (some ⟨n, overlay (archive fl) D⟩) st).toOption =
      (extractAll F fl st).map fun st' =>
        (⟨n, update (update (overlay (archive fl) D) 0 zeros) 1 zeros⟩, st') := by
  have hloop : ∀ st, (extractLoop F ⟨n, overlay (archive fl) D⟩ ([] : List Sector).length st).toOption = _ :=
    fun st => extractLoop_archive (B := []) (List.append_nil _).symm (by omega : _ ≤ n) hnames
  unfold fsutilExtract extractAll
  dsimp only
  generalize (F.malloc (F.malloc st).2).2 = st₂
  by_cases hmem : (F.malloc st).1 = true ∧ (F.malloc (F.malloc st).2).1 = true
  · rw [if_pos hmem, if_neg (by simp [hmem]), toOption_bind]
    specialize hloop st₂
    rw [List.length_nil, List.nil_append] at hloop
    rw [hloop]
    cases putAll F fl st₂ with
    | none => rfl
    | some st₃ =>
        have heof : extractLoop F ⟨n, overlay (archive fl) D⟩ (archive fl).length st₃ = .ok st₃ :=
          extractLoop_eof (by simp only; omega) hzeros
        rw [Option.bind_some, heof, toOption_ok, Option.bind_some, toOption_bind,
          write_of_lt (by simp only; omega), toOption_ok, Option.bind_some, toOption_bind,
          write_of_lt (by simp only; omega), toOption_ok, Option.bind_some]
        rfl
  · rw [if_neg hmem, if_pos]
    · rfl
    · rw [← Bool.not_eq_true, ← Bool.not_eq_true]
      exact not_and_or.mp hmem

/-! ### The whole -/

variable {src dst : σ} {d : Device}

/-- The archive is followed by two sectors of zeros. -/
def Ended (sector : ℕ) (d : Device) : Prop := d.block sector = zeros ∧ d.block (sector + 1) = zeros

/-- The appends succeed, and after each of them the archive is ended. -/
def AllEnded (F : FileSystem σ φ) (src : σ) (l : List (File × UInt8)) (d : Device) : Prop :=
  ∀ p, p <+: l → p ≠ [] → ∃ sector d' src', appendAll F p 0 d src = .ok (sector, d', src') ∧ Ended sector d'

/-- After each of the appends the archive is ended, and the extraction creates all files again. -/
def Faithful (V : View F) (src dst : σ) (l : List (File × UInt8)) (d : Device) : Prop :=
  AllEnded F src l d ∧ ∃ sector d' src' d'' dst', appendAll F l 0 d src = .ok (sector, d', src') ∧
    fsutilExtract F (some d') dst = .ok (d'', dst') ∧
      Recreated (l.map Prod.fst) (V.files dst) (V.files dst')

/-- The device and the heap hold zeros where the second half of the marker would be. -/
def Zeroed (l : List (File × UInt8)) (d : Device) : Prop :=
  ∀ p, p <+: l → ∀ hne : p ≠ [],
    (p.getLast hne).2 = 0 ∧ d.block (sectors (p.map Prod.fst) + 1) = zeros

/-- There is memory for the buffers, all files can be read from `src`, and all of them can be created, opened
and written in `dst`. -/
def Served (F : FileSystem σ φ) (src dst : σ) (l : List (File × UInt8)) : Prop :=
  (getAll F (l.map fun x => x.1.name) src).isSome = true ∧ (extractAll F (l.map Prod.fst) dst).isSome = true

theorem getAll_append (l l' : List (List UInt8)) :
    getAll F (l ++ l') st = (getAll F l st).bind (getAll F l') := by
  induction l generalizing st with
  | nil => rfl
  | cons name l ih =>
      rw [List.cons_append, getAll, getAll, Option.bind_assoc]
      congr 1
      funext st₁
      exact ih

theorem getAll_isSome_of_le {l l' : List (List UInt8)} (hp : l <+: l') (h : (getAll F l' st).isSome = true) :
    (getAll F l st).isSome = true := by
  obtain ⟨q, rfl⟩ := hp
  rw [getAll_append] at h
  cases hl : getAll F l st with
  | none =>
      rw [hl] at h
      cases h
  | some st₁ => rfl

/-- The device after files have been appended from its beginning on. -/
theorem appended_from_start (hne : l ≠ []) (hgood : V.Good src)
    (hfiles : ∀ x ∈ l, V.Holds (V.files src) x.1) (hnames : ∀ x ∈ l, x.1.Storable)
    (hroom : sectors (l.map Prod.fst) < d.size) :
    ∃ D', ((appendAll F l 0 d src).toOption = (getAll F (l.map fun x => x.1.name) src).map fun src' =>
        (sectors (l.map Prod.fst), ⟨d.size, overlay (archive (l.map Prod.fst)) D'⟩, src')) ∧
      Appended l hne d.block D' (sectors (l.map Prod.fst)) := by
  rw [← length_archive] at hroom
  have happend := appendAll_eq (L := []) (D := d.block) hne hgood hfiles hnames hroom
  rwa [List.nil_append, length_archive] at happend

/-- One append: the marker is there if it was there before, but for its first sector without the last
byte. -/
theorem ended_iff {D' : ℕ → Sector} (hne : l ≠ [])
    (happended : Appended l hne d.block D' (sectors (l.map Prod.fst))) :
    Ended (sectors (l.map Prod.fst)) ⟨d.size, overlay (archive (l.map Prod.fst)) D'⟩ ↔
      (l.getLast hne).2 = 0 ∧ d.block (sectors (l.map Prod.fst) + 1) = zeros := by
  have hlength := length_archive (l.map Prod.fst)
  unfold Ended
  dsimp only
  rw [overlay_of_le (Nat.le_of_eq hlength), overlay_of_le (by omega), happended.marker,
    happended.behind _ (Nat.lt_succ_self _), marker_eq_zeros_iff]

theorem sectors_mono {p : List (File × UInt8)} (hp : p <+: l) :
    sectors (p.map Prod.fst) ≤ sectors (l.map Prod.fst) := by
  obtain ⟨q, rfl⟩ := hp
  simp [sectors]

theorem ok_of_toOption {ε α : Type} {x : Except ε α} {a : α} (h : x.toOption = some a) : x = .ok a := by
  cases x with
  | error e => cases h
  | ok b => exact congrArg _ (Option.some.inj h)

theorem allEnded_iff (hne : l ≠ []) (hgood : V.Good src) (hfiles : ∀ x ∈ l, V.Holds (V.files src) x.1)
    (hnames : ∀ x ∈ l, x.1.Storable) (hroom : sectors (l.map Prod.fst) < d.size) :
    AllEnded F src l d ↔ Zeroed l d ∧ (getAll F (l.map fun x => x.1.name) src).isSome = true := by
  have hprefix : ∀ p, (hp : p <+: l) → (hpne : p ≠ []) → ∃ D',
      ((appendAll F p 0 d src).toOption = (getAll F (p.map fun x => x.1.name) src).map fun src' =>
        (sectors (p.map Prod.fst), ⟨d.size, overlay (archive (p.map Prod.fst)) D'⟩, src')) ∧
      Appended p hpne d.block D' (sectors (p.map Prod.fst)) := fun p hp hpne =>
    appended_from_start hpne hgood (fun x hx => hfiles x (hp.subset hx))
      (fun x hx => hnames x (hp.subset hx)) (Nat.lt_of_le_of_lt (sectors_mono hp) hroom)
  constructor
  · intro hall
    have hone : ∀ p, (hp : p <+: l) → (hpne : p ≠ []) →
        (getAll F (p.map fun x => x.1.name) src).isSome = true ∧
          (p.getLast hpne).2 = 0 ∧ d.block (sectors (p.map Prod.fst) + 1) = zeros := by
      intro p hp hpne
      obtain ⟨D', hrun, happended⟩ := hprefix p hp hpne
      obtain ⟨sector, d', src', hok, hend⟩ := hall p hp hpne
      rw [hok] at hrun
      obtain ⟨src₁, hget, heq⟩ := Option.map_eq_some_iff.mp hrun.symm
      cases heq
      exact ⟨Option.isSome_of_eq_some hget, (ended_iff hpne happended).mp hend⟩
    exact ⟨fun p hp hpne => (hone p hp hpne).2, (hone l (List.prefix_refl l) hne).1⟩
  · rintro ⟨hzeroed, hget⟩ p hp hpne
    obtain ⟨D', hrun, happended⟩ := hprefix p hp hpne
    obtain ⟨src', hsrc'⟩ := Option.isSome_iff_exists.mp (getAll_isSome_of_le (hp.map _) hget)
    rw [hsrc', Option.map_some] at hrun
    exact ⟨_, _, _, ok_of_toOption hrun, (ended_iff hpne happended).mpr (hzeroed p hp hpne)⟩

/-- The extraction of an archive that is ended. -/
theorem extracted_iff (hne : l ≠ []) (hsrc : V.Good src) (hdst : V.Good dst)
    (hfiles : ∀ x ∈ l, V.Holds (V.files src) x.1) (hstored : ∀ x ∈ l, x.1.storedName ∈ V.names)
    (hnames : ∀ x ∈ l, x.1.Storable) (hroom : sectors (l.map Prod.fst) + 1 < d.size) (hzeroed : Zeroed l d)
    (hget : (getAll F (l.map fun x => x.1.name) src).isSome = true) :
    (∃ sector d' src' d'' dst', appendAll F l 0 d src = .ok (sector, d', src') ∧
      fsutilExtract F (some d') dst = .ok (d'', dst') ∧
        Recreated (l.map Prod.fst) (V.files dst) (V.files dst')) ↔
      (extractAll F (l.map Prod.fst) dst).isSome = true := by
  obtain ⟨D', hrun, happended⟩ := appended_from_start hne hsrc hfiles hnames (by omega : _ < d.size)
  obtain ⟨src', hsrc'⟩ := Option.isSome_iff_exists.mp hget
  rw [hsrc', Option.map_some] at hrun
  have hlength := length_archive (l.map Prod.fst)
  have hall : ∀ f ∈ l.map Prod.fst, f.Storable ∧ f.storedName ∈ V.names := by
    intro f hf
    obtain ⟨x, hx, rfl⟩ := List.mem_map.mp hf
    exact ⟨hnames x hx, hstored x hx⟩
  have hmarker := ((ended_iff hne happended).mpr (hzeroed l (List.prefix_refl l) hne)).1
  have hextract : (fsutilExtract F (some ⟨d.size, overlay (archive (l.map Prod.fst)) D'⟩) dst).toOption = _ :=
    fsutilExtract_eq (by omega) (fun f hf => (hall f hf).1) (by rw [hlength]; exact hmarker)
  rw [ok_of_toOption hrun]
  constructor
  · rintro ⟨sector, d', src₁, d'', dst', hok, hextracted, -⟩
    cases hok
    rw [hextracted] at hextract
    obtain ⟨dst₁, hsome, -⟩ := Option.map_eq_some_iff.mp hextract.symm
    exact Option.isSome_of_eq_some hsome
  · intro hsome
    obtain ⟨dst', hdst'⟩ := Option.isSome_iff_exists.mp hsome
    rw [hdst', Option.map_some] at hextract
    refine ⟨_, _, _, _, dst', rfl, ok_of_toOption hextract, ?_⟩
    -- the files that were there before are those after the buffers were allocated
    unfold extractAll at hdst'
    split_ifs at hdst'
    obtain ⟨hgood₁, hsame₁⟩ := V.malloc hdst
    obtain ⟨hgood₂, hsame₂⟩ := V.malloc hgood₁
    have hput := (V.putAll hgood₂ (fun f hf => (hall f hf).2) hdst').1
    rwa [hsame₂, hsame₁] at hput

end CSE130.Lab3.Fsutil
