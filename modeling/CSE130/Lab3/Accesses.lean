import CSE130.Lab3.Inode
import CSE130.Lib.Traced

/-! # The sectors that a reservation takes and writes

`inode_reserve` and what it calls, with a log of the sectors that `free_map_allocate` returns and
of those that they write.  The results are the same (`inodeReserveLog_value`).  The bitmap that
`free_map_allocate` writes itself is not in the log.

`needed` lists the allocations that the trees of an inode still need, in the order in which they
are made. -/

namespace CSE130.Lab3.Files

open Traced
open Function (update)

/-- `free_map_allocate` returns a sector, or a sector is written. -/
inductive Access where
  | allocate (s : Sector)
  | write (s : Sector)
  deriving DecidableEq

namespace State

/-- `reserveSector`, with its accesses. -/
def reserveSectorLog (st : State) (e : Sector) : Traced Unit Access (Bool × Sector × State) :=
  if e = 0 then
    match st.freeMapAllocate with
    | (none, st) => pure (false, e, st)
    | (some s, st) => do
        access (.allocate s)
        access (.write s)
        pure (true, s, st.write s zeros)
  else pure (true, e, st)

/-- `indexSector`, with its accesses. -/
def indexSectorLog (st : State) (e : Sector) : Traced Unit Access (Sector × State) :=
  if e = 0 then
    match st.freeMapAllocate with
    | (none, st) => do
        access (.write e)
        pure (e, st.write e zeros)
    | (some s, st) => do
        access (.allocate s)
        access (.write s)
        pure (s, st.write s zeros)
  else pure (e, st)

/-- `reserveLoop`, with its accesses. -/
def reserveLoopLog (f : State → Sector → ℕ → Traced Unit Access (Bool × Sector × State)) (unit : ℕ) :
    ℕ → ℕ → State → (ℕ → Sector) → ℕ → Traced Unit Access (Bool × (ℕ → Sector) × ℕ × State)
  | 0, _, st, blocks, numSectors => pure (true, blocks, numSectors, st)
  | count + 1, i, st, blocks, numSectors => do
      let subsize := min numSectors unit
      let (ok, e, st) ← f st (blocks i) subsize
      if ok then reserveLoopLog f unit count (i + 1) st (update blocks i e) (numSectors - subsize)
      else pure (false, update blocks i e, numSectors, st)

/-- `reserveIndirect`, with its accesses. -/
def reserveIndirectLog : ℕ → State → Sector → ℕ → Traced Unit Access (Bool × Sector × State)
  | 0, st, e, _ => st.reserveSectorLog e
  | level + 1, st, e, numSectors => do
      let (e, st) ← st.indexSectorLog e
      let unit := if level = 0 then 1 else 128
      let l := (numSectors + (unit - 1)) / unit
      let (ok, blocks, rest, st) ←
        reserveLoopLog (reserveIndirectLog level) unit l 0 st (word (st.disk e)) numSectors
      if ok then
        if rest = 0 then do
          access (.write e)
          pure (true, e, st.write e (ofWords blocks))
        else exit ()
      else pure (false, e, st)

/-- `inodeReserve`, with its accesses. -/
def inodeReserveLog (st : State) (d : InodeDisk) (length : ℤ) :
    Traced Unit Access (Bool × InodeDisk × State) :=
  if length < 0 then pure (false, d, st)
  else do
    let numSectors := bytesToSectors length.toNat
    let l := min numSectors 123
    let (ok, direct, _, st) ←
      reserveLoopLog (fun st e _ => st.reserveSectorLog e) 1 l 0 st d.directBlocks l
    let d := { d with directBlocks := direct }
    let numSectors := numSectors - l
    if ok = false then pure (false, d, st)
    else if numSectors = 0 then pure (true, d, st)
    else do
      let l := min numSectors 128
      let (ok, e, st) ← reserveIndirectLog 1 st d.indirectBlock l
      let d := { d with indirectBlock := e }
      let numSectors := numSectors - l
      if ok = false then pure (false, d, st)
      else if numSectors = 0 then pure (true, d, st)
      else do
        let l := min numSectors (128 * 128)
        let (ok, e, st) ← reserveIndirectLog 2 st d.doublyIndirectBlock l
        let d := { d with doublyIndirectBlock := e }
        let numSectors := numSectors - l
        if ok = false then pure (false, d, st)
        else if numSectors = 0 then pure (true, d, st)
        else exit ()

end State

open State (reserveLoop reserveIndirect reserveLoopLog reserveIndirectLog)

variable {st : State} {e : Sector} {d : InodeDisk} {length : ℤ}

/-! ### The log leaves the results alone -/

theorem reserveSectorLog_value : (st.reserveSectorLog e).value = some (st.reserveSector e) := by
  unfold State.reserveSectorLog State.reserveSector
  split_ifs
  · rcases st.freeMapAllocate with ⟨_ | s, st'⟩
    · rfl
    · rfl
  · rfl

theorem indexSectorLog_value : (st.indexSectorLog e).value = some (st.indexSector e) := by
  unfold State.indexSectorLog State.indexSector
  split_ifs
  · rcases st.freeMapAllocate with ⟨_ | s, st'⟩
    · rfl
    · rfl
  · rfl

theorem reserveLoopLog_value {f : State → Sector → ℕ → Option (Bool × Sector × State)}
    {fLog : State → Sector → ℕ → Traced Unit Access (Bool × Sector × State)}
    (hf : ∀ st e n, (fLog st e n).value = f st e n) (unit : ℕ) :
    ∀ (count i : ℕ) (st : State) (blocks : ℕ → Sector) (n : ℕ),
      (reserveLoopLog fLog unit count i st blocks n).value = reserveLoop f unit count i st blocks n
  | 0, _, _, _, _ => rfl
  | count + 1, i, st, blocks, n => by
      unfold reserveLoopLog reserveLoop
      simp only [value_ite, value_bind, value_pure, hf, reserveLoopLog_value hf unit count (i + 1)]
      rfl

theorem reserveIndirectLog_value : ∀ (k : ℕ) (st : State) (e : Sector) (n : ℕ),
    (reserveIndirectLog k st e n).value = reserveIndirect k st e n
  | 0, _, _, _ => reserveSectorLog_value
  | k + 1, st, e, n => by
      unfold reserveIndirectLog reserveIndirect
      simp only [value_ite, value_bind, value_pure, value_exit, value_access, Option.bind_some,
        indexSectorLog_value, reserveLoopLog_value (reserveIndirectLog_value k)]
      rfl

theorem inodeReserveLog_value : (st.inodeReserveLog d length).value = st.inodeReserve d length := by
  unfold State.inodeReserveLog State.inodeReserve
  simp only [value_ite, value_bind, value_pure, value_exit, reserveIndirectLog_value,
    reserveLoopLog_value fun (_ : State) (_ : Sector) (_ : ℕ) => reserveSectorLog_value]
  rfl

/-! ### The allocations that are needed -/

/-- The loop over the entries of an index block. -/
def neededLoop (f : Sector → ℕ → List Bool) (unit : ℕ) (blocks : ℕ → Sector) :
    ℕ → ℕ → ℕ → List Bool
  | 0, _, _ => []
  | count + 1, i, numSectors =>
      f (blocks i) (min numSectors unit) ++
        neededLoop f unit blocks count (i + 1) (numSectors - min numSectors unit)

/-- The allocations for `numSectors` sectors below the entry `e`, in order: `true` is for an index
block. -/
def needed (m : Sector → Block) : ℕ → Sector → ℕ → List Bool
  | 0, e, _ => if e = 0 then [false] else []
  | level + 1, e, numSectors =>
      let unit := if level = 0 then 1 else 128
      let l := (numSectors + (unit - 1)) / unit
      if e = 0 then true :: neededLoop (needed m level) unit (fun _ => 0) l 0 numSectors
      else neededLoop (needed m level) unit (word (m e)) l 0 numSectors

/-- The allocations for an inode of `length` bytes. -/
def inodeNeeded (m : Sector → Block) (d : InodeDisk) (length : ℤ) : List Bool :=
  let n := bytesToSectors length.toNat
  neededLoop (needed m 0) 1 d.directBlocks (min n 123) 0 (min n 123) ++
    (if n ≤ 123 then [] else needed m 1 d.indirectBlock (min (n - 123) 128)) ++
    (if n ≤ 251 then [] else needed m 2 d.doublyIndirectBlock (min (n - 251) (128 * 128)))

end CSE130.Lab3.Files
