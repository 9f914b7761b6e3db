import CSE130.Lib.Transition
import CSE130.Lib.Placement
import Mathlib.Data.Nat.Notation
import Mathlib.Algebra.Ring.Nat

/-! # Virtual memory

`vm/frame.c`, `vm/page.c` and `vm/swap.c`, with what they use of `userprog/pagedir.c` and of
`palloc_get_page`.  A user page is the thread and the number of the page, a kernel page its number
in the user pool; bytes of a page are counted from 0, and those from `pgSize` on mean nothing.
`frame_map` has the entries of `frame_list` under their kernel pages, so it is this list here.

No result stands for a panic, a failed assertion, and for memory that is no entry: freed memory at
the clock pointer, or the end of the list read as an entry that is not pinned. -/

namespace CSE130.Lab3.Vm

open Function (update)

/-- `PGSIZE`. -/
def pgSize : ℕ := 4096

instance : NeZero pgSize := ⟨by decide⟩

/-- `BLOCK_SECTOR_SIZE`. -/
def blockSectorSize : ℕ := 512
/-- `SECTORS_PER_PAGE`. -/
def sectorsPerPage : ℕ := pgSize / blockSectorSize
/-- The pages below `PHYS_BASE`. -/
def userPages : ℕ := 0xc0000

/-- A thread and a page of it. -/
abbrev UserPage := ℕ × ℕ

/-- `enum page_status`. -/
inductive PageStatus where
  | allZero
  | onFrame
  | onSwap
  | fromFilesys
deriving DecidableEq, Inhabited

/-- `struct supplemental_page_table_entry`. -/
structure Spte where
  kpage : Option ℕ
  status : PageStatus
  dirty : Bool
  swapIndex : ℕ
  file : ℕ
  fileOffset : ℕ
  readBytes : ℕ
  zeroBytes : ℕ
  writable : Bool
deriving Inhabited

/-- A page-table entry. -/
structure Pte where
  kpage : ℕ
  present : Bool
  writable : Bool
  accessed : Bool
  dirty : Bool

/-- `struct frame_table_entry`, in the block that `malloc` has given for it. -/
structure FrameEntry where
  block : ℕ
  kpage : ℕ
  page : UserPage
  pinned : Bool

/-- The entry of the kernel page `k` is not pinned any more. -/
def FrameEntry.unpin (k : ℕ) (f : FrameEntry) : FrameEntry :=
  if f.kpage = k then { f with pinned := false } else f

/-- `clock_ptr`. -/
inductive ClockPtr where
  | null
  | elem (block : ℕ)
  | listEnd

/-- The machine, as far as these files use it. -/
structure State where
  /-- The user pool, and its pages that are in use. -/
  poolSize : ℕ
  used : ℕ → Bool
  mem : ℕ → ℕ → UInt8
  frames : List FrameEntry
  clockPtr : ClockPtr
  supt : UserPage → Option Spte
  /-- The page tables that are there: the thread and the index in its directory. -/
  tables : ℕ × ℕ → Bool
  ptes : UserPage → Pte
  /-- The dirty bits of the kernel's own mappings. -/
  kernelDirty : ℕ → Bool
  swapSize : ℕ
  swapAvailable : ℕ → Bool
  swapBlock : ℕ → ℕ → UInt8
  files : ℕ → List UInt8

/-- What the rest of the kernel answers in a call: the block of `malloc` for the frame, if any,
whether there is memory for a page table, and what `pinned` of the end of the list reads. -/
structure Answers where
  frameEntry : Option ℕ
  tableMemory : Bool
  endPinned : Bool

namespace State

/-! ### `palloc.c` and `pagedir.c` -/

/-- `palloc_get_page (PAL_USER)`. -/
def pallocGetPage (st : State) : Option (ℕ × State) :=
  ((List.range st.poolSize).find? fun k => !st.used k).map fun k =>
    (k, { st with used := update st.used k true })

/-- `palloc_free_page`. -/
def pallocFreePage (st : State) (k : ℕ) : State :=
  { st with used := update st.used k false, mem := update st.mem k fun _ => 0xcc }

/-- `lookup_page (pd, upage, false)`. -/
def lookupPage (st : State) (p : UserPage) : Option Pte :=
  if st.tables (p.1, p.2 / 1024) then some (st.ptes p) else none

/-- `pagedir_set_page`, with memory for a page table or without. -/
def pagedirSetPage (st : State) (tableMemory : Bool) (p : UserPage) (k : ℕ) (writable : Bool) :
    Option (Bool × State) :=
  if userPages ≤ p.2 then none
  else if st.tables (p.1, p.2 / 1024) || tableMemory then
    if (st.ptes p).present then none
    else some (true, { st with
      tables := update st.tables (p.1, p.2 / 1024) true
      ptes := update st.ptes p ⟨k, true, writable, false, false⟩ })
  else some (false, st)

/-- `pagedir_clear_page`: the other bits stay. -/
def pagedirClearPage (st : State) (p : UserPage) : State :=
  match st.lookupPage p with
  | none => st
  | some e => { st with ptes := update st.ptes p { e with present := false } }

/-- `pagedir_is_dirty` of a user page. -/
def pagedirIsDirty (st : State) (p : UserPage) : Bool := (st.lookupPage p).any Pte.dirty

/-- `pagedir_is_accessed`. -/
def pagedirIsAccessed (st : State) (p : UserPage) : Bool := (st.lookupPage p).any Pte.accessed

/-- `pagedir_set_accessed (pd, upage, false)`. -/
def pagedirClearAccessed (st : State) (p : UserPage) : State :=
  match st.lookupPage p with
  | none => st
  | some e => { st with ptes := update st.ptes p { e with accessed := false } }

/-! ### `swap.c` -/

/-- The loop of `vm_swap_out`. -/
def swapOutLoop (page : ℕ → UInt8) (swapIndex n : ℕ) (disk : ℕ → ℕ → UInt8) : ℕ → ℕ → UInt8 :=
  (List.range n).foldl (fun disk i => update disk (swapIndex * sectorsPerPage + i) fun o =>
    page (blockSectorSize * i + o)) disk

/-- `vm_swap_out`. -/
def vmSwapOut (st : State) (k : ℕ) : Option (ℕ × State) :=
  ((List.range st.swapSize).find? fun j => st.swapAvailable j).map fun swapIndex =>
    (swapIndex, { st with
      swapBlock := swapOutLoop (st.mem k) swapIndex sectorsPerPage st.swapBlock
      swapAvailable := update st.swapAvailable swapIndex false })

/-- The loop of `vm_swap_in`. -/
def swapInLoop (disk : ℕ → ℕ → UInt8) (swapIndex n : ℕ) (page : ℕ → UInt8) : ℕ → UInt8 :=
  (List.range n).foldl (fun page i o =>
    if blockSectorSize * i ≤ o ∧ o < blockSectorSize * i + blockSectorSize then
      disk (swapIndex * sectorsPerPage + i) (o - blockSectorSize * i)
    else page o) page

/-- `vm_swap_in`. -/
def vmSwapIn (st : State) (swapIndex k : ℕ) : Option State :=
  if st.swapSize ≤ swapIndex ∨ st.swapAvailable swapIndex = true then none
  else some { st with
    mem := update st.mem k (swapInLoop st.swapBlock swapIndex sectorsPerPage (st.mem k))
    kernelDirty := update st.kernelDirty k true
    swapAvailable := update st.swapAvailable swapIndex true }

/-! ### `frame.c` -/

/-- `clock_frame_next`: the entry, or the end of the list. -/
def clockFrameNext (st : State) : Option (Option FrameEntry × State) :=
  let rest : Option (List FrameEntry) :=
    match st.clockPtr with
    | .null | .listEnd => if st.frames.isEmpty then none else some st.frames
    | .elem b =>
        match st.frames.dropWhile (·.block ≠ b) with
        | [] => none
        | _ :: rest => some rest
  rest.map fun
    | [] => (none, { st with clockPtr := .listEnd })
    | f :: _ => (some f, { st with clockPtr := .elem f.block })

/-- The loop of `pick_frame_to_evict`, with the page directory of the running thread. -/
def pickLoop (endPinned : Bool) (t : ℕ) : ℕ → State → Option (FrameEntry × State)
  | 0, _ => none
  | n + 1, st => do
      let (e, st) ← st.clockFrameNext
      match e with
      | none => if endPinned then pickLoop endPinned t n st else none
      | some e =>
          if e.pinned then pickLoop endPinned t n st
          else if st.pagedirIsAccessed (t, e.page.2) then
            pickLoop endPinned t n (st.pagedirClearAccessed (t, e.page.2))
          else some (e, st)

/-- `pick_frame_to_evict`. -/
def pickFrameToEvict (st : State) (endPinned : Bool) (t : ℕ) : Option (FrameEntry × State) :=
  if st.frames.isEmpty then none
  else pickLoop endPinned t (st.frames.length + st.frames.length + 1) st

/-- `vm_frame_do_free (kpage, true)`. -/
def vmFrameFree (st : State) (k : ℕ) : Option State :=
  if st.frames.any (·.kpage = k) then
    some ({ st with frames := st.frames.eraseP (·.kpage = k) }.pallocFreePage k)
  else none

/-- `vm_frame_unpin`. -/
def vmFrameUnpin (st : State) (k : ℕ) : Option State :=
  if st.frames.any (·.kpage = k) then
    some { st with frames := st.frames.map (FrameEntry.unpin k) }
  else none

/-- `vm_supt_set_swap`. -/
def vmSuptSetSwap (st : State) (p : UserPage) (swapIndex : ℕ) : State :=
  match st.supt p with
  | none => st
  | some e => { st with
      supt := update st.supt p (some { e with status := .onSwap, kpage := none, swapIndex }) }

/-- `vm_supt_set_dirty`. -/
def vmSuptSetDirty (st : State) (p : UserPage) (value : Bool) : Option State :=
  (st.supt p).map fun e =>
    { st with supt := update st.supt p (some { e with dirty := e.dirty || value }) }

/-- The part of `vm_frame_allocate` that makes room. -/
def evict (st : State) (endPinned : Bool) (t : ℕ) : Option State := do
  let (f, st) ← st.pickFrameToEvict endPinned t
  let st := st.pagedirClearPage f.page
  let isDirty := st.pagedirIsDirty f.page || st.kernelDirty f.kpage
  let (swapIndex, st) ← st.vmSwapOut f.kpage
  let st ← (st.vmSuptSetSwap f.page swapIndex).vmSuptSetDirty f.page isDirty
  st.vmFrameFree f.kpage

/-- The page that `vm_frame_allocate` gets from the pool, at last. -/
def obtainPage (st : State) (endPinned : Bool) (t : ℕ) : Option (ℕ × State) :=
  match st.pallocGetPage with
  | some r => some r
  | none => (st.evict endPinned t).bind pallocGetPage

/-- `vm_frame_allocate (PAL_USER, upage)` by the thread of the page. -/
def vmFrameAllocate (st : State) (a : Answers) (p : UserPage) : Option (Option ℕ × State) := do
  let (k, st) ← st.obtainPage a.endPinned p.1
  match a.frameEntry with
  | none => some (none, st)
  | some b => some (some k, { st with frames := st.frames ++ [⟨b, k, p, true⟩] })

/-! ### `page.c` -/

/-- `vm_supt_install_zeropage`, in the memory that `malloc` has given. -/
def vmSuptInstallZeropage (st : State) (p : UserPage) (e : Spte) : Option State :=
  match st.supt p with
  | some _ => none
  | none => some { st with
      supt := update st.supt p (some { e with kpage := none, status := .allZero, dirty := false }) }

/-- `vm_supt_install_filesys`. -/
def vmSuptInstallFilesys (st : State) (p : UserPage) (e : Spte)
    (file fileOffset readBytes zeroBytes : ℕ) (writable : Bool) : Option State :=
  match st.supt p with
  | some _ => none
  | none => some { st with
      supt := update st.supt p (some { e with
        kpage := none, status := .fromFilesys, dirty := false, file, fileOffset, readBytes, zeroBytes,
        writable }) }

/-- `file_read`, at the offset. -/
def fileRead (st : State) (file offset size : ℕ) : List UInt8 :=
  ((st.files file).drop offset).take size

/-- `vm_load_page_from_filesys`: the bytes of the page. -/
def vmLoadPageFromFilesys (st : State) (e : Spte) (k : ℕ) : Option (Bool × State) :=
  let bytes := st.fileRead e.file e.fileOffset e.readBytes
  let st := { st with
    mem := update st.mem k fun o => if o < bytes.length then bytes.getD o 0 else st.mem k o
    kernelDirty := update st.kernelDirty k true }
  if bytes.length ≠ e.readBytes then some (false, st)
  else if e.readBytes + e.zeroBytes ≠ pgSize then none
  else some (true, { st with
    mem := update st.mem k fun o =>
      if bytes.length ≤ o ∧ o < bytes.length + e.zeroBytes then 0 else st.mem k o })

/-- The data for the frame, and whether the page is to be writable. -/
def fetchPage (st : State) (e : Spte) (k : ℕ) : Option (Option Bool × State) :=
  match e.status with
  | .allZero => some (some true, { st with
      mem := update st.mem k fun o => if o < pgSize then 0 else st.mem k o
      kernelDirty := update st.kernelDirty k true })
  | .onFrame => some (some true, st)
  | .onSwap => (st.vmSwapIn e.swapIndex k).map fun st => (some true, st)
  | .fromFilesys => (st.vmLoadPageFromFilesys e k).map fun (ok, st) =>
      (if ok then some e.writable else none, st)

/-- `vm_load_page`. -/
def vmLoadPage (st : State) (a : Answers) (p : UserPage) : Option (Bool × State) :=
  match st.supt p with
  | none => some (false, st)
  | some e =>
      if e.status = .onFrame then some (true, st)
      else do
        let (frame, st) ← st.vmFrameAllocate a p
        match frame with
        | none => some (false, st)
        | some k => do
            let e ← st.supt p
            let (fetched, st) ← st.fetchPage e k
            match fetched with
            | none => (st.vmFrameFree k).map fun st => (false, st)
            | some writable => do
                let (ok, st) ← st.pagedirSetPage a.tableMemory p k writable
                if ok = false then (st.vmFrameFree k).map fun st => (false, st)
                else
                  let st := { st with
                    supt := update st.supt p (some { e with kpage := some k, status := .onFrame })
                    kernelDirty := update st.kernelDirty k false }
                  (st.vmFrameUnpin k).map fun st => (true, st)

/-! ### Accesses of the user -/

/-- What the user reads, when the page is present. -/
def userRead (st : State) (p : UserPage) (o : Fin pgSize) : Option UInt8 :=
  (st.lookupPage p).bind fun e => if e.present then some (st.mem e.kpage o) else none

end State

/-- What happens to the memory: a page is installed, a page fault loads one, the user reads or writes a
byte of a page that is present, and a file changes. -/
inductive Action where
  | installZeropage (p : UserPage) (e : Spte)
  | installFilesys (p : UserPage) (e : Spte) (file fileOffset readBytes zeroBytes : ℕ) (writable : Bool)
  | load (p : UserPage) (a : Answers)
  | read (p : UserPage)
  | write (p : UserPage) (o : Fin pgSize) (b : UInt8)
  | rewrite (file : ℕ) (bytes : List UInt8)

/-- One step. -/
def step (a : Action) (st : State) : Option State :=
  match a with
  | .installZeropage p e => st.vmSuptInstallZeropage p e
  | .installFilesys p e file fileOffset readBytes zeroBytes writable =>
      st.vmSuptInstallFilesys p e file fileOffset readBytes zeroBytes writable
  | .load p a => (st.vmLoadPage a p).map Prod.snd
  | .read p =>
      (st.lookupPage p).bind fun e =>
        if e.present then some { st with ptes := update st.ptes p { e with accessed := true } }
        else none
  | .write p o b =>
      (st.lookupPage p).bind fun e =>
        if e.present && e.writable then some { st with
          ptes := update st.ptes p { e with accessed := true, dirty := true }
          mem := update st.mem e.kpage (update (st.mem e.kpage) o b) }
        else none
  | .rewrite f bytes => some { st with files := update st.files f bytes }

/-- After `vm_frame_init` and `vm_swap_init`, with processes that have no pages yet. -/
def boot (poolSize : ℕ) (used : ℕ → Bool) (mem : ℕ → ℕ → UInt8) (swapSize : ℕ)
    (swapBlock : ℕ → ℕ → UInt8) (files : ℕ → List UInt8) : State where
  poolSize := poolSize
  used := used
  mem := mem
  frames := []
  clockPtr := .null
  supt _ := none
  tables _ := false
  ptes _ := ⟨0, false, false, false, false⟩
  kernelDirty _ := false
  swapSize := swapSize
  swapAvailable _ := true
  swapBlock := swapBlock
  files := files

end CSE130.Lab3.Vm
