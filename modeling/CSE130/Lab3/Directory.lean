import CSE130.Lab3.Inode

/-! # Directories and paths of Lab 3 (`filesys/directory.c`, `filesys/filesys.c`)

A directory is a file of 20-byte entries.  The entry at offset 0 is for the parent; lookups start
behind it.  A `struct dir` is named by the sector of its inode, which is open as long as the
directory is.

`none` is a kernel panic, a pointer to an inode that is freed, or a variable that is used before
it is assigned.  What `struct dir_entry e` of `dir_add` holds before the first assignment is a
parameter.  The reads of directories get their bounce buffer, as the comment in `dir_add` takes
for granted. -/

namespace CSE130.Lab3.Files

open Function (update)

/-- A string, without its null byte. -/
abbrev Name := List UInt8

/-- `NAME_MAX`. -/
def nameMax : ℕ := 14

/-- `ROOT_DIR_SECTOR`. -/
def rootDirSector : Sector := 1

/-- `'/'` -/
def slash : UInt8 := 47

/-- `"."` -/
def dot : Name := [46]

/-- `".."` -/
def dotDot : Name := [46, 46]

/-- `struct dir_entry`; `name` is an array of 15 bytes. -/
structure DirEntry where
  inodeSector : Sector
  name : List UInt8
  inUse : UInt8

namespace DirEntry

/-- The 20 bytes of an entry. -/
def toBytes (e : DirEntry) (x : ℕ) : UInt8 :=
  if x < 4 then ofWords (fun _ => e.inodeSector) x
  else if x < 19 then e.name.getD (x - 4) 0
  else e.inUse

def ofBytes (b : ℕ → UInt8) : DirEntry :=
  ⟨word b 0, (List.range 15).map fun x => b (4 + x), b 19⟩

instance : Inhabited DirEntry := ⟨ofBytes fun _ => 0⟩

/-- The string at `e.name`.  Where the 15 bytes have no null byte, it runs into `in_use`. -/
def string (e : DirEntry) : Name := (e.name ++ [e.inUse]).takeWhile (· != 0)

/-- `strlcpy (e.name, name, sizeof e.name)` for a name of at most `NAME_MAX` bytes. -/
def setName (e : DirEntry) (name : Name) : DirEntry :=
  { e with name := (List.range 15).map fun x =>
      if x ≤ name.length then name.getD x 0 else e.name.getD x 0 }

end DirEntry

/-! ### One directory -/

/-- `inode_read_at (dir->inode, &e, sizeof e, ofs)`: whether it reads a whole entry, and `e`. -/
def readEntry (m : Sector → Block) (d : InodeDisk) (e : DirEntry) (ofs : ℕ) : Bool × DirEntry :=
  let bytes := readLoop m d true 20 20 ofs
  (bytes.length == 20, .ofBytes fun x => if x < bytes.length then bytes.getD x 0 else e.toBytes x)

/-- The loop of `lookup`. -/
def lookupLoop (m : Sector → Block) (d : InodeDisk) (name : Name) :
    ℕ → ℕ → Option (DirEntry × ℕ)
  | 0, _ => none
  | fuel + 1, ofs =>
      let (ok, e) := readEntry m d default ofs
      if ok then
        if e.inUse ≠ 0 ∧ e.string = name then some (e, ofs) else lookupLoop m d name fuel (ofs + 20)
      else none

/-- `lookup`: the entry, and its offset.  Entry 0 is for the parent. -/
def lookup (m : Sector → Block) (d : InodeDisk) (name : Name) : Option (DirEntry × ℕ) :=
  lookupLoop m d name (d.length / 20) 20

/-- The loop of `dir_add` that looks for a free slot: `ofs` and `e` behind it. -/
def freeSlotLoop (m : Sector → Block) (d : InodeDisk) : ℕ → ℕ → DirEntry → ℕ × DirEntry
  | 0, ofs, e => (ofs, e)
  | fuel + 1, ofs, e =>
      let (ok, e) := readEntry m d e ofs
      if ok ∧ e.inUse ≠ 0 then freeSlotLoop m d fuel (ofs + 20) e else (ofs, e)

/-- The loop of `dir_is_empty`. -/
def isEmptyLoop (m : Sector → Block) (d : InodeDisk) : ℕ → ℕ → Bool
  | 0, _ => true
  | fuel + 1, ofs =>
      let (ok, e) := readEntry m d default ofs
      if ok then if e.inUse ≠ 0 then false else isEmptyLoop m d fuel (ofs + 20) else true

/-- `dir_readdir` with the position `pos`: the name, and the new position. -/
def dirReaddir (m : Sector → Block) (d : InodeDisk) : ℕ → ℕ → Option (Name × ℕ)
  | 0, _ => none
  | fuel + 1, pos =>
      let (ok, e) := readEntry m d default pos
      if ok then if e.inUse ≠ 0 then some (e.string.take nameMax, pos + 20)
        else dirReaddir m d fuel (pos + 20)
      else none

namespace State

/-- `inode_open` of a sector that was read from a directory: the device is read only within its
size. -/
def openSector (st : State) (s : Sector) : Option (Bool × State) :=
  let (ok, st') := st.inodeOpen s
  if ok ∧ st.size ≤ s then none else some (ok, st')

/-- `dir_open (inode)`, which takes the reference to the inode. -/
def dirOpen (st : State) (s : Sector) : Option (Bool × State) :=
  let (ok, st) := st.malloc
  if ok then some (true, st) else (st.inodeClose s).map fun st => (false, st)

/-- `file_open (inode)`, which takes the reference to the inode. -/
def fileOpen (st : State) (s : Sector) : Option (Bool × State) := st.dirOpen s

/-- `dir_close`, for a `dir` that may be a null pointer. -/
def dirClose (st : State) (dir : Option Sector) : Option State :=
  match dir with
  | none => some st
  | some s => st.inodeClose s

/-- `dir_lookup (dir, name, &inode)`: the sector of the inode that is opened. -/
def dirLookup (st : State) (dir : Sector) (name : Name) : Option (Option Sector × State) := do
  let i ← st.openInodes dir
  if name = dot then some (some dir, (st.inodeOpen dir).2)
  else
    let found ← if name = dotDot then
        let (ok, e) := readEntry st.disk i.data default 0
        if ok then some (some e) else none
      else some ((lookup st.disk i.data name).map Prod.fst)
    match found with
    | none => some (none, st)
    | some e => do
        let (ok, st) ← st.openSector e.inodeSector
        some (if ok then some e.inodeSector else none, st)

/-- `inode_write_at (inode, &e, sizeof e, ofs) == sizeof e`. -/
def writeEntry (st : State) (s : Sector) (e : DirEntry) (ofs : ℕ) : Option (Bool × State) :=
  (st.inodeWriteAt s e.toBytes 20 ofs).map fun (n, st) => (n == 20, st)

/-- The part of `dir_add` for a directory: its entry 0 gets the sector of the parent.  The result
is `e`, or nothing where `dir_add` fails. -/
def linkParent (st : State) (dir : Sector) (s : Sector) (e : DirEntry) :
    Option (Option DirEntry × State) := do
  let (ok, st) ← st.openSector s
  if ok = false then some (none, st)
  else do
    let (ok, st) ← st.dirOpen s
    if ok = false then some (none, st)
    else do
      let e := { e with inodeSector := dir }
      let (ok, st) ← st.writeEntry s e 0
      let st ← st.inodeClose s
      some (if ok then some e else none, st)

/-- `dir_add`; `e` is what is on the stack. -/
def dirAdd (st : State) (dir : Sector) (name : Name) (s : Sector) (isDir : Bool) (e : DirEntry) :
    Option (Bool × State) := do
  let i ← st.openInodes dir
  if name = [] ∨ nameMax < name.length then some (false, st)
  else if (lookup st.disk i.data name).isSome then some (false, st)
  else do
    let (e, st) ← if isDir then st.linkParent dir s e else some (some e, st)
    match e with
    | none => some (false, st)
    | some e => do
        let i ← st.openInodes dir
        let (ofs, e) := freeSlotLoop st.disk i.data (i.data.length / 20 + 1) 0 e
        st.writeEntry dir ({ e with inUse := 1, inodeSector := s }.setName name) ofs

/-- `dir_remove`. -/
def dirRemove (st : State) (dir : Sector) (name : Name) : Option (Bool × State) := do
  let i ← st.openInodes dir
  match lookup st.disk i.data name with
  | none => some (false, st)
  | some (e, ofs) => do
      let s := e.inodeSector
      let (ok, st) ← st.openSector s
      if ok = false then some (false, st)
      else do
        let target ← st.openInodes s
        let (isEmpty, st) ← if target.data.isDir then do
            let (ok, st) ← st.dirOpen s
            if ok = false then none
            else do
              let isEmpty := isEmptyLoop st.disk target.data (target.data.length / 20) 20
              let st ← st.inodeClose s
              some (isEmpty, st)
          else some (true, st)
        if isEmpty = false then (st.inodeClose s).map fun st => (false, st)
        else do
          let (ok, st) ← st.writeEntry dir { e with inUse := 0 } ofs
          if ok = false then (st.inodeClose s).map fun st => (false, st)
          else do
            let st ← st.inodeRemove s
            (st.inodeClose s).map fun st => (true, st)

end State

/-! ### Paths -/

/-- What `strtok_r (path, "/", ..)` returns one after the other. -/
def tokens (path : List UInt8) : List Name := (path.splitOn slash).filter (· ≠ [])

/-- `split_path_filename`: the directory and the file name. -/
def splitPathFilename (path : List UInt8) : List UInt8 × Name :=
  ((if path.head? = some slash then [slash] else []) ++
      (tokens path).dropLast.flatMap fun token => token ++ [slash],
    (tokens path).getLastD [])

namespace State

/-- The loop of `dir_open_path`, in the directory `curr`. -/
def walk (st : State) (curr : Sector) : List Name → Option (Option Sector × State)
  | [] => some (some curr, st)
  | token :: rest => do
      let (inode, st) ← st.dirLookup curr token
      match inode with
      | none => (st.inodeClose curr).map fun st => (none, st)
      | some s => do
          let (ok, st) ← st.dirOpen s
          let st ← st.inodeClose curr
          if ok then walk st s rest else some (none, st)

/-- `dir_open_path`; `cwd` is the current working directory of the thread. -/
def dirOpenPath (st : State) (cwd : Option Sector) (path : List UInt8) :
    Option (Option Sector × State) := do
  let start := if path.head? = some slash then rootDirSector else cwd.getD rootDirSector
  let (ok, st) := st.inodeOpen start
  if ok = false then none
  else do
    let (ok, st) ← st.dirOpen start
    if ok = false then none
    else do
      let (curr, st) ← st.walk start (tokens path)
      match curr with
      | none => some (none, st)
      | some s => do
          let i ← st.openInodes s
          if i.removed then (st.inodeClose s).map fun st => (none, st) else some (some s, st)

end State

/-! ### `filesys.c` -/

namespace Paths

variable (st : State) (cwd : Option Sector) (path : List UInt8)

/-- `filesys_create`; `e` is what is on the stack of `dir_add`. -/
def filesysCreate (initialSize : ℤ) (isDir : Bool) (e : DirEntry) : Option (Bool × State) := do
  let (directory, fileName) := splitPathFilename path
  let (dir, st) ← st.dirOpenPath cwd directory
  match dir with
  | none => some (false, st)
  | some d =>
      match st.freeMapAllocate with
      | (none, st) => (st.dirClose dir).map fun st => (false, st)
      | (some s, st) => do
          let (created, st) ← st.inodeCreate s initialSize isDir
          let (added, st) ← if created then
              State.dirAdd { st with live := update st.live s true } d fileName s isDir e
            else some (false, st)
          let st ← if added then some st
            else (st.freeMapRelease s).map fun st => { st with live := update st.live s false }
          (st.dirClose dir).map fun st => (added, st)

/-- `filesys_open`: the sector of the file's inode.  The last step is `file_open`. -/
def filesysOpen : Option (Option Sector × State) :=
  if path = [] then some (none, st)
  else do
    let (directory, fileName) := splitPathFilename path
    let (dir, st) ← st.dirOpenPath cwd directory
    match dir with
    | none => some (none, st)
    | some d => do
        let (inode, st) ← if fileName ≠ [] then do
            let (inode, st) ← st.dirLookup d fileName
            let st ← st.dirClose dir
            some (inode, st)
          else some (dir, st)
        match inode with
        | none => some (none, st)
        | some s => do
            let i ← st.openInodes s
            if i.removed then some (none, st)
            else do
              let (ok, st) ← st.fileOpen s
              some (if ok then some s else none, st)

/-- `filesys_remove`. -/
def filesysRemove : Option (Bool × State) := do
  let (directory, fileName) := splitPathFilename path
  let (dir, st) ← st.dirOpenPath cwd directory
  match dir with
  | none => some (false, st)
  | some d => do
      let (removed, st) ← st.dirRemove d fileName
      (st.dirClose dir).map fun st => (removed, st)

/-- `do_format`, with `free_map_init`; `e` is what is on the stack of `dir_create`. -/
def doFormat (disk : Sector → Block) (size : Sector) (heap : ℕ → Bool) (e : DirEntry) :
    Option State := do
  let st ← State.format disk size heap
  let (ok, st) := st.inodeOpen rootDirSector
  if ok = false then none
  else do
    let (ok, st) ← st.dirOpen rootDirSector
    if ok = false then none
    else do
      let (ok, st) ← st.writeEntry rootDirSector { e with inodeSector := rootDirSector } 0
      let st ← st.inodeClose rootDirSector
      if ok then some st else none

end Paths

end CSE130.Lab3.Files
