import CSE130.Lab3.Contents
import CSE130.Lab3.Arguments
import CSE130.Lib.Traced

/-! # Loading an executable (`userprog/elf.c`)

`elf_load` reads the headers of the file, `validate_segment` says which segments can be loaded, and
`load_segment` maps page after page.  The 32-bit sums, differences and products, and the pages that
are mapped, are logged: none of the first wraps around, and no page is mapped twice
(`elf_segments`).

`palloc_get_page` and `malloc` answer as `pool` and `heap` say.  The frames of the process are
known by the user pages that they are mapped to.  The parts under `#ifdef VM` are left out: they
need a supplemental page table, which `struct thread` does not have. -/

namespace CSE130.Lab3.Elf

open Files Traced
open Function (update)

/-- Why the loader stops. -/
inductive Halt
  | assertion
  /-- The loop of `load_segment` goes on for more pages than there are. -/
  | endless
deriving DecidableEq

/-- A computation in 32 bits, or a page that is mapped. -/
inductive Event
  | add (a b : UInt32)
  | sub (a b : UInt32)
  | mul (a b : UInt32)
  | map (upage : UInt32)

abbrev Loader := Traced Halt Event

/-- The frame of a user page. -/
structure UserPage where
  bytes : ℕ → UInt8
  writable : Bool

/-- The memory of the process, and what the allocators answer from now on. -/
structure Space where
  /-- The pages that are mapped, by their address. -/
  page : ℕ → Option UserPage
  /-- The page tables that are there, by the index in the page directory. -/
  table : ℕ → Bool
  pool : ℕ → Bool
  heap : ℕ → Bool

/-- A file that is opened; its length is of type `off_t`. -/
structure ExecFile where
  disk : Sector → Block
  data : InodeDisk
  small : data.length < 2 ^ 31

/-- A byte of the file. -/
def ExecFile.byte (f : ExecFile) (pos : ℕ) : UInt8 := byteAt f.disk f.data pos

/-- `Elf32_Ehdr`. -/
structure Ehdr where
  ident : List UInt8
  type : UInt32
  machine : UInt32
  version : UInt32
  entry : UInt32
  phoff : UInt32
  phentsize : UInt32
  phnum : UInt32

/-- `Elf32_Phdr`. -/
structure Phdr where
  type : UInt32
  offset : UInt32
  vaddr : UInt32
  filesz : UInt32
  memsz : UInt32
  flags : UInt32

/-- An `Elf32_Half` at an offset. -/
def half (b : List UInt8) (x : ℕ) : UInt32 :=
  UInt32.ofNat ((b.getD x 0).toNat + 256 * (b.getD (x + 1) 0).toNat)

/-- An `Elf32_Word` at an index. -/
def words (b : List UInt8) (i : ℕ) : UInt32 := word (fun x => b.getD x 0) i

def Ehdr.ofBytes (b : List UInt8) : Ehdr :=
  ⟨b.take 16, half b 16, half b 18, words b 5, words b 6, words b 7, half b 42, half b 44⟩

def Phdr.ofBytes (b : List UInt8) : Phdr :=
  ⟨words b 0, words b 1, words b 2, words b 4, words b 5, words b 6⟩

/-- `PGMASK`. -/
def pgmask : UInt32 := 0xfff

/-- `PGSIZE`, as an operand. -/
def pageBytes : UInt32 := 4096

def ptLoad : UInt32 := 1

def ptDynamic : UInt32 := 2

def ptInterp : UInt32 := 3

def ptShlib : UInt32 := 5

/-- `is_user_vaddr`. -/
def isUserVaddr (vaddr : UInt32) : Bool := vaddr < 0xc0000000

/-! ### Arithmetic -/

def assert (p : Prop) [Decidable p] : Loader Unit := if p then pure () else exit .assertion

def add (a b : UInt32) : Loader UInt32 := do
  access (.add a b)
  pure (a + b)

def sub (a b : UInt32) : Loader UInt32 := do
  access (.sub a b)
  pure (a - b)

def mul (a b : UInt32) : Loader UInt32 := do
  access (.mul a b)
  pure (a * b)

/-- `ROUND_UP (x, PGSIZE)`. -/
def roundUp (x : UInt32) : Loader UInt32 := do
  let y ← add x pageBytes
  let y ← sub y 1
  mul (y / pageBytes) pageBytes

/-! ### The parts of the loader -/

namespace Space

variable (sp : Space)

/-- `palloc_get_page`: whether there is a page. -/
def pallocGetPage : Bool × Space := (sp.pool 0, { sp with pool := fun k => sp.pool (k + 1) })

/-- `file_read`, from a position: the bytes read. -/
def fileRead (f : ExecFile) (size pos : ℕ) : List UInt8 × Space :=
  (readLoop f.disk f.data (sp.heap 0) size size pos, { sp with heap := fun k => sp.heap (k + 1) })

/-- `lookup_page (pd, vaddr, true)`: whether there is a page table. -/
def lookupPage (vaddr : ℕ) : Bool × Space :=
  if sp.table (vaddr / 2 ^ 22) then (true, sp)
  else
    let (ok, sp) := sp.pallocGetPage
    (ok, if ok then { sp with table := update sp.table (vaddr / 2 ^ 22) true } else sp)

/-- `pagedir_set_page`. -/
def pagedirSetPage (upage : UInt32) (kpage : UserPage) : Loader (Bool × Space) := do
  assert (upage &&& pgmask = 0)
  assert (isUserVaddr upage)
  let (ok, sp) := sp.lookupPage upage.toNat
  if ok then do
    assert (sp.page upage.toNat).isNone
    access (.map upage)
    pure (true, { sp with page := update sp.page upage.toNat (some kpage) })
  else pure (false, sp)

/-- `install_page`. -/
def installPage (upage : UInt32) (kpage : UserPage) : Loader (Bool × Space) := do
  assert (isUserVaddr upage)
  if (sp.page upage.toNat).isNone then sp.pagedirSetPage upage kpage else pure (false, sp)

/-- `setup_stack`. -/
def setupStack : Loader (Bool × Space) :=
  let (ok, sp) := sp.pallocGetPage
  if ok then sp.installPage (0xc0000000 - pageBytes) ⟨fun _ => 0, true⟩ else pure (false, sp)

/-- `pagedir_create`: no user page is mapped. -/
def pagedirCreate : Bool × Space :=
  let (ok, sp) := sp.pallocGetPage
  (ok, { sp with page := fun _ => none, table := fun _ => false })

end Space

/-- `validate_segment`. -/
def validateSegment (phdr : Phdr) (f : ExecFile) : Bool :=
  if phdr.offset &&& pgmask ≠ phdr.vaddr &&& pgmask then false
  else if phdr.offset > UInt32.ofNat f.data.length then false
  else if phdr.memsz < phdr.filesz then false
  else if phdr.memsz = 0 then false
  else if !isUserVaddr phdr.vaddr then false
  else if !isUserVaddr (phdr.vaddr + phdr.memsz) then false
  else if phdr.vaddr + phdr.memsz < phdr.vaddr then false
  else if phdr.vaddr < pageBytes then false
  else true

/-- The loop of `load_segment`; `pos` is the position of the file. -/
def loadLoop (f : ExecFile) (writable : Bool) :
    ℕ → Space → ℕ → UInt32 → UInt32 → UInt32 → Loader (Bool × Space)
  | 0, _, _, _, _, _ => exit .endless
  | fuel + 1, sp, pos, upage, readBytes, zeroBytes =>
      if readBytes > 0 ∨ zeroBytes > 0 then do
        let pageReadBytes := if readBytes < pageBytes then readBytes else pageBytes
        let pageZeroBytes ← sub pageBytes pageReadBytes
        let (ok, sp) := sp.pallocGetPage
        if ok = false then pure (false, sp)
        else do
          let (bytes, sp) := sp.fileRead f pageReadBytes.toNat pos
          if bytes.length ≠ pageReadBytes.toNat then pure (false, sp)
          else do
            let kpage x := if x < pageReadBytes.toNat then bytes.getD x 0 else 0
            let (ok, sp) ← sp.installPage upage ⟨kpage, writable⟩
            if ok = false then pure (false, sp)
            else do
              let readBytes ← sub readBytes pageReadBytes
              let zeroBytes ← sub zeroBytes pageZeroBytes
              let upage ← add upage pageBytes
              loadLoop f writable fuel sp (pos + bytes.length) upage readBytes zeroBytes
      else pure (true, sp)

/-- `load_segment`; the address space has `2 ^ 20` pages. -/
def loadSegment (f : ExecFile) (sp : Space) (ofs : ℤ) (upage readBytes zeroBytes : UInt32)
    (writable : Bool) : Loader (Bool × Space) := do
  let total ← add readBytes zeroBytes
  assert (total % pageBytes = 0)
  assert (upage &&& pgmask = 0)
  assert (ofs % pgsize = 0)
  assert (0 ≤ ofs)
  loadLoop f writable (2 ^ 20 + 1) sp ofs.toNat upage readBytes zeroBytes

/-- `read_bytes` and `zero_bytes` of a segment. -/
def segmentBytes (phdr : Phdr) : Loader (UInt32 × UInt32) := do
  let pageOffset := phdr.vaddr &&& pgmask
  if phdr.filesz > 0 then do
    let readBytes ← add pageOffset phdr.filesz
    let last ← add pageOffset phdr.memsz
    let total ← roundUp last
    let zeroBytes ← sub total readBytes
    pure (readBytes, zeroBytes)
  else do
    let last ← add pageOffset phdr.memsz
    let zeroBytes ← roundUp last
    pure (0, zeroBytes)

/-- The case `PT_LOAD` of `elf_load`, behind `validate_segment`. -/
def loadPhdr (f : ExecFile) (sp : Space) (phdr : Phdr) : Loader (Bool × Space) := do
  let writable := phdr.flags &&& 2 != 0
  let filePage := phdr.offset &&& ~~~pgmask
  let memPage := phdr.vaddr &&& ~~~pgmask
  let (readBytes, zeroBytes) ← segmentBytes phdr
  loadSegment f sp (offT filePage.toNat) memPage readBytes zeroBytes writable

/-- The `switch` of `elf_load`. -/
def loadType (f : ExecFile) (sp : Space) (phdr : Phdr) : Loader (Bool × Space) :=
  if phdr.type = ptDynamic ∨ phdr.type = ptInterp ∨ phdr.type = ptShlib then pure (false, sp)
  else if phdr.type = ptLoad then
    if validateSegment phdr f then loadPhdr f sp phdr else pure (false, sp)
  else pure (true, sp)

/-- The program header at `fileOfs`, if there is one. -/
def readPhdr (f : ExecFile) (sp : Space) (fileOfs : ℤ) : Option Phdr × Space :=
  if fileOfs < 0 ∨ f.data.length < fileOfs then (none, sp)
  else
    let (b, sp) := sp.fileRead f 32 fileOfs.toNat
    (if b.length = 32 then some (.ofBytes b) else none, sp)

/-- The loop of `elf_load` over the program headers. -/
def phdrLoop (f : ExecFile) : ℕ → Space → ℤ → Loader (Bool × Space)
  | 0, sp, _ => pure (true, sp)
  | count + 1, sp, fileOfs =>
      match readPhdr f sp fileOfs with
      | (none, sp) => pure (false, sp)
      | (some phdr, sp) => do
          let (ok, sp) ← loadType f sp phdr
          if ok then phdrLoop f count sp (offT (fileOfs + 32)) else pure (false, sp)

/-- The tests of the executable header. -/
def Ehdr.Valid (ehdr : Ehdr) : Prop :=
  ehdr.ident.take 7 = [127, 69, 76, 70, 1, 1, 1] ∧ ehdr.type = 2 ∧ ehdr.machine = 3 ∧
    ehdr.version = 1 ∧ ehdr.phentsize = 32 ∧ ehdr.phnum ≤ 1024

instance (ehdr : Ehdr) : Decidable ehdr.Valid := inferInstanceAs (Decidable (_ ∧ _))

/-- `elf_load`, for the result of `filesys_open`: whether it succeeds. -/
def elfLoad (file : Option ExecFile) (sp : Space) : Loader (Bool × Space) :=
  let (ok, sp) := sp.pagedirCreate
  if ok = false then pure (false, sp)
  else
    match file with
    | none => pure (false, sp)
    | some f =>
        let (b, sp) := sp.fileRead f 52 0
        let ehdr := Ehdr.ofBytes b
        if b.length ≠ 52 ∨ ¬ehdr.Valid then pure (false, sp)
        else do
          let (ok, sp) ← phdrLoop f ehdr.phnum.toNat sp (offT ehdr.phoff.toNat)
          if ok then sp.setupStack else pure (false, sp)

variable {f : ExecFile} {sp sp' sp₁ : Space} {phdr : Phdr} {x : Loader (Bool × Space)}
  {l l₁ l₂ : List Event} {a b v upage : UInt32} {writable : Bool}

/-! ### Words and pages -/

@[simp] theorem toNat_pgmask : pgmask.toNat = 4095 := rfl

@[simp] theorem toNat_pageBytes : pageBytes.toNat = 4096 := rfl

theorem toNat_pageOffset (v : UInt32) : (v &&& pgmask).toNat = v.toNat % 4096 := by
  rw [UInt32.toNat_and, toNat_pgmask]
  exact Nat.and_two_pow_sub_one_eq_mod v.toNat 12

/-- The page of an address and the offset in it. -/
theorem page_add_offset (v : UInt32) : (v &&& ~~~pgmask) + (v &&& pgmask) = v := by
  apply UInt32.toBitVec_inj.mp
  have hsum : (v.toBitVec &&& ~~~pgmask.toBitVec) + (v.toBitVec &&& pgmask.toBitVec) =
      v.toBitVec := by
    rw [BitVec.add_eq_or_of_and_eq_zero]
    · ext i
      simp
      grind
    · ext i
      simp
      grind
  exact hsum

theorem toNat_page (v : UInt32) : (v &&& ~~~pgmask).toNat = v.toNat - v.toNat % 4096 := by
  have h := congrArg UInt32.toNat (page_add_offset v)
  rw [UInt32.toNat_add, toNat_pageOffset] at h
  have := (v &&& ~~~pgmask).toNat_lt
  have := v.toNat_lt
  omega

theorem isUserVaddr_iff : isUserVaddr v = true ↔ v.toNat < physBase := by
  unfold isUserVaddr
  rw [decide_eq_true_eq, UInt32.lt_iff_toNat_lt]
  rfl

/-! ### Reading the file -/

/-- Without a bounce buffer the loop of `inode_read_at` stops early. -/
theorem readLoop_stops (m : Sector → Block) (d : InodeDisk) (bounce : Bool) :
    ∀ (fuel : ℕ) (size : ℤ) (pos : ℕ),
      readLoop m d bounce fuel size pos <+: readLoop m d true fuel size pos
  | 0, _, _ => List.prefix_refl _
  | fuel + 1, size, pos => by
      unfold readLoop
      dsimp only
      by_cases hstop : size ≤ 0 ∨ chunkSize d.length size pos ≤ 0
      · rw [if_pos hstop, if_pos hstop]
      · rw [if_neg hstop, if_neg hstop, if_pos (show _ ∨ true = true from .inr rfl)]
        split_ifs
        · exact (List.prefix_append_right_inj _).mpr (readLoop_stops m d bounce fuel _ _)
        · exact List.nil_prefix

/-- What is read is in the file. -/
theorem fileRead_bytes (sp : Space) (f : ExecFile) (size pos : ℕ) :
    (sp.fileRead f size pos).1.length ≤ f.data.length - pos ∧
      ∀ x, x < (sp.fileRead f size pos).1.length →
        (sp.fileRead f size pos).1.getD x 0 = f.byte (pos + x) := by
  have hpre := readLoop_stops f.disk f.data (sp.heap 0) size size pos
  have heq := readLoop_eq (m := f.disk) (d := f.data) size size pos (Int.le_refl _)
  have hlen := congrArg List.length heq
  rw [List.length_map, List.length_range] at hlen
  have hle := hpre.length_le
  refine ⟨show (readLoop _ _ _ _ _ _).length ≤ _ by omega, fun x hx => ?_⟩
  change (readLoop _ _ _ _ _ _).getD x 0 = _
  have hx : x < (readLoop f.disk f.data (sp.heap 0) size size pos).length := hx
  rw [List.getD_eq_getElem?_getD, List.getElem?_eq_getElem hx, Option.getD_some, hpre.getElem hx]
  simp only [heq, List.getElem_map, List.getElem_range]
  rfl

/-! ### Mapping pages -/

/-- The page that is mapped. -/
def Event.page : Event → Option ℕ
  | .map upage => some upage.toNat
  | _ => none

/-- The computation does not wrap around; the page begins at a multiple of its size, is not the
first one, and is entirely below `PHYS_BASE`. -/
def Event.Sound : Event → Prop
  | .add a b => a.toNat + b.toNat < 2 ^ 32
  | .sub a b => b.toNat ≤ a.toNat
  | .mul a b => a.toNat * b.toNat < 2 ^ 32
  | .map upage => upage.toNat % pgsize = 0 ∧ pgsize ≤ upage.toNat ∧ upage.toNat + pgsize ≤ physBase

/-- The pages that are mapped by these events were not, and the others stay as they are. -/
structure Maps (sp : Space) (l : List Event) (sp' : Space) : Prop where
  sound : ∀ e ∈ l, e.Sound
  nodup : (l.filterMap Event.page).Nodup
  fresh : ∀ u ∈ l.filterMap Event.page, sp.page u = none
  mapped : ∀ u ∈ l.filterMap Event.page, (sp'.page u).isSome
  kept : ∀ u, u ∉ l.filterMap Event.page → sp'.page u = sp.page u

theorem Maps.of_page (h : sp'.page = sp.page) : Maps sp [] sp' where
  sound _ h := nomatch h
  nodup := List.nodup_nil
  fresh _ h := nomatch h
  mapped _ h := nomatch h
  kept _ _ := congrFun h _

/-- A page that is mapped stays mapped to its frame. -/
theorem Maps.keep {u : ℕ} {p : UserPage} (h : Maps sp l sp') (hp : sp.page u = some p) :
    sp'.page u = some p := by
  rw [h.kept u fun hu => ?_, hp]
  rw [h.fresh u hu] at hp
  cases hp

theorem Maps.before {u : ℕ} (h : Maps sp l sp') (hp : sp'.page u = none) : sp.page u = none := by
  cases hu : sp.page u with
  | none => rfl
  | some p =>
      rw [h.keep hu] at hp
      cases hp

theorem Maps.trans (h₁ : Maps sp l₁ sp₁) (h₂ : Maps sp₁ l₂ sp') : Maps sp (l₁ ++ l₂) sp' := by
  have hsplit : (l₁ ++ l₂).filterMap Event.page =
      l₁.filterMap Event.page ++ l₂.filterMap Event.page := List.filterMap_append
  constructor
  · intro e he
    exact (List.mem_append.mp he).elim (h₁.sound e) (h₂.sound e)
  · rw [hsplit, List.nodup_append]
    refine ⟨h₁.nodup, h₂.nodup, fun u hu v hv huv => ?_⟩
    have hsome := h₁.mapped u hu
    rw [huv, h₂.fresh v hv] at hsome
    cases hsome
  · intro u hu
    rw [hsplit] at hu
    obtain hu | hu := List.mem_append.mp hu
    · exact h₁.fresh u hu
    · exact h₁.before (h₂.fresh u hu)
  · intro u hu
    rw [hsplit] at hu
    obtain hu | hu := List.mem_append.mp hu
    · obtain ⟨p, hp⟩ := Option.isSome_iff_exists.mp (h₁.mapped u hu)
      rw [h₂.keep hp]
      rfl
    · exact h₂.mapped u hu
  · intro u hu
    rw [hsplit, List.mem_append, not_or] at hu
    rw [h₂.kept u hu.2, h₁.kept u hu.1]

/-- One page is mapped. -/
theorem Maps.install {kpage : UserPage} (hs : (Event.map upage).Sound)
    (hn : sp.page upage.toNat = none) (h : sp'.page = update sp.page upage.toNat (some kpage)) :
    Maps sp [.map upage] sp' where
  sound e he := by
    obtain rfl := List.mem_singleton.mp he
    exact hs
  nodup := List.nodup_singleton _
  fresh u hu := by
    obtain rfl := List.mem_singleton.mp hu
    exact hn
  mapped u hu := by
    obtain rfl := List.mem_singleton.mp hu
    rw [h, Function.update_self]
    rfl
  kept u hu := by
    rw [h, Function.update_of_ne fun he => hu (List.mem_singleton.mpr he)]

/-! ### Rules for the loader -/

/-- The loader ends, maps pages in `sp`, and `Q` holds of the memory if it succeeds. -/
def Loads (sp : Space) (x : Loader (Bool × Space)) (Q : Space → Prop) : Prop :=
  ∃ ok sp', x.result = .ok (ok, sp') ∧ Maps sp x.log sp' ∧ (ok = true → Q sp')

variable {P Q : Space → Prop} {k : UInt32 → Loader (Bool × Space)} {ok : Bool}

theorem Loads.pure (h : sp'.page = sp.page) (hq : ok = true → Q sp') :
    Loads sp (Pure.pure (ok, sp')) Q := ⟨ok, sp', rfl, .of_page h, hq⟩

theorem Loads.fail (h : sp'.page = sp.page) : Loads sp (Pure.pure (false, sp')) Q := .pure h nofun

theorem Loads.from (h : Loads sp₁ x Q) (hp : sp₁.page = sp.page) : Loads sp x Q := by
  obtain ⟨ok, sp', hr, hm, hq⟩ := h
  exact ⟨ok, sp', hr, (Maps.of_page hp).trans hm, hq⟩

theorem Loads.mono (h : Loads sp x P) (hq : ∀ l sp', Maps sp l sp' → P sp' → Q sp') :
    Loads sp x Q := by
  obtain ⟨ok, sp', hr, hm, hp⟩ := h
  exact ⟨ok, sp', hr, hm, fun hok => hq _ _ hm (hp hok)⟩

theorem Loads.assert {p : Prop} [Decidable p] {k : Unit → Loader (Bool × Space)} (hp : p)
    (h : Loads sp (k ()) Q) : Loads sp (Elf.assert p >>= k) Q := by
  unfold Elf.assert
  rw [if_pos hp, Traced.pure_bind]
  exact h

theorem Loads.event {e : Event} {k : Unit → Loader (Bool × Space)} (he : Maps sp [e] sp₁)
    (h : Loads sp₁ (k ()) Q) : Loads sp (access e >>= k) Q := by
  obtain ⟨ok, sp', hr, hm, hq⟩ := h
  refine ⟨ok, sp', ?_, ?_, hq⟩
  · rw [result_bind_of_ok (access_result e), hr]
  · rw [bind_of_ok (access_result e)]
    exact he.trans hm

theorem Maps.arith {e : Event} (hs : e.Sound) (hp : e.page = none) (sp : Space) : Maps sp [e] sp := by
  have hnil : [e].filterMap Event.page = [] := by
    rw [List.filterMap_cons, hp]
    rfl
  constructor
  · intro e' he
    obtain rfl := List.mem_singleton.mp he
    exact hs
  · rw [hnil]
    exact List.nodup_nil
  · rw [hnil]
    nofun
  · rw [hnil]
    nofun
  · exact fun _ _ => rfl

theorem Loads.add (h : a.toNat + b.toNat < 2 ^ 32) (hk : Loads sp (k (a + b)) Q) :
    Loads sp (Elf.add a b >>= k) Q := by
  have hs : (Event.add a b).Sound := h
  unfold Elf.add
  rw [Traced.bind_assoc]
  exact .event (.arith hs rfl sp) hk

theorem Loads.sub (h : b.toNat ≤ a.toNat) (hk : Loads sp (k (a - b)) Q) :
    Loads sp (Elf.sub a b >>= k) Q := by
  have hs : (Event.sub a b).Sound := h
  unfold Elf.sub
  rw [Traced.bind_assoc]
  exact .event (.arith hs rfl sp) hk

theorem Loads.mul (h : a.toNat * b.toNat < 2 ^ 32) (hk : Loads sp (k (a * b)) Q) :
    Loads sp (Elf.mul a b >>= k) Q := by
  have hs : (Event.mul a b).Sound := h
  unfold Elf.mul
  rw [Traced.bind_assoc]
  exact .event (.arith hs rfl sp) hk

/-- A part that may fail, and what follows. -/
theorem Loads.bind {k : Bool × Space → Loader (Bool × Space)} (hx : Loads sp x P)
    (hfail : ∀ sp', k (false, sp') = Pure.pure (false, sp'))
    (hk : ∀ l sp', Maps sp l sp' → P sp' → Loads sp' (k (true, sp')) Q) : Loads sp (x >>= k) Q := by
  obtain ⟨ok, sp₁, hr, hm, hp⟩ := hx
  cases ok with
  | false =>
      refine ⟨false, sp₁, ?_, ?_, nofun⟩
      · rw [result_bind_of_ok hr, hfail]
        rfl
      · rw [bind_of_ok hr, hfail, pure_log, List.append_nil]
        exact hm
  | true =>
      obtain ⟨ok, sp', hr', hm', hq⟩ := hk _ sp₁ hm (hp rfl)
      refine ⟨ok, sp', ?_, ?_, hq⟩
      · rw [result_bind_of_ok hr, hr']
      · rw [bind_of_ok hr]
        exact hm.trans hm'

/-! ### One page -/

theorem lookupPage_page (sp : Space) (vaddr : ℕ) : (sp.lookupPage vaddr).2.page = sp.page := by
  unfold Space.lookupPage Space.pallocGetPage
  dsimp only
  split_ifs
  · rfl
  · rfl
  · rfl

theorem installPage_loads (kpage : UserPage) (hs : (Event.map upage).Sound) (sp : Space) :
    Loads sp (sp.installPage upage kpage) fun sp' =>
      sp.page upage.toNat = none ∧ sp'.page = update sp.page upage.toNat (some kpage) := by
  have huser : isUserVaddr upage = true := isUserVaddr_iff.mpr (by
    have := hs.2.2
    unfold pgsize at this
    omega)
  have halign : upage &&& pgmask = 0 := by
    apply UInt32.toNat_inj.mp
    rw [toNat_pageOffset]
    exact hs.1
  unfold Space.installPage
  refine .assert huser ?_
  by_cases hn : (sp.page upage.toNat).isNone = true
  · have hnone := Option.isNone_iff_eq_none.mp hn
    rw [if_pos hn]
    unfold Space.pagedirSetPage
    refine .assert halign (.assert huser ?_)
    have hpage := lookupPage_page sp upage.toNat
    cases hl : sp.lookupPage upage.toNat with
    | mk ok sp₁ =>
        rw [hl] at hpage
        dsimp only at hpage ⊢
        cases ok with
        | false =>
            rw [if_neg Bool.noConfusion]
            exact .fail hpage
        | true =>
            rw [if_pos rfl, hpage]
            have hm : Maps sp₁ [.map upage]
                { sp₁ with page := update sp.page upage.toNat (some kpage) } :=
              .install hs (by rw [hpage]; exact hnone) (by rw [hpage])
            exact Loads.from (.assert hn (.event hm (.pure rfl fun _ => ⟨hnone, rfl⟩))) hpage
  · rw [if_neg hn]
    exact .fail rfl

/-! ### The loop over the pages -/

/-- `n` pages from `upage` on were not mapped, and hold `read` bytes of the file from `pos` on,
followed by zeros. -/
structure Filled (f : ExecFile) (writable : Bool) (n pos upage read : ℕ) (sp sp' : Space) : Prop where
  inFile : ∀ x, x < read → pos + x < f.data.length
  fresh : ∀ i, i < n → sp.page (upage + 4096 * i) = none
  page : ∀ i, i < n → ∃ p, sp'.page (upage + 4096 * i) = some p ∧ p.writable = writable ∧
    ∀ x, x < 4096 → p.bytes x = if 4096 * i + x < read then f.byte (pos + (4096 * i + x)) else 0

/-- One page in front of the others. -/
theorem Filled.cons {f : ExecFile} {writable : Bool} {n pos upage read pageRead : ℕ}
    {sp sp₁ sp' : Space} {p : UserPage} (hmin : pageRead = min read 4096)
    (hin : pos + pageRead ≤ f.data.length ∨ pageRead = 0) (hfresh : sp.page upage = none)
    (hpage : sp'.page upage = some p) (hw : p.writable = writable)
    (hbytes : ∀ x, p.bytes x = if x < pageRead then f.byte (pos + x) else 0)
    (hback : ∀ u, sp₁.page u = none → sp.page u = none)
    (h : Filled f writable n (pos + pageRead) (upage + 4096) (read - pageRead) sp₁ sp') :
    Filled f writable (n + 1) pos upage read sp sp' := by
  have haddr (i : ℕ) : upage + 4096 * (i + 1) = upage + 4096 + 4096 * i := by omega
  refine ⟨fun x hx => ?_, fun i hi => ?_, fun i hi => ?_⟩
  · by_cases hx' : x < pageRead
    · omega
    · have := h.inFile (x - pageRead) (by omega)
      omega
  · cases i with
    | zero => exact hfresh
    | succ i =>
        rw [haddr]
        exact hback _ (h.fresh i (by omega))
  · cases i with
    | zero =>
        refine ⟨p, hpage, hw, fun x hx => ?_⟩
        rw [hbytes, Nat.mul_zero, Nat.zero_add]
        by_cases hx' : x < pageRead
        · rw [if_pos hx', if_pos (by omega)]
        · rw [if_neg hx', if_neg (by omega)]
    | succ i =>
        obtain ⟨q, hq, hw, hb⟩ := h.page i (by omega)
        refine ⟨q, by rw [haddr, hq], hw, fun x hx => ?_⟩
        rw [hb x hx]
        by_cases hx' : 4096 * (i + 1) + x < read
        · rw [if_pos hx', if_pos (by omega)]
          exact congrArg f.byte (by omega)
        · rw [if_neg hx', if_neg (by omega)]

theorem toNat_pageRead (read : UInt32) :
    (if read < pageBytes then read else pageBytes).toNat = min read.toNat 4096 := by
  split_ifs with h
  · have h := UInt32.lt_iff_toNat_lt.mp h
    rw [toNat_pageBytes] at h
    omega
  · have h := mt UInt32.lt_iff_toNat_lt.mpr h
    rw [toNat_pageBytes] at h
    rw [toNat_pageBytes]
    omega

theorem loadLoop_loads (f : ExecFile) (writable : Bool) :
    ∀ (fuel : ℕ) (sp : Space) (pos : ℕ) (upage read zero : UInt32) (n : ℕ),
      read.toNat + zero.toNat = 4096 * n → n < fuel → upage.toNat % 4096 = 0 → 4096 ≤ upage.toNat →
      upage.toNat + 4096 * n ≤ 3221225472 →
      Loads sp (loadLoop f writable fuel sp pos upage read zero)
        (Filled f writable n pos upage.toNat read.toNat sp)
  | 0, _, _, _, _, _, n, _, hf, _, _, _ => absurd hf (Nat.not_lt_zero n)
  | fuel + 1, sp, pos, upage, read, zero, n, hsum, hf, halign, hlow, hhigh => by
      unfold loadLoop
      have hpos : (read > 0 ∨ zero > 0) ↔ 0 < n := by
        rw [gt_iff_lt, gt_iff_lt, UInt32.lt_iff_toNat_lt, UInt32.lt_iff_toNat_lt]
        change 0 < read.toNat ∨ 0 < zero.toNat ↔ 0 < n
        omega
      cases n with
      | zero =>
          rw [if_neg (by rw [hpos]; exact Nat.lt_irrefl 0)]
          exact .pure rfl fun _ => ⟨fun x hx => by omega, nofun, nofun⟩
      | succ n =>
      rw [if_pos (hpos.mpr (Nat.succ_pos n))]
      have hread := toNat_pageRead read
      generalize (if read < pageBytes then read else pageBytes) = pageRead at hread ⊢
      have hs : (Event.map upage).Sound := by
        refine ⟨halign, hlow, Nat.le_trans ?_ hhigh⟩
        exact Nat.add_le_add_left (Nat.le_mul_of_pos_right 4096 n.succ_pos) _
      have hzero : (pageBytes - pageRead).toNat = 4096 - pageRead.toNat := by
        rw [UInt32.toNat_sub_of_le _ _ (UInt32.le_iff_toNat_le.mpr (by rw [toNat_pageBytes]; omega)),
          toNat_pageBytes]
      refine .sub (by rw [toNat_pageBytes]; omega) ?_
      generalize pageBytes - pageRead = pageZero at hzero ⊢
      -- a page, and the bytes for it
      cases hp : sp.pallocGetPage with
      | mk ok sp₁ =>
      have hpage₁ : sp₁.page = sp.page := congrArg (fun r => r.2.page) hp.symm
      dsimp only
      cases ok with
      | false => exact .fail hpage₁
      | true =>
      rw [if_neg Bool.noConfusion]
      obtain ⟨hlen, hbytes⟩ := fileRead_bytes sp₁ f pageRead.toNat pos
      cases hr : sp₁.fileRead f pageRead.toNat pos with
      | mk bytes sp₂ =>
      have hpage₂ : sp₂.page = sp.page := (congrArg (fun r => r.2.page) hr.symm).trans hpage₁
      rw [hr] at hlen hbytes
      dsimp only at hlen hbytes ⊢
      by_cases hshort : bytes.length = pageRead.toNat
      swap
      · rw [if_pos hshort]
        exact .fail hpage₂
      rw [if_neg (not_not_intro hshort)]
      have hinstall := installPage_loads
        ⟨fun x => if x < pageRead.toNat then bytes.getD x 0 else 0, writable⟩ hs sp₂
      refine Loads.from (hinstall.bind (fun _ => rfl) fun l sp₃ hm₃ ⟨hfresh, hset⟩ => ?_) hpage₂
      dsimp only
      rw [if_neg Bool.noConfusion]
      -- the other pages
      have hread' : (read - pageRead).toNat = read.toNat - pageRead.toNat :=
        UInt32.toNat_sub_of_le _ _ (UInt32.le_iff_toNat_le.mpr (by omega))
      have hzero' : (zero - pageZero).toNat = zero.toNat - pageZero.toNat :=
        UInt32.toNat_sub_of_le _ _ (UInt32.le_iff_toNat_le.mpr (by omega))
      have hnext : (upage + pageBytes).toNat = upage.toNat + 4096 := by
        rw [UInt32.toNat_add, toNat_pageBytes]
        omega
      refine .sub (by omega) (.sub (by omega) (.add (by rw [toNat_pageBytes]; omega) ?_))
      have ih := loadLoop_loads f writable fuel sp₃ (pos + bytes.length) (upage + pageBytes)
        (read - pageRead) (zero - pageZero) n (by omega) (by omega) (by omega)
        (by rw [hnext]; exact Nat.le_add_left 4096 _)
        (by rw [hnext, Nat.add_assoc, Nat.add_comm 4096, ← Nat.mul_succ]; exact hhigh)
      refine ih.mono fun l' sp' hm' hfilled => ?_
      rw [hread', hnext, hshort] at hfilled
      refine .cons hread ?_ ?_ (hm'.keep (by rw [hset, Function.update_self])) rfl (fun x => ?_)
        (fun u hu => ?_) hfilled
      · omega
      · rw [← hpage₂]
        exact hfresh
      · dsimp only
        split_ifs with hx
        · exact hbytes x (by omega)
        · rfl
      · rw [← hpage₂]
        exact hm₃.before hu

/-! ### One segment -/

/-- What `validate_segment` accepts. -/
structure Loadable (phdr : Phdr) (f : ExecFile) : Prop where
  offset : phdr.offset.toNat % 4096 = phdr.vaddr.toNat % 4096
  inFile : phdr.offset.toNat ≤ f.data.length
  size : phdr.filesz.toNat ≤ phdr.memsz.toNat
  pos : 0 < phdr.memsz.toNat
  low : 4096 ≤ phdr.vaddr.toNat
  high : phdr.vaddr.toNat + phdr.memsz.toNat < 3221225472

theorem loadable (h : validateSegment phdr f = true) : Loadable phdr f := by
  unfold validateSegment at h
  split_ifs at h with h₁ h₂ h₃ h₄ h₅ h₆ h₇ h₈
  have hlen := f.small
  have h₁ := congrArg UInt32.toNat (not_not.mp h₁)
  rw [toNat_pageOffset, toNat_pageOffset] at h₁
  rw [gt_iff_lt, UInt32.lt_iff_toNat_lt, Nat.not_lt, UInt32.toNat_ofNat_of_lt' (Nat.lt_trans hlen (by decide))] at h₂
  rw [UInt32.lt_iff_toNat_lt, Nat.not_lt] at h₃
  have h₄ : phdr.memsz.toNat ≠ 0 := fun h => h₄ (UInt32.toNat_inj.mp h)
  rw [Bool.not_eq_true', Bool.not_eq_false] at h₅ h₆
  have h₅ : phdr.vaddr.toNat < 3221225472 := isUserVaddr_iff.mp h₅
  have h₆ : (phdr.vaddr + phdr.memsz).toNat < 3221225472 := isUserVaddr_iff.mp h₆
  rw [UInt32.lt_iff_toNat_lt, Nat.not_lt] at h₇ h₈
  rw [toNat_pageBytes] at h₈
  rw [UInt32.toNat_add] at h₆ h₇
  have := phdr.memsz.toNat_lt
  exact ⟨h₁, h₂, h₃, Nat.pos_of_ne_zero h₄, h₈, by omega⟩

/-- The number of pages of a segment. -/
def Phdr.pages (phdr : Phdr) : ℕ := (phdr.vaddr.toNat % 4096 + phdr.memsz.toNat + 4095) / 4096

/-- The segment has a byte in the page that begins at `u`. -/
def Phdr.Covers (phdr : Phdr) (u : ℕ) : Prop :=
  u % pgsize = 0 ∧ phdr.vaddr.toNat < u + pgsize ∧ u < phdr.vaddr.toNat + phdr.memsz.toNat

/-- The byte that the process sees. -/
def Space.userByte (sp : Space) (u : ℕ) : Option UInt8 :=
  (sp.page (u - u % pgsize)).map fun p => p.bytes (u % pgsize)

/-- The segment is in the memory, with the pages writable if its flags say so. -/
structure SegmentLoaded (f : ExecFile) (phdr : Phdr) (sp : Space) : Prop where
  inFile : ∀ i, i < phdr.filesz.toNat → phdr.offset.toNat + i < f.data.length
  byte : ∀ i, i < phdr.memsz.toNat → sp.userByte (phdr.vaddr.toNat + i) =
    some (if i < phdr.filesz.toNat then f.byte (phdr.offset.toNat + i) else 0)
  page : ∀ u, phdr.Covers u → ∃ p, sp.page u = some p ∧ p.writable = (phdr.flags &&& 2 != 0)

/-- A page that a segment covers, counted from its first one. -/
theorem Phdr.Covers.index {u : ℕ} (h : phdr.Covers u) :
    ∃ i, i < phdr.pages ∧ u = phdr.vaddr.toNat - phdr.vaddr.toNat % 4096 + 4096 * i := by
  obtain ⟨halign, hlow, hhigh⟩ := h
  unfold pgsize at halign hlow
  refine ⟨(u - (phdr.vaddr.toNat - phdr.vaddr.toNat % 4096)) / 4096, ?_, ?_⟩
  · unfold Phdr.pages
    omega
  · omega

theorem SegmentLoaded.keep (h : SegmentLoaded f phdr sp) (hm : Maps sp l sp') :
    SegmentLoaded f phdr sp' where
  inFile := h.inFile
  byte i hi := by
    have hb := h.byte i hi
    unfold Space.userByte at hb ⊢
    obtain ⟨p, hp, hpb⟩ := Option.map_eq_some_iff.mp hb
    rw [hm.keep hp, Option.map_some, hpb]
  page u hu := by
    obtain ⟨p, hp, hw⟩ := h.page u hu
    exact ⟨p, hm.keep hp, hw⟩

theorem Loads.roundUp (h : a.toNat + 4096 < 2 ^ 32)
    (hk : ∀ r, r.toNat = (a.toNat + 4095) / 4096 * 4096 → Loads sp (k r) Q) :
    Loads sp (Elf.roundUp a >>= k) Q := by
  have hadd : (a + pageBytes).toNat = a.toNat + 4096 := by
    rw [UInt32.toNat_add, toNat_pageBytes, Nat.mod_eq_of_lt h]
  have hsub : (a + pageBytes - 1).toNat = a.toNat + 4095 := by
    rw [UInt32.toNat_sub_of_le _ _ (UInt32.le_iff_toNat_le.mpr (by rw [hadd]; exact Nat.le_add_left 1 _)),
      hadd]
    rfl
  have hdiv : ((a + pageBytes - 1) / pageBytes).toNat = (a.toNat + 4095) / 4096 := by
    rw [UInt32.toNat_div, hsub, toNat_pageBytes]
  have hmul : ((a + pageBytes - 1) / pageBytes).toNat * pageBytes.toNat < 2 ^ 32 := by
    rw [hdiv, toNat_pageBytes]
    omega
  unfold Elf.roundUp
  rw [Traced.bind_assoc]
  refine .add h ?_
  rw [Traced.bind_assoc]
  refine .sub (by rw [hadd]; exact Nat.le_add_left 1 _) (.mul hmul (hk _ ?_))
  rw [UInt32.toNat_mul, Nat.mod_eq_of_lt hmul, hdiv, toNat_pageBytes]

/-- The bytes to read and the bytes to zero fill the pages of the segment. -/
theorem Loads.segmentBytes {k : UInt32 × UInt32 → Loader (Bool × Space)} (h : Loadable phdr f)
    (hk : ∀ read zero : UInt32, read.toNat + zero.toNat = 4096 * phdr.pages →
      read.toNat = (if phdr.filesz.toNat = 0 then 0
        else phdr.vaddr.toNat % 4096 + phdr.filesz.toNat) → Loads sp (k (read, zero)) Q) :
    Loads sp (Elf.segmentBytes phdr >>= k) Q := by
  obtain ⟨-, -, hsize, -, -, hhigh⟩ := h
  have hoff := toNat_pageOffset phdr.vaddr
  have hlast : (phdr.vaddr &&& pgmask).toNat + phdr.memsz.toNat + 4096 < 2 ^ 32 := by
    rw [hoff]
    omega
  have hlast' : ((phdr.vaddr &&& pgmask) + phdr.memsz).toNat =
      (phdr.vaddr &&& pgmask).toNat + phdr.memsz.toNat := by
    rw [UInt32.toNat_add]
    omega
  unfold Elf.segmentBytes
  dsimp only
  by_cases hfile : phdr.filesz > 0
  · have hfile₀ : phdr.filesz.toNat ≠ 0 := Nat.ne_of_gt (UInt32.lt_iff_toNat_lt.mp hfile)
    have hread : ((phdr.vaddr &&& pgmask) + phdr.filesz).toNat =
        (phdr.vaddr &&& pgmask).toNat + phdr.filesz.toNat := by
      rw [UInt32.toNat_add]
      omega
    rw [if_pos hfile, Traced.bind_assoc]
    refine .add (by omega) ?_
    rw [Traced.bind_assoc]
    refine .add (by omega) ?_
    rw [Traced.bind_assoc]
    refine .roundUp (by omega) fun r hr => ?_
    have hle : ((phdr.vaddr &&& pgmask) + phdr.filesz).toNat ≤ r.toNat := by omega
    rw [Traced.bind_assoc]
    refine .sub hle (hk _ _ ?_ ?_)
    · rw [UInt32.toNat_sub_of_le _ _ (UInt32.le_iff_toNat_le.mpr hle)]
      unfold Phdr.pages
      omega
    · rw [if_neg hfile₀, hread, hoff]
  · have hfile₀ : phdr.filesz.toNat = 0 := by
      rw [gt_iff_lt, UInt32.lt_iff_toNat_lt, Nat.not_lt] at hfile
      exact Nat.le_zero.mp hfile
    rw [if_neg hfile, Traced.bind_assoc]
    refine .add (by omega) ?_
    rw [Traced.bind_assoc]
    refine .roundUp (by omega) fun r hr => hk 0 r ?_ ?_
    · change 0 + r.toNat = _
      unfold Phdr.pages
      omega
    · rw [if_pos hfile₀]
      rfl

theorem loadSegment_loads {n : ℕ} {read zero : UInt32} (f : ExecFile) (sp : Space) (pos : ℕ)
    (writable : Bool) (hsum : read.toNat + zero.toNat = 4096 * n) (hpos : pos % 4096 = 0)
    (halign : upage.toNat % 4096 = 0) (hlow : 4096 ≤ upage.toNat)
    (hhigh : upage.toNat + 4096 * n ≤ 3221225472) :
    Loads sp (loadSegment f sp pos upage read zero writable)
      (Filled f writable n pos upage.toNat read.toNat sp) := by
  have hn : n < 2 ^ 20 := by omega
  have hwrap : read.toNat + zero.toNat < 2 ^ 32 := by omega
  have htotal : (read + zero) % pageBytes = 0 := by
    apply UInt32.toNat_inj.mp
    rw [UInt32.toNat_mod, UInt32.toNat_add, toNat_pageBytes, Nat.mod_eq_of_lt hwrap, hsum]
    exact Nat.mul_mod_right 4096 n
  have hofs : upage &&& pgmask = 0 := by
    apply UInt32.toNat_inj.mp
    rw [toNat_pageOffset]
    exact halign
  have hpos' : (pos : ℤ) % (pgsize : ℕ) = 0 := by
    unfold pgsize
    omega
  unfold loadSegment
  refine .add hwrap (.assert htotal (.assert hofs (.assert hpos' (.assert (by omega) ?_))))
  exact loadLoop_loads f writable _ sp pos upage read zero n hsum (Nat.lt_succ_of_lt hn) halign hlow
    hhigh

/-- The pages that are filled hold the segment. -/
theorem Filled.loaded {read : ℕ} (h : Loadable phdr f)
    (hread : read = if phdr.filesz.toNat = 0 then 0 else phdr.vaddr.toNat % 4096 + phdr.filesz.toNat)
    (hw : writable = (phdr.flags &&& 2 != 0))
    (hf : Filled f writable phdr.pages (phdr.offset.toNat - phdr.offset.toNat % 4096)
      (phdr.vaddr.toNat - phdr.vaddr.toNat % 4096) read sp sp') : SegmentLoaded f phdr sp' := by
  obtain ⟨hoff, -, hsize, -, -, -⟩ := h
  constructor
  · intro i hi
    have := hf.inFile (phdr.vaddr.toNat % 4096 + i) (by split_ifs at hread <;> omega)
    omega
  · intro i hi
    obtain ⟨p, hp, -, hb⟩ := hf.page ((phdr.vaddr.toNat % 4096 + i) / 4096) (by
      unfold Phdr.pages
      omega)
    have hpage : phdr.vaddr.toNat + i - (phdr.vaddr.toNat + i) % pgsize =
        phdr.vaddr.toNat - phdr.vaddr.toNat % 4096 +
          4096 * ((phdr.vaddr.toNat % 4096 + i) / 4096) := by
      unfold pgsize
      omega
    have hin : 4096 * ((phdr.vaddr.toNat % 4096 + i) / 4096) + (phdr.vaddr.toNat + i) % pgsize =
        phdr.vaddr.toNat % 4096 + i := by
      unfold pgsize
      omega
    unfold Space.userByte
    rw [hpage, hp, Option.map_some, hb ((phdr.vaddr.toNat + i) % pgsize) (Nat.mod_lt _ (by decide)),
      hin]
    congr 1
    by_cases hi' : i < phdr.filesz.toNat
    · rw [if_pos hi', if_pos (by split_ifs at hread <;> omega)]
      exact congrArg f.byte (by omega)
    · rw [if_neg hi', if_neg (by split_ifs at hread <;> omega)]
  · intro u hu
    obtain ⟨i, hi, rfl⟩ := hu.index
    obtain ⟨p, hp, hpw, -⟩ := hf.page i hi
    exact ⟨p, hp, hpw.trans hw⟩

theorem loadPhdr_loads (h : Loadable phdr f) (sp : Space) :
    Loads sp (loadPhdr f sp phdr) fun sp' =>
      SegmentLoaded f phdr sp' ∧ ∀ u, phdr.Covers u → sp.page u = none := by
  have hlen := f.small
  have hmem := toNat_page phdr.vaddr
  have hpos : offT ((phdr.offset &&& ~~~pgmask).toNat : ℤ) =
      (phdr.offset.toNat - phdr.offset.toNat % 4096 : ℕ) := by
    rw [toNat_page]
    have := h.inFile
    exact offT_of_lt (Int.natCast_nonneg _) (by omega)
  unfold loadPhdr
  dsimp only
  refine .segmentBytes h fun read zero hsum hread => ?_
  dsimp only
  rw [hpos]
  have hlow := h.low
  have hhigh : (phdr.vaddr &&& ~~~pgmask).toNat + 4096 * phdr.pages ≤ 3221225472 := by
    have := h.high
    unfold Phdr.pages
    omega
  have hload := loadSegment_loads f sp (phdr.offset.toNat - phdr.offset.toNat % 4096)
    (phdr.flags &&& 2 != 0) hsum (by omega) (by omega) (by omega) hhigh
  refine hload.mono fun l sp' _ hfilled => ?_
  rw [hmem] at hfilled
  refine ⟨hfilled.loaded h hread rfl, fun u hu => ?_⟩
  obtain ⟨i, hi, rfl⟩ := hu.index
  exact hfilled.fresh i hi

/-! ### The program headers -/

def ExecFile.bytesAt (f : ExecFile) (pos size : ℕ) : List UInt8 :=
  (List.range size).map fun x => f.byte (pos + x)

theorem fileRead_full (sp : Space) (f : ExecFile) (size pos : ℕ)
    (h : (sp.fileRead f size pos).1.length = size) :
    (sp.fileRead f size pos).1 = f.bytesAt pos size := by
  apply List.ext_getElem
  · simp only [h, ExecFile.bytesAt, List.length_map, List.length_range]
  · intro x hx _
    have hb := (fileRead_bytes sp f size pos).2 x hx
    rw [List.getD_eq_getElem?_getD, List.getElem?_eq_getElem hx, Option.getD_some] at hb
    simp only [hb, ExecFile.bytesAt, List.getElem_map, List.getElem_range]

/-- The executable header of the file. -/
def ExecFile.ehdr (f : ExecFile) : Ehdr := .ofBytes (f.bytesAt 0 52)

/-- The program headers of the file. -/
def ExecFile.phdrAt (f : ExecFile) (i : ℕ) : Phdr :=
  .ofBytes (f.bytesAt (f.ehdr.phoff.toNat + 32 * i) 32)

theorem readPhdr_page (f : ExecFile) (sp : Space) (fileOfs : ℤ) :
    (readPhdr f sp fileOfs).2.page = sp.page := by
  unfold readPhdr Space.fileRead
  split_ifs
  · rfl
  · rfl

theorem readPhdr_eq {fileOfs : ℤ} (h : readPhdr f sp fileOfs = (some phdr, sp')) :
    0 ≤ fileOfs ∧ fileOfs + 32 ≤ f.data.length ∧ phdr = .ofBytes (f.bytesAt fileOfs.toNat 32) := by
  unfold readPhdr at h
  have hlen := (fileRead_bytes sp f 32 fileOfs.toNat).1
  have hfull := fileRead_full sp f 32 fileOfs.toNat
  cases hr : sp.fileRead f 32 fileOfs.toNat with
  | mk b sp₁ =>
      rw [hr] at hlen hfull h
      dsimp only at hlen hfull h
      split_ifs at h with hout hshort
      · cases h
      · rw [hfull hshort] at h
        obtain ⟨h, -⟩ := Prod.mk.inj h
        exact ⟨by omega, by omega, (Option.some.inj h).symm⟩
      · cases h

/-- The first `count` headers: their segments are accepted and loaded in `sp'`, and no two have a
page in common, or one that is mapped in `sp`. -/
structure Segments (f : ExecFile) (phdr : ℕ → Phdr) (count : ℕ) (sp sp' : Space) : Prop where
  valid : ∀ i, i < count → (phdr i).type = ptLoad → validateSegment (phdr i) f = true
  loaded : ∀ i, i < count → (phdr i).type = ptLoad → SegmentLoaded f (phdr i) sp'
  fresh : ∀ i, i < count → (phdr i).type = ptLoad → ∀ u, (phdr i).Covers u → sp.page u = none
  apart : ∀ i j, i < j → j < count → (phdr i).type = ptLoad → (phdr j).type = ptLoad →
    ∀ u, (phdr i).Covers u → ¬(phdr j).Covers u

theorem Segments.keep {h : ℕ → Phdr} {count : ℕ} (hs : Segments f h count sp sp₁)
    (hm : Maps sp₁ l sp') : Segments f h count sp sp' :=
  ⟨hs.valid, fun i hi ht => (hs.loaded i hi ht).keep hm, hs.fresh, hs.apart⟩

theorem loadType_loads (f : ExecFile) (sp : Space) (phdr : Phdr) :
    Loads sp (loadType f sp phdr) fun sp' => phdr.type = ptLoad →
      validateSegment phdr f = true ∧ SegmentLoaded f phdr sp' ∧
        ∀ u, phdr.Covers u → sp.page u = none := by
  unfold loadType
  split_ifs with hbad hload hvalid
  · exact .fail rfl
  · exact (loadPhdr_loads (loadable hvalid) sp).mono fun _ _ _ h _ => ⟨hvalid, h⟩
  · exact .fail rfl
  · exact .pure rfl fun _ h => absurd h hload

/-- A header, before the others. -/
theorem Segments.cons {h : ℕ → Phdr} {count : ℕ}
    (hl : (h 0).type = ptLoad → validateSegment (h 0) f = true ∧ SegmentLoaded f (h 0) sp₁ ∧
      ∀ u, (h 0).Covers u → sp.page u = none)
    (hm₁ : Maps sp l₁ sp₁) (hm : Maps sp₁ l sp')
    (hs : Segments f (fun i => h (i + 1)) count sp₁ sp') : Segments f h (count + 1) sp sp' := by
  constructor
  · intro i hi ht
    cases i with
    | zero => exact (hl ht).1
    | succ i => exact hs.valid i (Nat.lt_of_succ_lt_succ hi) ht
  · intro i hi ht
    cases i with
    | zero => exact (hl ht).2.1.keep hm
    | succ i => exact hs.loaded i (Nat.lt_of_succ_lt_succ hi) ht
  · intro i hi ht u hu
    cases i with
    | zero => exact (hl ht).2.2 u hu
    | succ i => exact hm₁.before (hs.fresh i (Nat.lt_of_succ_lt_succ hi) ht u hu)
  · intro i j hij hj hti htj u hu hu'
    cases j with
    | zero => exact absurd hij (Nat.not_lt_zero _)
    | succ j =>
        have hj := Nat.lt_of_succ_lt_succ hj
        cases i with
        | zero =>
            -- the page is mapped when the other segment is loaded
            obtain ⟨p, hp, -⟩ := (hl hti).2.1.page u hu
            rw [hs.fresh j hj htj u hu'] at hp
            cases hp
        | succ i => exact hs.apart i j (Nat.lt_of_succ_lt_succ hij) hj hti htj u hu hu'

theorem phdrLoop_loads (f : ExecFile) : ∀ (count : ℕ) (sp : Space) (fileOfs : ℤ),
    Loads sp (phdrLoop f count sp fileOfs) fun sp' => (0 < count → 0 ≤ fileOfs) ∧
      Segments f (fun i => .ofBytes (f.bytesAt (fileOfs.toNat + 32 * i) 32)) count sp sp'
  | 0, sp, fileOfs => .pure rfl fun _ => ⟨nofun, nofun, nofun, nofun, fun i j _ hj => nomatch hj⟩
  | count + 1, sp, fileOfs => by
      unfold phdrLoop
      have hpage := readPhdr_page f sp fileOfs
      cases hr : readPhdr f sp fileOfs with
      | mk phdr sp₁ =>
      rw [hr] at hpage
      cases phdr with
      | none => exact .fail hpage
      | some phdr =>
      obtain ⟨hlow, hhigh, rfl⟩ := readPhdr_eq hr
      have hsmall := f.small
      have hnext : offT (fileOfs + 32) = fileOfs + 32 := offT_of_lt (by omega) (by omega)
      have hstep : (fun i => Phdr.ofBytes (f.bytesAt ((fileOfs + 32).toNat + 32 * i) 32)) =
          fun i => Phdr.ofBytes (f.bytesAt (fileOfs.toNat + 32 * (i + 1)) 32) := by
        funext i
        congr 2
        omega
      refine Loads.from ((loadType_loads f sp₁ _).bind (fun _ => rfl) fun l₁ sp₂ hm₁ hl => ?_) hpage
      dsimp only
      rw [if_pos rfl, hnext]
      have ih := phdrLoop_loads f count sp₂ (fileOfs + 32)
      rw [hstep] at ih
      refine ih.mono fun l sp' hm ⟨_, hs⟩ => ⟨fun _ => hlow, ?_⟩
      have hm₀ := (Maps.of_page hpage).trans hm₁
      rw [List.nil_append] at hm₀
      refine Segments.cons ?_ hm₀ hm hs
      rw [← hpage]
      exact hl

/-! ### The whole file -/

/-- The page of the stack. -/
def stackPage : ℕ := physBase - pgsize

theorem setupStack_loads (sp : Space) : Loads sp sp.setupStack fun _ => sp.page stackPage = none := by
  have hs : (Event.map (0xc0000000 - pageBytes)).Sound := ⟨by decide, by decide, by decide⟩
  unfold Space.setupStack
  cases hp : sp.pallocGetPage with
  | mk ok sp₁ =>
      have hpage : sp₁.page = sp.page := congrArg (fun r => r.2.page) hp.symm
      dsimp only
      cases ok with
      | false =>
          rw [if_neg Bool.noConfusion]
          exact .fail hpage
      | true =>
          rw [if_pos rfl]
          refine Loads.from ((installPage_loads _ hs sp₁).mono fun _ _ _ ⟨hfresh, _⟩ => ?_) hpage
          rw [← hpage]
          exact hfresh

/-- The header is accepted, its segments are loaded, and the page of the stack is in none of
them. -/
structure FileLoaded (f : ExecFile) (sp sp' : Space) : Prop where
  valid : f.ehdr.Valid
  segments : Segments f f.phdrAt f.ehdr.phnum.toNat sp sp'
  stack : ∀ i, i < f.ehdr.phnum.toNat → (f.phdrAt i).type = ptLoad →
    ¬(f.phdrAt i).Covers stackPage

theorem offT_unsigned {n : ℕ} (h : n < 2 ^ 32) (h0 : 0 ≤ offT n) : (offT n).toNat = n := by
  by_cases hn : n < 2 ^ 31
  · rw [offT_of_lt (Int.natCast_nonneg n) (by omega), Int.toNat_natCast]
  · exact absurd (offT_neg (x := n) (by omega) (by omega)) (Int.not_lt.mpr h0)

theorem elfLoad_loads (file : Option ExecFile) (sp : Space) :
    Loads sp.pagedirCreate.2 (elfLoad file sp) fun sp' =>
      ∃ f, file = some f ∧ FileLoaded f sp.pagedirCreate.2 sp' := by
  unfold elfLoad
  cases hp : sp.pagedirCreate with
  | mk ok sp₁ =>
  dsimp only
  cases ok with
  | false => exact .fail rfl
  | true =>
  rw [if_neg Bool.noConfusion]
  cases file with
  | none => exact .fail rfl
  | some f =>
  have hpage : (sp₁.fileRead f 52 0).2.page = sp₁.page := rfl
  have hfull := fileRead_full sp₁ f 52 0
  dsimp only
  generalize sp₁.fileRead f 52 0 = r at hpage hfull
  obtain ⟨b, sp₂⟩ := r
  dsimp only at hpage hfull ⊢
  by_cases hbad : b.length ≠ 52 ∨ ¬(Ehdr.ofBytes b).Valid
  · rw [if_pos hbad]
    exact .fail hpage
  rw [if_neg hbad]
  obtain ⟨hshort, hvalid⟩ := not_or.mp hbad
  rw [hfull (not_not.mp hshort)] at hvalid ⊢
  change Loads sp₁ (phdrLoop f f.ehdr.phnum.toNat sp₂ (offT f.ehdr.phoff.toNat) >>= _) _
  refine Loads.from ((phdrLoop_loads f _ sp₂ _).bind (fun _ => rfl) fun l sp₃ hm ⟨hofs, hs⟩ => ?_)
    hpage
  dsimp only
  rw [if_pos rfl]
  refine (setupStack_loads sp₃).mono fun l' sp' hm' hstack => ?_
  obtain hn | hn := Nat.eq_zero_or_pos f.ehdr.phnum.toNat
  · refine ⟨f, rfl, not_not.mp hvalid, ?_, ?_⟩
    · rw [hn]
      exact ⟨nofun, nofun, nofun, fun i j _ hj => nomatch hj⟩
    · rw [hn]
      nofun
  · have hphoff := offT_unsigned f.ehdr.phoff.toNat_lt (hofs hn)
    have hphdr : (fun i => Phdr.ofBytes
        (f.bytesAt ((offT f.ehdr.phoff.toNat).toNat + 32 * i) 32)) = f.phdrAt := by
      rw [hphoff]
      rfl
    rw [hphdr] at hs
    refine ⟨f, rfl, not_not.mp hvalid, ?_, fun i hi ht hu => ?_⟩
    · have hk := hs.keep hm'
      exact ⟨hk.valid, hk.loaded, by rw [← hpage]; exact hk.fresh, hk.apart⟩
    · obtain ⟨p, hp, -⟩ := (hs.loaded i hi ht).page _ hu
      rw [hstack] at hp
      cases hp

/-- A segment that `validate_segment` accepts is loaded without a failed assertion, a computation
that wraps around or an endless loop, and is then in the memory of the process.  `elf_load` never
maps a page twice: it fails if two segments have a page in common, or if one has the page of the
stack. -/
theorem elf_segments :
    (∀ f phdr, validateSegment phdr f = true →
      phdr.vaddr.toNat + phdr.memsz.toNat < physBase ∧
        ∀ sp, Loads sp (loadPhdr f sp phdr) (SegmentLoaded f phdr)) ∧
    ∀ file sp, Loads sp.pagedirCreate.2 (elfLoad file sp) fun sp' =>
      ∃ f, file = some f ∧ FileLoaded f sp.pagedirCreate.2 sp' := by
  refine ⟨fun f phdr h => ⟨(loadable h).high, fun sp => ?_⟩, elfLoad_loads⟩
  exact (loadPhdr_loads (loadable h) sp).mono fun _ _ _ h => h.1

/-! ### A small executable -/

def leWord (n : UInt32) : List UInt8 :=
  [n.toUInt8, (n >>> 8).toUInt8, (n >>> 16).toUInt8, (n >>> 24).toUInt8]

def headerBytes (count : UInt8) : List UInt8 :=
  [127, 69, 76, 70, 1, 1, 1] ++ List.replicate 9 0 ++ [2, 0, 3, 0] ++
    [1, 0x08048000, 52, 0, 0].flatMap leWord ++ [52, 0, 32, 0, count, 0, 0, 0, 0, 0, 0, 0]

/-- A segment of 200 bytes in the file and two pages in memory. -/
def segmentAt (vaddr : UInt32) : List UInt8 :=
  [1, 0, vaddr, 0, 200, 5000, 7, 0].flatMap leWord

/-- A file with these segments. -/
def program (vaddrs : List UInt32) : ExecFile where
  disk _ x := (headerBytes (UInt8.ofNat vaddrs.length) ++ vaddrs.flatMap segmentAt).getD x 0
  data := ⟨fun _ => 1, 0, 0, false, 200⟩
  small := by decide

def emptySpace : Space := ⟨fun _ => none, fun _ => false, fun _ => true, fun _ => true⟩

/-- Whether `elf_load` succeeds. -/
def loads (vaddrs : List UInt32) : Option Bool :=
  (elfLoad (some (program vaddrs)) emptySpace).value.map Prod.fst

example : loads [0x08048000, 0x0804a000] = some true := by decide +kernel

-- two segments with a page in common, and a segment over the stack
example : loads [0x08048000, 0x08049000] = some false := by decide +kernel
example : loads [0xbfffe000] = some false := by decide +kernel

def smallPhdr : Phdr := .ofBytes (segmentAt 0x08048000)

theorem elf_segments_small :
    smallPhdr.vaddr.toNat + smallPhdr.memsz.toNat < physBase ∧
      Loads emptySpace (loadPhdr (program []) emptySpace smallPhdr)
        (SegmentLoaded (program []) smallPhdr) := by
  have h := elf_segments.1 (program []) smallPhdr (by decide +kernel)
  exact ⟨h.1, h.2 emptySpace⟩

end CSE130.Lab3.Elf
