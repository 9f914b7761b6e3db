import CSE130.Lab3.Palloc
import Mathlib.Data.List.GetD
import Mathlib.Data.List.Perm.Subperm

/-! # The heap

`malloc` serves small requests from arenas, pages that are divided into blocks of one size, and
large ones from page ranges of their own.  An arena has a header of 12 bytes; the header of the
arena of a block is found by rounding the address of the block down.

A header is what is read at its address, and whoever writes there, the owner of a block or a
`memset`, destroys it; a free list is a list of addresses.  `arenas` records what `malloc` has got
from the page allocator and not given back; nothing reads it.  A run is a sequence of calls of
`malloc` and `free`, of calls of the page allocator by others, and of writes by the owners of blocks
and pages.  Addresses stay below `2 ^ 32`, as the page allocator's do. -/

namespace CSE130.Lab3.Malloc

open Function (update)
open Transition Palloc

/-! ### Descriptors -/

structure Desc where
  blockSize : ℕ
  blocksPerArena : ℕ

/-- `sizeof (struct arena)`. -/
def arenaSize : ℕ := 12

/-- The loop of `malloc_init`, from `blockSize` on. -/
def descsFrom (blockSize : ℕ) : List Desc :=
  if 0 < blockSize ∧ blockSize < pgSize / 2 then
    ⟨blockSize, (pgSize - arenaSize) / blockSize⟩ :: descsFrom (2 * blockSize)
  else []
termination_by pgSize / 2 - blockSize

/-- `descs`, as `malloc_init` leaves it. -/
def descs : List Desc := descsFrom 16

theorem descs_eq : descs =
    [⟨16, 255⟩, ⟨32, 127⟩, ⟨64, 63⟩, ⟨128, 31⟩, ⟨256, 15⟩, ⟨512, 7⟩, ⟨1024, 3⟩] := by
  have hstep : ∀ n, 0 < n → n < 2048 →
      descsFrom n = ⟨n, 4084 / n⟩ :: descsFrom (2 * n) := fun n h0 hn => by
    rw [descsFrom, if_pos ⟨h0, hn⟩]
    rfl
  have hend : descsFrom 2048 = [] := by
    rw [descsFrom, if_neg (by decide)]
  rw [descs, hstep 16, hstep, hstep, hstep, hstep, hstep, hstep, hend] <;> decide

/-- The size of the blocks of the `d`th descriptor, and how many there are in an arena. -/
def blockSize (d : ℕ) : ℕ := (descs.getD d ⟨0, 0⟩).blockSize

def blocksPerArena (d : ℕ) : ℕ := (descs.getD d ⟨0, 0⟩).blocksPerArena

/-- The smallest descriptor for a request. -/
def findDesc (size : ℕ) : Option ℕ := descs.findIdx? fun d => d.blockSize ≥ size

/-! ### The functions -/

def arenaMagic : BitVec 32 := 0x9a548eed

/-- `pg_round_down`. -/
def pgRoundDown (va : ℕ) : ℕ := va / pgSize * pgSize

/-- What is read at an address as the header of an arena. -/
structure Arena where
  magic : BitVec 32
  /-- The descriptor, or `none` for a null pointer. -/
  desc : Option ℕ
  freeCnt : ℕ

structure Heap where
  pages : Palloc.State
  arena : ℕ → Arena
  freeList : ℕ → List ℕ
  /-- What `malloc` has of the page allocator: addresses and numbers of pages. -/
  arenas : List (ℕ × ℕ)

/-- The header of `malloc` at an address overlaps the bytes `r`. -/
def Overwritten (r : ℕ × ℕ) (a : ℕ) : Prop := ¬ Clear (a, arenaSize) r

instance (r : ℕ × ℕ) (a : ℕ) : Decidable (Overwritten r a) :=
  inferInstanceAs (Decidable (¬ (_ ≤ _ ∨ _ ≤ _)))

/-- What a header is after `memset (.., 0xcc, ..)`. -/
def cleared : Arena := ⟨0xcccccccc, some 0xcccccccc, 0xcccccccc⟩

namespace Heap

variable (h : Heap)

/-- The bytes `r` are written; `junk` is what headers there are afterwards. -/
def overwrite (r : ℕ × ℕ) (junk : ℕ → Arena) : Heap :=
  { h with arena := fun a => if Overwritten r a then junk a else h.arena a }

/-- Write to `a->free_cnt`. -/
def setFreeCnt (a n : ℕ) : Heap :=
  { h with arena := update h.arena a { h.arena a with freeCnt := n } }

theorem setFreeCnt_arena (a n a' : ℕ) : (h.setFreeCnt a n).arena a' =
    if a' = a then { h.arena a with freeCnt := n } else h.arena a' := Function.update_apply ..

theorem setFreeCnt_desc (a n a' : ℕ) : ((h.setFreeCnt a n).arena a').desc = (h.arena a').desc := by
  rw [setFreeCnt_arena]
  split
  · rename_i ha
    rw [ha]
  · rfl

theorem setFreeCnt_magic (a n a' : ℕ) :
    ((h.setFreeCnt a n).arena a').magic = (h.arena a').magic := by
  rw [setFreeCnt_arena]
  split
  · rename_i ha
    rw [ha]
  · rfl

theorem setFreeCnt_freeCnt (a n a' : ℕ) :
    ((h.setFreeCnt a n).arena a').freeCnt = if a' = a then n else (h.arena a').freeCnt := by
  rw [setFreeCnt_arena]
  split <;> rfl

def blockToArena (b : ℕ) : Except Failure ℕ := do
  let a := pgRoundDown b
  assert (a ≠ 0)
  assert ((h.arena a).magic = arenaMagic)
  match (h.arena a).desc with
  | some d => assert ((pgOfs b + (2 ^ 32 - arenaSize)) % 2 ^ 32 % blockSize d = 0)
  | none => assert (pgOfs b = arenaSize)
  return a

/-- `a->desc` has to be there. -/
def arenaToBlock (a idx : ℕ) : Except Failure ℕ := do
  assert (a ≠ 0)
  assert ((h.arena a).magic = arenaMagic)
  match (h.arena a).desc with
  | some d =>
      assert (idx < blocksPerArena d)
      return a + arenaSize + idx * blockSize d
  | none => throw .panic

/-- The loop that adds the blocks of a new arena to the free list, from the block `i` on. -/
def addBlocks (d a : ℕ) : ℕ → ℕ → Heap → Except Failure Heap
  | _, 0, h => .ok h
  | i, n + 1, h => do
      let b ← h.arenaToBlock a i
      addBlocks d a (i + 1) n { h with freeList := update h.freeList d (h.freeList d ++ [b]) }

/-- A new arena, or `none` if there is no page for it. -/
def newArena (d : ℕ) : Except Failure (Option Heap) := do
  let (pages, a) ← h.pages.getMultiple 0 1
  if a = 0 then return none
  let header := ⟨arenaMagic, some d, blocksPerArena d⟩
  let h' := { h with pages, arena := update h.arena a header, arenas := (a, 1) :: h.arenas }
  return some (← addBlocks d a 0 (blocksPerArena d) h')

/-- The first block of a free list is taken. -/
def takeBlock (d : ℕ) : Except Failure (Heap × ℕ) :=
  match h.freeList d with
  | [] => .error .assertion
  | b :: rest => do
      let h := { h with freeList := update h.freeList d rest }
      let a ← h.blockToArena b
      return (h.setFreeCnt a (((h.arena a).freeCnt + (2 ^ 32 - 1)) % 2 ^ 32), b)

/-- Pages of its own for a large block. -/
def bigBlock (size : ℕ) : Except Failure (Heap × ℕ) := do
  let pageCnt := (size + arenaSize + pgSize - 1) % 2 ^ 32 / pgSize
  let (pages, a) ← h.pages.getMultiple 0 pageCnt
  if a = 0 then return (h, 0)
  let header := ⟨arenaMagic, none, pageCnt⟩
  return ({ h with pages, arena := update h.arena a header, arenas := (a, pageCnt) :: h.arenas },
    a + arenaSize)

def malloc (size : ℕ) : Except Failure (Heap × ℕ) := do
  if size = 0 then return (h, 0)
  match findDesc size with
  | none => h.bigBlock size
  | some d =>
      if (h.freeList d).isEmpty then
        match ← h.newArena d with
        | none => return (h, 0)
        | some h => h.takeBlock d
      else h.takeBlock d

/-- `palloc_free_multiple`, which clears the pages. -/
def giveBack (a pageCnt : ℕ) : Except Failure Heap := do
  let pages ← h.pages.freeMultiple a pageCnt
  return { h.overwrite (bytes (a, pageCnt)) fun _ => cleared with
    pages, arenas := h.arenas.erase (a, pageCnt) }

/-- The loop that takes the blocks of an arena out of the free list, from the block `i` on;
`list_remove` takes a block out of the list that it is in. -/
def removeBlocks (a : ℕ) : ℕ → ℕ → Heap → Except Failure Heap
  | _, 0, h => .ok h
  | i, n + 1, h => do
      let b ← h.arenaToBlock a i
      removeBlocks a (i + 1) n { h with freeList := fun d => (h.freeList d).erase b }

/-- The end of `free` for a block of an arena, after the block was cleared. -/
def freeSmall (b a d : ℕ) : Except Failure Heap := do
  let h := { h with freeList := update h.freeList d (b :: h.freeList d) }
  let h := h.setFreeCnt a (((h.arena a).freeCnt + 1) % 2 ^ 32)
  if (h.arena a).freeCnt ≥ blocksPerArena d then
    assert ((h.arena a).freeCnt = blocksPerArena d)
    let h ← removeBlocks a 0 (blocksPerArena d) h
    h.giveBack a 1
  else return h

def free (p : ℕ) : Except Failure Heap := do
  if p = 0 then return h
  let a ← h.blockToArena p
  match (h.arena a).desc with
  | some d => (h.overwrite (p, blockSize d) fun _ => cleared).freeSmall p a d
  | none => h.giveBack a (h.arena a).freeCnt

/-- `block_size`: the bytes allocated for the block `p`. -/
def usableSize (p : ℕ) : ℕ :=
  match (h.arena (pgRoundDown p)).desc with
  | some d => blockSize d
  | none => pgSize * (h.arena (pgRoundDown p)).freeCnt - pgOfs p

end Heap

/-! ### Runs -/

/-- The heap and the blocks that were given and not yet freed: the address and the bytes. -/
structure State where
  heap : Heap
  live : List (ℕ × ℕ)

inductive Action where
  | malloc (size : ℕ)
  | free (p : ℕ)
  /-- Others call the page allocator. -/
  | others (c : Palloc.Call)
  /-- The bytes `r` are written by their owner; `junk` is what headers there would become. -/
  | write (r : ℕ × ℕ) (junk : ℕ → Arena)

def step : Action → State → Option State
  | .malloc size, s =>
      (s.heap.malloc size).toOption.map fun (h, p) =>
        ⟨h, if p = 0 then s.live else (p, h.usableSize p) :: s.live⟩
  | .free p, s =>
      (s.heap.free p).toOption.map fun h => ⟨h, s.live.filter fun x => x.1 ≠ p⟩
  | .others c, s =>
      (Palloc.step c s.heap.pages).map fun pages => { s with heap := { s.heap with pages } }
  | .write r junk, s => some { s with heap := s.heap.overwrite r junk }

/-- No sum wraps, every live block is freed once, and others free and write only what is theirs. -/
def Allowed (s : State) : Action → Prop
  | .malloc size => size + arenaSize + pgSize - 1 < 2 ^ 32
  | .free p => p = 0 ∨ ∃ n, (p, n) ∈ s.live
  | .others c => Palloc.Given s.heap.pages c ∧
      ∀ pages pageCnt, c = .freeMultiple pages pageCnt → (pages, pageCnt) ∉ s.heap.arenas
  | .write r _ => r ∈ s.live ∨
      ∃ user, ∃ q ∈ s.heap.pages.live user, q ∉ s.heap.arenas ∧ r = bytes q

/-! ### Where the blocks are -/

theorem desc_bounds {d : ℕ} (hd : d < descs.length) :
    0 < blockSize d ∧ 0 < blocksPerArena d ∧
      blocksPerArena d * blockSize d ≤ pgSize - arenaSize := by
  have hall : ∀ x ∈ descs, 0 < x.blockSize ∧ 0 < x.blocksPerArena ∧
      x.blocksPerArena * x.blockSize ≤ pgSize - arenaSize := by
    rw [descs_eq]
    decide
  have hmem := hall _ (List.getElem_mem hd)
  rwa [← List.getD_eq_getElem _ ⟨0, 0⟩ hd] at hmem

theorem findDesc_eq_some {size d : ℕ} (h : findDesc size = some d) :
    d < descs.length ∧ size ≤ blockSize d := by
  obtain ⟨hd, hsize, -⟩ := List.findIdx?_eq_some_iff_getElem.mp h
  refine ⟨hd, ?_⟩
  rw [blockSize, List.getD_eq_getElem _ _ hd]
  exact of_decide_eq_true hsize

variable {a d i j n p b size : ℕ} {r r' x y : ℕ × ℕ} {h h' : Heap} {s s' : State} {desc : Option ℕ}

/-- The `i`th block of an arena at `a` of the descriptor `d`. -/
def blockAt (a d i : ℕ) : ℕ := a + arenaSize + i * blockSize d

theorem blockAt_end (hd : d < descs.length) (hi : i < blocksPerArena d) :
    blockAt a d i + blockSize d ≤ a + pgSize := by
  have hmul : (i + 1) * blockSize d ≤ blocksPerArena d * blockSize d := Nat.mul_le_mul_right _ hi
  have := (desc_bounds hd).2.2
  rw [Nat.succ_mul] at hmul
  unfold blockAt pgSize arenaSize at *
  omega

theorem clear_blockAt (hij : i ≠ j) :
    Clear (blockAt a d i, blockSize d) (blockAt a d j, blockSize d) := by
  unfold Clear blockAt
  obtain hlt | hlt := Nat.lt_or_gt_of_ne hij
  · have hmul : (i + 1) * blockSize d ≤ j * blockSize d := Nat.mul_le_mul_right _ hlt
    rw [Nat.succ_mul] at hmul
    dsimp only
    omega
  · have hmul : (j + 1) * blockSize d ≤ i * blockSize d := Nat.mul_le_mul_right _ hlt
    rw [Nat.succ_mul] at hmul
    dsimp only
    omega

/-- The bytes `x` are a block of the arena `r`, if it has this descriptor. -/
def IsBlock (desc : Option ℕ) (r x : ℕ × ℕ) : Prop :=
  match desc with
  | some d => ∃ i < blocksPerArena d, x = (blockAt r.1 d i, blockSize d)
  | none => x = (r.1 + arenaSize, pgSize * r.2 - arenaSize)

/-- What can be said of an arena without its blocks. -/
structure Sound (desc : Option ℕ) (r : ℕ × ℕ) : Prop where
  aligned : r.1 % pgSize = 0
  pos : 0 < r.1
  pages : 0 < r.2
  desc : ∀ d, desc = some d → d < descs.length ∧ r.2 = 1

theorem IsBlock.within (hx : IsBlock desc r x) (hr : Sound desc r) :
    r.1 + arenaSize ≤ x.1 ∧ x.1 + x.2 ≤ r.1 + pgSize * r.2 ∧ x.1 < r.1 + pgSize ∧ 0 < x.2 := by
  cases desc with
  | none =>
      obtain rfl := hx
      have := hr.pages
      unfold pgSize arenaSize
      dsimp only
      omega
  | some d =>
      obtain ⟨i, hi, rfl⟩ := hx
      obtain ⟨hd, hone⟩ := hr.desc d rfl
      have hend := blockAt_end (a := r.1) hd hi
      have hsize := (desc_bounds hd).1
      rw [hone]
      unfold blockAt at *
      dsimp only at *
      omega

theorem IsBlock.roundDown (hx : IsBlock desc r x) (hr : Sound desc r) : pgRoundDown x.1 = r.1 := by
  obtain ⟨hlo, -, hhi, -⟩ := hx.within hr
  have haligned := hr.aligned
  unfold pgRoundDown pgSize at *
  omega

theorem IsBlock.ofs (hx : IsBlock desc r x) (hr : Sound desc r) : r.1 + pgOfs x.1 = x.1 := by
  obtain ⟨hlo, -, hhi, -⟩ := hx.within hr
  have haligned := hr.aligned
  unfold pgOfs pgSize at *
  omega

theorem IsBlock.clear (hx : IsBlock desc r x) (hy : IsBlock desc r y) (hne : x ≠ y) :
    Clear x y := by
  cases desc with
  | none => exact absurd (Eq.trans hx (Eq.symm hy)) hne
  | some d =>
      obtain ⟨i, -, rfl⟩ := hx
      obtain ⟨j, -, rfl⟩ := hy
      refine clear_blockAt fun hij => hne ?_
      rw [hij]

theorem IsBlock.ext (hx : IsBlock desc r x) (hy : IsBlock desc r y) (he : x.1 = y.1) : x = y := by
  cases desc with
  | none => exact Eq.trans hx (Eq.symm hy)
  | some d =>
      obtain ⟨i, -, rfl⟩ := hx
      obtain ⟨j, -, rfl⟩ := hy
      exact Prod.ext he rfl

/-! ### The invariant -/

/-- The free blocks of the descriptor `d` in the arena at `a`. -/
def Heap.freeIn (h : Heap) (d a : ℕ) : List ℕ := (h.freeList d).filter fun b => pgRoundDown b = a

/-- The header of the arena `r`. -/
structure Header (h : Heap) (r : ℕ × ℕ) : Prop where
  magic : (h.arena r.1).magic = arenaMagic
  small : ∀ d, (h.arena r.1).desc = some d → d < descs.length ∧ r.2 = 1 ∧
    (h.arena r.1).freeCnt = (h.freeIn d r.1).length
  big : (h.arena r.1).desc = none → (h.arena r.1).freeCnt = r.2

/-- A header that is not written, when as many blocks of its arena are free as before. -/
theorem Header.congr (hh : Header h r) (ha : h'.arena r.1 = h.arena r.1)
    (hfree : ∀ d, (h.arena r.1).desc = some d →
      (h'.freeIn d r.1).length = (h.freeIn d r.1).length) : Header h' r where
  magic := by
    rw [ha]
    exact hh.magic
  small d hd := by
    rw [ha] at hd ⊢
    obtain ⟨hlt, hone, hcnt⟩ := hh.small d hd
    exact ⟨hlt, hone, hcnt.trans (hfree d hd).symm⟩
  big hd := by
    rw [ha] at hd ⊢
    exact hh.big hd

/-- The arenas, the free lists and the live blocks fit: every block of every arena is live or on the
free list of its descriptor, and nothing else is. -/
structure Fits (s : State) : Prop where
  pages : Palloc.Kept s.heap.pages
  arenas : s.heap.arenas.Nodup
  held : ∀ r ∈ s.heap.arenas, r ∈ s.heap.pages.live false
  header : ∀ r ∈ s.heap.arenas, Header s.heap r
  block : ∀ r ∈ s.heap.arenas, ∀ x, IsBlock (s.heap.arena r.1).desc r x →
    x ∈ s.live ∨ ∃ d, (s.heap.arena r.1).desc = some d ∧ x.1 ∈ s.heap.freeList d
  free_nodup : ∀ d, (s.heap.freeList d).Nodup
  free : ∀ d, ∀ b ∈ s.heap.freeList d, ∃ r ∈ s.heap.arenas, (s.heap.arena r.1).desc = some d ∧
    IsBlock (some d) r (b, blockSize d)
  live_nodup : s.live.Nodup
  live : ∀ x ∈ s.live, ∃ r ∈ s.heap.arenas, IsBlock (s.heap.arena r.1).desc r x ∧
    ∀ d, x.1 ∉ s.heap.freeList d

/-- The arena has a live block. -/
def Needed (s : State) (r : ℕ × ℕ) : Prop :=
  ∃ x ∈ s.live, IsBlock (s.heap.arena r.1).desc r x

/-- The invariant. -/
structure Kept (s : State) : Prop extends Fits s where
  needed : ∀ r ∈ s.heap.arenas, Needed s r

namespace Fits

theorem sound (hs : Fits s) (hr : r ∈ s.heap.arenas) : Sound (s.heap.arena r.1).desc r := by
  obtain ⟨⟨i, hi, -⟩, hpages⟩ := hs.pages.within (hs.held r hr)
  have haligned := hs.pages.layout.aligned false
  refine ⟨?_, ?_, hpages, fun d hd => ?_⟩
  · rw [hi]
    unfold pgSize at *
    omega
  · exact Nat.pos_of_ne_zero (hs.pages.ne_zero (hs.held r hr))
  · have hsmall := (hs.header r hr).small d hd
    exact ⟨hsmall.1, hsmall.2.1⟩

theorem clear_arenas (hs : Fits s) (hr : r ∈ s.heap.arenas) (hr' : r' ∈ s.heap.arenas)
    (hne : r ≠ r') : Clear (bytes r) (bytes r') :=
  hs.pages.clear (hs.held r hr) (hs.held r' hr') hne

theorem arena_ext (hs : Fits s) (hr : r ∈ s.heap.arenas) (hr' : r' ∈ s.heap.arenas)
    (he : r.1 = r'.1) : r = r' := by
  by_contra hne
  have hclear := hs.clear_arenas hr hr' hne
  have hpages := (hs.sound hr).pages
  have hpages' := (hs.sound hr').pages
  unfold Clear bytes pgSize at hclear
  dsimp only at hclear
  omega

theorem block_arena (hs : Fits s) (hr : r ∈ s.heap.arenas) (hr' : r' ∈ s.heap.arenas)
    (hx : IsBlock (s.heap.arena r.1).desc r x) (hy : IsBlock (s.heap.arena r'.1).desc r' y)
    (he : x.1 = y.1) : r = r' := by
  refine hs.arena_ext hr hr' ?_
  rw [← hx.roundDown (hs.sound hr), ← hy.roundDown (hs.sound hr'), he]

theorem clear_blocks (hs : Fits s) (hr : r ∈ s.heap.arenas) (hr' : r' ∈ s.heap.arenas)
    (hx : IsBlock (s.heap.arena r.1).desc r x) (hy : IsBlock (s.heap.arena r'.1).desc r' y)
    (hne : x ≠ y) : Clear x y := by
  by_cases hrr : r = r'
  · subst hrr
    exact hx.clear hy hne
  · have hclear := hs.clear_arenas hr hr' hrr
    have hin := hx.within (hs.sound hr)
    have hin' := hy.within (hs.sound hr')
    unfold Clear bytes at *
    dsimp only at hclear
    omega

theorem clear_header (hs : Fits s) (hr : r ∈ s.heap.arenas) (hr' : r' ∈ s.heap.arenas)
    (hx : IsBlock (s.heap.arena r.1).desc r x) : Clear (r'.1, arenaSize) x := by
  have hin := hx.within (hs.sound hr)
  by_cases hrr : r = r'
  · subst hrr
    exact .inl hin.1
  · have hclear := hs.clear_arenas hr hr' hrr
    have hpages := (hs.sound hr').pages
    unfold Clear bytes pgSize arenaSize at *
    dsimp only at *
    omega

/-- Every live block is a block of one arena, which is found by rounding down. -/
theorem blockToArena_eq (hs : Fits s) (hr : r ∈ s.heap.arenas)
    (hx : IsBlock (s.heap.arena r.1).desc r x) : s.heap.blockToArena x.1 = .ok r.1 := by
  have hsound := hs.sound hr
  have hdown := hx.roundDown hsound
  have hofs := hx.ofs hsound
  have hin := hx.within hsound
  rw [Heap.blockToArena, hdown]
  simp only [assert_pos (Nat.pos_iff_ne_zero.mp hsound.pos), assert_pos (hs.header r hr).magic,
    ok_bind]
  cases hdesc : (s.heap.arena r.1).desc with
  | none =>
      rw [hdesc] at hx
      have heq : pgOfs x.1 = arenaSize := by
        rw [show x = _ from hx] at hofs ⊢
        dsimp only at hofs ⊢
        omega
      simp only [assert_pos heq, ok_bind]
      rfl
  | some d =>
      rw [hdesc] at hx
      obtain ⟨i, -, hxi⟩ := hx
      have heq : (pgOfs x.1 + (2 ^ 32 - arenaSize)) % 2 ^ 32 % blockSize d = 0 := by
        have hsub : pgOfs x.1 = arenaSize + i * blockSize d := by
          rw [hxi] at hofs ⊢
          unfold blockAt at hofs ⊢
          dsimp only at hofs ⊢
          omega
        have hlt : pgOfs x.1 < pgSize := Nat.mod_lt _ (by decide)
        have hwrap : (pgOfs x.1 + (2 ^ 32 - arenaSize)) % 2 ^ 32 = i * blockSize d := by
          unfold pgSize at hlt
          unfold arenaSize at *
          omega
        rw [hwrap, Nat.mul_mod_left]
      simp only [assert_pos heq, ok_bind]
      rfl

theorem of_arena (hs : Fits s) {arena : ℕ → Arena}
    (ha : ∀ r ∈ s.heap.arenas, arena r.1 = s.heap.arena r.1) :
    Fits { s with heap := { s.heap with arena } } where
  pages := hs.pages
  arenas := hs.arenas
  held := hs.held
  header r hr := (hs.header r hr).congr (ha r hr) fun _ _ => rfl
  block r hr x hx := by
    simp only [ha r hr] at hx ⊢
    exact hs.block r hr x hx
  free_nodup := hs.free_nodup
  free d b hb := by
    obtain ⟨r, hr, hd, hblock⟩ := hs.free d b hb
    exact ⟨r, hr, (congrArg Arena.desc (ha r hr)).trans hd, hblock⟩
  live_nodup := hs.live_nodup
  live x hx := by
    obtain ⟨r, hr, hblock, hfree⟩ := hs.live x hx
    refine ⟨r, hr, ?_, hfree⟩
    simp only [ha r hr]
    exact hblock

end Fits

/-! ### Taking a block -/

theorem arenaToBlock_eq (ha : 0 < a) (hmagic : (h.arena a).magic = arenaMagic)
    (hd : (h.arena a).desc = some d) (hi : i < blocksPerArena d) :
    h.arenaToBlock a i = .ok (blockAt a d i) := by
  rw [Heap.arenaToBlock, hd]
  simp only [assert_pos (Nat.pos_iff_ne_zero.mp ha), assert_pos hmagic, assert_pos hi, ok_bind]
  rfl

theorem addBlocks_eq (ha : 0 < a) : ∀ (n i : ℕ) (h : Heap), (h.arena a).magic = arenaMagic →
    (h.arena a).desc = some d → i + n ≤ blocksPerArena d →
    Heap.addBlocks d a i n h = .ok { h with
      freeList := update h.freeList d (h.freeList d ++ (List.range' i n).map (blockAt a d)) } := by
  intro n
  induction n with
  | zero =>
      intro i h _ _ _
      rw [Heap.addBlocks, List.range'_zero, List.map_nil, List.append_nil, Function.update_eq_self]
  | succ n ih =>
      intro i h hmagic hd hi
      have hrest := ih (i + 1)
        { h with freeList := update h.freeList d (h.freeList d ++ [blockAt a d i]) } hmagic hd
        (by omega)
      rw [Heap.addBlocks, arenaToBlock_eq ha hmagic hd (by omega), ok_bind, hrest]
      simp only [Function.update_self, Function.update_idem, List.append_assoc,
        List.singleton_append, List.range'_succ, List.map_cons]

theorem removeBlocks_eq (ha : 0 < a) : ∀ (n i : ℕ) (h : Heap), (h.arena a).magic = arenaMagic →
    (h.arena a).desc = some d → i + n ≤ blocksPerArena d →
    Heap.removeBlocks a i n h = .ok { h with
      freeList := fun d' => (h.freeList d').diff ((List.range' i n).map (blockAt a d)) } := by
  intro n
  induction n with
  | zero => exact fun i h _ _ _ => rfl
  | succ n ih =>
      intro i h hmagic hd hi
      have hrest := ih (i + 1)
        { h with freeList := fun d' => (h.freeList d').erase (blockAt a d i) } hmagic hd (by omega)
      rw [Heap.removeBlocks, arenaToBlock_eq ha hmagic hd (by omega), ok_bind, hrest]
      simp only [List.range'_succ, List.map_cons, List.diff_cons]

/-- The pages for a large block and the header of its arena; the sum wraps. -/
def pagesFor (size : ℕ) : ℕ := (size + arenaSize + pgSize - 1) % 2 ^ 32 / pgSize

/-- The blocks of an arena. -/
def blocks (a d : ℕ) : List ℕ := (List.range' 0 (blocksPerArena d)).map (blockAt a d)

theorem mem_blocks : b ∈ blocks a d ↔ ∃ i < blocksPerArena d, b = blockAt a d i := by
  simp only [blocks, List.mem_map, List.mem_range'_1, Nat.zero_le, true_and, Nat.zero_add]
  exact ⟨fun ⟨i, hi, he⟩ => ⟨i, hi, he.symm⟩, fun ⟨i, hi, he⟩ => ⟨i, hi, he.symm⟩⟩

theorem length_blocks : (blocks a d).length = blocksPerArena d := by
  rw [blocks, List.length_map, List.length_range']

theorem nodup_blocks (hd : d < descs.length) : (blocks a d).Nodup := by
  refine List.Nodup.map_on (fun i _ j _ hij => ?_) List.nodup_range'
  by_contra hne
  have hclear := clear_blockAt (a := a) (d := d) hne
  have := (desc_bounds hd).1
  rw [hij] at hclear
  unfold Clear at hclear
  omega

namespace Fits

theorem free_arena (hs : Fits s) (hb : b ∈ s.heap.freeList d) (hr : r ∈ s.heap.arenas)
    (hdown : pgRoundDown b = r.1) :
    (s.heap.arena r.1).desc = some d ∧ IsBlock (some d) r (b, blockSize d) := by
  obtain ⟨r', hr', hd, hblock⟩ := hs.free d b hb
  have hdown' := hblock.roundDown (hd ▸ hs.sound hr')
  obtain rfl := hs.arena_ext hr hr' (hdown.symm.trans hdown')
  exact ⟨hd, hblock⟩

theorem free_desc (hs : Fits s) {d' : ℕ} (hb : b ∈ s.heap.freeList d)
    (hb' : b ∈ s.heap.freeList d') : d = d' := by
  obtain ⟨r, hr, hd, hblock⟩ := hs.free d b hb
  have hdown := hblock.roundDown (hd ▸ hs.sound hr)
  exact Option.some.inj (hd.symm.trans (hs.free_arena hb' hr hdown).1)

theorem live_ext (hs : Fits s) (hx : x ∈ s.live) (hy : y ∈ s.live) (he : x.1 = y.1) : x = y := by
  obtain ⟨r, hr, hblock, -⟩ := hs.live x hx
  obtain ⟨r', hr', hblock', -⟩ := hs.live y hy
  obtain rfl := hs.block_arena hr hr' hblock hblock' he
  exact hblock.ext hblock' he

theorem freeIn_subset (hs : Fits s) (hr : r ∈ s.heap.arenas) :
    s.heap.freeIn d r.1 ⊆ blocks r.1 d := by
  intro b hb
  obtain ⟨hmem, hdown⟩ := List.mem_filter.mp hb
  obtain ⟨-, i, hi, heq⟩ := hs.free_arena hmem hr (of_decide_eq_true hdown)
  exact mem_blocks.mpr ⟨i, hi, congrArg Prod.fst heq⟩

theorem freeIn_nodup (hs : Fits s) : (s.heap.freeIn d a).Nodup := (hs.free_nodup d).filter _

theorem length_freeIn_le (hs : Fits s) (hr : r ∈ s.heap.arenas) :
    (s.heap.freeIn d r.1).length ≤ blocksPerArena d := by
  rw [← length_blocks (a := r.1)]
  exact (List.subperm_of_subset hs.freeIn_nodup (hs.freeIn_subset hr)).length_le

theorem blockToArena_congr (ha : h'.arena = h.arena) (b : ℕ) :
    h'.blockToArena b = h.blockToArena b := by
  rw [Heap.blockToArena, Heap.blockToArena, ha]

/-- The blocks that are still free after the first of a free list has been taken. -/
theorem mem_popped {rest : List ℕ} (hs : Fits s) (hb : s.heap.freeList d = b :: rest) {d' c : ℕ}
    (hc : c ∈ update s.heap.freeList d rest d') : c ∈ s.heap.freeList d' ∧ c ≠ b := by
  have hnodup := hs.free_nodup d
  rw [hb, List.nodup_cons] at hnodup
  rw [Function.update_apply] at hc
  split at hc
  · rename_i hdd
    subst hdd
    rw [hb]
    refine ⟨List.mem_cons_of_mem b hc, ?_⟩
    rintro rfl
    exact hnodup.1 hc
  · rename_i hdd
    refine ⟨hc, ?_⟩
    rintro rfl
    exact hdd (hs.free_desc hc (hb ▸ List.mem_cons_self))

theorem freeCnt_popped {rest : List ℕ} (hs : Fits s) (hb : s.heap.freeList d = b :: rest)
    (hr : r ∈ s.heap.arenas) (hd : (s.heap.arena r.1).desc = some d) (hdown : pgRoundDown b = r.1) :
    ((s.heap.arena r.1).freeCnt + (2 ^ 32 - 1)) % 2 ^ 32 =
      (rest.filter fun b => pgRoundDown b = r.1).length := by
  obtain ⟨hdlt, -, hcnt⟩ := (hs.header r hr).small d hd
  have hin : s.heap.freeIn d r.1 = b :: rest.filter fun b => pgRoundDown b = r.1 := by
    rw [Heap.freeIn, hb, List.filter_cons_of_pos (by simpa using hdown)]
  have hle := hs.length_freeIn_le (d := d) hr
  have hmul := Nat.le_mul_of_pos_right (blocksPerArena d) (desc_bounds hdlt).1
  have hbound := (desc_bounds hdlt).2.2
  rw [hcnt]
  rw [hin, List.length_cons] at hle ⊢
  unfold pgSize arenaSize at hbound
  omega

theorem freeIn_popped {rest : List ℕ} (hb : s.heap.freeList d = b :: rest)
    (hdown : pgRoundDown b ≠ a) (d' : ℕ) :
    (update s.heap.freeList d rest d').filter (fun b => pgRoundDown b = a) = s.heap.freeIn d' a := by
  rw [Heap.freeIn, Function.update_apply]
  split
  · rename_i hdd
    rw [hdd, hb, List.filter_cons_of_neg (by simpa using hdown)]
  · rfl

/-- **A block goes from a free list to its user.** -/
theorem takeBlock {rest : List ℕ} (hs : Fits s) (hb : s.heap.freeList d = b :: rest) :
    ∃ h', s.heap.takeBlock d = .ok (h', b) ∧ Fits ⟨h', (b, blockSize d) :: s.live⟩ ∧
      h'.pages = s.heap.pages ∧ h'.arenas = s.heap.arenas ∧
      (∀ a, (h'.arena a).desc = (s.heap.arena a).desc) ∧ 0 < b ∧ h'.usableSize b = blockSize d := by
  have hmem : b ∈ s.heap.freeList d := hb ▸ List.mem_cons_self
  obtain ⟨r, hr, hd, hblock⟩ := hs.free d b hmem
  have hsound := hs.sound hr
  have hblock' : IsBlock (s.heap.arena r.1).desc r (b, blockSize d) := hd ▸ hblock
  have hdown := hblock'.roundDown hsound
  have hlo := (hblock'.within hsound).1
  let popped : Heap := { s.heap with freeList := update s.heap.freeList d rest }
  have hcongr : popped.blockToArena b = s.heap.blockToArena b := blockToArena_congr rfl b
  have hfound := hs.blockToArena_eq hr hblock'
  have hpopped : popped.blockToArena b = .ok r.1 := hcongr.trans hfound
  have hlist : ∀ d', popped.freeList d' = if d' = d then rest else s.heap.freeList d' := fun d' =>
    Function.update_apply ..
  have hsub : ∀ d', ∀ c ∈ popped.freeList d', c ∈ s.heap.freeList d' ∧ c ≠ b :=
    fun d' c hc => hs.mem_popped hb hc
  have htake : s.heap.takeBlock d = .ok (popped.setFreeCnt r.1
      (rest.filter fun b => pgRoundDown b = r.1).length, b) := by
    unfold Heap.takeBlock
    rw [hb]
    dsimp only
    rw [hpopped, ok_bind, hs.freeCnt_popped hb hr hd hdown]
    rfl
  generalize hn : (rest.filter fun b => pgRoundDown b = r.1).length = n at htake
  have hdesc := popped.setFreeCnt_desc r.1 n
  refine ⟨popped.setFreeCnt r.1 n, htake, ⟨hs.pages, hs.arenas, hs.held, fun r' hr' => ⟨?_, ?_, ?_⟩,
    fun r' hr' x hx => ?_, fun d' => ?_, fun d' c hc => ?_, ?_, ?_⟩, rfl, rfl, hdesc, ?_, ?_⟩
  · exact (popped.setFreeCnt_magic ..).trans (hs.header r' hr').magic
  · intro d' hnew
    have hd' : (s.heap.arena r'.1).desc = some d' := (hdesc r'.1).symm.trans hnew
    obtain ⟨hdlt', hone', hcnt'⟩ := (hs.header r' hr').small d' hd'
    refine ⟨hdlt', hone', (popped.setFreeCnt_freeCnt ..).trans ?_⟩
    split
    · rename_i hrr
      obtain rfl := hs.arena_ext hr' hr hrr
      obtain rfl : d = d' := Option.some.inj (hd.symm.trans hd')
      have hfree : popped.freeIn d r'.1 = rest.filter fun b => pgRoundDown b = r'.1 := by
        rw [Heap.freeIn, hlist, if_pos rfl]
      exact hn.symm.trans (congrArg List.length hfree.symm)
    · rename_i hrr
      have hother : popped.freeIn d' r'.1 = s.heap.freeIn d' r'.1 :=
        freeIn_popped hb (fun h => hrr (h.symm.trans hdown)) d'
      exact hcnt'.trans (congrArg List.length hother.symm)
  · intro hnew
    have hd' : (s.heap.arena r'.1).desc = none := (hdesc r'.1).symm.trans hnew
    refine (popped.setFreeCnt_freeCnt ..).trans ?_
    rw [if_neg fun hrr => by
      rw [hrr, hd] at hd'
      cases hd']
    exact (hs.header r' hr').big hd'
  · rw [hdesc] at hx ⊢
    obtain hlive | ⟨d', hd', hfree⟩ := hs.block r' hr' x hx
    · exact .inl (List.mem_cons_of_mem _ hlive)
    · by_cases hxb : x.1 = b
      · obtain rfl := hs.block_arena hr' hr hx hblock' hxb
        obtain rfl := hx.ext hblock' hxb
        exact .inl List.mem_cons_self
      · refine .inr ⟨d', hd', ?_⟩
        change x.1 ∈ popped.freeList d'
        rw [hlist]
        split
        · rename_i hdd
          rw [hdd, hb] at hfree
          exact (List.mem_cons.mp hfree).resolve_left hxb
        · exact hfree
  · change (popped.freeList d').Nodup
    rw [hlist]
    split
    · have hnodup := hs.free_nodup d
      rw [hb] at hnodup
      exact hnodup.of_cons
    · exact hs.free_nodup d'
  · obtain ⟨r', hr', hd', hblock''⟩ := hs.free d' c (hsub d' c hc).1
    exact ⟨r', hr', (hdesc r'.1).trans hd', hblock''⟩
  · refine List.nodup_cons.mpr ⟨fun hlive => ?_, hs.live_nodup⟩
    obtain ⟨-, -, -, hfree⟩ := hs.live _ hlive
    exact hfree d hmem
  · intro x hx
    obtain rfl | hx := List.mem_cons.mp hx
    · exact ⟨r, hr, (hdesc r.1).symm ▸ hblock', fun d' hc => (hsub d' b hc).2 rfl⟩
    · obtain ⟨r', hr', hblock'', hfree⟩ := hs.live x hx
      exact ⟨r', hr', (hdesc r'.1).symm ▸ hblock'', fun d' hc => hfree d' (hsub d' x.1 hc).1⟩
  · have := hsound.pos
    omega
  · rw [Heap.usableSize, hdown, hdesc, hd]

/-! ### New arenas -/

theorem fresh {c : ℕ} (hs : Fits s) (hc : 0 < c)
    (hclear : ∀ u, ∀ r ∈ s.heap.pages.live u, Clear (bytes (a, c)) (bytes r)) :
    (a, c) ∉ s.heap.arenas ∧ ∀ r ∈ s.heap.arenas, r.1 ≠ a := by
  have hne : ∀ r ∈ s.heap.arenas, r.1 ≠ a := by
    rintro r hr rfl
    have hclear := hclear false r (hs.held r hr)
    have hpages := (hs.sound hr).pages
    unfold Clear bytes pgSize at hclear
    omega
  exact ⟨fun hmem => hne _ hmem rfl, hne⟩

theorem getPages {c : ℕ} (hs : Fits s) (hc : 0 < c) :
    (s.heap.pages.getMultiple 0 c = .ok (s.heap.pages, 0) ∧ ¬ FreeRun s.heap.pages false c) ∨
    ∃ pages a, s.heap.pages.getMultiple 0 c = .ok (pages, a) ∧
      FreeRun s.heap.pages false c ∧ Palloc.Kept pages ∧
      pages.live false = (a, c) :: s.heap.pages.live false ∧ 0 < a ∧ a % pgSize = 0 ∧
      (a, c) ∉ s.heap.arenas ∧ ∀ r ∈ s.heap.arenas, r.1 ≠ a := by
  obtain ⟨pages, a, hget, hne, hkept, hlive, hwithin, hclear⟩ | hget := hs.pages.get_cases 0 hc
  · obtain ⟨i, hi, -⟩ := hwithin
    have haligned := hs.pages.layout.aligned (wantsUser 0)
    have hroom := (hs.pages.get_iff hc hget).mp hne
    refine .inr ⟨pages, a, hget, hroom, hkept, ?_, Nat.pos_of_ne_zero hne, ?_, hs.fresh hc hclear⟩
    · rw [hlive]
      rfl
    · have hi' : a = (s.heap.pages.pools (wantsUser 0)).base + pgSize * i := hi
      rw [hi']
      unfold pgSize at *
      omega
  · exact .inl ⟨hget, fun hroom => (hs.pages.get_iff hc hget).mpr hroom rfl⟩

/-- A block at the address of a new arena is on no list, and not live. -/
theorem not_of_roundDown (hs : Fits s) (hne : ∀ r ∈ s.heap.arenas, r.1 ≠ pgRoundDown b) :
    (∀ d, b ∉ s.heap.freeList d) ∧ ∀ x ∈ s.live, x.1 ≠ b := by
  constructor
  · intro d hb
    obtain ⟨r, hr, hd, hblock⟩ := hs.free d b hb
    exact hne r hr (hblock.roundDown (hd ▸ hs.sound hr)).symm
  · rintro x hx rfl
    obtain ⟨r, hr, hblock, -⟩ := hs.live x hx
    exact hne r hr (hblock.roundDown (hs.sound hr)).symm

/-- An arena is added, with all of its blocks on the empty free list of their descriptor. -/
theorem addArena {h : Heap} (hs : Fits s) (hd : d < descs.length) (hempty : s.heap.freeList d = [])
    (hsound : Sound (some d) (a, 1)) (hnew : (a, 1) ∉ s.heap.arenas)
    (hne : ∀ r ∈ s.heap.arenas, r.1 ≠ a) (hkept : Palloc.Kept h.pages)
    (hlive : h.pages.live false = (a, 1) :: s.heap.pages.live false)
    (harenas : h.arenas = (a, 1) :: s.heap.arenas)
    (hself : h.arena a = ⟨arenaMagic, some d, blocksPerArena d⟩)
    (hsame : ∀ r ∈ s.heap.arenas, h.arena r.1 = s.heap.arena r.1)
    (hfree : ∀ d', h.freeList d' = if d' = d then blocks a d else s.heap.freeList d') :
    Fits ⟨h, s.live⟩ := by
  have hblocks : ∀ b ∈ blocks a d, IsBlock (some d) (a, 1) (b, blockSize d) := by
    intro b hb
    obtain ⟨i, hi, rfl⟩ := mem_blocks.mp hb
    exact ⟨i, hi, rfl⟩
  have hdown : ∀ b ∈ blocks a d, pgRoundDown b = a := fun b hb => (hblocks b hb).roundDown hsound
  have hcases : ∀ r ∈ h.arenas, r = (a, 1) ∨ r ∈ s.heap.arenas := fun r hr =>
    List.mem_cons.mp (harenas ▸ hr)
  have hold : ∀ r ∈ s.heap.arenas, r ∈ h.arenas := fun r hr =>
    harenas ▸ List.mem_cons_of_mem _ hr
  refine ⟨hkept, harenas ▸ List.nodup_cons.mpr ⟨hnew, hs.arenas⟩, fun r hr => ?_, fun r hr => ?_,
    fun r hr x hx => ?_, fun d' => ?_, fun d' b hb => ?_, hs.live_nodup, fun x hx => ?_⟩
  · dsimp only
    rw [hlive]
    obtain rfl | hr := hcases r hr
    · exact List.mem_cons_self
    · exact List.mem_cons_of_mem _ (hs.held r hr)
  · obtain rfl | hr := hcases r hr
    · refine ⟨congrArg Arena.magic hself, fun d' hd' => ?_, fun hd' => ?_⟩
      · obtain rfl : d = d' := Option.some.inj ((congrArg Arena.desc hself).symm.trans hd')
        refine ⟨hd, rfl, (congrArg Arena.freeCnt hself).trans ?_⟩
        dsimp only [Heap.freeIn]
        rw [hfree, if_pos rfl, List.filter_eq_self.mpr fun b hb => decide_eq_true (hdown b hb),
          length_blocks]
      · cases (congrArg Arena.desc hself).symm.trans hd'
    · refine (hs.header r hr).congr (hsame r hr) fun d' _ => ?_
      dsimp only [Heap.freeIn]
      rw [hfree]
      split
      · rename_i hdd
        have hnil : (blocks a d).filter (fun b => pgRoundDown b = r.1) = [] :=
          List.filter_eq_nil_iff.mpr fun b hb h =>
            hne r hr ((of_decide_eq_true h).symm.trans (hdown b hb))
        rw [hdd, hempty, hnil]
        rfl
      · rfl
  · dsimp only at hx ⊢
    obtain rfl | hr := hcases r hr
    · rw [hself] at hx
      obtain ⟨i, hi, rfl⟩ := hx
      refine .inr ⟨d, congrArg Arena.desc hself, ?_⟩
      rw [hfree, if_pos rfl]
      exact mem_blocks.mpr ⟨i, hi, rfl⟩
    · rw [hsame r hr] at hx ⊢
      refine (hs.block r hr x hx).imp_right ?_
      rintro ⟨d', hd', hmem⟩
      refine ⟨d', hd', ?_⟩
      rw [hfree, if_neg]
      · exact hmem
      · rintro rfl
        rw [hempty] at hmem
        cases hmem
  · dsimp only
    rw [hfree]
    split
    · exact nodup_blocks hd
    · exact hs.free_nodup d'
  · dsimp only at hb
    rw [hfree] at hb
    split at hb
    · rename_i hdd
      subst hdd
      exact ⟨(a, 1), harenas ▸ List.mem_cons_self, congrArg Arena.desc hself, hblocks b hb⟩
    · obtain ⟨r, hr, hd', hblock⟩ := hs.free d' b hb
      exact ⟨r, hold r hr, (congrArg Arena.desc (hsame r hr)).trans hd', hblock⟩
  · obtain ⟨r, hr, hblock, hnot⟩ := hs.live x hx
    refine ⟨r, hold r hr, ?_, fun d' hmem => ?_⟩
    · dsimp only
      rw [hsame r hr]
      exact hblock
    · dsimp only at hmem
      rw [hfree] at hmem
      split at hmem
      · exact hne r hr ((hblock.roundDown (hs.sound hr)).symm.trans (hdown x.1 hmem))
      · exact hnot d' hmem

/-- **A new arena**, all of whose blocks are free. -/
theorem newArena (hs : Fits s) (hd : d < descs.length) (hempty : s.heap.freeList d = []) :
    (s.heap.newArena d = .ok none ∧ ¬ FreeRun s.heap.pages false 1) ∨
    ∃ h' a, s.heap.newArena d = .ok (some h') ∧ FreeRun s.heap.pages false 1 ∧ Fits ⟨h', s.live⟩ ∧
      h'.freeList d = blocks a d ∧ h'.arenas = (a, 1) :: s.heap.arenas ∧ a % pgSize = 0 ∧
      ∀ r ∈ s.heap.arenas, (h'.arena r.1).desc = (s.heap.arena r.1).desc := by
  rw [Heap.newArena]
  obtain ⟨hget, hnone⟩ | ⟨pages, a, hget, hroom, hkept, hlive, hpos, haligned, hnew, hne⟩ :=
    hs.getPages Nat.one_pos
  · rw [hget]
    exact .inl ⟨rfl, hnone⟩
  rw [hget, ok_bind]
  dsimp only
  rw [if_neg (Nat.pos_iff_ne_zero.mp hpos)]
  have hself : update s.heap.arena a ⟨arenaMagic, some d, blocksPerArena d⟩ a =
      ⟨arenaMagic, some d, blocksPerArena d⟩ := Function.update_self ..
  have hsame : ∀ r ∈ s.heap.arenas,
      update s.heap.arena a ⟨arenaMagic, some d, blocksPerArena d⟩ r.1 = s.heap.arena r.1 :=
    fun r hr => Function.update_of_ne (hne r hr) ..
  rw [addBlocks_eq hpos _ _ _ (congrArg Arena.magic hself) (congrArg Arena.desc hself) (by omega)]
  have hlist : s.heap.freeList d ++ (List.range' 0 (blocksPerArena d)).map (blockAt a d) =
      blocks a d := by
    rw [hempty]
    rfl
  simp only [ok_bind, hlist]
  have hsound : Sound (some d) (a, 1) :=
    ⟨haligned, hpos, Nat.one_pos, fun d' hd' => ⟨Option.some.inj hd' ▸ hd, rfl⟩⟩
  exact .inr ⟨_, a, rfl, hroom,
    hs.addArena hd hempty hsound hnew hne hkept hlive rfl hself hsame fun d' =>
      Function.update_apply .., Function.update_self .., rfl, haligned,
    fun r hr => congrArg Arena.desc (hsame r hr)⟩

/-- **A large block**, in pages of its own. -/
theorem bigBlock (hs : Fits s) (size : ℕ) :
    (s.heap.bigBlock size = .ok (s.heap, 0) ∧
      ¬ (0 < pagesFor size ∧ FreeRun s.heap.pages false (pagesFor size))) ∨
    ∃ h' r, s.heap.bigBlock size = .ok (h', r.1 + arenaSize) ∧
      (0 < pagesFor size ∧ FreeRun s.heap.pages false (pagesFor size)) ∧
      Fits ⟨h', (r.1 + arenaSize, h'.usableSize (r.1 + arenaSize)) :: s.live⟩ ∧
      h'.usableSize (r.1 + arenaSize) = pgSize * pagesFor size - arenaSize ∧
      h'.arenas = r :: s.heap.arenas ∧
      IsBlock (h'.arena r.1).desc r (r.1 + arenaSize, h'.usableSize (r.1 + arenaSize)) ∧
      ∀ r ∈ s.heap.arenas, (h'.arena r.1).desc = (s.heap.arena r.1).desc := by
  rw [Heap.bigBlock, pagesFor]
  generalize (size + arenaSize + pgSize - 1) % 2 ^ 32 / pgSize = c
  obtain rfl | hc := Nat.eq_zero_or_pos c
  · exact .inl ⟨rfl, fun hroom => Nat.lt_irrefl 0 hroom.1⟩
  obtain ⟨hget, hnone⟩ | ⟨pages, a, hget, hroom, hkept, hlive, hpos, haligned, hnew, hne⟩ :=
    hs.getPages hc
  · rw [hget]
    exact .inl ⟨rfl, fun hroom => hnone hroom.2⟩
  rw [hget, ok_bind]
  dsimp only
  rw [if_neg (Nat.pos_iff_ne_zero.mp hpos)]
  have hself : update s.heap.arena a ⟨arenaMagic, none, c⟩ a = ⟨arenaMagic, none, c⟩ :=
    Function.update_self ..
  have hsame : ∀ r ∈ s.heap.arenas,
      update s.heap.arena a ⟨arenaMagic, none, c⟩ r.1 = s.heap.arena r.1 :=
    fun r hr => Function.update_of_ne (hne r hr) ..
  generalize update s.heap.arena a ⟨arenaMagic, none, c⟩ = arena at hself hsame
  have hsound : Sound none (a, c) := ⟨haligned, hpos, hc, nofun⟩
  have hblock : IsBlock none (a, c) (a + arenaSize, pgSize * c - arenaSize) := rfl
  have hdown := hblock.roundDown hsound
  have hofs := hblock.ofs hsound
  dsimp only at hdown hofs
  have husable : Heap.usableSize ⟨pages, arena, s.heap.freeList, (a, c) :: s.heap.arenas⟩
      (a + arenaSize) = pgSize * c - arenaSize := by
    rw [Heap.usableSize, hdown]
    dsimp only
    rw [hself]
    dsimp only
    rw [show pgOfs (a + arenaSize) = arenaSize by omega]
  have hnot := hs.not_of_roundDown (b := a + arenaSize) (by rwa [hdown])
  refine .inr ⟨⟨pages, arena, s.heap.freeList, (a, c) :: s.heap.arenas⟩, (a, c), rfl, ⟨hc, hroom⟩,
    ?_, husable, rfl, ?_, fun r hr => congrArg Arena.desc (hsame r hr)⟩
  · rw [husable]
    refine ⟨hkept, List.nodup_cons.mpr ⟨hnew, hs.arenas⟩, fun r hr => ?_, fun r hr => ?_,
      fun r hr x hx => ?_, hs.free_nodup, fun d' b hb => ?_, ?_, fun x hx => ?_⟩
    · dsimp only at hr ⊢
      rw [hlive]
      obtain rfl | hr := List.mem_cons.mp hr
      · exact List.mem_cons_self
      · exact List.mem_cons_of_mem _ (hs.held r hr)
    · obtain rfl | hr := List.mem_cons.mp hr
      · refine ⟨congrArg Arena.magic hself, fun d' hd' => ?_,
          fun _ => congrArg Arena.freeCnt hself⟩
        cases (congrArg Arena.desc hself).symm.trans hd'
      · exact (hs.header r hr).congr (hsame r hr) fun _ _ => rfl
    · dsimp only at hx ⊢
      obtain rfl | hr := List.mem_cons.mp hr
      · rw [hself] at hx
        obtain rfl := hx
        exact .inl List.mem_cons_self
      · rw [hsame r hr] at hx ⊢
        exact (hs.block r hr x hx).imp_left (List.mem_cons_of_mem _)
    · obtain ⟨r, hr, hd', hblock'⟩ := hs.free d' b hb
      exact ⟨r, List.mem_cons_of_mem _ hr, (congrArg Arena.desc (hsame r hr)).trans hd', hblock'⟩
    · exact List.nodup_cons.mpr ⟨fun hmem => hnot.2 _ hmem rfl, hs.live_nodup⟩
    · obtain rfl | hx := List.mem_cons.mp hx
      · refine ⟨(a, c), List.mem_cons_self, ?_, hnot.1⟩
        dsimp only
        rw [hself]
        exact hblock
      · obtain ⟨r, hr, hblock', hnot'⟩ := hs.live x hx
        refine ⟨r, List.mem_cons_of_mem _ hr, ?_, hnot'⟩
        dsimp only
        rw [hsame r hr]
        exact hblock'
  · rw [husable]
    dsimp only
    rw [hself]
    exact hblock

end Fits

/-- The bytes of a block for a request. -/
def provided (size : ℕ) : ℕ :=
  match findDesc size with
  | some d => blockSize d
  | none => pgSize * pagesFor size - arenaSize

theorem le_provided (hsize : size + arenaSize + pgSize - 1 < 2 ^ 32) : size ≤ provided size := by
  unfold provided
  split
  · rename_i d hfind
    exact (findDesc_eq_some hfind).2
  · rw [pagesFor, Nat.mod_eq_of_lt hsize]
    unfold pgSize arenaSize at *
    omega

/-- `malloc` finds memory for a request. -/
def Room (h : Heap) (size : ℕ) : Prop :=
  size ≠ 0 ∧ match findDesc size with
  | some d => h.freeList d ≠ [] ∨ FreeRun h.pages false 1
  | none => 0 < pagesFor size ∧ FreeRun h.pages false (pagesFor size)

theorem Needed.mono (hn : Needed s r) (hlive : ∀ x ∈ s.live, x ∈ s'.live)
    (hdesc : (s'.heap.arena r.1).desc = (s.heap.arena r.1).desc) : Needed s' r := by
  obtain ⟨x, hx, hblock⟩ := hn
  exact ⟨x, hlive x hx, hdesc.symm ▸ hblock⟩

/-- **`malloc`**: no assertion fails, and a block is returned if there is room for it. -/
theorem Kept.malloc (hk : Kept s) (size : ℕ) :
    (s.heap.malloc size = .ok (s.heap, 0) ∧ ¬ Room s.heap size) ∨
    ∃ h' p, s.heap.malloc size = .ok (h', p) ∧ Room s.heap size ∧ p ≠ 0 ∧
      h'.usableSize p = provided size ∧ (∀ r ∈ s.heap.arenas, r ∈ h'.arenas) ∧
      Kept ⟨h', (p, h'.usableSize p) :: s.live⟩ := by
  have hs := hk.toFits
  rw [Heap.malloc, Room]
  by_cases hzero : size = 0
  · rw [if_pos hzero]
    exact .inl ⟨rfl, fun hroom => hroom.1 hzero⟩
  rw [if_neg hzero]
  cases hfind : findDesc size with
  | none =>
      obtain ⟨hbig, hnone⟩ | ⟨h', r, hbig, hroom, hfits, husable, harenas, hblock, hdesc⟩ :=
        hs.bigBlock size
      · exact .inl ⟨hbig, fun hroom => hnone hroom.2⟩
      · refine .inr ⟨h', _, hbig, ⟨hzero, hroom⟩, by unfold arenaSize; omega, ?_, fun r' hr' => ?_, hfits,
          fun r' hr' => ?_⟩
        · rw [husable, provided, hfind]
        · rw [harenas]
          exact List.mem_cons_of_mem _ hr'
        dsimp only at hr'
        rw [harenas] at hr'
        obtain rfl | hr' := List.mem_cons.mp hr'
        · exact ⟨_, List.mem_cons_self, hblock⟩
        · exact (hk.needed r' hr').mono (fun x => List.mem_cons_of_mem _) (hdesc r' hr')
  | some d =>
      obtain ⟨hd, -⟩ := findDesc_eq_some hfind
      have hprovided : provided size = blockSize d := by rw [provided, hfind]
      dsimp only
      cases hlist : s.heap.freeList d with
      | cons b rest =>
          obtain ⟨h', htake, hfits, -, harenas, hdesc, hpos, husable⟩ := hs.takeBlock hlist
          refine .inr ⟨h', b, htake, ⟨hzero, .inl (List.cons_ne_nil b rest)⟩, Nat.pos_iff_ne_zero.mp hpos,
            husable.trans hprovided.symm,
            fun r hr => harenas.symm ▸ hr, ?_⟩
          rw [husable]
          refine ⟨hfits, fun r hr => ?_⟩
          dsimp only at hr
          rw [harenas] at hr
          exact (hk.needed r hr).mono (fun x => List.mem_cons_of_mem _) (hdesc r.1)
      | nil =>
          obtain ⟨hnew, hnone⟩ | ⟨h₁, a, hnew, hroom, hfits₁, hfree, harenas₁, haligned, hdesc₁⟩ :=
            hs.newArena hd hlist
          · refine .inl ⟨?_, ?_⟩
            · rw [List.isEmpty_nil, if_pos rfl, hnew]
              rfl
            · rintro ⟨-, hlist | hroom⟩
              · exact hlist rfl
              · exact hnone hroom
          rw [List.isEmpty_nil, if_pos rfl, hnew]
          -- the first block of the new arena is taken
          obtain ⟨b, rest, hblocks⟩ : ∃ b rest, blocks a d = b :: rest := by
            refine List.exists_cons_of_length_pos ?_
            rw [length_blocks]
            exact (desc_bounds hd).2.1
          obtain ⟨h', htake, hfits, -, harenas, hdesc, hpos, husable⟩ :=
            hfits₁.takeBlock (hfree.trans hblocks)
          refine .inr ⟨h', b, htake, ⟨hzero, .inr hroom⟩, Nat.pos_iff_ne_zero.mp hpos,
            husable.trans hprovided.symm,
            fun r hr => ?_, ?_⟩
          · rw [harenas, harenas₁]
            exact List.mem_cons_of_mem _ hr
          rw [husable]
          refine ⟨hfits, fun r hr => ?_⟩
          dsimp only at hr
          rw [harenas, harenas₁] at hr
          obtain rfl | hr := List.mem_cons.mp hr
          · obtain ⟨i, hi, hb⟩ := mem_blocks.mp (hblocks ▸ List.mem_cons_self : b ∈ blocks a d)
            have hmem : b ∈ h₁.freeList d := by
              rw [hfree, hblocks]
              exact List.mem_cons_self
            have hdown : pgRoundDown b = a := by
              have hend := blockAt_end (a := a) hd hi
              rw [← hb] at hend
              have hsize := (desc_bounds hd).1
              unfold blockAt at hb
              unfold pgRoundDown pgSize at *
              omega
            have hblock := hfits₁.free_arena hmem (harenas₁ ▸ List.mem_cons_self) hdown
            exact ⟨(b, blockSize d), List.mem_cons_self,
              ((hdesc a).trans hblock.1).symm ▸ hblock.2⟩
          · exact (hk.needed r hr).mono (fun x => List.mem_cons_of_mem _)
              ((hdesc r.1).trans (hdesc₁ r hr))

/-! ### Giving a block back -/

namespace Fits

theorem overwrite (hs : Fits s) (hclear : ∀ r ∈ s.heap.arenas, Clear (r.1, arenaSize) x)
    (junk : ℕ → Arena) : Fits ⟨s.heap.overwrite x junk, s.live⟩ ∧
      ∀ r ∈ s.heap.arenas, (s.heap.overwrite x junk).arena r.1 = s.heap.arena r.1 := by
  have hsame : ∀ r ∈ s.heap.arenas,
      (s.heap.overwrite x junk).arena r.1 = s.heap.arena r.1 := fun r hr =>
    if_neg (not_not_intro (hclear r hr))
  exact ⟨hs.of_arena hsame, hsame⟩

theorem clear_live (hs : Fits s) (hx : x ∈ s.live) (hr : r ∈ s.heap.arenas) :
    Clear (r.1, arenaSize) x := by
  obtain ⟨r', hr', hblock, -⟩ := hs.live x hx
  exact hs.clear_header hr' hr hblock

theorem clear_pages {user : Bool} (hs : Fits s) (hx : x ∈ s.heap.pages.live user)
    (hnot : x ∉ s.heap.arenas) (hr : r ∈ s.heap.arenas) : Clear (r.1, arenaSize) (bytes x) := by
  have hne : r ≠ x := by
    rintro rfl
    exact hnot hr
  have hclear := hs.pages.clear (hs.held r hr) hx hne
  have hpages := (hs.sound hr).pages
  unfold Clear bytes pgSize arenaSize at *
  dsimp only at *
  omega

/-- The pages of an arena without live blocks, whose free blocks have been taken off the lists, go
back to the page allocator. -/
theorem giveBack {freeList : ℕ → List ℕ} {live : List (ℕ × ℕ)} (hs : Fits s)
    (hr : r ∈ s.heap.arenas)
    (hfree : ∀ d b, b ∈ freeList d ↔ b ∈ s.heap.freeList d ∧ pgRoundDown b ≠ r.1)
    (hnodup : ∀ d, (freeList d).Nodup)
    (hlive : ∀ x, x ∈ live ↔ x ∈ s.live ∧ pgRoundDown x.1 ≠ r.1) (hlive_nodup : live.Nodup) :
    ∃ h', Heap.giveBack { s.heap with freeList } r.1 r.2 = .ok h' ∧ Fits ⟨h', live⟩ ∧
      h'.arenas = s.heap.arenas.erase r ∧
      (∀ r' ∈ h'.arenas, h'.arena r'.1 = s.heap.arena r'.1) ∧
      s.heap.pages.freeMultiple r.1 r.2 = .ok h'.pages := by
  obtain ⟨pages, hpages, hkept, hheld⟩ := hs.pages.free_eq (hs.held r hr)
  have hmem : ∀ r' ∈ s.heap.arenas.erase r, r' ∈ s.heap.arenas ∧ r' ≠ r := fun r' hr' =>
    ⟨List.mem_of_mem_erase hr', (hs.arenas.mem_erase_iff.mp hr').1⟩
  have hne : ∀ r' ∈ s.heap.arenas.erase r, r'.1 ≠ r.1 := fun r' hr' he =>
    (hmem r' hr').2 (hs.arena_ext (hmem r' hr').1 hr he)
  let arena : ℕ → Arena := fun a =>
    if Overwritten (bytes (r.1, r.2)) a then cleared else s.heap.arena a
  have hsame : ∀ r' ∈ s.heap.arenas.erase r, arena r'.1 = s.heap.arena r'.1 := by
    intro r' hr'
    refine if_neg (not_not_intro ?_)
    have hclear := hs.clear_arenas (hmem r' hr').1 hr (hmem r' hr').2
    have := (hs.sound (hmem r' hr').1).pages
    unfold Clear bytes pgSize arenaSize at *
    dsimp only at *
    omega
  refine ⟨⟨pages, arena, freeList, s.heap.arenas.erase r⟩, ?_, ?_, rfl, hsame, hpages⟩
  · rw [Heap.giveBack]
    dsimp only
    rw [hpages]
    rfl
  generalize arena = arena at hsame
  refine ⟨hkept, hs.arenas.erase r, fun r' hr' => ?_, fun r' hr' => ?_, fun r' hr' x hx => ?_,
    hnodup, fun d b hb => ?_, hlive_nodup, fun x hx => ?_⟩
  · dsimp only at hr' ⊢
    rw [hheld]
    exact (List.mem_erase_of_ne (hmem r' hr').2).mpr (hs.held r' (hmem r' hr').1)
  · refine (hs.header r' (hmem r' hr').1).congr (hsame r' hr') fun d _ => List.Perm.length_eq ?_
    refine (List.perm_ext_iff_of_nodup ((hnodup d).filter _) hs.freeIn_nodup).mpr fun b => ?_
    rw [Heap.freeIn, List.mem_filter, List.mem_filter, hfree]
    constructor
    · rintro ⟨⟨hb, -⟩, hdown⟩
      exact ⟨hb, hdown⟩
    · rintro ⟨hb, hdown⟩
      exact ⟨⟨hb, fun he => hne r' hr' ((of_decide_eq_true hdown).symm.trans he)⟩, hdown⟩
  · dsimp only at hx ⊢
    rw [hsame r' hr'] at hx ⊢
    have hdown := hx.roundDown (hs.sound (hmem r' hr').1)
    have hother : pgRoundDown x.1 ≠ r.1 := hdown ▸ hne r' hr'
    obtain hl | ⟨d, hd, hf⟩ := hs.block r' (hmem r' hr').1 x hx
    · exact .inl ((hlive x).mpr ⟨hl, hother⟩)
    · exact .inr ⟨d, hd, (hfree d x.1).mpr ⟨hf, hother⟩⟩
  · obtain ⟨hb, hdown⟩ := (hfree d b).mp hb
    obtain ⟨r', hr', hd, hblock⟩ := hs.free d b hb
    have hrr : r' ≠ r := by
      rintro rfl
      exact hdown (hblock.roundDown (hd ▸ hs.sound hr'))
    have hr'' := (List.mem_erase_of_ne hrr).mpr hr'
    exact ⟨r', hr'', (congrArg Arena.desc (hsame r' hr'')).trans hd, hblock⟩
  · obtain ⟨hx, hdown⟩ := (hlive x).mp hx
    obtain ⟨r', hr', hblock, hnot⟩ := hs.live x hx
    have hrr : r' ≠ r := by
      rintro rfl
      exact hdown (hblock.roundDown (hs.sound hr'))
    have hr'' := (List.mem_erase_of_ne hrr).mpr hr'
    refine ⟨r', hr'', ?_, fun d hd => hnot d ((hfree d x.1).mp hd).1⟩
    dsimp only
    rw [hsame r' hr'']
    exact hblock

/-- **A live block goes to the free list.** -/
theorem releaseBlock (hs : Fits s) (hr : r ∈ s.heap.arenas)
    (hd : (s.heap.arena r.1).desc = some d) (hblock : IsBlock (some d) r (b, blockSize d))
    (hlive : (b, blockSize d) ∈ s.live) :
    Fits ⟨Heap.setFreeCnt
      { s.heap with freeList := update s.heap.freeList d (b :: s.heap.freeList d) }
      r.1 ((s.heap.arena r.1).freeCnt + 1), s.live.filter fun x => x.1 ≠ b⟩ := by
  have hsound := hs.sound hr
  have hdown : pgRoundDown b = r.1 := hblock.roundDown (hd ▸ hsound)
  have hnot : ∀ d', b ∉ s.heap.freeList d' := by
    obtain ⟨-, -, -, hnot⟩ := hs.live _ hlive
    exact hnot
  let pushed : Heap :=
    { s.heap with freeList := update s.heap.freeList d (b :: s.heap.freeList d) }
  change Fits ⟨pushed.setFreeCnt r.1 ((s.heap.arena r.1).freeCnt + 1), _⟩
  have hlist : ∀ d', pushed.freeList d' =
      if d' = d then b :: s.heap.freeList d else s.heap.freeList d' := fun d' =>
    Function.update_apply ..
  have hmem : ∀ d' c, c ∈ pushed.freeList d' ↔ d' = d ∧ c = b ∨ c ∈ s.heap.freeList d' := by
    intro d' c
    rw [hlist]
    split
    · rename_i hdd
      subst hdd
      simp only [List.mem_cons, true_and]
    · rename_i hdd
      simp only [hdd, false_and, false_or]
  have hdesc := pushed.setFreeCnt_desc r.1 ((s.heap.arena r.1).freeCnt + 1)
  refine ⟨hs.pages, hs.arenas, hs.held, fun r' hr' => ⟨?_, fun d' hnew => ?_, fun hnew => ?_⟩,
    fun r' hr' x hx => ?_, fun d' => ?_, fun d' c hc => ?_, hs.live_nodup.filter _,
    fun x hx => ?_⟩
  · exact (pushed.setFreeCnt_magic ..).trans (hs.header r' hr').magic
  · have hd' : (s.heap.arena r'.1).desc = some d' := (hdesc r'.1).symm.trans hnew
    obtain ⟨hdlt, hone, hcnt⟩ := (hs.header r' hr').small d' hd'
    refine ⟨hdlt, hone, (pushed.setFreeCnt_freeCnt ..).trans ?_⟩
    have hfree : pushed.freeIn d' r'.1 =
        if r'.1 = r.1 then b :: s.heap.freeIn d' r'.1 else s.heap.freeIn d' r'.1 := by
      rw [Heap.freeIn, Heap.freeIn, hlist]
      by_cases hrr : r'.1 = r.1
      · obtain rfl := hs.arena_ext hr' hr hrr
        obtain rfl : d = d' := Option.some.inj (hd.symm.trans hd')
        rw [if_pos rfl, if_pos rfl, List.filter_cons_of_pos (by simpa using hdown)]
      · rw [if_neg hrr]
        split
        · rename_i hdd
          rw [hdd, List.filter_cons_of_neg (by simpa [hdown] using Ne.symm hrr)]
        · rfl
    have hlen := congrArg List.length hfree
    split
    · rename_i hrr
      rw [if_pos hrr, List.length_cons] at hlen
      rw [← hrr, hcnt]
      exact hlen.symm
    · rename_i hrr
      rw [if_neg hrr] at hlen
      exact hcnt.trans hlen.symm
  · have hd' : (s.heap.arena r'.1).desc = none := (hdesc r'.1).symm.trans hnew
    refine (pushed.setFreeCnt_freeCnt ..).trans ?_
    rw [if_neg fun hrr => by
      rw [hrr, hd] at hd'
      cases hd']
    exact (hs.header r' hr').big hd'
  · rw [hdesc] at hx ⊢
    by_cases hxb : x.1 = b
    · obtain rfl := hs.block_arena hr' hr hx (y := (b, blockSize d)) (hd ▸ hblock) hxb
      exact .inr ⟨d, hd, (hmem d x.1).mpr (.inl ⟨rfl, hxb⟩)⟩
    · obtain hl | ⟨d', hd', hf⟩ := hs.block r' hr' x hx
      · exact .inl (List.mem_filter.mpr ⟨hl, decide_eq_true hxb⟩)
      · exact .inr ⟨d', hd', (hmem d' x.1).mpr (.inr hf)⟩
  · change (pushed.freeList d').Nodup
    rw [hlist]
    split
    · exact List.nodup_cons.mpr ⟨hnot d, hs.free_nodup d⟩
    · exact hs.free_nodup d'
  · obtain ⟨rfl, rfl⟩ | hc := (hmem d' c).mp hc
    · exact ⟨r, hr, (hdesc r.1).trans hd, hblock⟩
    · obtain ⟨r', hr', hd', hblock'⟩ := hs.free d' c hc
      exact ⟨r', hr', (hdesc r'.1).trans hd', hblock'⟩
  · obtain ⟨hx, hne⟩ := List.mem_filter.mp hx
    obtain ⟨r', hr', hblock', hfree⟩ := hs.live x hx
    refine ⟨r', hr', (hdesc r'.1).symm ▸ hblock', fun d' hc => ?_⟩
    obtain ⟨-, hxb⟩ | hc := (hmem d' x.1).mp hc
    · exact of_decide_eq_true hne hxb
    · exact hfree d' hc

theorem mem_blocks_iff (hs : Fits s) (hr : r ∈ s.heap.arenas)
    (hd : (s.heap.arena r.1).desc = some d) {d' : ℕ} (hb : b ∈ s.heap.freeList d') :
    b ∈ blocks r.1 d ↔ pgRoundDown b = r.1 := by
  constructor
  · intro hmem
    obtain ⟨i, hi, rfl⟩ := mem_blocks.mp hmem
    have hblock : IsBlock (some d) r (blockAt r.1 d i, blockSize d) := ⟨i, hi, rfl⟩
    exact hblock.roundDown (hd ▸ hs.sound hr)
  · intro hdown
    obtain ⟨hd', i, hi, heq⟩ := hs.free_arena hb hr hdown
    obtain rfl : d = d' := Option.some.inj (hd.symm.trans hd')
    exact mem_blocks.mpr ⟨i, hi, congrArg Prod.fst heq⟩

/-- An arena has a live block if not all of its blocks are free. -/
theorem exists_live (hs : Fits s) (hr : r ∈ s.heap.arenas)
    (hd : (s.heap.arena r.1).desc = some d)
    (hlt : (s.heap.freeIn d r.1).length < blocksPerArena d) :
    ∃ y ∈ s.live, IsBlock (some d) r y := by
  have hnot : ¬ blocks r.1 d ⊆ s.heap.freeIn d r.1 := by
    intro hsub
    have hle := (List.subperm_of_subset (nodup_blocks (hs.header r hr |>.small d hd).1)
      hsub).length_le
    rw [length_blocks] at hle
    omega
  obtain ⟨c, hc, hfree⟩ : ∃ c ∈ blocks r.1 d, c ∉ s.heap.freeIn d r.1 := by
    simpa only [List.subset_def, not_forall, exists_prop] using hnot
  obtain ⟨i, hi, rfl⟩ := mem_blocks.mp hc
  have hblock : IsBlock (some d) r (blockAt r.1 d i, blockSize d) := ⟨i, hi, rfl⟩
  obtain hlive | ⟨d', hd', hmem⟩ := hs.block r hr _ (hd.symm ▸ hblock)
  · exact ⟨_, hlive, hblock⟩
  · obtain rfl : d = d' := Option.some.inj (hd.symm.trans hd')
    have hdown := (hs.mem_blocks_iff hr hd hmem).mp hc
    exact absurd (List.mem_filter.mpr ⟨hmem, decide_eq_true hdown⟩) hfree

theorem not_live (hs : Fits s) (hr : r ∈ s.heap.arenas)
    (hd : (s.heap.arena r.1).desc = some d)
    (heq : (s.heap.freeIn d r.1).length = blocksPerArena d) :
    ∀ y ∈ s.live, pgRoundDown y.1 ≠ r.1 := by
  intro y hy hdown
  obtain ⟨r', hr', hblock, hnot⟩ := hs.live y hy
  obtain rfl := hs.arena_ext hr hr' (hdown.symm.trans (hblock.roundDown (hs.sound hr')))
  rw [hd] at hblock
  obtain ⟨i, hi, rfl⟩ := hblock
  have hperm : (s.heap.freeIn d r.1).Perm (blocks r.1 d) := by
    refine (List.subperm_of_subset hs.freeIn_nodup (hs.freeIn_subset hr)).perm_of_length_le ?_
    rw [length_blocks, heq]
  have hmem : blockAt r.1 d i ∈ s.heap.freeIn d r.1 :=
    hperm.mem_iff.mpr (mem_blocks.mpr ⟨i, hi, rfl⟩)
  exact hnot d (List.mem_filter.mp hmem).1

end Fits

/-- What `free` does to the pages of the arena `r` of the live block `x`: they go back to the page
allocator if no other block of the arena is live, and else stay. -/
structure Returned (s : State) (r x : ℕ × ℕ) (h' : Heap) : Prop where
  desc : ∀ r' ∈ h'.arenas, r' ∈ s.heap.arenas ∧ (h'.arena r'.1).desc = (s.heap.arena r'.1).desc
  last : (∀ y ∈ s.live, IsBlock (s.heap.arena r.1).desc r y → y = x) →
    s.heap.pages.freeMultiple r.1 r.2 = .ok h'.pages ∧ h'.arenas = s.heap.arenas.erase r
  other : (∃ y ∈ s.live, IsBlock (s.heap.arena r.1).desc r y ∧ y ≠ x) →
    h'.pages = s.heap.pages ∧ h'.arenas = s.heap.arenas

namespace Fits

/-- **The end of `free`** for a block of an arena. -/
theorem freeSmall (hs : Fits s) (hr : r ∈ s.heap.arenas)
    (hd : (s.heap.arena r.1).desc = some d) (hblock : IsBlock (some d) r (b, blockSize d))
    (hlive : (b, blockSize d) ∈ s.live) :
    ∃ h', s.heap.freeSmall b r.1 d = .ok h' ∧ Fits ⟨h', s.live.filter fun x => x.1 ≠ b⟩ ∧
      Returned s r (b, blockSize d) h' := by
  have hcnt := (hs.header r hr).small d hd
  have hle := hs.length_freeIn_le (d := d) hr
  have hmod : ((s.heap.arena r.1).freeCnt + 1) % 2 ^ 32 = (s.heap.arena r.1).freeCnt + 1 := by
    have hmul := Nat.le_mul_of_pos_right (blocksPerArena d) (desc_bounds hcnt.1).1
    have hbound := (desc_bounds hcnt.1).2.2
    rw [hcnt.2.2]
    unfold pgSize arenaSize at hbound
    omega
  have hs₁ := hs.releaseBlock hr hd hblock hlive
  let pushed : Heap :=
    { s.heap with freeList := update s.heap.freeList d (b :: s.heap.freeList d) }
  change Fits ⟨pushed.setFreeCnt r.1 ((s.heap.arena r.1).freeCnt + 1), _⟩ at hs₁
  have hdesc : ∀ a, _ = (s.heap.arena a).desc :=
    pushed.setFreeCnt_desc r.1 ((s.heap.arena r.1).freeCnt + 1)
  have hunfold : s.heap.freeSmall b r.1 d = (do
      let h := pushed.setFreeCnt r.1 (((s.heap.arena r.1).freeCnt + 1) % 2 ^ 32)
      if (h.arena r.1).freeCnt ≥ blocksPerArena d then
        assert ((h.arena r.1).freeCnt = blocksPerArena d)
        let h ← Heap.removeBlocks r.1 0 (blocksPerArena d) h
        h.giveBack r.1 1
      else return h) := rfl
  rw [hunfold, hmod]
  have hpages₁ : (pushed.setFreeCnt r.1 ((s.heap.arena r.1).freeCnt + 1)).pages = s.heap.pages :=
    rfl
  have harenas₁ : (pushed.setFreeCnt r.1 ((s.heap.arena r.1).freeCnt + 1)).arenas =
    s.heap.arenas := rfl
  generalize pushed.setFreeCnt r.1 ((s.heap.arena r.1).freeCnt + 1) = h₁ at *
  have hr₁ : r ∈ h₁.arenas := harenas₁ ▸ hr
  have hd₁ : (h₁.arena r.1).desc = some d := (hdesc r.1).trans hd
  have hcnt₁ := ((hs₁.header r hr₁).small d hd₁).2.2
  have hle₁ := hs₁.length_freeIn_le (d := d) hr₁
  dsimp only at hcnt₁ hle₁ ⊢
  by_cases hlast : blocksPerArena d ≤ (h₁.arena r.1).freeCnt
  · -- all blocks of the arena are free
    have heq : (h₁.arena r.1).freeCnt = blocksPerArena d := by omega
    have hnone := hs₁.not_live hr₁ hd₁ (hcnt₁.symm.trans heq)
    rw [if_pos hlast, assert_pos heq, ok_bind,
      removeBlocks_eq (hs₁.sound hr₁).pos _ _ _ (hs₁.header r hr₁).magic hd₁ (by omega), ok_bind]
    have hfree : ∀ d' c, c ∈ (h₁.freeList d').diff (blocks r.1 d) ↔
        c ∈ h₁.freeList d' ∧ pgRoundDown c ≠ r.1 := by
      intro d' c
      rw [(hs₁.free_nodup d').mem_sdiff_iff]
      exact and_congr_right fun hc => not_congr (hs₁.mem_blocks_iff hr₁ hd₁ hc)
    obtain ⟨h', hback, hfits, harenas, hsame, hpages⟩ := hs₁.giveBack hr₁ hfree
      (fun d' => (hs₁.free_nodup d').diff) (fun x => ⟨fun hx => ⟨hx, hnone x hx⟩, And.left⟩)
      (hs.live_nodup.filter _)
    rw [hcnt.2.1] at hback
    refine ⟨h', hback, hfits, fun r' hr' => ⟨?_, ?_⟩, fun _ => ?_, ?_⟩
    · rw [harenas, harenas₁] at hr'
      exact List.mem_of_mem_erase hr'
    · rw [hsame r' hr']
      exact hdesc r'.1
    · rw [← hpages₁, ← harenas₁]
      exact ⟨hpages, harenas⟩
    · rintro ⟨y, hy, hyblock, hne⟩
      have hyb : y.1 ≠ b := fun he => hne (hs.live_ext hy hlive he)
      exact absurd (hyblock.roundDown (hs.sound hr))
        (hnone y (List.mem_filter.mpr ⟨hy, decide_eq_true hyb⟩))
  · -- another block of the arena is live
    have hlt : (h₁.freeIn d r.1).length < blocksPerArena d := by omega
    obtain ⟨y, hy, hyblock⟩ := hs₁.exists_live hr₁ hd₁ hlt
    obtain ⟨hylive, hyb⟩ := List.mem_filter.mp hy
    rw [if_neg hlast]
    refine ⟨h₁, rfl, hs₁, fun r' hr' => ⟨harenas₁ ▸ hr', hdesc r'.1⟩, fun hall => ?_,
      fun _ => ⟨hpages₁, harenas₁⟩⟩
    have hyx := hall y hylive (hd.symm ▸ hyblock)
    exact absurd (congrArg Prod.fst hyx) (of_decide_eq_true hyb)

/-- **`free`** of a live block: no assertion fails. -/
theorem free_live (hs : Fits s) (hx : x ∈ s.live) :
    ∃ r ∈ s.heap.arenas, IsBlock (s.heap.arena r.1).desc r x ∧ ∃ h', s.heap.free x.1 = .ok h' ∧
      Fits ⟨h', s.live.filter fun y => y.1 ≠ x.1⟩ ∧ Returned s r x h' := by
  obtain ⟨r, hr, hblock, -⟩ := hs.live x hx
  refine ⟨r, hr, hblock, ?_⟩
  have hsound := hs.sound hr
  have hdown := hblock.roundDown hsound
  have hin := hblock.within hsound
  have hne : x.1 ≠ 0 := by
    unfold arenaSize at hin
    omega
  have hfound := hs.blockToArena_eq hr hblock
  rw [Heap.free, if_neg hne, hfound, ok_bind]
  cases hdesc : (s.heap.arena r.1).desc with
  | some d =>
      rw [hdesc] at hblock
      obtain ⟨hfits, hsame⟩ := hs.overwrite (fun _ => hs.clear_live hx) fun _ => cleared
      have hxd : x = (x.1, blockSize d) := by
        obtain ⟨i, -, rfl⟩ := hblock
        rfl
      rw [hxd] at hblock hx
      obtain ⟨h', hfree, hfits', hdesc', hlast, hother⟩ :=
        hfits.freeSmall hr ((congrArg Arena.desc (hsame r hr)).trans hdesc) hblock hx
      dsimp only at hdesc' hlast hother
      rw [hsame r hr, ← hxd] at hlast hother
      rw [hxd] at hfree
      refine ⟨h', hfree, hfits', fun r' hr' => ?_, hlast, hother⟩
      obtain ⟨hmem, heq⟩ := hdesc' r' hr'
      exact ⟨hmem, heq.trans (congrArg Arena.desc (hsame r' hmem))⟩
  | none =>
      have hbig := (hs.header r hr).big hdesc
      have hfree : ∀ d b, b ∈ s.heap.freeList d ↔
          b ∈ s.heap.freeList d ∧ pgRoundDown b ≠ r.1 := by
        refine fun d b => ⟨fun hb => ⟨hb, fun hdown' => ?_⟩, And.left⟩
        have hd := (hs.free_arena hb hr hdown').1
        cases hdesc.symm.trans hd
      have honly : ∀ y ∈ s.live, pgRoundDown y.1 = r.1 → y = x := by
        intro y hy hdown'
        obtain ⟨r', hr', hblock', -⟩ := hs.live y hy
        obtain rfl := hs.arena_ext hr hr' (hdown'.symm.trans (hblock'.roundDown (hs.sound hr')))
        rw [hdesc] at hblock hblock'
        exact Eq.trans hblock' (Eq.symm hblock)
      have hlive : ∀ y, y ∈ (s.live.filter fun y => y.1 ≠ x.1) ↔
          y ∈ s.live ∧ pgRoundDown y.1 ≠ r.1 := by
        intro y
        rw [List.mem_filter, decide_eq_true_iff]
        refine and_congr_right fun hy => not_congr ⟨fun he => ?_, fun hdown' => ?_⟩
        · rw [he, hdown]
        · rw [honly y hy hdown']
      obtain ⟨h', hback, hfits, harenas, hsame, hpages⟩ :=
        hs.giveBack hr hfree hs.free_nodup hlive (hs.live_nodup.filter _)
      dsimp only
      rw [hbig]
      refine ⟨h', hback, hfits, fun r' hr' => ⟨?_, congrArg Arena.desc (hsame r' hr')⟩,
        fun _ => ⟨hpages, harenas⟩, ?_⟩
      · rw [harenas] at hr'
        exact List.mem_of_mem_erase hr'
      · rintro ⟨y, hy, hyblock, hyx⟩
        exact absurd (honly y hy (hyblock.roundDown hsound)) hyx

end Fits

/-- **`free`** keeps the invariant. -/
theorem Kept.free_live (hk : Kept s) (hx : x ∈ s.live) :
    ∃ r ∈ s.heap.arenas, IsBlock (s.heap.arena r.1).desc r x ∧ ∃ h', s.heap.free x.1 = .ok h' ∧
      Kept ⟨h', s.live.filter fun y => y.1 ≠ x.1⟩ ∧ Returned s r x h' := by
  have hs := hk.toFits
  obtain ⟨r, hr, hblock, h', hfree, hfits, hret⟩ := hs.free_live hx
  refine ⟨r, hr, hblock, h', hfree, ⟨hfits, fun r' hr' => ?_⟩, hret⟩
  obtain ⟨hmem, hdesc⟩ := hret.desc r' hr'
  have hsome : ∃ y ∈ s.live, IsBlock (s.heap.arena r'.1).desc r' y ∧ y ≠ x := by
    by_cases hrr : r' = r
    · subst hrr
      by_contra hnone
      -- the arena would be gone
      have hlast := hret.last fun y hy hyblock => by
        by_contra hne
        exact hnone ⟨y, hy, hyblock, hne⟩
      dsimp only at hr'
      rw [hlast.2] at hr'
      exact (hs.arenas.mem_erase_iff.mp hr').1 rfl
    · obtain ⟨y, hy, hyblock⟩ := hk.needed r' hmem
      refine ⟨y, hy, hyblock, ?_⟩
      rintro rfl
      exact hrr (hs.block_arena hmem hr hyblock hblock rfl)
  obtain ⟨y, hy, hyblock, hne⟩ := hsome
  refine ⟨y, List.mem_filter.mpr ⟨hy, decide_eq_true fun he => hne (hs.live_ext hy hx he)⟩, ?_⟩
  exact hdesc.symm ▸ hyblock

/-! ### Every run -/

theorem Kept.overwrite (hk : Kept s) (hclear : ∀ r ∈ s.heap.arenas, Clear (r.1, arenaSize) x)
    (junk : ℕ → Arena) : Kept { s with heap := s.heap.overwrite x junk } := by
  obtain ⟨hfits, hsame⟩ := hk.toFits.overwrite hclear junk
  refine ⟨hfits, fun r hr => (hk.needed r hr).mono (fun _ => id) ?_⟩
  exact congrArg Arena.desc (hsame r hr)

theorem Kept.of_pages {pages : Palloc.State} (hk : Kept s) (hpages : Palloc.Kept pages)
    (hheld : ∀ r ∈ s.heap.arenas, r ∈ pages.live false) :
    Kept { s with heap := { s.heap with pages } } where
  pages := hpages
  arenas := hk.arenas
  held := hheld
  header r hr := by
    obtain ⟨hmagic, hsmall, hbig⟩ := hk.header r hr
    exact ⟨hmagic, hsmall, hbig⟩
  block := hk.block
  free_nodup := hk.free_nodup
  free := hk.free
  live_nodup := hk.live_nodup
  live := hk.live
  needed := hk.needed

theorem Fits.live_ne_zero (hs : Fits s) (hx : x ∈ s.live) : x.1 ≠ 0 := by
  obtain ⟨r, hr, hblock, -⟩ := hs.live x hx
  have hin := hblock.within (hs.sound hr)
  unfold arenaSize at hin
  omega

/-- **One step.** -/
theorem Kept.step {act : Action} (hk : Kept s) (ha : Allowed s act) (hstep : step act s = some s') :
    Kept s' := by
  cases act with
  | malloc size =>
      obtain ⟨hnull, -⟩ | ⟨h', p, hok, -, hne, -, -, hkept⟩ := hk.malloc size
      · rw [Malloc.step, hnull] at hstep
        obtain rfl := Option.some.inj hstep
        exact hk
      · rw [Malloc.step, hok] at hstep
        obtain rfl := Option.some.inj hstep
        dsimp only
        rw [if_neg hne]
        exact hkept
  | free p =>
      obtain rfl | ⟨n, hx⟩ := ha
      · have hall : s.live.filter (fun x => x.1 ≠ 0) = s.live :=
          List.filter_eq_self.mpr fun x hx => decide_eq_true (hk.live_ne_zero hx)
        have hstep : some (⟨s.heap, s.live.filter fun x => x.1 ≠ 0⟩ : State) = some s' := hstep
        rw [hall] at hstep
        obtain rfl := Option.some.inj hstep
        exact hk
      · obtain ⟨r, -, -, h', hfree, hkept, -⟩ := hk.free_live hx
        rw [Malloc.step, hfree] at hstep
        obtain rfl := Option.some.inj hstep
        exact hkept
  | others c =>
      obtain ⟨hgiven, hnot⟩ := ha
      obtain ⟨pages, hpages, rfl⟩ := Option.map_eq_some_iff.mp hstep
      refine hk.of_pages (hk.pages.step hgiven hpages) fun r hr => ?_
      refine mem_live_step hpages (hk.held r hr) ?_
      rintro rfl
      exact hnot r.1 r.2 rfl hr
  | write x junk =>
      obtain rfl := Option.some.inj hstep
      obtain hx | ⟨user, q, hq, hnot, rfl⟩ := ha
      · exact hk.overwrite (fun _ => hk.clear_live hx) junk
      · exact hk.overwrite (fun _ => hk.clear_pages hq hnot) junk

/-- The heap after `malloc_init`; `arena` is what the memory holds. -/
def mallocInit (pages : Palloc.State) (arena : ℕ → Arena) : State :=
  ⟨⟨pages, arena, fun _ => [], []⟩, []⟩

theorem kept_mallocInit {pages : Palloc.State} (hpages : Palloc.Kept pages) (arena : ℕ → Arena) :
    Kept (mallocInit pages arena) where
  pages := hpages
  arenas := List.nodup_nil
  held := nofun
  header := nofun
  block := nofun
  free_nodup _ := List.nodup_nil
  free := nofun
  live_nodup := List.nodup_nil
  live := nofun
  needed := nofun

theorem reachable_kept {start : State} (h₀ : Kept start) (hr : Reachable step Allowed start s) :
    Kept s :=
  hr.invariant (I := Kept) h₀ fun _ _ _ _ hk ha hs => hk.step ha hs

/-- The step frees the last live block of the arena `r`. -/
def FreesLast (s : State) (r : ℕ × ℕ) (act : Action) : Prop :=
  ∃ x ∈ s.live, act = .free x.1 ∧ IsBlock (s.heap.arena r.1).desc r x ∧
    ∀ y ∈ s.live, IsBlock (s.heap.arena r.1).desc r y → y = x

/-- What the heap is for, in the state `s`.  Live blocks overlap neither each other nor a header of
an arena, and they lie in arenas whose pages have not been returned.  The free lists hold blocks of
such arenas, and the header of an arena says how many.  `malloc` and `free` do not fail, and the
pages of an arena are returned when its last live block is freed and at no other step. -/
structure Correct (s : State) : Prop where
  clear : s.live.Pairwise Clear
  clear_headers : ∀ x ∈ s.live, ∀ r ∈ s.heap.arenas, Clear (r.1, arenaSize) x
  held : ∀ x ∈ s.live, ∃ r ∈ s.heap.arenas, r ∈ s.heap.pages.live false ∧
    IsBlock (s.heap.arena r.1).desc r x
  free_cnt : ∀ r ∈ s.heap.arenas, ∀ d, (s.heap.arena r.1).desc = some d →
    (s.heap.arena r.1).freeCnt = ((s.heap.freeList d).filter fun b => b ∈ blocks r.1 d).length
  free_list : ∀ d, (s.heap.freeList d).Nodup ∧ ∀ b ∈ s.heap.freeList d, ∃ r ∈ s.heap.arenas,
    r ∈ s.heap.pages.live false ∧ (s.heap.arena r.1).desc = some d ∧ b ∈ blocks r.1 d
  malloc : ∀ size, Allowed s (.malloc size) →
    ∃ h' p, s.heap.malloc size = .ok (h', p) ∧ (p ≠ 0 → size ≤ h'.usableSize p)
  free : ∀ p, Allowed s (.free p) → ∃ h', s.heap.free p = .ok h'
  returned : ∀ act s', Allowed s act → step act s = some s' → ∀ r ∈ s.heap.arenas,
    (r ∉ s'.heap.pages.live false ↔ FreesLast s r act)

theorem Kept.stays {act : Action} (hk : Kept s) (ha : Allowed s act)
    (hstep : Malloc.step act s = some s') (hr : r ∈ s.heap.arenas)
    (hact : ∀ x ∈ s.live, act ≠ .free x.1) :
    r ∈ s'.heap.pages.live false := by
  have hheld := hk.held r hr
  cases act with
  | malloc size =>
      obtain ⟨hnull, -⟩ | ⟨h', p, hok, -, -, -, hsub, hkept⟩ := hk.malloc size
      · rw [Malloc.step, hnull] at hstep
        obtain rfl := Option.some.inj hstep
        exact hheld
      · rw [Malloc.step, hok] at hstep
        obtain rfl := Option.some.inj hstep
        exact hkept.held r (hsub r hr)
  | free p =>
      obtain rfl | ⟨n, hx⟩ := ha
      · obtain rfl := Option.some.inj hstep
        exact hheld
      · exact absurd rfl (hact _ hx)
  | others c =>
      obtain ⟨pages, hpages, rfl⟩ := Option.map_eq_some_iff.mp hstep
      refine mem_live_step hpages hheld ?_
      rintro rfl
      exact ha.2 r.1 r.2 rfl hr
  | write x junk =>
      obtain rfl := Option.some.inj hstep
      exact hheld

/-- `free` returns the pages of an arena if no other block of it is live. -/
theorem Kept.returned {act : Action} (hk : Kept s) (ha : Allowed s act)
    (hstep : Malloc.step act s = some s') (hr : r ∈ s.heap.arenas) :
    r ∉ s'.heap.pages.live false ↔ FreesLast s r act := by
  by_cases hact : ∃ x ∈ s.live, act = .free x.1
  · obtain ⟨x, hx, rfl⟩ := hact
    obtain ⟨r', hr', hblock, h', hfree, hkept, hret⟩ := hk.free_live hx
    rw [Malloc.step, hfree] at hstep
    obtain rfl := Option.some.inj hstep
    dsimp only
    constructor
    · intro hgone
      -- the arena that is gone is the one of the block
      have hlast : ∀ y ∈ s.live, IsBlock (s.heap.arena r'.1).desc r' y → y = x := by
        by_contra hsome
        push Not at hsome
        obtain ⟨y, hy, hyblock, hne⟩ := hsome
        rw [(hret.other ⟨y, hy, hyblock, hne⟩).1] at hgone
        exact hgone (hk.held r hr)
      have harenas := (hret.last hlast).2
      have hrr : r = r' := by
        by_contra hne
        refine hgone (hkept.held r ?_)
        dsimp only
        rw [harenas]
        exact (List.mem_erase_of_ne hne).mpr hr
      subst hrr
      exact ⟨x, hx, rfl, hblock, hlast⟩
    · rintro ⟨y, hy, heq, hyblock, hlast⟩
      obtain rfl := hk.live_ext hy hx (Action.free.inj heq).symm
      obtain rfl := hk.block_arena hr hr' hyblock hblock rfl
      obtain ⟨pages, hpages, -, hlive⟩ := hk.pages.free_eq (hk.held r hr)
      obtain rfl : h'.pages = pages := Except.ok.inj ((hret.last hlast).1.symm.trans hpages)
      rw [hlive]
      exact fun hmem => ((hk.pages.nodup false).mem_erase_iff.mp hmem).1 rfl
  · refine iff_of_false (not_not_intro (hk.stays ha hstep hr ?_)) ?_
    · rintro x hx rfl
      exact hact ⟨x, hx, rfl⟩
    · rintro ⟨x, hx, rfl, -⟩
      exact hact ⟨x, hx, rfl⟩

theorem Kept.correct (hk : Kept s) : Correct s where
  clear := by
    refine hk.live_nodup.imp_of_mem fun {x y} hx hy hne => ?_
    obtain ⟨r, hr, hblock, -⟩ := hk.live x hx
    obtain ⟨r', hr', hblock', -⟩ := hk.live y hy
    exact hk.clear_blocks hr hr' hblock hblock' hne
  clear_headers x hx r hr := hk.clear_live hx hr
  held x hx := by
    obtain ⟨r, hr, hblock, -⟩ := hk.live x hx
    exact ⟨r, hr, hk.held r hr, hblock⟩
  free_cnt r hr d hd := by
    rw [((hk.header r hr).small d hd).2.2, Heap.freeIn]
    refine congrArg List.length (List.filter_congr fun b hb => ?_)
    exact decide_eq_decide.mpr (hk.mem_blocks_iff hr hd hb).symm
  free_list d := by
    refine ⟨hk.free_nodup d, fun b hb => ?_⟩
    obtain ⟨r, hr, hd, i, hi, heq⟩ := hk.free d b hb
    exact ⟨r, hr, hk.held r hr, hd, mem_blocks.mpr ⟨i, hi, congrArg Prod.fst heq⟩⟩
  malloc size hsize := by
    obtain ⟨hnull, -⟩ | ⟨h', p, hok, -, -, husable, -⟩ := hk.malloc size
    · exact ⟨_, _, hnull, fun h => absurd rfl h⟩
    · exact ⟨h', p, hok, fun _ => husable ▸ le_provided hsize⟩
  free p hp := by
    obtain rfl | ⟨n, hx⟩ := hp
    · exact ⟨s.heap, rfl⟩
    · obtain ⟨r, -, -, h', hfree, -⟩ := hk.free_live hx
      exact ⟨h', hfree⟩
  returned act s' ha hstep r hr := hk.returned ha hstep hr

/-- **The heap**, after every run, on any machine that the loader starts it on. -/
theorem malloc_correct (mem : ℕ → BitVec 32) (userPageLimit : ℕ) (arena : ℕ → Arena)
    {initRamPages : ℕ} (hmax : initRamPages ≤ 16384) :
    pallocInit mem initRamPages userPageLimit = .error .panic ∨
      ∃ p, pallocInit mem initRamPages userPageLimit = .ok p ∧
        ∀ s, Reachable step Allowed (mallocInit ⟨p, fun _ => []⟩ arena) s → Correct s := by
  obtain hpanic | ⟨p, hp, hkept⟩ := pallocInit_cases mem userPageLimit hmax
  · exact .inl hpanic
  · exact .inr ⟨p, hp, fun s hr => (reachable_kept (kept_mallocInit hkept arena) hr).correct⟩

/-- A machine with four pages above the first megabyte. -/
theorem malloc_correct_four : ∃ p, pallocInit (fun _ => 0) 260 0xffffffff = .ok p ∧
    ∀ s, Reachable step Allowed (mallocInit ⟨p, fun _ => []⟩ fun _ => cleared) s → Correct s := by
  have hok : (pallocInit (fun _ => 0) 260 0xffffffff).isOk = true := by decide
  refine (malloc_correct (fun _ => 0) 0xffffffff (fun _ => cleared) (by decide)).resolve_left ?_
  intro hpanic
  rw [hpanic] at hok
  cases hok

end CSE130.Lab3.Malloc
