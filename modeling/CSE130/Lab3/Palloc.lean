import CSE130.Lab3.Bitmap
import CSE130.Lib.Allotment
import CSE130.Lib.Transition
import Mathlib.Algebra.Ring.Nat

/-! # The page allocator

Memory above the first megabyte is divided into the kernel pool and the user pool; a pool begins
with the pages of its bitmap.  A run of the allocator is a sequence of calls, the calls of
`palloc_free_multiple` with ranges that were given and not yet freed.  What is in the pages is not
modelled, nor are the locks.

`palloc_correct` says what holds after every run: which ranges are given, when none is, and that no
assertion fails. -/

namespace CSE130.Lab3.Palloc

open Function (update)
open Transition

def pgSize : ℕ := 4096

/-- Where the physical memory is mapped. -/
def physBase : ℕ := 0xc0000000

def pgOfs (va : ℕ) : ℕ := va % pgSize

def pgNo (va : ℕ) : ℕ := va / pgSize

def ptov (paddr : ℕ) : Except Failure ℕ := do
  assert (paddr < physBase)
  return paddr + physBase

/-- A memory pool; `mapAddr` is where its bitmap is. -/
structure Pool where
  usedMap : Bitmap
  mapAddr : ℕ
  base : ℕ

/-- The kernel pool and the user pool, in this order. -/
abbrev Pools := Bool → Pool

/-- `init_pool`; `mem` is the memory in which the bitmap is put. -/
def initPool (mem : ℕ → BitVec 32) (base pageCnt : ℕ) : Except Failure Pool := do
  let bmPages := (bitmapBufSize pageCnt + pgSize - 1) / pgSize
  if bmPages > pageCnt then throw .panic
  let usedMap ← Bitmap.createInBuf (fun i => mem (base + 8 + 4 * i)) (pageCnt - bmPages)
    (bmPages * pgSize)
  return ⟨usedMap, base, base + bmPages * pgSize⟩

def pallocInit (mem : ℕ → BitVec 32) (initRamPages userPageLimit : ℕ) : Except Failure Pools := do
  let freeStart ← ptov (1024 * 1024)
  let freeEnd ← ptov (initRamPages * pgSize)
  let freePages := (freeEnd - freeStart) / pgSize
  let userPages := if freePages / 2 > userPageLimit then userPageLimit else freePages / 2
  let kernelPages := freePages - userPages
  let kernelPool ← initPool mem freeStart kernelPages
  let userPool ← initPool mem (freeStart + kernelPages * pgSize) userPages
  return fun user => if user then userPool else kernelPool

def palAssert : ℕ := 1

def palUser : ℕ := 4

/-- The pool that the flags ask for. -/
def wantsUser (flags : ℕ) : Bool := flags &&& palUser != 0

def setMap (p : Pools) (user : Bool) (map : Bitmap) : Pools :=
  update p user { p user with usedMap := map }

def pallocGetMultiple (p : Pools) (flags pageCnt : ℕ) : Except Failure (Pools × ℕ) := do
  let user := wantsUser flags
  if pageCnt = 0 then return (p, 0)
  let (map, pageIdx) ← (p user).usedMap.scanAndFlip 0 pageCnt false
  let pages := match pageIdx with
    | some pageIdx => (p user).base + pgSize * pageIdx
    | none => 0
  if pages ≠ 0 then return (setMap p user map, pages)
  if flags &&& palAssert != 0 then throw .panic
  return (setMap p user map, 0)

def pageFromPool (pool : Pool) (page : ℕ) : Bool :=
  pgNo pool.base ≤ pgNo page && pgNo page < pgNo pool.base + pool.usedMap.bitCnt

/-- The pool that `palloc_free_multiple` chooses; `NOT_REACHED ()` if the page is from neither. -/
def choosePool (p : Pools) (page : ℕ) : Except Failure Bool :=
  if pageFromPool (p false) page then .ok false
  else if pageFromPool (p true) page then .ok true
  else .error .assertion

def pallocFreeMultiple (p : Pools) (pages pageCnt : ℕ) : Except Failure Pools := do
  assert (pgOfs pages = 0)
  if pages = 0 ∨ pageCnt = 0 then return p
  let user ← choosePool p pages
  let pageIdx := pgNo pages - pgNo (p user).base
  let all ← (p user).usedMap.all pageIdx pageCnt
  assert (all = true)
  let map ← (p user).usedMap.setMultiple pageIdx pageCnt false
  return setMap p user map

/-! ### Runs of calls -/

/-- The pools, and for each of them the ranges that were given and not yet freed: the address and
the number of pages. -/
structure State where
  pools : Pools
  live : Bool → List (ℕ × ℕ)

inductive Call where
  | getMultiple (flags pageCnt : ℕ)
  | freeMultiple (pages pageCnt : ℕ)

/-- `palloc_get_multiple`, with a record of what it gives. -/
def State.getMultiple (s : State) (flags pageCnt : ℕ) : Except Failure (State × ℕ) := do
  let (pools, pages) ← pallocGetMultiple s.pools flags pageCnt
  if pages = 0 then return ({ s with pools }, 0)
  let user := wantsUser flags
  return (⟨pools, update s.live user ((pages, pageCnt) :: s.live user)⟩, pages)

/-- `palloc_free_multiple`, with the record. -/
def State.freeMultiple (s : State) (pages pageCnt : ℕ) : Except Failure State := do
  let pools ← pallocFreeMultiple s.pools pages pageCnt
  return ⟨pools, fun user => (s.live user).erase (pages, pageCnt)⟩

def step : Call → State → Option State
  | .getMultiple flags pageCnt, s => (s.getMultiple flags pageCnt).toOption.map Prod.fst
  | .freeMultiple pages pageCnt, s => (s.freeMultiple pages pageCnt).toOption

/-- What is freed was given: a null pointer, or a range that is live. -/
def Given (s : State) : Call → Prop
  | .freeMultiple pages pageCnt => pages = 0 ∨ ∃ user, (pages, pageCnt) ∈ s.live user
  | _ => True

/-! ### The bitmaps and the ranges -/

/-- The bytes of a range of pages. -/
def bytes (r : ℕ × ℕ) : ℕ × ℕ := (r.1, pgSize * r.2)

/-- The range that starts at a page of the pool. -/
def Pool.range (p : Pool) (r : ℕ × ℕ) : ℕ × ℕ := (p.base + pgSize * r.1, r.2)

/-- The pages of the range are pages of the pool. -/
def Pool.Within (p : Pool) (r : ℕ × ℕ) : Prop :=
  ∃ i, r.1 = p.base + pgSize * i ∧ i + r.2 ≤ p.usedMap.bitCnt

/-- The bytes of the pages in which the bitmap is. -/
def Pool.mapBytes (p : Pool) : ℕ × ℕ := (p.mapAddr, p.base - p.mapAddr)

/-- How `palloc_init` lays out the memory. -/
structure Layout (p : Pools) : Prop where
  aligned : ∀ user, (p user).base % pgSize = 0
  map_pos : 0 < (p false).mapAddr
  map : ∀ user, (p user).mapAddr + bitmapBufSize (p user).usedMap.bitCnt ≤ (p user).base
  order : (p false).base + pgSize * (p false).usedMap.bitCnt ≤ (p true).mapAddr

/-- The invariant: the pages that the bitmap of a pool marks are those of the live ranges. -/
structure Kept (s : State) : Prop where
  layout : Layout s.pools
  live : ∀ user, ∃ rs, s.live user = rs.map (s.pools user).range ∧
    Allotted (s.pools user).usedMap.bitCnt (s.pools user).usedMap.bit rs

variable {p p' : Pools} {s s' : State} {user : Bool} {r : ℕ × ℕ} {rs : List (ℕ × ℕ)}
  {flags pages pageCnt : ℕ} {map : Bitmap}

theorem Layout.base_pos (h : Layout p) (user : Bool) : 0 < (p user).base := by
  have hpos := h.map_pos
  have hmap := h.map
  have horder := h.order
  cases user with
  | false => exact Nat.lt_of_lt_of_le hpos (by have := hmap false; omega)
  | true =>
      have := hmap true
      have := hmap false
      omega

/-- The pools do not overlap each other or the bitmaps. -/
theorem Layout.clear (h : Layout p) {user user' : Bool} {r r' : ℕ × ℕ} (hne : user ≠ user')
    (hr : (p user).Within r) (hr' : (p user').Within r') : Clear (bytes r) (bytes r') := by
  obtain ⟨i, hi, hic⟩ := hr
  obtain ⟨j, hj, hjc⟩ := hr'
  have horder := h.order
  have hmap := h.map
  unfold Clear bytes pgSize at *
  cases user <;> cases user' <;> first | exact absurd rfl hne | skip
  · have := hmap true
    dsimp only
    omega
  · have := hmap true
    dsimp only
    omega

theorem Layout.clear_map (h : Layout p) {user user' : Bool} (hr : (p user).Within r) :
    Clear (bytes r) (p user').mapBytes := by
  obtain ⟨i, hi, hic⟩ := hr
  have horder := h.order
  have hmap := h.map
  have := hmap true
  have := hmap false
  unfold Clear bytes Pool.mapBytes pgSize at *
  cases user <;> cases user' <;> dsimp only <;> omega

/-- Ranges of one pool are as far from each other as their pages. -/
theorem clear_range {pool : Pool} {r r' : ℕ × ℕ} :
    Clear (bytes (pool.range r)) (bytes (pool.range r')) ↔ Clear r r' := by
  unfold Clear bytes Pool.range pgSize
  dsimp only
  omega

theorem range_injective (pool : Pool) : Function.Injective pool.range := by
  rintro ⟨i, c⟩ ⟨j, d⟩ h
  simp only [Pool.range, pgSize, Prod.mk.injEq] at h ⊢
  omega

theorem setMap_self : setMap p user map user = { p user with usedMap := map } :=
  Function.update_self ..

theorem setMap_of_ne {user' : Bool} (h : user' ≠ user) : setMap p user map user' = p user' :=
  Function.update_of_ne h ..

theorem setMap_usedMap : setMap p user (p user).usedMap = p := Function.update_eq_self ..

theorem Layout.setMap (h : Layout p) (hcnt : map.bitCnt = (p user).usedMap.bitCnt) :
    Layout (setMap p user map) := by
  have hsame : ∀ u, (Palloc.setMap p user map u).base = (p u).base ∧
      (Palloc.setMap p user map u).mapAddr = (p u).mapAddr ∧
      (Palloc.setMap p user map u).usedMap.bitCnt = (p u).usedMap.bitCnt := by
    intro u
    by_cases hu : u = user
    · subst hu
      rw [setMap_self]
      exact ⟨rfl, rfl, hcnt⟩
    · rw [setMap_of_ne hu]
      exact ⟨rfl, rfl, rfl⟩
  refine ⟨fun u => ?_, ?_, fun u => ?_, ?_⟩
  · rw [(hsame u).1]
    exact h.aligned u
  · rw [(hsame false).2.1]
    exact h.map_pos
  · rw [(hsame u).1, (hsame u).2.1, (hsame u).2.2]
    exact h.map u
  · rw [(hsame false).1, (hsame false).2.2, (hsame true).2.1]
    exact h.order

/-- A change of one bitmap and of the ranges of that pool. -/
theorem Kept.setMap {live : Bool → List (ℕ × ℕ)} (hk : Kept s)
    (hcnt : map.bitCnt = (s.pools user).usedMap.bitCnt)
    (hrs : live user = rs.map (s.pools user).range) (ha : Allotted map.bitCnt map.bit rs)
    (hother : ∀ u ≠ user, live u = s.live u) : Kept ⟨setMap s.pools user map, live⟩ := by
  refine ⟨hk.layout.setMap hcnt, fun u => ?_⟩
  dsimp only
  by_cases hu : u = user
  · subst hu
    refine ⟨rs, ?_, ?_⟩
    · rw [hrs, setMap_self]
      rfl
    · rw [setMap_self]
      exact ha
  · obtain ⟨rs', hlive, ha'⟩ := hk.live u
    refine ⟨rs', ?_, ?_⟩
    · rw [hother u hu, hlive, setMap_of_ne hu]
    · rw [setMap_of_ne hu]
      exact ha'

/-- There are so many free pages in a row. -/
def FreeRun (s : State) (user : Bool) (pageCnt : ℕ) : Prop :=
  ∃ r, (s.pools user).Within r ∧ r.2 = pageCnt ∧ ∀ r' ∈ s.live user, Clear (bytes r) (bytes r')

theorem Kept.freeRun (hk : Kept s) (hcnt : 0 < pageCnt) : FreeRun s user pageCnt ↔
    ∃ i, i + pageCnt ≤ (s.pools user).usedMap.bitCnt ∧
      (s.pools user).usedMap.Uniform false i pageCnt := by
  obtain ⟨rs, hlive, ha⟩ := hk.live user
  constructor
  · rintro ⟨⟨a, c⟩, ⟨i, hi, hic⟩, rfl, hclear⟩
    obtain rfl : a = (s.pools user).base + pgSize * i := hi
    refine ⟨i, hic, fun k hik hk => ?_⟩
    dsimp only at hic hk
    by_contra hbit
    obtain ⟨r, hr, hin⟩ := (ha.used k (by omega)).mp ((Bool.not_eq_false _).mp hbit)
    have hc := hclear _ (hlive ▸ List.mem_map_of_mem hr)
    have hc' : Clear (i, c) r := clear_range.mp hc
    exact hc'.not_inRun ⟨hik, hk⟩ hin
  · rintro ⟨i, hic, huniform⟩
    refine ⟨(s.pools user).range (i, pageCnt), ⟨i, rfl, hic⟩, rfl, fun r' hr' => ?_⟩
    rw [hlive] at hr'
    obtain ⟨r, hr, rfl⟩ := List.mem_map.mp hr'
    exact clear_range.mpr (ha.clear_of_free hr hcnt fun k hk => huniform k hk.1 hk.2)

/-- **Giving pages**: a range of free pages of the pool, if there is one. -/
theorem Kept.getMultiple (hk : Kept s) (flags : ℕ) (hcnt : 0 < pageCnt) :
    (∃ map r, pallocGetMultiple s.pools flags pageCnt =
        .ok (Palloc.setMap s.pools (wantsUser flags) map, r.1) ∧ r.2 = pageCnt ∧
      (s.pools (wantsUser flags)).Within r ∧
      (∀ r' ∈ s.live (wantsUser flags), Clear (bytes r) (bytes r')) ∧
      Kept ⟨Palloc.setMap s.pools (wantsUser flags) map,
        update s.live (wantsUser flags) (r :: s.live (wantsUser flags))⟩) ∨
    ¬ FreeRun s (wantsUser flags) pageCnt ∧ pallocGetMultiple s.pools flags pageCnt =
      if flags &&& palAssert != 0 then .error .panic else .ok (s.pools, 0) := by
  generalize huser : wantsUser flags = user
  obtain ⟨rs, hlive, ha⟩ := hk.live user
  rw [pallocGetMultiple, huser]
  simp only [if_neg (Nat.pos_iff_ne_zero.mp hcnt)]
  obtain ⟨map, i, hscan, hmap, -, hi, huniform, hbit⟩ | ⟨hscan, hnone⟩ :=
    Bitmap.scanAndFlip_eq (b := (s.pools user).usedMap) (Nat.zero_le _) pageCnt false
  · have hpos := hk.layout.base_pos user
    rw [hscan]
    have hne : (s.pools user).base + pgSize * i ≠ 0 := by omega
    have htake : Allotted map.bitCnt map.bit ((i, pageCnt) :: rs) := by
      rw [hmap]
      refine ha.take hcnt hi (fun k hk => huniform k hk.1 hk.2) fun k _ => ?_
      rw [hbit]
      unfold InRun
      split
      · rename_i hin
        exact iff_of_true rfl (.inl hin)
      · rename_i hout
        exact (or_iff_right hout).symm
    refine .inl ⟨map, (s.pools user).range (i, pageCnt), ?_, rfl, ⟨i, rfl, hi⟩, fun r' hr' => ?_,
      ?_⟩
    · simp only [ok_bind, if_pos hne]
      rfl
    · rw [hlive] at hr'
      obtain ⟨r, hr, rfl⟩ := List.mem_map.mp hr'
      exact clear_range.mpr (ha.clear_of_free hr hcnt fun k hk => huniform k hk.1 hk.2)
    · refine hk.setMap hmap ?_ htake fun u hu => Function.update_of_ne hu ..
      rw [Function.update_self, hlive, List.map_cons]
  · refine .inr ⟨fun hfree => ?_, ?_⟩
    · obtain ⟨i, hi, huniform⟩ := (hk.freeRun hcnt).mp hfree
      exact hnone i (Nat.zero_le i) hi huniform
    · rw [hscan]
      simp only [ok_bind, ne_eq, not_true_eq_false, if_false, setMap_usedMap]
      split <;> rfl

/-- **Taking pages back.** -/
theorem Kept.freeMultiple (hk : Kept s) (hr : (pages, pageCnt) ∈ s.live user) :
    ∃ map i, pallocFreeMultiple s.pools pages pageCnt = .ok (Palloc.setMap s.pools user map) ∧
      pages = (s.pools user).base + pgSize * i ∧ i + pageCnt ≤ map.bitCnt ∧
      map.Uniform false i pageCnt ∧ map.bitCnt = (s.pools user).usedMap.bitCnt ∧
      Kept ⟨Palloc.setMap s.pools user map, fun u => (s.live u).erase (pages, pageCnt)⟩ := by
  obtain ⟨rs, hlive, ha⟩ := hk.live user
  have hr' := hr
  rw [hlive] at hr'
  obtain ⟨⟨i, c⟩, hir, hrange⟩ := List.mem_map.mp hr'
  obtain ⟨rfl, rfl⟩ : (s.pools user).base + pgSize * i = pages ∧ c = pageCnt :=
    Prod.mk.inj hrange
  have hwithin := ha.within _ hir
  have hpos := ha.nonempty _ hir
  dsimp only at hwithin hpos
  have haligned := hk.layout.aligned
  have hbase := hk.layout.base_pos user
  have hofs : pgOfs ((s.pools user).base + pgSize * i) = 0 := by
    have := haligned user
    unfold pgOfs pgSize at *
    omega
  have hno : pgNo ((s.pools user).base + pgSize * i) = pgNo (s.pools user).base + i := by
    have := haligned user
    unfold pgNo pgSize at *
    omega
  have hfrom : pageFromPool (s.pools user) ((s.pools user).base + pgSize * i) = true := by
    rw [pageFromPool, hno]
    simp only [Bool.and_eq_true, decide_eq_true_iff]
    omega
  have hnull : ¬ ((s.pools user).base + pgSize * i = 0 ∨ c = 0) := by omega
  rw [pallocFreeMultiple, assert_pos hofs, ok_bind, if_neg hnull]
  have hchoose : choosePool s.pools ((s.pools user).base + pgSize * i) = .ok user := by
    unfold choosePool
    cases user with
    | false => exact if_pos hfrom
    | true =>
        have hnot : ¬ pageFromPool (s.pools false) ((s.pools true).base + pgSize * i) = true := by
          have horder := hk.layout.order
          have hmap := hk.layout.map true
          have := haligned false
          have := haligned true
          rw [pageFromPool, hno]
          simp only [Bool.and_eq_true, decide_eq_true_iff, not_and]
          unfold pgNo pgSize at *
          omega
        rw [if_neg hnot, if_pos hfrom]
  have hidx : pgNo ((s.pools user).base + pgSize * i) - pgNo (s.pools user).base = i := by
    omega
  have hall := Bitmap.all_eq hwithin fun k hk hk' => ha.used_of_mem hir ⟨hk, hk'⟩
  obtain ⟨map, hset, hcnt, hbit⟩ := Bitmap.setMultiple_eq hwithin false
  have hgive : Allotted map.bitCnt map.bit (rs.erase (i, c)) := by
    rw [hcnt]
    refine ha.give hir fun k _ => ?_
    rw [hbit]
    unfold InRun
    split
    · rename_i hin
      exact iff_of_false Bool.false_ne_true fun h => h.1 hin
    · rename_i hout
      exact (and_iff_right hout).symm
  refine ⟨map, i, ?_, rfl, hcnt ▸ hwithin, fun k hk hk' => ?_, hcnt,
    hk.setMap hcnt ?_ hgive fun u hu => ?_⟩
  · simp only [hchoose, ok_bind, hidx, hall, hset, assert_pos]
    rfl
  · rw [hbit, if_pos ⟨hk, hk'⟩]
  · rw [hlive, ← hrange, List.map_erase (range_injective _)]
  · -- the range is not one of the other pool
    refine List.erase_of_not_mem fun hmem => ?_
    obtain ⟨rs', hlive', ha'⟩ := hk.live u
    rw [hlive'] at hmem
    obtain ⟨⟨j, d⟩, hj, hjr⟩ := List.mem_map.mp hmem
    have hin : (s.pools u).Within ((s.pools u).range (j, d)) := ⟨j, rfl, ha'.within _ hj⟩
    have hin' : (s.pools user).Within ((s.pools user).range (i, c)) := ⟨i, rfl, hwithin⟩
    have hclear := hk.layout.clear hu hin hin'
    rw [hjr, hrange] at hclear
    unfold Clear bytes pgSize at hclear
    omega

/-! ### The layout -/

theorem bitmapBufSize_mono {m n : ℕ} (h : m ≤ n) : bitmapBufSize m ≤ bitmapBufSize n := by
  unfold bitmapBufSize elemCnt
  omega

/-- A pool begins with its bitmap, and no page of it is marked. -/
theorem initPool_cases (mem : ℕ → BitVec 32) (base pageCnt : ℕ) :
    initPool mem base pageCnt = .error .panic ∨ ∃ pool bmPages,
      initPool mem base pageCnt = .ok pool ∧ pool.mapAddr = base ∧
      pool.base = base + pgSize * bmPages ∧ bmPages + pool.usedMap.bitCnt = pageCnt ∧
      base + bitmapBufSize pool.usedMap.bitCnt ≤ pool.base ∧
      ∀ k < pool.usedMap.bitCnt, pool.usedMap.bit k = false := by
  unfold initPool
  dsimp only
  generalize hbm : (bitmapBufSize pageCnt + pgSize - 1) / pgSize = bmPages
  split
  · exact .inl rfl
  · rename_i hle
    have hsize : bitmapBufSize (pageCnt - bmPages) ≤ bmPages * pgSize := by
      have := bitmapBufSize_mono (Nat.sub_le pageCnt bmPages)
      unfold pgSize at *
      omega
    obtain ⟨map, hmap, hcnt, hbit⟩ :=
      Bitmap.createInBuf_eq (fun i => mem (base + 8 + 4 * i)) hsize
    rw [hmap]
    refine .inr ⟨⟨map, base, base + bmPages * pgSize⟩, bmPages, rfl, rfl, ?_, ?_, ?_, ?_⟩
    · dsimp only
      rw [Nat.mul_comm]
    · dsimp only
      omega
    · dsimp only
      rw [hcnt]
      omega
    · rw [hcnt]
      exact hbit

theorem initPools_cases (mem : ℕ → BitVec 32) {start : ℕ} (hpos : 0 < start)
    (haligned : start % pgSize = 0) (kernelPages userPages : ℕ) :
    (do
      let kernelPool ← initPool mem start kernelPages
      let userPool ← initPool mem (start + kernelPages * pgSize) userPages
      return fun user => if user then userPool else kernelPool : Except Failure Pools) =
        .error .panic ∨
      ∃ p, (do
        let kernelPool ← initPool mem start kernelPages
        let userPool ← initPool mem (start + kernelPages * pgSize) userPages
        return fun user => if user then userPool else kernelPool : Except Failure Pools) = .ok p ∧
          Kept ⟨p, fun _ => []⟩ := by
  obtain hk | ⟨k, kbm, hk, hkmap, hkbase, hkcnt, hksize, hkbit⟩ :=
    initPool_cases mem start kernelPages
  · rw [hk]
    exact .inl rfl
  obtain hu | ⟨u, ubm, hu, humap, hubase, hucnt, husize, hubit⟩ :=
    initPool_cases mem (start + kernelPages * pgSize) userPages
  · rw [hk, ok_bind, hu]
    exact .inl rfl
  rw [hk, ok_bind, hu]
  refine .inr ⟨_, rfl, ⟨fun b => ?_, ?_, fun b => ?_, ?_⟩, fun b => ⟨[], rfl, allotted_nil ?_⟩⟩
  · unfold pgSize at *
    cases b <;> simp only [Bool.false_eq_true, if_false, if_true, hkbase, hubase] <;> omega
  · simp only [Bool.false_eq_true, if_false, hkmap]
    exact hpos
  · cases b <;> simp only [Bool.false_eq_true, if_false, if_true] <;> omega
  · simp only [Bool.false_eq_true, if_false, if_true, hkbase, humap]
    unfold pgSize at *
    omega
  · cases b
    · exact hkbit
    · exact hubit

theorem pallocInit_cases (mem : ℕ → BitVec 32) (userPageLimit : ℕ) {initRamPages : ℕ}
    (hmax : initRamPages ≤ 16384) :
    pallocInit mem initRamPages userPageLimit = .error .panic ∨
      ∃ p, pallocInit mem initRamPages userPageLimit = .ok p ∧ Kept ⟨p, fun _ => []⟩ := by
  have hstart : ptov (1024 * 1024) = .ok (1024 * 1024 + physBase) := by decide
  have hend : ptov (initRamPages * pgSize) = .ok (initRamPages * pgSize + physBase) := by
    rw [ptov, assert_pos (by unfold pgSize physBase; omega), ok_bind]
    rfl
  rw [pallocInit, hstart, ok_bind, hend, ok_bind]
  exact initPools_cases mem (by decide) (by decide) _ _

/-- The pools lie in kernel memory. -/
def InMemory (p : Pools) : Prop := ∀ user,
  physBase ≤ (p user).base ∧ (p user).base + pgSize * (p user).usedMap.bitCnt ≤ 2 ^ 32

theorem pallocInit_inMemory {mem : ℕ → BitVec 32} {userPageLimit initRamPages : ℕ}
    (hmax : initRamPages ≤ 16384) (hp : pallocInit mem initRamPages userPageLimit = .ok p) :
    InMemory p := by
  have hstart : ptov (1024 * 1024) = .ok (1024 * 1024 + physBase) := by decide
  have hend : ptov (initRamPages * pgSize) = .ok (initRamPages * pgSize + physBase) := by
    rw [ptov, assert_pos (by unfold pgSize physBase; omega), ok_bind]
    rfl
  rw [pallocInit, hstart, ok_bind, hend, ok_bind] at hp
  dsimp only at hp
  generalize hfree : (initRamPages * pgSize + physBase - (1024 * 1024 + physBase)) / pgSize =
    freePages at hp
  have hle : pgSize * freePages ≤ 16384 * pgSize := by
    unfold pgSize at *
    omega
  generalize huser : (if freePages / 2 > userPageLimit then userPageLimit else freePages / 2) =
    userPages at hp
  have hhalf : userPages ≤ freePages := by
    rw [← huser]
    split <;> omega
  obtain hk | ⟨k, kbm, hk, -, hkbase, hkcnt, -⟩ :=
    initPool_cases mem (1024 * 1024 + physBase) (freePages - userPages)
  · rw [hk] at hp
    cases hp
  obtain hu | ⟨u, ubm, hu, -, hubase, hucnt, -⟩ := initPool_cases mem
    (1024 * 1024 + physBase + (freePages - userPages) * pgSize) userPages
  · rw [hk, ok_bind, hu] at hp
    cases hp
  rw [hk, ok_bind, hu] at hp
  obtain rfl := Except.ok.inj hp
  intro user
  unfold pgSize physBase at *
  cases user with
  | false =>
      simp only [Bool.false_eq_true, if_false]
      omega
  | true =>
      simp only [if_true]
      omega

/-! ### Every run -/

theorem pallocFreeMultiple_null (pageCnt : ℕ) : pallocFreeMultiple p 0 pageCnt = .ok p := rfl

/-- A live range does not start at the null pointer. -/
theorem Kept.ne_zero (hk : Kept s) (hr : r ∈ s.live user) : r.1 ≠ 0 := by
  obtain ⟨rs, hlive, -⟩ := hk.live user
  rw [hlive] at hr
  obtain ⟨r', -, rfl⟩ := List.mem_map.mp hr
  have := hk.layout.base_pos user
  unfold Pool.range
  dsimp only
  omega

theorem Kept.given_ne_zero {live : Bool → List (ℕ × ℕ)}
    (hk : Kept ⟨p, update live user (r :: rs)⟩) : r.1 ≠ 0 := by
  have hr : r ∈ (⟨p, update live user (r :: rs)⟩ : State).live user := by
    dsimp only
    rw [Function.update_self]
    exact List.mem_cons_self
  exact hk.ne_zero hr

theorem Kept.within (hk : Kept s) (hr : r ∈ s.live user) : (s.pools user).Within r ∧ 0 < r.2 := by
  obtain ⟨rs, hlive, ha⟩ := hk.live user
  rw [hlive] at hr
  obtain ⟨r', hr', rfl⟩ := List.mem_map.mp hr
  exact ⟨⟨r'.1, rfl, ha.within r' hr'⟩, ha.nonempty r' hr'⟩

theorem Kept.clear (hk : Kept s) {user' : Bool} {r' : ℕ × ℕ} (hr : r ∈ s.live user)
    (hr' : r' ∈ s.live user') (hne : r ≠ r') : Clear (bytes r) (bytes r') := by
  by_cases hu : user = user'
  · subst hu
    obtain ⟨rs, hlive, ha⟩ := hk.live user
    rw [hlive] at hr hr'
    obtain ⟨q, hq, rfl⟩ := List.mem_map.mp hr
    obtain ⟨q', hq', rfl⟩ := List.mem_map.mp hr'
    exact clear_range.mpr (ha.clear_of_ne hq hq' fun h => hne (congrArg _ h))
  · exact hk.layout.clear hu (hk.within hr).1 (hk.within hr').1

theorem Kept.get_cases (hk : Kept s) (flags : ℕ) (hcnt : 0 < pageCnt) :
    (∃ s' a, s.getMultiple flags pageCnt = .ok (s', a) ∧ a ≠ 0 ∧ Kept s' ∧
      s'.live = update s.live (wantsUser flags) ((a, pageCnt) :: s.live (wantsUser flags)) ∧
      (s.pools (wantsUser flags)).Within (a, pageCnt) ∧
      ∀ u, ∀ r ∈ s.live u, Clear (bytes (a, pageCnt)) (bytes r)) ∨
    s.getMultiple flags pageCnt =
      if flags &&& palAssert != 0 then .error .panic else .ok (s, 0) := by
  obtain ⟨map, ⟨a, c⟩, hget, hc, hwithin, hclear, hkept⟩ | ⟨-, hget⟩ := hk.getMultiple flags hcnt
  · obtain rfl : c = pageCnt := hc
    have hne : a ≠ 0 := hkept.given_ne_zero
    refine .inl ⟨_, a, ?_, hne, hkept, rfl, hwithin, fun u r hr => ?_⟩
    · rw [State.getMultiple, hget, ok_bind]
      exact if_neg hne
    · by_cases hu : u = wantsUser flags
      · subst hu
        exact hclear r hr
      · exact hk.layout.clear (Ne.symm hu) hwithin (hk.within hr).1
  · right
    rw [State.getMultiple, hget]
    split <;> rfl

/-- Pages are given if there are so many in a row. -/
theorem Kept.get_iff_freeRun {flags : ℕ} (hk : Kept s) (hcnt : 0 < pageCnt)
    (hget : s.getMultiple flags pageCnt = .ok (s', pages)) :
    pages ≠ 0 ↔ FreeRun s (wantsUser flags) pageCnt := by
  obtain ⟨map, r, hok, hr, hwithin, hclear, hkept⟩ | ⟨hnone, hok⟩ := hk.getMultiple flags hcnt
  · have hne : r.1 ≠ 0 := hkept.given_ne_zero
    rw [State.getMultiple, hok, ok_bind] at hget
    dsimp only at hget
    rw [if_neg hne] at hget
    obtain rfl := congrArg Prod.snd (Except.ok.inj hget)
    exact iff_of_true hne ⟨r, hwithin, hr, hclear⟩
  · rw [State.getMultiple, hok] at hget
    split at hget
    · cases hget
    · obtain rfl := congrArg Prod.snd (Except.ok.inj hget)
      exact iff_of_false (not_not_intro rfl) hnone

theorem Kept.get_iff (hk : Kept s) (hcnt : 0 < pageCnt)
    (hget : s.getMultiple 0 pageCnt = .ok (s', pages)) : pages ≠ 0 ↔ FreeRun s false pageCnt :=
  hk.get_iff_freeRun hcnt hget

theorem Kept.free_eq (hk : Kept s) (hr : (pages, pageCnt) ∈ s.live user) :
    ∃ s', s.freeMultiple pages pageCnt = .ok s' ∧ Kept s' ∧
      s'.live = fun u => (s.live u).erase (pages, pageCnt) := by
  obtain ⟨map, i, hfree, -, -, -, -, hkept⟩ := hk.freeMultiple hr
  refine ⟨_, ?_, hkept, rfl⟩
  rw [State.freeMultiple, hfree]
  rfl

theorem mem_live_step {c : Call} (hs : step c s = some s') (hr : r ∈ s.live user)
    (hne : c ≠ .freeMultiple r.1 r.2) : r ∈ s'.live user := by
  cases c with
  | getMultiple flags pageCnt =>
      rw [step, State.getMultiple] at hs
      cases hget : pallocGetMultiple s.pools flags pageCnt with
      | error e =>
          rw [hget] at hs
          cases hs
      | ok x =>
          rw [hget, ok_bind] at hs
          dsimp only at hs
          split at hs
          · obtain rfl := Option.some.inj hs
            exact hr
          · obtain rfl := Option.some.inj hs
            dsimp only
            rw [Function.update_apply]
            split
            · rename_i hu
              subst hu
              exact List.mem_cons_of_mem _ hr
            · exact hr
  | freeMultiple pages pageCnt =>
      rw [step, State.freeMultiple] at hs
      cases hfree : pallocFreeMultiple s.pools pages pageCnt with
      | error e =>
          rw [hfree] at hs
          cases hs
      | ok p =>
          rw [hfree] at hs
          obtain rfl := Option.some.inj hs
          refine (List.mem_erase_of_ne ?_).mpr hr
          rintro rfl
          exact hne rfl

/-- The pools stay where they are, as large as they are. -/
def SameSizes (p p' : Pools) : Prop :=
  ∀ user, (p' user).base = (p user).base ∧ (p' user).usedMap.bitCnt = (p user).usedMap.bitCnt

theorem sameSizes_setMap (hcnt : map.bitCnt = (p user).usedMap.bitCnt) :
    SameSizes p (setMap p user map) := by
  intro u
  by_cases hu : u = user
  · subst hu
    rw [setMap_self]
    exact ⟨rfl, hcnt⟩
  · rw [setMap_of_ne hu]
    exact ⟨rfl, rfl⟩

theorem pallocGetMultiple_sizes (hget : pallocGetMultiple p flags pageCnt = .ok (p', pages)) :
    SameSizes p p' := by
  have hsame : SameSizes p p := fun _ => ⟨rfl, rfl⟩
  rw [pallocGetMultiple] at hget
  dsimp only at hget
  by_cases hcnt : pageCnt = 0
  · rw [if_pos hcnt] at hget
    obtain rfl := congrArg Prod.fst (Except.ok.inj hget)
    exact hsame
  rw [if_neg hcnt] at hget
  have hsizes : ∀ map, map.bitCnt = (p (wantsUser flags)).usedMap.bitCnt →
      SameSizes p (setMap p (wantsUser flags) map) := fun map hmap => sameSizes_setMap hmap
  obtain ⟨map, i, hscan, hmap, -⟩ | ⟨hscan, -⟩ :=
    Bitmap.scanAndFlip_eq (b := (p (wantsUser flags)).usedMap) (Nat.zero_le _) pageCnt false
  · rw [hscan, ok_bind] at hget
    dsimp only at hget
    split at hget
    · obtain rfl := congrArg Prod.fst (Except.ok.inj hget)
      exact hsizes map hmap
    · split at hget
      · cases hget
      · obtain rfl := congrArg Prod.fst (Except.ok.inj hget)
        exact hsizes map hmap
  · rw [hscan, ok_bind] at hget
    dsimp only at hget
    rw [if_neg (not_not_intro rfl)] at hget
    split at hget
    · cases hget
    · obtain rfl := congrArg Prod.fst (Except.ok.inj hget)
      exact hsizes _ rfl

theorem getMultiple_sizes (hget : s.getMultiple flags pageCnt = .ok (s', pages)) :
    SameSizes s.pools s'.pools := by
  rw [State.getMultiple] at hget
  cases hok : pallocGetMultiple s.pools flags pageCnt with
  | error e =>
      rw [hok] at hget
      cases hget
  | ok r =>
      rw [hok, ok_bind] at hget
      dsimp only at hget
      have hsizes := pallocGetMultiple_sizes hok
      split at hget
      · obtain rfl := congrArg Prod.fst (Except.ok.inj hget)
        exact hsizes
      · obtain rfl := congrArg Prod.fst (Except.ok.inj hget)
        exact hsizes

theorem freeMultiple_sizes (hk : Kept s) (hg : Given s (.freeMultiple pages pageCnt))
    (hfree : s.freeMultiple pages pageCnt = .ok s') : SameSizes s.pools s'.pools := by
  obtain rfl | ⟨user, hr⟩ := hg
  · rw [State.freeMultiple, pallocFreeMultiple_null] at hfree
    obtain rfl := Except.ok.inj hfree
    exact fun _ => ⟨rfl, rfl⟩
  · obtain ⟨map, i, hok, -, -, -, hcnt, -⟩ := hk.freeMultiple hr
    rw [State.freeMultiple, hok] at hfree
    obtain rfl := Except.ok.inj hfree
    exact sameSizes_setMap hcnt

theorem InMemory.of_sizes (hm : InMemory p) (hs : SameSizes p p') : InMemory p' := by
  intro user
  rw [(hs user).1, (hs user).2]
  exact hm user

theorem Kept.nodup (hk : Kept s) (user : Bool) : (s.live user).Nodup := by
  obtain ⟨rs, hlive, ha⟩ := hk.live user
  rw [hlive]
  exact ha.nodup.map (range_injective _)

/-- **One call.** -/
theorem Kept.step {c : Call} (hk : Kept s) (hg : Given s c) (hs : step c s = some s') :
    Kept s' := by
  cases c with
  | getMultiple flags pageCnt =>
      cases pageCnt with
      | zero =>
          obtain rfl := Option.some.inj hs
          exact hk
      | succ n =>
          obtain ⟨s₁, a, hget, -, hkept, -⟩ | hget := hk.get_cases flags (Nat.succ_pos n)
          · rw [Palloc.step, hget] at hs
            obtain rfl := Option.some.inj hs
            exact hkept
          · rw [Palloc.step, hget] at hs
            split at hs
            · cases hs
            · obtain rfl := Option.some.inj hs
              exact hk
  | freeMultiple pages pageCnt =>
      obtain rfl | ⟨user, hr⟩ := hg
      · rw [Palloc.step, State.freeMultiple, pallocFreeMultiple_null] at hs
        obtain rfl := Option.some.inj hs
        have hsame : (fun user => (s.live user).erase (0, pageCnt)) = s.live := funext fun user =>
          List.erase_of_not_mem fun hmem => hk.ne_zero hmem rfl
        rw [hsame]
        exact hk
      · obtain ⟨s₁, hfree, hkept, -⟩ := hk.free_eq hr
        rw [Palloc.step, hfree] at hs
        obtain rfl := Option.some.inj hs
        exact hkept

theorem step_sizes {c : Call} (hk : Kept s) (hg : Given s c) (hs : step c s = some s') :
    SameSizes s.pools s'.pools := by
  cases c with
  | getMultiple flags pageCnt =>
      rw [Palloc.step] at hs
      cases hget : s.getMultiple flags pageCnt with
      | error e =>
          rw [hget] at hs
          cases hs
      | ok r =>
          rw [hget] at hs
          obtain rfl := Option.some.inj hs
          exact getMultiple_sizes hget
  | freeMultiple pages pageCnt =>
      rw [Palloc.step] at hs
      cases hfree : s.freeMultiple pages pageCnt with
      | error e =>
          rw [hfree] at hs
          cases hs
      | ok t =>
          rw [hfree] at hs
          obtain rfl := Option.some.inj hs
          exact freeMultiple_sizes hk hg hfree

theorem reachable_kept {start : State} (h₀ : Kept start) (hr : Reachable step Given start s) :
    Kept s :=
  hr.invariant (I := Kept) h₀ fun _ _ _ _ hk hg hs => hk.step hg hs

/-- What the allocator is for, in the state `s`.  A range that is given lies in the pool that was
asked for, away from all live ranges and from both bitmaps; if none is given, there is none.  What
was given can be freed, its pages are then free in the pool that it came from, and so many pages
can be had again.  No assertion fails. -/
structure Correct (s : State) : Prop where
  get : ∀ flags pageCnt, match pallocGetMultiple s.pools flags pageCnt with
    | .ok (_, pages) =>
        (pages ≠ 0 → (s.pools (wantsUser flags)).Within (pages, pageCnt) ∧ ∀ user,
          (∀ r ∈ s.live user, Clear (bytes (pages, pageCnt)) (bytes r)) ∧
          Clear (bytes (pages, pageCnt)) (s.pools user).mapBytes) ∧
        (pages = 0 → 1 ≤ pageCnt → ¬ FreeRun s (wantsUser flags) pageCnt)
    | .error .panic => flags &&& palAssert ≠ 0 ∧ ¬ FreeRun s (wantsUser flags) pageCnt
    | .error .assertion => False
  free : ∀ pages pageCnt, Given s (.freeMultiple pages pageCnt) →
    ∃ p, pallocFreeMultiple s.pools pages pageCnt = .ok p ∧
      ∀ user, (pages, pageCnt) ∈ s.live user →
        (∃ i, pages = (s.pools user).base + pgSize * i ∧
          (p user).usedMap.Uniform false i pageCnt) ∧
        ∀ flags, wantsUser flags = user →
          ∃ p' pages', pallocGetMultiple p flags pageCnt = .ok (p', pages') ∧ pages' ≠ 0

theorem Kept.correct (hk : Kept s) : Correct s := by
  constructor
  · intro flags pageCnt
    cases pageCnt with
    | zero => exact ⟨fun h => absurd rfl h, fun _ h => by omega⟩
    | succ n =>
        obtain ⟨map, r, hget, hr, hwithin, hclear, hkept⟩ | ⟨hnone, hget⟩ :=
          hk.getMultiple flags (Nat.succ_pos n)
        · rw [hget]
          obtain ⟨a, c⟩ := r
          obtain rfl : c = n + 1 := hr
          refine ⟨fun _ => ⟨hwithin, fun user => ⟨fun r' hr' => ?_, ?_⟩⟩, fun h => ?_⟩
          · by_cases hu : user = wantsUser flags
            · subst hu
              exact hclear r' hr'
            · exact hk.layout.clear (Ne.symm hu) hwithin (hk.within hr').1
          · exact hk.layout.clear_map hwithin
          · exact absurd h hkept.given_ne_zero
        · rw [hget]
          by_cases hassert : (flags &&& palAssert != 0) = true
          · rw [if_pos hassert]
            exact ⟨bne_iff_ne.mp hassert, hnone⟩
          · rw [if_neg hassert]
            exact ⟨fun h => absurd rfl h, fun _ _ => hnone⟩
  · rintro pages pageCnt (rfl | ⟨user, hr⟩)
    · exact ⟨s.pools, pallocFreeMultiple_null pageCnt,
        fun user hr => absurd rfl (hk.ne_zero hr)⟩
    · obtain ⟨map, i, hfree, hpages, hi, huniform, -, hkept⟩ := hk.freeMultiple hr
      refine ⟨_, hfree, fun user' hr' => ?_⟩
      have hpos := (hk.within hr).2
      obtain rfl : user' = user := by
        by_contra hne
        have hclear := hk.layout.clear hne (hk.within hr').1 (hk.within hr).1
        unfold Clear bytes pgSize at hclear
        omega
      rw [setMap_self]
      refine ⟨⟨i, hpages, huniform⟩, fun flags hflags => ?_⟩
      have hrun : FreeRun
          ⟨Palloc.setMap s.pools user' map, fun u => (s.live u).erase (pages, pageCnt)⟩
          user' pageCnt := by
        refine (hkept.freeRun hpos).mpr ⟨i, ?_, ?_⟩
        · dsimp only
          rw [setMap_self]
          exact hi
        · dsimp only
          rw [setMap_self]
          exact huniform
      obtain ⟨map', r, hget, hr₂, hwithin, hclear, hkept'⟩ | ⟨hnone, -⟩ :=
        hkept.getMultiple flags hpos
      · exact ⟨_, _, hget, hkept'.given_ne_zero⟩
      · rw [hflags] at hnone
        exact absurd hrun hnone

/-- **The page allocator**, after every run of calls, on any machine that the loader starts it on. -/
theorem palloc_correct (mem : ℕ → BitVec 32) (userPageLimit : ℕ) {initRamPages : ℕ}
    (_hmin : 256 ≤ initRamPages) (hmax : initRamPages ≤ 16384) :
    pallocInit mem initRamPages userPageLimit = .error .panic ∨
      ∃ p, pallocInit mem initRamPages userPageLimit = .ok p ∧
        ∀ s, Reachable step Given ⟨p, fun _ => []⟩ s → Correct s := by
  obtain hpanic | ⟨p, hp, hkept⟩ := pallocInit_cases mem userPageLimit hmax
  · exact .inl hpanic
  · exact .inr ⟨p, hp, fun s hr => (reachable_kept hkept hr).correct⟩

/-- A machine with four pages above the first megabyte. -/
theorem palloc_correct_four : ∃ p, pallocInit (fun _ => 0) 260 0xffffffff = .ok p ∧
    ∀ s, Reachable step Given ⟨p, fun _ => []⟩ s → Correct s := by
  have hok : (pallocInit (fun _ => 0) 260 0xffffffff).isOk = true := by decide
  refine (palloc_correct (fun _ => 0) 0xffffffff (by decide) (by decide)).resolve_left ?_
  intro hpanic
  rw [hpanic] at hok
  cases hok

end CSE130.Lab3.Palloc
