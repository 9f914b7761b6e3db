import CSE130.Lab3.Malloc

/-! # Requests to the heap

`calloc` and `realloc` are built on `malloc` and `free`, and the sizes that they pass on are 32-bit
numbers.  Here the heap comes with the bytes of the memory.  What `malloc` and `free` write for
themselves, the headers of arenas and the list elements in free blocks, is left open (`Junk`), and so
is what would be read as a header where an owner has written.

A block of the requested size is what the heap is for.  A request near `2 ^ 32` gets one page, as the
size and the header of the arena wrap, and a product that wraps is noticed only if it is smaller than
one of its factors. -/

namespace CSE130.Lab3.Malloc

open Function (update)
open Transition Palloc

/-- `sizeof (struct list_elem)`. -/
def elemSize : ℕ := 8

/-- The heap, the live blocks and the bytes of the memory. -/
structure Store extends State where
  byte : ℕ → UInt8

/-- What is in memory after a call, where the model does not say. -/
structure Junk where
  byte : ℕ → UInt8
  arena : ℕ → Arena

/-- The bytes that the heap uses itself. -/
def Heap.Records (h : Heap) (x : ℕ) : Prop :=
  (∃ r ∈ h.arenas, r.1 ≤ x ∧ x < r.1 + arenaSize) ∨
    ∃ d ∈ List.range descs.length, ∃ b ∈ h.freeList d, b ≤ x ∧ x < b + elemSize

instance (h : Heap) (x : ℕ) : Decidable (h.Records x) := inferInstanceAs (Decidable (_ ∨ _))

/-- The pages that `free` gives back, from the arena of the block `p` on. -/
def Heap.givenBack (h : Heap) (p : ℕ) : ℕ :=
  let a := h.arena (pgRoundDown p)
  match a.desc with
  | some d => if (a.freeCnt + 1) % 2 ^ 32 ≥ blocksPerArena d then 1 else 0
  | none => a.freeCnt

namespace Store

def malloc (size : ℕ) (junk : Junk) (s : Store) : Except Failure (Store × ℕ) := do
  let (h, p) ← s.heap.malloc size
  return (⟨⟨h, if p = 0 then s.live else (p, h.usableSize p) :: s.live⟩,
    fun x => if s.heap.Records x ∨ h.Records x then junk.byte x else s.byte x⟩, p)

/-- `free`; a freed block is cleared, and pages are cleared when they are given back. -/
def free (p : ℕ) (junk : Junk) (s : Store) : Except Failure Store := do
  if p = 0 then return s
  let h ← s.heap.free p
  let a := pgRoundDown p
  return ⟨⟨h, s.live.filter fun x => x.1 ≠ p⟩, fun x =>
    if a ≤ x ∧ x < a + pgSize * s.heap.givenBack p then 0xcc
    else if s.heap.Records x ∨ h.Records x then junk.byte x
    else if p ≤ x ∧ x < p + s.heap.usableSize p then 0xcc
    else s.byte x⟩

/-- The first `n` bytes of the block `p` are written.  Past the end of the block there is no memory
for them, and the system stops. -/
def put (p n : ℕ) (value : ℕ → UInt8) (junk : Junk) (s : Store) : Except Failure Store := do
  if s.heap.usableSize p < n then throw .panic
  return ⟨⟨s.heap.overwrite (p, n) junk.arena, s.live⟩,
    fun x => if p ≤ x ∧ x < p + n then value (x - p) else s.byte x⟩

def calloc (a b : ℕ) (junk : Junk) (s : Store) : Except Failure (Store × ℕ) := do
  let size := a * b % 2 ^ 32
  if size < a ∨ size < b then return (s, 0)
  let (s, p) ← s.malloc size junk
  if p ≠ 0 then return (← s.put p size (fun _ => 0) junk, p)
  return (s, p)

/-- `block_size`. -/
def blockSize (block : ℕ) (s : Store) : Except Failure ℕ := do
  let _ ← s.heap.blockToArena block
  return s.heap.usableSize block

/-- `junk'` is what `free` leaves. -/
def realloc (oldBlock newSize : ℕ) (junk junk' : Junk) (s : Store) :
    Except Failure (Store × ℕ) := do
  if newSize = 0 then return (← s.free oldBlock junk', 0)
  let (s, newBlock) ← s.malloc newSize junk
  if oldBlock ≠ 0 ∧ newBlock ≠ 0 then
    let oldSize ← s.blockSize oldBlock
    let minSize := if newSize < oldSize then newSize else oldSize
    let t ← s.put newBlock minSize (fun i => s.byte (oldBlock + i)) junk
    return (← t.free oldBlock junk', newBlock)
  return (s, newBlock)

end Store

/-! ### Requests -/

inductive Request where
  | malloc (size : ℕ)
  | calloc (a b : ℕ)
  | realloc (oldBlock newSize : ℕ)

/-- The bytes that are asked for. -/
def Request.amount : Request → ℕ
  | .malloc size => size
  | .calloc a b => a * b
  | .realloc _ newSize => newSize

def serve (junk junk' : Junk) : Request → Store → Except Failure (Store × ℕ)
  | .malloc size, s => s.malloc size junk
  | .calloc a b, s => s.calloc a b junk
  | .realloc oldBlock newSize, s => s.realloc oldBlock newSize junk junk'

/-- The arguments are 32-bit numbers, and `realloc` gets a live block or a null pointer. -/
def Asked (s : Store) : Request → Prop
  | .malloc size => size < 2 ^ 32
  | .calloc a b => a < 2 ^ 32 ∧ b < 2 ^ 32
  | .realloc oldBlock newSize =>
      newSize < 2 ^ 32 ∧ (oldBlock = 0 ∨ ∃ n, (oldBlock, n) ∈ s.live)

/-- `realloc` has kept the first bytes of the old block, or has not touched it.  With zero `newSize`
it is `free`. -/
def Moved (s s' : Store) (p oldBlock newSize : ℕ) : Prop :=
  newSize ≠ 0 → ∀ n, (oldBlock, n) ∈ s.live →
    (p ≠ 0 → ∀ i < min n newSize, s'.byte (p + i) = s.byte (oldBlock + i)) ∧
    (p = 0 → (oldBlock, n) ∈ s'.live ∧ s'.heap.usableSize oldBlock = n ∧
      ∀ i < n, s'.byte (oldBlock + i) = s.byte (oldBlock + i))

/-- A request is answered by a null pointer or by a live block that is large enough. -/
def Honoured (s : Store) (q : Request) (r : Except Failure (Store × ℕ)) : Prop :=
  ∃ s' p, r = .ok (s', p) ∧
    (p ≠ 0 → q.amount ≤ s'.heap.usableSize p ∧ (p, s'.heap.usableSize p) ∈ s'.live) ∧
    match q with
    | .realloc oldBlock newSize => Moved s s' p oldBlock newSize
    | _ => True

/-- The requests that are honoured.  The size and the header wrap from `2 ^ 32 - 11` on. -/
def Fine (s : Store) : Request → Prop
  | .malloc size => size < 2 ^ 32 - 11 ∨ ¬ FreeRun s.heap.pages false 1
  | .calloc a b => a * b < 2 ^ 32 - 11 ∨ a * b % 2 ^ 32 < a ∨ a * b % 2 ^ 32 < b ∨
      ¬ Room s.heap (a * b % 2 ^ 32)
  | .realloc _ newSize => newSize < 2 ^ 32 - 11 ∨ ¬ FreeRun s.heap.pages false 1

/-! ### Sizes -/

variable {a b d n p size : ℕ} {x y r : ℕ × ℕ} {h h' : Heap} {s s' : Store} {junk junk' : Junk}

theorem desc_le : ∀ x ∈ descs, x.blockSize ≤ 1024 := by
  rw [descs_eq]
  decide

theorem findDesc_eq_none (hsize : 1024 < size) : findDesc size = none := by
  rw [findDesc, List.findIdx?_eq_none_iff]
  intro x hx
  have hle := desc_le x hx
  apply decide_eq_false
  omega

theorem pagesFor_last (hlo : 2 ^ 32 - 11 ≤ size) (hhi : size < 2 ^ 32) : pagesFor size = 1 := by
  unfold pagesFor arenaSize pgSize
  omega

theorem provided_last (hlo : 2 ^ 32 - 11 ≤ size) (hhi : size < 2 ^ 32) :
    provided size < size := by
  rw [provided, findDesc_eq_none (by omega), pagesFor_last hlo hhi]
  unfold pgSize arenaSize
  dsimp only
  omega

theorem room_last (hlo : 2 ^ 32 - 11 ≤ size) (hhi : size < 2 ^ 32) :
    Room h size ↔ FreeRun h.pages false 1 := by
  rw [Room, findDesc_eq_none (by omega), pagesFor_last hlo hhi]
  exact ⟨fun hroom => hroom.2.2, fun hfree => ⟨by omega, Nat.one_pos, hfree⟩⟩

theorem Room.le_provided (hroom : Room h size) (hsize : size < 2 ^ 32 - 11) :
    size ≤ provided size := by
  by_cases hwrap : size + arenaSize + pgSize - 1 < 2 ^ 32
  · exact Malloc.le_provided hwrap
  · -- so many pages are none
    unfold arenaSize pgSize at hwrap
    have hpages : pagesFor size = 0 := by
      unfold pagesFor arenaSize pgSize
      omega
    rw [Room, findDesc_eq_none (by omega), hpages] at hroom
    exact absurd hroom.2.1 (Nat.lt_irrefl 0)

theorem blockSize_le (d : ℕ) : Malloc.blockSize d ≤ 1024 := by
  by_cases hd : d < descs.length
  · have hmem := desc_le _ (List.getElem_mem hd)
    rwa [← List.getD_eq_getElem _ ⟨0, 0⟩ hd] at hmem
  · rw [Malloc.blockSize, List.getD_eq_default _ _ (Nat.le_of_not_lt hd)]
    exact Nat.zero_le _

theorem provided_le (size : ℕ) : provided size < size + 2 ^ 32 := by
  unfold provided
  split
  · have := blockSize_le
    rename_i d _
    have := this d
    omega
  · unfold pagesFor arenaSize pgSize
    omega

/-! ### Where the heap writes -/

theorem Fits.usableSize_live {s : State} (hs : Fits s) (hx : x ∈ s.live) :
    s.heap.usableSize x.1 = x.2 := by
  obtain ⟨r, hr, hblock, -⟩ := hs.live x hx
  have hsound := hs.sound hr
  have hofs := hblock.ofs hsound
  rw [Heap.usableSize, hblock.roundDown hsound]
  cases hdesc : (s.heap.arena r.1).desc with
  | some d =>
      rw [hdesc] at hblock
      obtain ⟨i, -, rfl⟩ := hblock
      rfl
  | none =>
      rw [hdesc] at hblock
      obtain rfl := hblock
      dsimp only at hofs ⊢
      rw [(hs.header r hr).big hdesc]
      omega

theorem Fits.clear_free {s : State} (hs : Fits s) (hx : x ∈ s.live)
    (hb : b ∈ s.heap.freeList d) : Clear x (b, Malloc.blockSize d) := by
  obtain ⟨r, hr, hblock, hfree⟩ := hs.live x hx
  obtain ⟨r', hr', hd, hblock'⟩ := hs.free d b hb
  apply hs.clear_blocks hr hr' hblock (hd ▸ hblock')
  rintro rfl
  exact hfree d hb

theorem elemSize_le (hd : d < descs.length) : elemSize ≤ Malloc.blockSize d := by
  have hall : ∀ x ∈ descs, elemSize ≤ x.blockSize := by
    rw [descs_eq]
    decide
  have hmem := hall _ (List.getElem_mem hd)
  rwa [← List.getD_eq_getElem _ ⟨0, 0⟩ hd] at hmem

theorem Fits.not_records {s : State} (hs : Fits s) (hx : x ∈ s.live) {i : ℕ} (hi : i < x.2) :
    ¬ s.heap.Records (x.1 + i) := by
  rintro (⟨r, hr, hlo, hhi⟩ | ⟨d, hd, b, hb, hlo, hhi⟩)
  · have hclear := hs.clear_live hx hr
    unfold Clear at hclear
    dsimp only at hclear
    omega
  · have hclear := hs.clear_free hx hb
    have hle := elemSize_le (List.mem_range.mp hd)
    unfold Clear at hclear
    dsimp only at hclear
    omega

/-- A block has the bytes that it had. -/
def Untouched (s s' : Store) (x : ℕ × ℕ) : Prop := ∀ i < x.2, s'.byte (x.1 + i) = s.byte (x.1 + i)

/-- **`malloc`** gives a block if there is room, and touches no live block. -/
theorem Store.malloc_cases (hk : Kept s.toState) (size : ℕ) (junk : Junk) :
    (∃ s', s.malloc size junk = .ok (s', 0) ∧ ¬ Room s.heap size ∧ s'.toState = s.toState ∧
      ∀ x ∈ s.live, Untouched s s' x) ∨
    ∃ s' p, s.malloc size junk = .ok (s', p) ∧ Room s.heap size ∧ p ≠ 0 ∧ Kept s'.toState ∧
      s'.live = (p, provided size) :: s.live ∧ ∀ x ∈ s.live, Untouched s s' x := by
  obtain ⟨hnull, hroom⟩ | ⟨h', p, hok, hroom, hne, husable, -, hkept⟩ := hk.malloc size
  · left
    rw [Store.malloc, hnull, ok_bind]
    refine ⟨_, rfl, hroom, rfl, fun x hx i hi => ?_⟩
    have hnot := hk.not_records hx hi
    exact if_neg (not_or.mpr ⟨hnot, hnot⟩)
  · right
    rw [Store.malloc, hok, ok_bind]
    rw [husable] at hkept
    dsimp only
    rw [if_neg hne, husable]
    refine ⟨_, p, rfl, hroom, hne, hkept, rfl, fun x hx i hi => ?_⟩
    have hnot := hk.not_records hx hi
    have hnot' := hkept.not_records (List.mem_cons_of_mem _ hx) hi
    exact if_neg (not_or.mpr ⟨hnot, hnot'⟩)

theorem Store.put_eq (hk : Kept s.toState) {m : ℕ} (hx : (p, m) ∈ s.live) (hn : n ≤ m)
    (value : ℕ → UInt8) (junk : Junk) : ∃ s', s.put p n value junk = .ok s' ∧ Kept s'.toState ∧
      s'.live = s.live ∧ ∀ i < n, s'.byte (p + i) = value i := by
  have husable := hk.usableSize_live hx
  dsimp only at husable
  have hfits : ¬ s.heap.usableSize p < n := by omega
  rw [Store.put, if_neg hfits]
  refine ⟨_, rfl, hk.overwrite ?_ junk.arena, rfl, ?_⟩
  · intro r hr
    have hclear := hk.clear_live hx hr
    unfold Clear at *
    dsimp only at *
    omega
  · intro i hi
    dsimp only
    rw [if_pos ⟨by omega, by omega⟩, Nat.add_sub_cancel_left]

/-- The arena of a freed block is given back only if there is no other live block in it. -/
theorem Fits.givenBack {s : State} (hs : Fits s) (hx : x ∈ s.live) (hy : y ∈ s.live) (hne : y ≠ x) :
    Clear (pgRoundDown x.1, pgSize * s.heap.givenBack x.1) y := by
  obtain ⟨r, hr, hblock, -⟩ := hs.live x hx
  obtain ⟨r', hr', hblock', -⟩ := hs.live y hy
  have hsound := hs.sound hr
  have hdown := hblock.roundDown hsound
  have hin := hblock'.within (hs.sound hr')
  have hheader := hs.header r hr
  have hle : s.heap.givenBack x.1 ≤ r.2 ∧ (r' = r → s.heap.givenBack x.1 = 0) := by
    rw [Heap.givenBack, hdown]
    cases hdesc : (s.heap.arena r.1).desc with
    | none =>
        refine ⟨Nat.le_of_eq (hheader.big hdesc), ?_⟩
        rintro rfl
        rw [hdesc] at hblock hblock'
        exact absurd (Eq.trans hblock' (Eq.symm hblock)) hne
    | some d =>
        obtain ⟨hd, hone, hcnt⟩ := hheader.small d hdesc
        dsimp only
        refine ⟨by split <;> omega, ?_⟩
        rintro rfl
        apply if_neg
        rw [hdesc] at hblock hblock'
        have hsize : x = (x.1, Malloc.blockSize d) := by
          obtain ⟨i, -, rfl⟩ := hblock
          rfl
        -- with `x` on the free list all blocks would be free, and `y` is not
        intro hfull
        have hs₁ := hs.releaseBlock (b := x.1) hr hdesc (hsize ▸ hblock) (hsize ▸ hx)
        have hcnt₁ := ((hs₁.header r' hr).small d (by rw [Heap.setFreeCnt_desc]; exact hdesc)).2.2
        have hle₁ := hs₁.length_freeIn_le (d := d) hr
        rw [Heap.setFreeCnt_freeCnt, if_pos rfl] at hcnt₁
        have hmul := Nat.le_mul_of_pos_right (blocksPerArena d) (desc_bounds hd).1
        have hbound := (desc_bounds hd).2.2
        have hy₁ : y ∈ s.live.filter fun z => z.1 ≠ x.1 := by
          refine List.mem_filter.mpr ⟨hy, decide_eq_true fun he => hne ?_⟩
          exact hs.live_ext hy hx he
        refine hs₁.not_live hr (by rw [Heap.setFreeCnt_desc]; exact hdesc) ?_ y hy₁ ?_
        · unfold pgSize arenaSize at hbound
          dsimp only at hcnt₁ hle₁ ⊢
          omega
        · rw [← hdesc] at hblock'
          exact hblock'.roundDown hsound
  rw [hdown]
  by_cases hrr : r' = r
  · rw [hle.2 hrr]
    subst hrr
    refine .inl ?_
    unfold arenaSize at hin
    dsimp only
    omega
  · have hclear := hs.clear_arenas hr hr' (Ne.symm hrr)
    have hmul := Nat.mul_le_mul_left pgSize hle.1
    unfold Clear bytes arenaSize at *
    dsimp only at *
    omega

/-- **`free`** of a live block touches no other. -/
theorem Store.free_eq (hk : Kept s.toState) (hx : x ∈ s.live) (junk : Junk) :
    ∃ s', s.free x.1 junk = .ok s' ∧ Kept s'.toState ∧
      s'.live = (s.live.filter fun y => y.1 ≠ x.1) ∧ ∀ y ∈ s.live, y ≠ x → Untouched s s' y := by
  obtain ⟨r, hr, hblock, h', hfree, hkept, -⟩ := hk.free_live hx
  rw [Store.free, if_neg (hk.live_ne_zero hx), hfree, ok_bind]
  refine ⟨_, rfl, hkept, rfl, fun y hy hne i hi => ?_⟩
  have hback := hk.givenBack hx hy hne
  have hsize := hk.usableSize_live hx
  have hy' : y ∈ s.live.filter fun z => z.1 ≠ x.1 :=
    List.mem_filter.mpr ⟨hy, decide_eq_true fun he => hne (hk.live_ext hy hx he)⟩
  have hnot := hk.not_records hy hi
  have hnot' := hkept.not_records hy' hi
  have hapart : Clear x y := by
    obtain ⟨r', hr', hblock', -⟩ := hk.live y hy
    exact hk.clear_blocks hr hr' hblock hblock' (Ne.symm hne)
  unfold Clear at hback hapart
  dsimp only at hback hapart ⊢
  rw [if_neg (by omega), if_neg (not_or.mpr ⟨hnot, hnot'⟩), if_neg (by omega)]

/-! ### `calloc` and `realloc` -/

/-- `calloc` returns a null pointer on purpose. -/
def Refused (s : Store) (a b : ℕ) : Prop :=
  a * b % 2 ^ 32 < a ∨ a * b % 2 ^ 32 < b ∨ ¬ Room s.heap (a * b % 2 ^ 32)

/-- **`calloc`**: a block of the size that the product has in 32 bits, unless there is no room for
it, or it is smaller than what is cleared. -/
theorem Store.calloc_cases (hk : Kept s.toState) (a b : ℕ) (junk : Junk) :
    (∃ s', s.calloc a b junk = .ok (s', 0) ∧ s'.toState = s.toState ∧ Refused s a b) ∨
    (¬ Refused s a b ∧ 2 ^ 32 - 11 ≤ a * b % 2 ^ 32 ∧ s.calloc a b junk = .error .panic) ∨
    ∃ s' p, s.calloc a b junk = .ok (s', p) ∧ ¬ Refused s a b ∧ a * b % 2 ^ 32 < 2 ^ 32 - 11 ∧
      p ≠ 0 ∧ Kept s'.toState ∧ (p, provided (a * b % 2 ^ 32)) ∈ s'.live := by
  have hmod : a * b % 2 ^ 32 < 2 ^ 32 := Nat.mod_lt _ (by decide)
  rw [Store.calloc, Refused]
  generalize a * b % 2 ^ 32 = size at *
  dsimp only
  by_cases hnoticed : size < a ∨ size < b
  · rw [if_pos hnoticed]
    exact .inl ⟨s, rfl, rfl, by tauto⟩
  rw [if_neg hnoticed]
  obtain ⟨s', hnull, hroom, hsame, -⟩ | ⟨s', p, hok, hroom, hne, hkept, hlive, -⟩ :=
    Store.malloc_cases hk size junk
  · rw [hnull, ok_bind]
    exact .inl ⟨s', rfl, hsame, .inr (.inr hroom)⟩
  have hp : (p, provided size) ∈ s'.live := by
    rw [hlive]
    exact List.mem_cons_self
  rw [hok, ok_bind]
  dsimp only
  rw [if_pos hne]
  right
  by_cases hsize : size < 2 ^ 32 - 11
  · obtain ⟨t, hput, hkept', hlive', -⟩ := Store.put_eq hkept hp (hroom.le_provided hsize)
      (fun _ => 0) junk
    rw [hput]
    exact .inr ⟨t, p, rfl, by tauto, hsize, hne, hkept', hlive' ▸ hp⟩
  · have husable := hkept.usableSize_live hp
    have hlt := provided_last (Nat.le_of_not_lt hsize) hmod
    dsimp only at husable
    rw [Store.put, if_pos (by omega)]
    exact .inl ⟨by tauto, Nat.le_of_not_lt hsize, rfl⟩

/-- **`realloc`** of a live block.  The first bytes of the old block go to a new one, unless there
is no room for it, or it is smaller than what is copied. -/
theorem Store.realloc_live (hk : Kept s.toState) (hx : x ∈ s.live) (hsize : size ≠ 0)
    (junk junk' : Junk) :
    (∃ s', s.realloc x.1 size junk junk' = .ok (s', 0) ∧ ¬ Room s.heap size ∧
      s'.toState = s.toState ∧ Untouched s s' x) ∨
    (Room s.heap size ∧ provided size < size ∧
      s.realloc x.1 size junk junk' = .error .panic) ∨
    ∃ s' p, s.realloc x.1 size junk junk' = .ok (s', p) ∧ Room s.heap size ∧ p ≠ 0 ∧
      Kept s'.toState ∧ (p, provided size) ∈ s'.live ∧
      ∀ i < min x.2 size, s'.byte (p + i) = s.byte (x.1 + i) := by
  rw [Store.realloc, if_neg hsize]
  obtain ⟨s₁, hnull, hroom, hsame, huntouched⟩ | ⟨s₁, p, hok, hroom, hne, hk₁, hlive₁, hold₁⟩ :=
    Store.malloc_cases hk size junk
  · rw [hnull, ok_bind]
    dsimp only
    rw [if_neg (not_and_not_right.mpr fun _ => rfl)]
    exact .inl ⟨s₁, rfl, hroom, hsame, huntouched x hx⟩
  have hx₁ : x ∈ s₁.live := by
    rw [hlive₁]
    exact List.mem_cons_of_mem _ hx
  have hp₁ : (p, provided size) ∈ s₁.live := by
    rw [hlive₁]
    exact List.mem_cons_self
  have hpx : (p, provided size) ≠ x := by
    rintro rfl
    have hnodup := hk₁.live_nodup
    rw [hlive₁] at hnodup
    exact (List.nodup_cons.mp hnodup).1 hx
  obtain ⟨r, hr, hblock, -⟩ := hk₁.live x hx₁
  have hbs : s₁.blockSize x.1 = .ok x.2 := by
    rw [Store.blockSize, hk₁.blockToArena_eq hr hblock, ok_bind, hk₁.usableSize_live hx₁]
    rfl
  have hmin : (if size < x.2 then size else x.2) = min x.2 size := by
    rw [Nat.min_def]
    split <;> split <;> omega
  rw [hok, ok_bind]
  dsimp only
  rw [if_pos ⟨hk.live_ne_zero hx, hne⟩, hbs, ok_bind, hmin]
  right
  by_cases hfits : min x.2 size ≤ provided size
  · obtain ⟨s₂, hput, hk₂, hlive₂, hvalue⟩ := Store.put_eq hk₁ hp₁ hfits
      (fun i => s₁.byte (x.1 + i)) junk
    obtain ⟨s₃, hfree, hk₃, hlive₃, hother⟩ := Store.free_eq (x := x) hk₂ (hlive₂ ▸ hx₁) junk'
    rw [hput, ok_bind, hfree]
    refine .inr ⟨s₃, p, rfl, hroom, hne, hk₃, ?_, fun i hi => ?_⟩
    · rw [hlive₃, hlive₂]
      exact List.mem_filter.mpr ⟨hp₁, decide_eq_true fun he => hpx (hk₁.live_ext hp₁ hx₁ he)⟩
    · rw [hother _ (hlive₂ ▸ hp₁) hpx i (by dsimp only; omega), hvalue i hi]
      exact hold₁ x hx i (by omega)
  · have husable := hk₁.usableSize_live hp₁
    dsimp only at husable
    refine .inl ⟨hroom, by omega, ?_⟩
    rw [Store.put, if_pos (by omega)]
    rfl

theorem Store.realloc_null (hsize : size ≠ 0) (junk junk' : Junk) (s : Store) :
    s.realloc 0 size junk junk' = s.malloc size junk := by
  rw [Store.realloc, if_neg hsize]
  cases s.malloc size junk with
  | error e => rfl
  | ok r => rfl

/-! ### What is honoured -/

theorem amount_iff (hsize : size < 2 ^ 32) (hroom : Room h size) :
    size ≤ provided size ↔ size < 2 ^ 32 - 11 ∨ ¬ FreeRun h.pages false 1 := by
  constructor
  · intro hle
    left
    by_contra hlo
    have hlt := provided_last (Nat.le_of_not_lt hlo) hsize
    omega
  · rintro (hlt | hnone)
    · exact hroom.le_provided hlt
    · by_contra hshort
      have hlo : 2 ^ 32 - 11 ≤ size := by
        by_contra hlt
        exact hshort (hroom.le_provided (Nat.lt_of_not_le hlt))
      exact hnone ((room_last hlo hsize).mp hroom)

theorem fine_of_not_room (hsize : size < 2 ^ 32) (hroom : ¬ Room h size) :
    size < 2 ^ 32 - 11 ∨ ¬ FreeRun h.pages false 1 := by
  by_cases hlo : size < 2 ^ 32 - 11
  · exact .inl hlo
  · exact .inr fun hfree => hroom ((room_last (Nat.le_of_not_lt hlo) hsize).mpr hfree)

theorem honoured_ok {q : Request} {m : ℕ} (hk : Kept s'.toState) (hne : p ≠ 0)
    (hp : (p, m) ∈ s'.live)
    (hmoved : ∀ oldBlock newSize, q = .realloc oldBlock newSize → Moved s s' p oldBlock newSize) :
    Honoured s q (.ok (s', p)) ↔ q.amount ≤ m := by
  have husable := hk.usableSize_live hp
  dsimp only at husable
  constructor
  · rintro ⟨t, p', heq, hgiven, -⟩
    obtain ⟨rfl, rfl⟩ := Prod.mk.inj (Except.ok.inj heq)
    rw [← husable]
    exact (hgiven hne).1
  · intro hle
    refine ⟨s', p, rfl, fun _ => ?_, ?_⟩
    · rw [husable]
      exact ⟨hle, hp⟩
    · cases q with
      | realloc oldBlock newSize => exact hmoved oldBlock newSize rfl
      | malloc size => exact trivial
      | calloc a b => exact trivial

theorem honoured_null {q : Request}
    (hmoved : ∀ oldBlock newSize, q = .realloc oldBlock newSize → Moved s s' 0 oldBlock newSize) :
    Honoured s q (.ok (s', 0)) := by
  refine ⟨s', 0, rfl, fun hne => absurd rfl hne, ?_⟩
  cases q with
  | realloc oldBlock newSize => exact hmoved oldBlock newSize rfl
  | malloc size => exact trivial
  | calloc a b => exact trivial

theorem not_honoured_error {q : Request} {e : Failure} : ¬ Honoured s q (.error e) := by
  rintro ⟨s', p, heq, -⟩
  cases heq

theorem honoured_malloc (hk : Kept s.toState) (hsize : size < 2 ^ 32) (junk : Junk) {q : Request}
    (hq : q.amount = size)
    (hmoved : ∀ oldBlock newSize, q = .realloc oldBlock newSize → oldBlock = 0) :
    Honoured s q (s.malloc size junk) ↔
      (size < 2 ^ 32 - 11 ∨ ¬ FreeRun s.heap.pages false 1) := by
  have hmoved' : ∀ s' p oldBlock newSize, q = .realloc oldBlock newSize →
      Moved s s' p oldBlock newSize := by
    intro s' p oldBlock newSize heq _ n hx
    exact absurd (hmoved oldBlock newSize heq) (hk.live_ne_zero hx)
  obtain ⟨s', hnull, hroom, -⟩ | ⟨s', p, hok, hroom, hne, hkept, hlive, -⟩ :=
    Store.malloc_cases hk size junk
  · rw [hnull]
    exact iff_of_true (honoured_null (hmoved' s' 0)) (fine_of_not_room hsize hroom)
  · rw [hok, honoured_ok hkept hne (hlive ▸ List.mem_cons_self) (hmoved' s' p), hq]
    exact amount_iff hsize hroom

theorem honoured_calloc (hk : Kept s.toState) (a b : ℕ) (junk : Junk) :
    Honoured s (.calloc a b) (s.calloc a b junk) ↔ Fine s (.calloc a b) := by
  change _ ↔ a * b < 2 ^ 32 - 11 ∨ Refused s a b
  have hle := Nat.mod_le (a * b) (2 ^ 32)
  obtain ⟨s', hnull, -, hrefused⟩ | ⟨hwanted, hlast, herror⟩ |
      ⟨s', p, hok, hwanted, hsize, hne, hkept, hlive⟩ := Store.calloc_cases hk a b junk
  · rw [hnull]
    exact iff_of_true (honoured_null fun _ _ heq => nomatch heq) (.inr hrefused)
  · rw [herror]
    refine iff_of_false not_honoured_error ?_
    rintro (hlt | hrefused)
    · omega
    · exact hwanted hrefused
  · have hmoved : ∀ oldBlock newSize, Request.calloc a b = .realloc oldBlock newSize →
        Moved s s' p oldBlock newSize := nofun
    have hroom : Room s.heap (a * b % 2 ^ 32) := by
      by_contra hnone
      exact hwanted (.inr (.inr hnone))
    have hlt := provided_le (a * b % 2 ^ 32)
    rw [hok, honoured_ok hkept hne hlive hmoved, or_iff_left hwanted, Request.amount]
    generalize a * b = m at *
    constructor
    · -- the block is too small for a product that has wrapped
      intro hle
      omega
    · intro hprod
      rw [Nat.mod_eq_of_lt (by omega)] at hroom ⊢
      exact hroom.le_provided hprod

theorem honoured_realloc (hk : Kept s.toState) (hsize : size < 2 ^ 32)
    (hold : p = 0 ∨ ∃ n, (p, n) ∈ s.live) (junk junk' : Junk) :
    Honoured s (.realloc p size) (s.realloc p size junk junk') ↔ Fine s (.realloc p size) := by
  rw [Fine]
  by_cases hzero : size = 0
  · subst hzero
    have hmoved : ∀ s', Honoured s (.realloc p 0) (.ok (s', 0)) := by
      intro s'
      apply honoured_null
      intro oldBlock newSize heq hne
      exact absurd (Request.realloc.inj heq).2.symm hne
    rw [Store.realloc, if_pos rfl]
    refine iff_of_true ?_ (.inl (by omega))
    obtain rfl | ⟨n, hx⟩ := hold
    · exact hmoved s
    · obtain ⟨s', hfree, -⟩ := Store.free_eq hk hx junk'
      rw [hfree]
      exact hmoved s'
  obtain rfl | ⟨n, hx⟩ := hold
  · rw [Store.realloc_null hzero]
    apply honoured_malloc hk hsize junk rfl
    intro oldBlock newSize heq
    exact (Request.realloc.inj heq).1.symm
  · have hn : ∀ n', (p, n') ∈ s.live → n' = n := fun n' hx' =>
      congrArg Prod.snd (hk.live_ext hx' hx rfl)
    obtain ⟨s', hnull, hroom, hsame, hbytes⟩ | ⟨hroom, hshort, herror⟩ |
        ⟨s', p', hok, hroom, hne, hkept, hlive, hbytes⟩ := Store.realloc_live hk hx hzero junk junk'
    · rw [hnull]
      refine iff_of_true (honoured_null ?_) (fine_of_not_room hsize hroom)
      intro oldBlock newSize heq _ n' hx'
      obtain ⟨rfl, rfl⟩ := Request.realloc.inj heq
      obtain rfl := hn n' hx'
      have husable := hk.usableSize_live hx
      refine ⟨fun hne => absurd rfl hne, fun _ => ?_⟩
      rw [hsame]
      exact ⟨hx, husable, hbytes⟩
    · rw [herror]
      refine iff_of_false not_honoured_error ?_
      rw [← amount_iff hsize hroom]
      omega
    · rw [hok, honoured_ok hkept hne hlive]
      · exact amount_iff hsize hroom
      intro oldBlock newSize heq _ n' hx'
      obtain ⟨rfl, rfl⟩ := Request.realloc.inj heq
      obtain rfl := hn n' hx'
      exact ⟨fun _ => hbytes, fun hnull => absurd hnull hne⟩

/-- **Requests.** -/
theorem honoured_iff {q : Request} (hk : Kept s.toState) (hq : Asked s q) (junk junk' : Junk) :
    Honoured s q (serve junk junk' q s) ↔ Fine s q := by
  cases q with
  | malloc size => exact honoured_malloc hk hq junk rfl nofun
  | calloc a b => exact honoured_calloc hk a b junk
  | realloc oldBlock newSize => exact honoured_realloc hk hq.1 hq.2 junk junk'

theorem malloc_kept (hk : Kept s.toState) (hmalloc : s.malloc size junk = .ok (s', p)) :
    Kept s'.toState := by
  obtain ⟨t, hnull, -, hsame, -⟩ | ⟨t, p', hok, -, -, hkept, -⟩ := Store.malloc_cases hk size junk
  · obtain rfl := congrArg Prod.fst (Except.ok.inj (hnull.symm.trans hmalloc))
    exact hsame ▸ hk
  · obtain rfl := congrArg Prod.fst (Except.ok.inj (hok.symm.trans hmalloc))
    exact hkept

theorem serve_kept {q : Request} (hk : Kept s.toState) (hq : Asked s q)
    (hserve : serve junk junk' q s = .ok (s', p)) : Kept s'.toState := by
  cases q with
  | malloc size => exact malloc_kept hk hserve
  | calloc a b =>
      rw [serve] at hserve
      obtain ⟨t, hnull, hsame, -⟩ | ⟨-, -, herror⟩ | ⟨t, p', hok, -, -, -, hkept, -⟩ :=
        Store.calloc_cases hk a b junk
      · obtain rfl := congrArg Prod.fst (Except.ok.inj (hnull.symm.trans hserve))
        exact hsame ▸ hk
      · cases herror.symm.trans hserve
      · obtain rfl := congrArg Prod.fst (Except.ok.inj (hok.symm.trans hserve))
        exact hkept
  | realloc oldBlock newSize =>
      rw [serve] at hserve
      by_cases hzero : newSize = 0
      · subst hzero
        obtain rfl | ⟨n, hx⟩ := hq.2
        · obtain rfl := congrArg Prod.fst (Except.ok.inj hserve)
          exact hk
        · obtain ⟨t, hfree, hkept, -⟩ := Store.free_eq hk hx junk'
          rw [Store.realloc, if_pos rfl, hfree] at hserve
          obtain rfl := congrArg Prod.fst (Except.ok.inj hserve)
          exact hkept
      obtain rfl | ⟨n, hx⟩ := hq.2
      · rw [Store.realloc_null hzero] at hserve
        exact malloc_kept hk hserve
      · obtain ⟨t, hnull, -, hsame, -⟩ | ⟨-, -, herror⟩ | ⟨t, p', hok, -, -, hkept, -⟩ :=
          Store.realloc_live hk hx hzero junk junk'
        · obtain rfl := congrArg Prod.fst (Except.ok.inj (hnull.symm.trans hserve))
          exact hsame ▸ hk
        · cases herror.symm.trans hserve
        · obtain rfl := congrArg Prod.fst (Except.ok.inj (hok.symm.trans hserve))
          exact hkept

/-! ### Every run -/

inductive Event where
  | serve (q : Request) (junk junk' : Junk)
  | free (p : ℕ) (junk : Junk)
  /-- Others call the page allocator. -/
  | others (c : Palloc.Call)
  /-- The bytes `r` are written by their owner. -/
  | write (r : ℕ × ℕ) (junk : Junk)

def Store.step : Event → Store → Option Store
  | .serve q junk junk', s => (serve junk junk' q s).toOption.map Prod.fst
  | .free p junk, s => (s.free p junk).toOption
  | .others c, s => (Palloc.step c s.heap.pages).map fun pages =>
      { s with heap := { s.heap with pages } }
  | .write r junk, s => some ⟨⟨s.heap.overwrite r junk.arena, s.live⟩,
      fun x => if r.1 ≤ x ∧ x < r.1 + r.2 then junk.byte x else s.byte x⟩

/-- Every live block is freed once, and others free and write only what is theirs. -/
def Store.Permitted (s : Store) : Event → Prop
  | .serve q _ _ => Asked s q
  | .free p _ => Allowed s.toState (.free p)
  | .others c => Allowed s.toState (.others c)
  | .write r junk => Allowed s.toState (.write r junk.arena)

theorem Kept.store_step {e : Event} (hk : Kept s.toState) (he : s.Permitted e)
    (hstep : Store.step e s = some s') : Kept s'.toState := by
  cases e with
  | serve q junk junk' =>
      cases hserve : serve junk junk' q s with
      | error f =>
          rw [Store.step, hserve] at hstep
          cases hstep
      | ok result =>
          rw [Store.step, hserve] at hstep
          obtain rfl := Option.some.inj hstep
          exact serve_kept hk he hserve
  | free p junk =>
      obtain rfl | ⟨n, hx⟩ := he
      · obtain rfl := Option.some.inj hstep
        exact hk
      · obtain ⟨t, hfree, hkept, -⟩ := Store.free_eq hk hx junk
        rw [Store.step, hfree] at hstep
        obtain rfl := Option.some.inj hstep
        exact hkept
  | others c =>
      obtain ⟨pages, hpages, rfl⟩ := Option.map_eq_some_iff.mp hstep
      have hheap : Malloc.step (.others c) s.toState =
          some ⟨{ s.heap with pages }, s.live⟩ := by
        rw [Malloc.step, hpages]
        rfl
      have hallowed : Allowed s.toState (.others c) := he
      exact hk.step hallowed hheap
  | write r junk =>
      obtain rfl := Option.some.inj hstep
      have hallowed : Allowed s.toState (.write r junk.arena) := he
      exact hk.step hallowed rfl

/-- The machine at its start; `arena` and `byte` are what the memory holds. -/
def Store.init (pages : Palloc.State) (arena : ℕ → Arena) (byte : ℕ → UInt8) : Store :=
  ⟨mallocInit pages arena, byte⟩

theorem store_reachable_kept {start : Store} (h₀ : Kept start.toState)
    (hr : Reachable Store.step Store.Permitted start s) : Kept s.toState :=
  hr.invariant (I := fun s => Kept s.toState) h₀ fun _ _ _ _ hk he hs => hk.store_step he hs

/-- **Requests to the heap**, in every state of every machine that the loader starts: which of them
are honoured. -/
theorem heap_requests_iff (mem : ℕ → BitVec 32) (userPageLimit : ℕ) (arena : ℕ → Arena)
    (byte : ℕ → UInt8) {initRamPages : ℕ} (hmax : initRamPages ≤ 16384) :
    pallocInit mem initRamPages userPageLimit = .error .panic ∨
      ∃ p, pallocInit mem initRamPages userPageLimit = .ok p ∧
        ∀ s, Reachable Store.step Store.Permitted (Store.init ⟨p, fun _ => []⟩ arena byte) s →
          ∀ q, Asked s q → ∀ junk junk', Honoured s q (serve junk junk' q s) ↔ Fine s q := by
  obtain hpanic | ⟨p, hp, hkept⟩ := pallocInit_cases mem userPageLimit hmax
  · exact .inl hpanic
  · refine .inr ⟨p, hp, fun s hr q hq junk junk' => ?_⟩
    exact honoured_iff (store_reachable_kept (kept_mallocInit hkept arena) hr) hq junk junk'

/-- A machine with four pages above the first megabyte. -/
theorem heap_requests_four : ∃ p, pallocInit (fun _ => 0) 260 0xffffffff = .ok p ∧
    ∀ s, Reachable Store.step Store.Permitted
        (Store.init ⟨p, fun _ => []⟩ (fun _ => cleared) fun _ => 0) s →
      ∀ q, Asked s q → ∀ junk junk', Honoured s q (serve junk junk' q s) ↔ Fine s q := by
  have hok : (pallocInit (fun _ => 0) 260 0xffffffff).isOk = true := by decide
  refine (heap_requests_iff (fun _ => 0) 0xffffffff (fun _ => cleared) (fun _ => 0)
    (by decide)).resolve_left ?_
  intro hpanic
  rw [hpanic] at hok
  cases hok

/-- There `malloc (0xffffffff)` returns a block of 4084 bytes. -/
theorem heap_request_short : ∃ p, pallocInit (fun _ => 0) 260 0xffffffff = .ok p ∧
    ∀ junk junk', ¬ Honoured (Store.init ⟨p, fun _ => []⟩ (fun _ => cleared) fun _ => 0)
      (.malloc 0xffffffff) (serve junk junk' (.malloc 0xffffffff)
        (Store.init ⟨p, fun _ => []⟩ (fun _ => cleared) fun _ => 0)) := by
  have hone : (pallocInit (fun _ => 0) 260 0xffffffff).map
      (fun p => (p false).usedMap.bitCnt) = .ok 1 := by decide
  obtain hpanic | ⟨p, hp, hkept⟩ := pallocInit_cases (fun _ => 0) 0xffffffff
    (by decide : 260 ≤ 16384)
  · rw [hpanic] at hone
    cases hone
  rw [hp] at hone
  have hcnt : (p false).usedMap.bitCnt = 1 := Except.ok.inj hone
  refine ⟨p, hp, fun junk junk' => ?_⟩
  have hk : Kept (Store.init ⟨p, fun _ => []⟩ (fun _ => cleared) fun _ => 0).toState :=
    kept_mallocInit hkept fun _ => cleared
  have hasked : Asked (Store.init ⟨p, fun _ => []⟩ (fun _ => cleared) fun _ => 0)
      (.malloc 0xffffffff) := by
    change 0xffffffff < 2 ^ 32
    decide
  rw [honoured_iff hk hasked junk junk']
  rintro (hlt | hnone)
  · exact absurd hlt (by decide)
  · exact hnone ⟨(p false).range (0, 1), ⟨0, rfl, Nat.le_of_eq hcnt.symm⟩, rfl, nofun⟩

end CSE130.Lab3.Malloc
