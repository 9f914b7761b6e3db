import CSE130.Lab3.Palloc
import Mathlib.Data.List.Flatten
import Mathlib.Tactic.IntervalCases

/-! # Page directories (`userprog/pagedir.c`)

A page directory is a page of 1024 words, and so is a page table.  A word is the physical address of
a page with flags in its low bits.  The memory is a function from addresses to words, of which the
words of aligned addresses are used; pages come from the page allocator and go back to it, which
overwrites them.

The translation lookaside buffer is not modelled, nor the bits that the processor sets. -/

namespace CSE130.Lab3.PageDir

open Function (update)
open Transition Palloc

abbrev Word := BitVec 32

/-- `PAL_ZERO`. -/
def palZero : ℕ := 2

def ptNo (va : ℕ) : ℕ := va / pgSize % 1024

def pdNo (va : ℕ) : ℕ := va / (1024 * pgSize)

/-- `PTE_ADDR`, `PTE_P`, `PTE_W` and `PTE_U`. -/
def pteAddr : Word := 0xfffff000#32
def pteP : Word := 1#32
def pteW : Word := 2#32
def pteU : Word := 4#32

/-- `is_user_vaddr`. -/
def IsUserVaddr (vaddr : ℕ) : Prop := vaddr < Palloc.physBase

instance (vaddr : ℕ) : Decidable (IsUserVaddr vaddr) := inferInstanceAs (Decidable (_ < _))

def vtop (vaddr : ℕ) : Except Failure ℕ := do
  assert (Palloc.physBase ≤ vaddr)
  return vaddr - Palloc.physBase

def pdeCreate (pt : ℕ) : Except Failure Word := do
  assert (pgOfs pt = 0)
  return .ofNat 32 (← vtop pt) ||| pteU ||| pteP ||| pteW

def pdeGetPt (pde : Word) : Except Failure ℕ := do
  assert (pde &&& pteP ≠ 0)
  ptov (pde &&& pteAddr).toNat

def pteCreateKernel (page : ℕ) (writable : Bool) : Except Failure Word := do
  assert (pgOfs page = 0)
  return .ofNat 32 (← vtop page) ||| pteP ||| if writable then pteW else 0

def pteCreateUser (page : ℕ) (writable : Bool) : Except Failure Word := do
  return (← pteCreateKernel page writable) ||| pteU

def pteGetPage (pte : Word) : Except Failure ℕ := ptov (pte &&& pteAddr).toNat

/-- The page allocator and the words of the memory. -/
structure State where
  pages : Palloc.State
  mem : ℕ → Word

/-- The addresses of a page. -/
def InPage (page x : ℕ) : Prop := page ≤ x ∧ x < page + pgSize

instance (page x : ℕ) : Decidable (InPage page x) := inferInstanceAs (Decidable (_ ∧ _))

namespace State

def store (a : ℕ) (w : Word) (s : State) : State := { s with mem := update s.mem a w }

/-- A page is filled with copies of a word. -/
def fill (page : ℕ) (w : Word) (s : State) : State :=
  { s with mem := fun x => if InPage page x then w else s.mem x }

def pallocGetPage (flags : ℕ) (s : State) : Except Failure (State × ℕ) := do
  let (pages, a) ← s.pages.getMultiple flags 1
  let s := { s with pages }
  return (if a ≠ 0 ∧ flags &&& palZero ≠ 0 then s.fill a 0 else s, a)

def pallocFreePage (page : ℕ) (s : State) : Except Failure State := do
  let pages ← s.pages.freeMultiple page 1
  let s := { s with pages }
  return if page = 0 then s else s.fill page 0xcccccccc

/-- `pagedir_create`; `initPageDir` is `init_page_dir`. -/
def pagedirCreate (initPageDir : ℕ) (s : State) : Except Failure (State × ℕ) := do
  let (s, pd) ← s.pallocGetPage 0
  if pd ≠ 0 then
    let mem := fun x => if InPage pd x then s.mem (initPageDir + (x - pd)) else s.mem x
    return ({ s with mem }, pd)
  return (s, pd)

/-- `lookup_page`: the address of the entry, or a null pointer. -/
def lookupPage (pd vaddr : ℕ) (create : Bool) (s : State) : Except Failure (State × ℕ) := do
  assert (pd ≠ 0)
  assert (create = false ∨ IsUserVaddr vaddr)
  let pde := pd + 4 * pdNo vaddr
  if s.mem pde = 0 then
    if create then
      let (s, pt) ← s.pallocGetPage palZero
      if pt = 0 then return (s, 0)
      let s := s.store pde (← pdeCreate pt)
      return (s, (← pdeGetPt (s.mem pde)) + 4 * ptNo vaddr)
    else return (s, 0)
  else return (s, (← pdeGetPt (s.mem pde)) + 4 * ptNo vaddr)

def pagedirSetPage (initRamPages initPageDir pd upage kpage : ℕ) (writable : Bool) (s : State) :
    Except Failure (State × Bool) := do
  assert (pgOfs upage = 0)
  assert (pgOfs kpage = 0)
  assert (IsUserVaddr upage)
  assert ((← vtop kpage) / pgSize < initRamPages)
  assert (pd ≠ initPageDir)
  let (s, pte) ← s.lookupPage pd upage true
  if pte ≠ 0 then
    assert (s.mem pte &&& pteP = 0)
    return (s.store pte (← pteCreateUser kpage writable), true)
  else return (s, false)

def pagedirGetPage (pd uaddr : ℕ) (s : State) : Except Failure ℕ := do
  assert (IsUserVaddr uaddr)
  let (s, pte) ← s.lookupPage pd uaddr false
  if pte ≠ 0 ∧ s.mem pte &&& pteP ≠ 0 then return (← pteGetPage (s.mem pte)) + pgOfs uaddr
  else return 0

def pagedirClearPage (pd upage : ℕ) (s : State) : Except Failure State := do
  assert (pgOfs upage = 0)
  assert (IsUserVaddr upage)
  let (s, pte) ← s.lookupPage pd upage false
  if pte ≠ 0 ∧ s.mem pte &&& pteP ≠ 0 then return s.store pte (s.mem pte &&& ~~~pteP)
  else return s

/-- The inner loop of `pagedir_destroy`, for the entry `j` of the table `pt`. -/
def freeEntry (pt : ℕ) (s : State) (j : ℕ) : Except Failure State :=
  let pte := s.mem (pt + 4 * j)
  if pte &&& pteP ≠ 0 then do s.pallocFreePage (← pteGetPage pte) else .ok s

/-- The outer loop, for the entry `i` of the directory. -/
def freeTable (pd : ℕ) (s : State) (i : ℕ) : Except Failure State :=
  let pde := s.mem (pd + 4 * i)
  if pde &&& pteP ≠ 0 then do
    let pt ← pdeGetPt pde
    let s ← (List.range 1024).foldlM (freeEntry pt) s
    s.pallocFreePage pt
  else .ok s

def pagedirDestroy (initPageDir pd : ℕ) (s : State) : Except Failure State := do
  if pd = 0 then return s
  assert (pd ≠ initPageDir)
  let s ← (List.range (pdNo Palloc.physBase)).foldlM (freeTable pd) s
  s.pallocFreePage pd

end State

/-! ### Entries -/

variable {n i j page : ℕ} {w : Word}

/-- The page that an entry points to, if it is present. -/
def frame (w : Word) : Option ℕ :=
  if w &&& pteP ≠ 0 then some ((w &&& pteAddr).toNat + Palloc.physBase) else none

theorem and_pteAddr (w : Word) : (w &&& pteAddr).toNat = w.toNat / pgSize * pgSize := by
  have hshift : w &&& pteAddr = (w >>> 12) <<< 12 := by
    unfold pteAddr
    ext i hi
    interval_cases i <;> simp
  rw [hshift, BitVec.toNat_shiftLeft, BitVec.toNat_ushiftRight, Nat.shiftRight_eq_div_pow,
    Nat.shiftLeft_eq]
  have hlt := w.isLt
  unfold pgSize
  omega

theorem and_pteP (w : Word) : w &&& pteP ≠ 0 ↔ w.toNat % 2 = 1 := by
  rw [ne_eq, ← BitVec.toNat_inj, BitVec.toNat_and]
  simp [pteP, Nat.and_one_is_mod]

/-- Flags leave the address as it is. -/
theorem or_flags {f : Word} (hofs : n % pgSize = 0) (hn : n < 2 ^ 32) (hf : f.toNat < pgSize) :
    (BitVec.ofNat 32 n ||| f).toNat = n + f.toNat := by
  unfold pgSize at *
  rw [BitVec.toNat_or, BitVec.toNat_ofNat, Nat.mod_eq_of_lt hn]
  obtain ⟨m, rfl⟩ : ∃ m, n = 2 ^ 12 * m := ⟨n / 4096, by omega⟩
  rw [← Nat.two_pow_add_eq_or_of_lt (by omega)]

theorem frame_or {f : Word} (hofs : n % pgSize = 0) (hn : n < 2 ^ 32) (hf : f.toNat < pgSize)
    (hp : f.toNat % 2 = 1) : frame (BitVec.ofNat 32 n ||| f) = some (n + Palloc.physBase) := by
  have hor := or_flags hofs hn hf
  have hpresent : (BitVec.ofNat 32 n ||| f) &&& pteP ≠ 0 := by
    rw [and_pteP, hor]
    unfold pgSize at hofs
    omega
  rw [frame, if_pos hpresent, and_pteAddr, hor]
  congr 2
  unfold pgSize at *
  omega

/-- A page of kernel memory. -/
structure IsPage (page : ℕ) : Prop where
  aligned : page % pgSize = 0
  kernel : Palloc.physBase ≤ page
  end_le : page + pgSize ≤ 2 ^ 32

theorem IsPage.ne_zero (hp : IsPage page) : page ≠ 0 := by
  have hk := hp.kernel
  unfold Palloc.physBase at hk
  omega

theorem vtop_eq (hp : IsPage page) : vtop page = .ok (page - Palloc.physBase) := by
  rw [vtop, assert_pos hp.kernel]
  rfl

theorem IsPage.frame_or (hp : IsPage page) {f : Word} (hf : f.toNat < pgSize)
    (hodd : f.toNat % 2 = 1) : frame (BitVec.ofNat 32 (page - Palloc.physBase) ||| f) = some page := by
  have haligned := hp.aligned
  have hkernel := hp.kernel
  have hend := hp.end_le
  rw [PageDir.frame_or _ _ hf hodd]
  · congr 1
    omega
  · unfold pgSize Palloc.physBase at *
    omega
  · unfold pgSize Palloc.physBase at *
    omega

theorem pdeCreate_eq (hp : IsPage page) :
    ∃ w, pdeCreate page = .ok w ∧ frame w = some page := by
  have hofs : pgOfs page = 0 := hp.aligned
  rw [pdeCreate, assert_pos hofs, ok_bind, vtop_eq hp, ok_bind]
  refine ⟨_, rfl, ?_⟩
  rw [BitVec.or_assoc, BitVec.or_assoc]
  exact hp.frame_or (by decide) (by decide)

theorem pteCreateUser_eq (hp : IsPage page) (writable : Bool) :
    ∃ w, pteCreateUser page writable = .ok w ∧ frame w = some page := by
  have hofs : pgOfs page = 0 := hp.aligned
  rw [pteCreateUser, pteCreateKernel, assert_pos hofs, ok_bind, vtop_eq hp, ok_bind]
  refine ⟨_, rfl, ?_⟩
  rw [BitVec.or_assoc, BitVec.or_assoc]
  cases writable with
  | false => exact hp.frame_or (by decide) (by decide)
  | true => exact hp.frame_or (by decide) (by decide)

theorem frame_eq_some (hw : frame w = some page) :
    w &&& pteP ≠ 0 ∧ (w &&& pteAddr).toNat + Palloc.physBase = page := by
  unfold frame at hw
  split at hw
  · exact ⟨‹_›, Option.some.inj hw⟩
  · cases hw

theorem frame_eq_none : frame w = none ↔ w &&& pteP = 0 := by
  unfold frame
  split
  · rename_i hp
    exact iff_of_false (by simp) hp
  · rename_i hp
    exact iff_of_true rfl (not_not.mp hp)

theorem pteGetPage_eq (hw : frame w = some page) (hp : page < 2 ^ 32) :
    pteGetPage w = .ok page := by
  obtain ⟨-, haddr⟩ := frame_eq_some hw
  rw [pteGetPage, ptov, assert_pos (by unfold Palloc.physBase at *; omega), ← haddr]
  rfl

theorem pdeGetPt_eq (hw : frame w = some page) (hp : page < 2 ^ 32) : pdeGetPt w = .ok page := by
  rw [pdeGetPt, assert_pos (frame_eq_some hw).1]
  exact pteGetPage_eq hw hp

/-- An entry that is cleared is not present. -/
theorem frame_clear (w : Word) : frame (w &&& ~~~pteP) = none := by
  rw [frame_eq_none, BitVec.and_assoc, BitVec.and_comm (~~~pteP)]
  simp

/-! ### The map -/

/-- The entries of a directory for user addresses. -/
def userTables : ℕ := pdNo Palloc.physBase

theorem userTables_eq : userTables = 768 := by decide

/-- The pages of user addresses. -/
def userPages : ℕ := pgNo Palloc.physBase

theorem userPages_eq : userPages = 768 * 1024 := by decide

/-- The page table of an entry of the directory. -/
def State.table (pd : ℕ) (s : State) (i : ℕ) : Option ℕ := frame (s.mem (pd + 4 * i))

/-- What a page is mapped to. -/
def State.view (pd : ℕ) (s : State) (p : ℕ) : Option ℕ :=
  (s.table pd (p / 1024)).bind fun pt => frame (s.mem (pt + 4 * (p % 1024)))

/-- The pages that the directory consists of. -/
def State.Owned (pd : ℕ) (s : State) (a : ℕ) : Prop :=
  a = pd ∨ ∃ i < userTables, s.table pd i = some a

/-- The invariant of a directory. -/
structure Good (pd : ℕ) (s : State) : Prop where
  pages : Palloc.Kept s.pages
  memory : InMemory s.pages.pools
  owned : ∀ a, s.Owned pd a → (a, 1) ∈ s.pages.live false
  pde : ∀ i < userTables, s.mem (pd + 4 * i) = 0 ∨ ∃ pt, s.table pd i = some pt
  ne_dir : ∀ i < userTables, s.table pd i ≠ some pd
  inj : ∀ i < userTables, ∀ j < userTables, ∀ pt, s.table pd i = some pt →
    s.table pd j = some pt → i = j
  pte : ∀ p < userPages, ∀ k, s.view pd p = some k → k < 2 ^ 32

variable {s s' : State} {pd pt ipd va upage kpage p k a b : ℕ} {user user' : Bool}

theorem isPage_of_live (hm : InMemory s.pages.pools) (hk : Palloc.Kept s.pages)
    (ha : (a, 1) ∈ s.pages.live user) : IsPage a := by
  obtain ⟨⟨i, hi, hic⟩, -⟩ := hk.within ha
  have haligned := hk.layout.aligned user
  have hmem := hm user
  dsimp only at hi hic
  refine ⟨?_, ?_, ?_⟩
  · rw [hi]
    unfold pgSize at *
    omega
  · omega
  · have hmul : pgSize * (i + 1) ≤ pgSize * (s.pages.pools user).usedMap.bitCnt :=
      Nat.mul_le_mul_left _ hic
    rw [Nat.mul_succ] at hmul
    omega

theorem not_inPage (hk : Palloc.Kept s.pages) (ha : (a, 1) ∈ s.pages.live user)
    (hb : (b, 1) ∈ s.pages.live user') (hne : a ≠ b) {x : ℕ} (hx : InPage a x) : ¬ InPage b x := by
  have hclear := hk.clear ha hb fun he => hne (congrArg Prod.fst he)
  unfold Clear bytes at hclear
  unfold InPage at *
  dsimp only at hclear
  omega

theorem inPage_word (a : ℕ) (hi : i < 1024) : InPage a (a + 4 * i) := by
  unfold InPage pgSize
  omega

theorem word_ne (hk : Palloc.Kept s.pages) (ha : (a, 1) ∈ s.pages.live user)
    (hb : (b, 1) ∈ s.pages.live user') (hne : a ≠ b) (hi : i < 1024) (hj : j < 1024) :
    a + 4 * i ≠ b + 4 * j := by
  intro he
  exact not_inPage hk ha hb hne (inPage_word a hi) (he ▸ inPage_word b hj)

theorem lt_userTables (hva : IsUserVaddr va) : pdNo va < userTables := by
  rw [userTables_eq]
  unfold IsUserVaddr Palloc.physBase at hva
  unfold pdNo pgSize
  omega

theorem pgNo_div (va : ℕ) : pgNo va / 1024 = pdNo va := by
  unfold pgNo pdNo pgSize
  omega

theorem pgNo_mod (va : ℕ) : pgNo va % 1024 = ptNo va := rfl

theorem pgNo_lt (hva : IsUserVaddr va) : pgNo va < userPages := by
  rw [userPages_eq]
  unfold IsUserVaddr Palloc.physBase at hva
  unfold pgNo pgSize
  omega

theorem ptNo_lt (va : ℕ) : ptNo va < 1024 := Nat.mod_lt _ (by decide)

theorem div_lt_userTables (hp : p < userPages) : p / 1024 < userTables := by
  rw [userPages_eq] at hp
  rw [userTables_eq]
  omega

theorem userTables_le (hi : i < userTables) : i < 1024 := by
  rw [userTables_eq] at hi
  omega

theorem frame_zero : frame 0 = none := by decide

theorem view_eq_none (ht : s.table pd (p / 1024) = none) : s.view pd p = none := by
  rw [State.view, ht]
  rfl

theorem view_eq (ht : s.table pd (p / 1024) = some pt) :
    s.view pd p = frame (s.mem (pt + 4 * (p % 1024))) := by
  rw [State.view, ht]
  rfl

namespace Good

theorem dir (hg : Good pd s) : (pd, 1) ∈ s.pages.live false := hg.owned pd (.inl rfl)

theorem isPage_dir (hg : Good pd s) : IsPage pd := isPage_of_live hg.memory hg.pages hg.dir

theorem table_live (hg : Good pd s) (hi : i < userTables) (ht : s.table pd i = some pt) :
    (pt, 1) ∈ s.pages.live false := hg.owned pt (.inr ⟨i, hi, ht⟩)

theorem isPage_table (hg : Good pd s) (hi : i < userTables) (ht : s.table pd i = some pt) :
    IsPage pt := isPage_of_live hg.memory hg.pages (hg.table_live hi ht)

theorem table_ne_dir (hg : Good pd s) (hi : i < userTables) (ht : s.table pd i = some pt) :
    pt ≠ pd := by
  rintro rfl
  exact hg.ne_dir i hi ht

theorem table_congr (hword : ∀ i < 1024, s'.mem (pd + 4 * i) = s.mem (pd + 4 * i))
    (hi : i < userTables) : s'.table pd i = s.table pd i :=
  congrArg frame (hword i (userTables_le hi))

/-- The invariant, when the directory is not written. -/
theorem of_words (hg : Good pd s) (hk : Palloc.Kept s'.pages) (hm : InMemory s'.pages.pools)
    (hlive : ∀ a, s.Owned pd a → (a, 1) ∈ s'.pages.live false)
    (hword : ∀ i < 1024, s'.mem (pd + 4 * i) = s.mem (pd + 4 * i))
    (hpte : ∀ p < userPages, ∀ k, s'.view pd p = some k → k < 2 ^ 32) : Good pd s' where
  pages := hk
  memory := hm
  owned a ha := by
    apply hlive a
    obtain rfl | ⟨i, hi, ht⟩ := ha
    · exact .inl rfl
    · exact .inr ⟨i, hi, (table_congr hword hi).symm.trans ht⟩
  pde i hi := by
    rw [table_congr hword hi]
    exact (hg.pde i hi).imp_left (hword i (userTables_le hi)).trans
  ne_dir i hi := by
    rw [table_congr hword hi]
    exact hg.ne_dir i hi
  inj i hi j hj pt hti htj := by
    rw [table_congr hword hi] at hti
    rw [table_congr hword hj] at htj
    exact hg.inj i hi j hj pt hti htj
  pte := hpte

/-- The rest of the system may write to other pages and give and take them. -/
theorem congr {pages : Palloc.State} {mem : ℕ → Word} (hg : Good pd s) (hk : Palloc.Kept pages)
    (hs : SameSizes s.pages.pools pages.pools)
    (hlive : ∀ a, s.Owned pd a → (a, 1) ∈ pages.live false)
    (hmem : ∀ a, s.Owned pd a → ∀ x, InPage a x → mem x = s.mem x) :
    Good pd ⟨pages, mem⟩ ∧ (∀ i < 1024, mem (pd + 4 * i) = s.mem (pd + 4 * i)) ∧
      ∀ p < userPages, State.view pd ⟨pages, mem⟩ p = s.view pd p := by
  have hword : ∀ i < 1024, mem (pd + 4 * i) = s.mem (pd + 4 * i) := fun i hi =>
    hmem pd (.inl rfl) _ (inPage_word pd hi)
  have hview : ∀ p < userPages, State.view pd ⟨pages, mem⟩ p = s.view pd p := by
    intro p hp
    have hi := div_lt_userTables hp
    have heq : State.table pd ⟨pages, mem⟩ (p / 1024) = _ := table_congr hword hi
    cases ht : s.table pd (p / 1024) with
    | none => rw [view_eq_none ht, view_eq_none (heq.trans ht)]
    | some pt =>
        rw [view_eq ht, view_eq (heq.trans ht)]
        exact congrArg frame (hmem pt (.inr ⟨_, hi, ht⟩) _
          (inPage_word pt (Nat.mod_lt _ (by decide))))
  refine ⟨hg.of_words hk (hg.memory.of_sizes hs) hlive hword fun p hp k hv => ?_, hword, hview⟩
  rw [hview p hp] at hv
  exact hg.pte p hp k hv

/-- **One entry of a table is written.** -/
theorem store_entry (hg : Good pd s) (hp : p < userPages) (ht : s.table pd (p / 1024) = some pt)
    (hw : ∀ k, frame w = some k → k < 2 ^ 32) :
    Good pd (s.store (pt + 4 * (p % 1024)) w) ∧
      (∀ i < 1024, (s.store (pt + 4 * (p % 1024)) w).mem (pd + 4 * i) = s.mem (pd + 4 * i)) ∧
      ∀ q < userPages, (s.store (pt + 4 * (p % 1024)) w).view pd q =
        if q = p then frame w else s.view pd q := by
  have hi := div_lt_userTables hp
  have hpt := hg.table_live hi ht
  have hne := hg.table_ne_dir hi ht
  have hmod : ∀ q, q % 1024 < 1024 := fun q => Nat.mod_lt q (by decide)
  have hword : ∀ i < 1024,
      (s.store (pt + 4 * (p % 1024)) w).mem (pd + 4 * i) = s.mem (pd + 4 * i) := fun i hi =>
    Function.update_of_ne (word_ne hg.pages hg.dir hpt (Ne.symm hne) hi (hmod p)) ..
  have hview : ∀ q < userPages, (s.store (pt + 4 * (p % 1024)) w).view pd q =
      if q = p then frame w else s.view pd q := by
    intro q hq
    have hiq := div_lt_userTables hq
    have heq := table_congr hword hiq
    by_cases hqp : q = p
    · subst hqp
      rw [if_pos rfl, view_eq (heq.trans ht)]
      exact congrArg frame (Function.update_self ..)
    · rw [if_neg hqp]
      cases htq : s.table pd (q / 1024) with
      | none => rw [view_eq_none htq, view_eq_none (heq.trans htq)]
      | some pt' =>
          rw [view_eq htq, view_eq (heq.trans htq)]
          refine congrArg frame (Function.update_of_ne ?_ ..)
          by_cases hpt' : pt' = pt
          · subst hpt'
            have hdiv := hg.inj _ hiq _ hi pt' htq ht
            omega
          · exact word_ne hg.pages (hg.table_live hiq htq) hpt hpt' (hmod q) (hmod p)
  refine ⟨hg.of_words hg.pages hg.memory hg.owned hword fun q hq k hv => ?_, hword, hview⟩
  rw [hview q hq] at hv
  split at hv
  · exact hw k hv
  · exact hg.pte q hq k hv

/-- What the memory holds after a table has been put into the directory, a new page of zeros. -/
structure NewTable (pd i a : ℕ) (s t : State) : Prop where
  dir : ∀ j < 1024, j ≠ i → t.mem (pd + 4 * j) = s.mem (pd + 4 * j)
  table : t.table pd i = some a
  zero : ∀ j < 1024, t.mem (a + 4 * j) = 0
  words : ∀ b, (b, 1) ∈ s.pages.live false → b ≠ pd → ∀ j < 1024, t.mem (b + 4 * j) = s.mem (b + 4 * j)
  fresh : ∀ b, (b, 1) ∈ s.pages.live false → b ≠ a

theorem newTable_store {pages : Palloc.State} (hg : Good pd s) (hi : i < userTables)
    (hclear : ∀ r ∈ s.pages.live false, Clear (bytes (a, 1)) (bytes r)) (hw : frame w = some a)
    {t : State} (heq : t = ((State.mk pages s.mem).fill a 0).store (pd + 4 * i) w) :
    NewTable pd i a s t := by
  have hfresh : ∀ b, (b, 1) ∈ s.pages.live false → ∀ x, InPage b x → ¬ InPage a x := by
    intro b hb x hx hax
    have hapart := hclear _ hb
    unfold Clear bytes at hapart
    unfold InPage at *
    dsimp only at hapart
    omega
  have hother : ∀ x, x ≠ pd + 4 * i → t.mem x = if InPage a x then 0 else s.mem x := by
    intro x hx
    rw [heq]
    exact Function.update_of_ne hx ..
  constructor
  case dir =>
    intro j hj hne
    rw [hother _ (by omega), if_neg (hfresh pd hg.dir _ (inPage_word pd hj))]
  case table =>
    have hnew : t.mem (pd + 4 * i) = w := by
      rw [heq]
      exact Function.update_self ..
    exact (congrArg frame hnew).trans hw
  case zero =>
    intro j hj
    have hword : a + 4 * j ≠ pd + 4 * i := by
      intro he
      exact hfresh pd hg.dir _ (he ▸ inPage_word pd (userTables_le hi)) (inPage_word a hj)
    rw [hother _ hword, if_pos (inPage_word a hj)]
  case words =>
    intro b hb hne j hj
    have hword : b + 4 * j ≠ pd + 4 * i :=
      word_ne hg.pages hb hg.dir hne hj (userTables_le hi)
    rw [hother _ hword, if_neg (hfresh b hb _ (inPage_word b hj))]
  case fresh =>
    rintro b hb rfl
    exact hfresh b hb _ (inPage_word b (by decide : 0 < 1024)) (inPage_word b (by decide))

section

variable {t : State} (hn : NewTable pd i a s t)
include hn

theorem NewTable.tables (j : ℕ) (hj : j < userTables) (hne : j ≠ i) :
    t.table pd j = s.table pd j :=
  congrArg frame (hn.dir j (userTables_le hj) hne)

/-- The new table is empty, and the other tables are as they were. -/
theorem NewTable.view (hg : Good pd s) (ht : s.table pd i = none) (p : ℕ) (hp : p < userPages) :
    t.view pd p = s.view pd p := by
  have hip := div_lt_userTables hp
  have hmod : p % 1024 < 1024 := Nat.mod_lt p (by decide)
  by_cases hpi : p / 1024 = i
  · rw [view_eq (hpi ▸ hn.table), view_eq_none (hpi ▸ ht), hn.zero _ hmod]
    exact frame_zero
  · have hsame := hn.tables _ hip hpi
    cases htp : s.table pd (p / 1024) with
    | none => rw [view_eq_none htp, view_eq_none (hsame.trans htp)]
    | some pt =>
        rw [view_eq htp, view_eq (hsame.trans htp),
          hn.words pt (hg.table_live hip htp) (hg.table_ne_dir hip htp) _ hmod]

/-- The page of the new table is that of no other. -/
theorem NewTable.inj (hg : Good pd s) {j l : ℕ} (hj : j < userTables) (hl : l < userTables)
    (htj : t.table pd j = some pt) (htl : t.table pd l = some pt) : j = l := by
  have hold : ∀ j < userTables, j ≠ i → t.table pd j ≠ some a := by
    intro j hj hji htj
    rw [hn.tables j hj hji] at htj
    exact hn.fresh a (hg.table_live hj htj) rfl
  by_cases hji : j = i
  · by_cases hli : l = i
    · exact hji.trans hli.symm
    · rw [hji, hn.table] at htj
      exact absurd (htl.trans htj.symm) (hold l hl hli)
  · by_cases hli : l = i
    · rw [hli, hn.table] at htl
      exact absurd (htj.trans htl.symm) (hold j hj hji)
    · rw [hn.tables j hj hji] at htj
      rw [hn.tables l hl hli] at htl
      exact hg.inj j hj l hl pt htj htl

/-- The pages of the directory and its tables are given. -/
theorem NewTable.owned (hg : Good pd s) (hlive : t.pages.live false = (a, 1) :: s.pages.live false)
    (b : ℕ) (hb : t.Owned pd b) : (b, 1) ∈ t.pages.live false := by
  rw [hlive]
  obtain rfl | ⟨j, hj, htj⟩ := hb
  · exact List.mem_cons_of_mem _ hg.dir
  · by_cases hji : j = i
    · rw [hji, hn.table] at htj
      obtain rfl := Option.some.inj htj
      exact List.mem_cons_self
    · rw [hn.tables j hj hji] at htj
      exact List.mem_cons_of_mem _ (hg.table_live hj htj)

end

/-- **A table is put into the directory**, a new page of zeros. -/
theorem new_table {pages : Palloc.State} (hg : Good pd s) (hi : i < userTables)
    (ht : s.table pd i = none) (hk : Palloc.Kept pages) (hs : SameSizes s.pages.pools pages.pools)
    (hlive : pages.live false = (a, 1) :: s.pages.live false)
    (hclear : ∀ r ∈ s.pages.live false, Clear (bytes (a, 1)) (bytes r)) (hw : frame w = some a)
    {t : State} (heq : t = ((State.mk pages s.mem).fill a 0).store (pd + 4 * i) w) :
    Good pd t ∧ (∀ j < 1024, j ≠ i → t.mem (pd + 4 * j) = s.mem (pd + 4 * j)) ∧
      t.table pd i = some a ∧ (∀ j < userTables, j ≠ i → t.table pd j = s.table pd j) ∧
      ∀ p < userPages, t.view pd p = s.view pd p := by
  have hn := newTable_store hg hi hclear hw heq
  have hpages : t.pages = pages := by
    rw [heq]
    rfl
  refine ⟨⟨hpages ▸ hk, hpages ▸ hg.memory.of_sizes hs, hn.owned hg (hpages ▸ hlive), ?_, ?_, ?_,
    ?_⟩, hn.dir, hn.table, hn.tables, hn.view hg ht⟩
  · intro j hj
    by_cases hji : j = i
    · exact .inr ⟨a, hji ▸ hn.table⟩
    · rw [hn.tables j hj hji, hn.dir j (userTables_le hj) hji]
      exact hg.pde j hj
  · intro j hj
    by_cases hji : j = i
    · rw [hji, hn.table]
      intro he
      exact hn.fresh pd hg.dir (Option.some.inj he).symm
    · rw [hn.tables j hj hji]
      exact hg.ne_dir j hj
  · exact fun j hj l hl pt htj htl => hn.inj hg hj hl htj htl
  · intro p hp k hv
    rw [hn.view hg ht p hp] at hv
    exact hg.pte p hp k hv

end Good

/-! ### The operations -/

/-- The address of the entry for `va`, or a null pointer. -/
def State.entryAt (pd va : ℕ) (s : State) : ℕ :=
  match s.table pd (pdNo va) with
  | some pt => pt + 4 * ptNo va
  | none => 0

theorem lookup_some {create : Bool} (hg : Good pd s) (hva : IsUserVaddr va)
    (ht : s.table pd (pdNo va) = some pt) :
    s.lookupPage pd va create = .ok (s, pt + 4 * ptNo va) := by
  have hne : s.mem (pd + 4 * pdNo va) ≠ 0 := by
    intro hzero
    rw [State.table, hzero, frame_zero] at ht
    cases ht
  have hpt := hg.isPage_table (lt_userTables hva) ht
  have hend := hpt.end_le
  have hget : pdeGetPt (s.mem (pd + 4 * pdNo va)) = .ok pt :=
    pdeGetPt_eq ht (by unfold pgSize at hend; omega)
  rw [State.lookupPage, assert_pos hg.isPage_dir.ne_zero, ok_bind, assert_pos (.inr hva), ok_bind]
  dsimp only
  rw [if_neg hne, hget]
  rfl

theorem lookup_none (hg : Good pd s) (hva : IsUserVaddr va) (ht : s.table pd (pdNo va) = none) :
    s.mem (pd + 4 * pdNo va) = 0 ∧ s.lookupPage pd va false = .ok (s, 0) := by
  have hzero : s.mem (pd + 4 * pdNo va) = 0 := by
    obtain hzero | ⟨pt, hpt⟩ := hg.pde _ (lt_userTables hva)
    · exact hzero
    · rw [ht] at hpt
      cases hpt
  refine ⟨hzero, ?_⟩
  rw [State.lookupPage, assert_pos hg.isPage_dir.ne_zero, ok_bind, assert_pos (.inr hva), ok_bind]
  dsimp only
  rw [if_pos hzero]
  rfl

theorem entry_ne_zero (hp : IsPage pt) (j : ℕ) : pt + 4 * j ≠ 0 := by
  have hne := hp.ne_zero
  omega

/-- What an address is mapped to. -/
def translate (view : ℕ → Option ℕ) (va : ℕ) : ℕ :=
  match view (pgNo va) with
  | some k => k + pgOfs va
  | none => 0

/-- **`pagedir_get_page`** reads the map. -/
theorem pagedirGetPage_eq (hg : Good pd s) (hva : IsUserVaddr va) :
    s.pagedirGetPage pd va = .ok (translate (s.view pd) va) := by
  rw [State.pagedirGetPage, assert_pos hva, ok_bind, translate]
  cases ht : s.table pd (pdNo va) with
  | none =>
      rw [(lookup_none hg hva ht).2, ok_bind, view_eq_none (by rw [pgNo_div]; exact ht)]
      rfl
  | some pt =>
      have hpt := hg.isPage_table (lt_userTables hva) ht
      have hview : s.view pd (pgNo va) = frame (s.mem (pt + 4 * ptNo va)) :=
        view_eq (by rw [pgNo_div]; exact ht)
      rw [lookup_some hg hva ht, ok_bind, hview]
      dsimp only
      cases hf : frame (s.mem (pt + 4 * ptNo va)) with
      | none =>
          rw [if_neg fun hp => hp.2 (frame_eq_none.mp hf)]
          rfl
      | some k =>
          have hk := hg.pte _ (pgNo_lt hva) k (hview.trans hf)
          rw [if_pos ⟨entry_ne_zero hpt _, (frame_eq_some hf).1⟩, pteGetPage_eq hf hk]
          rfl

/-- **`pagedir_clear_page`** takes a page out of the map. -/
theorem pagedirClearPage_eq (hg : Good pd s) (hofs : pgOfs upage = 0) (hu : IsUserVaddr upage) :
    ∃ s', s.pagedirClearPage pd upage = .ok s' ∧ Good pd s' ∧
      (∀ i < 1024, s'.mem (pd + 4 * i) = s.mem (pd + 4 * i)) ∧
      ∀ q < userPages, s'.view pd q = if q = pgNo upage then none else s.view pd q := by
  rw [State.pagedirClearPage, assert_pos hofs, ok_bind, assert_pos hu, ok_bind]
  have hsame : s.view pd (pgNo upage) = none →
      ∀ q < userPages, s.view pd q = if q = pgNo upage then none else s.view pd q := by
    intro hnone q _
    split
    · rename_i hq
      rw [hq, hnone]
    · rfl
  cases ht : s.table pd (pdNo upage) with
  | none =>
      rw [(lookup_none hg hu ht).2, ok_bind]
      exact ⟨s, rfl, hg, fun _ _ => rfl, hsame (view_eq_none (by rw [pgNo_div]; exact ht))⟩
  | some pt =>
      have hpt := hg.isPage_table (lt_userTables hu) ht
      have htable : s.table pd (pgNo upage / 1024) = some pt := by
        rw [pgNo_div]
        exact ht
      rw [lookup_some hg hu ht, ok_bind]
      dsimp only
      by_cases hp : s.mem (pt + 4 * ptNo upage) &&& pteP = 0
      · rw [if_neg fun h => h.2 hp]
        exact ⟨s, rfl, hg, fun _ _ => rfl, hsame ((view_eq htable).trans (frame_eq_none.mpr hp))⟩
      · rw [if_pos ⟨entry_ne_zero hpt _, hp⟩]
        obtain ⟨hg', hword, hview⟩ := hg.store_entry
          (w := s.mem (pt + 4 * ptNo upage) &&& ~~~pteP) (pgNo_lt hu) htable (by
            intro k hk
            rw [frame_clear] at hk
            cases hk)
        refine ⟨_, rfl, hg', hword, fun q hq => (hview q hq).trans ?_⟩
        rw [frame_clear]

/-- The page that `lookup_page` gets for a new table. -/
def State.newTable (pd va : ℕ) (s : State) : Option ℕ :=
  if s.mem (pd + 4 * pdNo va) = 0 then
    match s.pallocGetPage palZero with
    | .ok (_, a) => if a = 0 then none else some a
    | .error _ => none
  else none

/-- There is a table for the address, or a free page in the kernel pool to make it of. -/
def State.HasTable (pd va : ℕ) (s : State) : Prop :=
  s.table pd (pdNo va) ≠ none ∨ FreeRun s.pages false 1

/-- **`lookup_page`** for an entry that is to be written. -/
theorem lookup_create (hg : Good pd s) (hva : IsUserVaddr va) :
    (s.lookupPage pd va true = .ok (s, 0) ∧ s.newTable pd va = none ∧ ¬s.HasTable pd va) ∨
    ∃ t pt, s.lookupPage pd va true = .ok (t, pt + 4 * ptNo va) ∧ s.HasTable pd va ∧ Good pd t ∧
      t.table pd (pdNo va) = some pt ∧ (∀ p < userPages, t.view pd p = s.view pd p) ∧
      (∀ i < 1024, userTables ≤ i → t.mem (pd + 4 * i) = s.mem (pd + 4 * i)) ∧
      ∀ a, (∃ i < userTables, t.table pd i = some a) ↔
        (∃ i < userTables, s.table pd i = some a) ∨ s.newTable pd va = some a := by
  have hi := lt_userTables hva
  cases ht : s.table pd (pdNo va) with
  | some pt =>
      have hold : s.newTable pd va = none := by
        rw [State.newTable, if_neg]
        intro hzero
        rw [State.table, hzero, frame_zero] at ht
        cases ht
      have htable : s.HasTable pd va := .inl (by rw [ht]; exact Option.some_ne_none pt)
      refine .inr ⟨s, pt, lookup_some hg hva ht, htable, hg, ht, fun _ _ => rfl,
        fun _ _ _ => rfl, fun a => ?_⟩
      rw [hold]
      exact (or_iff_left nofun).symm
  | none =>
      obtain ⟨hzero, -⟩ := lookup_none hg hva ht
      rw [State.newTable, if_pos hzero, State.lookupPage, assert_pos hg.isPage_dir.ne_zero, ok_bind,
        assert_pos (.inr hva), ok_bind]
      dsimp only
      rw [if_pos hzero, if_pos rfl]
      obtain ⟨pages, a, hget, hne, hk, hlive, hwithin, hclear⟩ | hget :=
        hg.pages.get_cases palZero Nat.one_pos
      · right
        have hsizes := getMultiple_sizes hget
        have hlive' : pages.live false = (a, 1) :: s.pages.live false := by
          rw [hlive]
          rfl
        have ha : IsPage a := by
          have hmem : (a, 1) ∈ (State.mk pages s.mem).pages.live false := by
            change (a, 1) ∈ pages.live false
            rw [hlive']
            exact List.mem_cons_self
          exact isPage_of_live (hg.memory.of_sizes hsizes) hk hmem
        obtain ⟨w, hcreate, hw⟩ := pdeCreate_eq ha
        have hend := ha.end_le
        have hpt : pdeGetPt w = .ok a := pdeGetPt_eq hw (by unfold pgSize at hend; omega)
        have hzeroed : a ≠ 0 ∧ palZero &&& palZero ≠ 0 := ⟨hne, by decide⟩
        have hpage : s.pallocGetPage palZero = .ok ((State.mk pages s.mem).fill a 0, a) := by
          rw [State.pallocGetPage, hget, ok_bind]
          dsimp only
          rw [if_pos hzeroed]
          rfl
        rw [hpage, ok_bind]
        simp only [if_neg hne]
        rw [hcreate, ok_bind]
        have hread : ∀ t : State, (t.store (pd + 4 * pdNo va) w).mem (pd + 4 * pdNo va) = w :=
          fun t => Function.update_self ..
        rw [hread, hpt]
        obtain ⟨hg', hdir, htable, htables, hview⟩ := hg.new_table hi ht hk hsizes hlive'
          (hclear false) hw rfl
        have hroom : FreeRun s.pages false 1 :=
          (hg.pages.get_iff_freeRun Nat.one_pos hget).mp hne
        refine ⟨_, a, rfl, .inr hroom, hg', htable, hview, fun j hj hle => hdir j hj (by omega),
          fun b => ?_⟩
        constructor
        · rintro ⟨j, hj, htj⟩
          by_cases hji : j = pdNo va
          · rw [hji, htable] at htj
            exact .inr htj
          · exact .inl ⟨j, hj, (htables j hj hji).symm.trans htj⟩
        · rintro (⟨j, hj, htj⟩ | hb)
          · refine ⟨j, hj, (htables j hj ?_).trans htj⟩
            rintro rfl
            rw [ht] at htj
            cases htj
          · exact ⟨_, hi, htable.trans hb⟩
      · have hgiven : (0 : ℕ) ≠ 0 ↔ FreeRun s.pages (wantsUser palZero) 1 :=
          hg.pages.get_iff_freeRun Nat.one_pos hget
        have hfull : ¬FreeRun s.pages false 1 := fun hroom => hgiven.mpr hroom rfl
        rw [State.pallocGetPage, hget]
        exact .inl ⟨rfl, rfl, fun h => h.elim (fun hne => hne ht) hfull⟩

/-- What `pagedir_set_page` needs: an unmapped user page, and a page of memory. -/
structure CanSet (initRamPages pd : ℕ) (s : State) (upage kpage : ℕ) : Prop where
  ofs : pgOfs upage = 0
  user : IsUserVaddr upage
  unmapped : s.pagedirGetPage pd upage = .ok 0
  isPage : IsPage kpage
  ram : (kpage - Palloc.physBase) / pgSize < initRamPages

/-- **`pagedir_set_page`** puts a page into the map, unless there is no page for a new table. -/
theorem pagedirSetPage_eq {initRamPages : ℕ} (hg : Good pd s)
    (hc : CanSet initRamPages pd s upage kpage) (hne : pd ≠ ipd) (writable : Bool) :
    (s.pagedirSetPage initRamPages ipd pd upage kpage writable = .ok (s, false) ∧
      s.newTable pd upage = none ∧ ¬s.HasTable pd upage) ∨
    ∃ s', s.pagedirSetPage initRamPages ipd pd upage kpage writable = .ok (s', true) ∧
      s.HasTable pd upage ∧ Good pd s' ∧
      (∀ i < 1024, userTables ≤ i → s'.mem (pd + 4 * i) = s.mem (pd + 4 * i)) ∧
      (∀ q < userPages, s'.view pd q = if q = pgNo upage then some kpage else s.view pd q) ∧
      ∀ a, (∃ i < userTables, s'.table pd i = some a) ↔
        (∃ i < userTables, s.table pd i = some a) ∨ s.newTable pd upage = some a := by
  have hnone : s.view pd (pgNo upage) = none := by
    have hget := hc.unmapped
    rw [pagedirGetPage_eq hg hc.user, translate] at hget
    cases hv : s.view pd (pgNo upage) with
    | none => rfl
    | some k =>
        rw [hv] at hget
        have hzero : k + pgOfs upage = 0 := Except.ok.inj hget
        have hk : k = 0 := by omega
        -- a present entry gives an address above `Palloc.physBase`
        unfold State.view at hv
        obtain ⟨pt, -, hf⟩ := Option.bind_eq_some_iff.mp hv
        have haddr := (frame_eq_some hf).2
        unfold Palloc.physBase at haddr
        omega
  have hofs : pgOfs kpage = 0 := hc.isPage.aligned
  rw [State.pagedirSetPage, assert_pos hc.ofs, ok_bind, assert_pos hofs, ok_bind,
    assert_pos hc.user, ok_bind, vtop_eq hc.isPage, ok_bind, assert_pos hc.ram, ok_bind,
    assert_pos hne, ok_bind]
  obtain ⟨hlookup, hnew⟩ | ⟨t, pt, hlookup, hroom, hgt, htable, hview, hkernel, htables⟩ :=
    lookup_create hg hc.user
  · rw [hlookup]
    exact .inl ⟨rfl, hnew⟩
  right
  have htable' : t.table pd (pgNo upage / 1024) = some pt := by
    rw [pgNo_div]
    exact htable
  have hp : t.mem (pt + 4 * ptNo upage) &&& pteP = 0 := by
    rw [← frame_eq_none, ← pgNo_mod, ← view_eq htable', hview _ (pgNo_lt hc.user)]
    exact hnone
  obtain ⟨w, hcreate, hw⟩ := pteCreateUser_eq hc.isPage writable
  have hend := hc.isPage.end_le
  obtain ⟨hg', hword, hview'⟩ := hgt.store_entry (w := w) (pgNo_lt hc.user) htable' (by
    intro k hk
    obtain rfl := Option.some.inj (hw.symm.trans hk)
    unfold pgSize at hend
    omega)
  have hpt := hgt.isPage_table (lt_userTables hc.user) htable
  rw [hlookup, ok_bind]
  dsimp only
  rw [if_pos (entry_ne_zero hpt _), assert_pos hp, ok_bind, hcreate]
  refine ⟨_, rfl, hroom, hg', fun i hi hle => (hword i hi).trans (hkernel i hi hle),
    fun q hq => ?_, fun a => ?_⟩
  · rw [hw] at hview'
    refine (hview' q hq).trans ?_
    rw [hview q hq]
  · rw [← htables a]
    refine exists_congr fun i => and_congr_right fun hi => ?_
    exact iff_of_eq (congrArg (· = some a) (Good.table_congr hword hi))

/-! ### Runs -/

inductive Event where
  | setPage (upage kpage : ℕ) (writable : Bool)
  | clearPage (upage : ℕ)
  | getPage (uaddr : ℕ)
  /-- The rest of the system calls the page allocator and leaves `mem` in memory. -/
  | others (c : Palloc.Call) (mem : ℕ → Word)

def step (initRamPages ipd pd : ℕ) : Event → State → Option State
  | .setPage upage kpage writable, s =>
      (s.pagedirSetPage initRamPages ipd pd upage kpage writable).toOption.map Prod.fst
  | .clearPage upage, s => (s.pagedirClearPage pd upage).toOption
  | .getPage uaddr, s => (s.pagedirGetPage pd uaddr).toOption.map fun _ => s
  | .others c mem, s => (Palloc.step c s.pages).map fun pages => ⟨pages, mem⟩

/-- Pages of user addresses are set when they are not mapped, and the rest of the system keeps off
the pages of the directory. -/
def Permitted (initRamPages pd : ℕ) (s : State) : Event → Prop
  | .setPage upage kpage _ => CanSet initRamPages pd s upage kpage
  | .clearPage upage => pgOfs upage = 0 ∧ IsUserVaddr upage
  | .getPage uaddr => IsUserVaddr uaddr
  | .others c mem => Palloc.Given s.pages c ∧
      ∀ a, s.Owned pd a → c ≠ .freeMultiple a 1 ∧ ∀ x, InPage a x → mem x = s.mem x

/-- The operation is one on the page `p`. -/
def Event.On (p : ℕ) : Event → Prop
  | .setPage upage _ _ => p = pgNo upage
  | .clearPage upage => p = pgNo upage
  | _ => False

instance (p : ℕ) (e : Event) : Decidable (e.On p) := by
  cases e <;> unfold Event.On <;> infer_instance

/-- The page that was last set at `p` and not cleared since. -/
def lastSet (initRamPages ipd pd p : ℕ) : List (State × Event) → Option ℕ
  | [] => none
  | (s, e) :: h =>
      match e with
      | .setPage upage kpage writable =>
          match s.pagedirSetPage initRamPages ipd pd upage kpage writable with
          | .ok (_, true) => if p = pgNo upage then some kpage else lastSet initRamPages ipd pd p h
          | _ => lastSet initRamPages ipd pd p h
      | .clearPage upage => if p = pgNo upage then none else lastSet initRamPages ipd pd p h
      | .getPage _ | .others _ _ => lastSet initRamPages ipd pd p h

/-- The page tables that were created. -/
def created (pd : ℕ) : List (State × Event) → List ℕ
  | [] => []
  | (s, e) :: h =>
      match e with
      | .setPage upage _ _ => (s.newTable pd upage).toList ++ created pd h
      | .clearPage _ | .getPage _ | .others _ _ => created pd h

/-- What is known after a run with the history `h`; `kernel` is the rest of the directory. -/
structure Kept (initRamPages ipd pd : ℕ) (kernel : ℕ → Word) (h : List (State × Event))
    (s : State) : Prop where
  good : Good pd s
  ne_init : pd ≠ ipd
  view : ∀ p < userPages, s.view pd p = lastSet initRamPages ipd pd p h
  tables : ∀ a, (∃ i < userTables, s.table pd i = some a) ↔ a ∈ created pd h
  kernel : ∀ i < 1024, userTables ≤ i → s.mem (pd + 4 * i) = kernel i

variable {initRamPages : ℕ} {kernel : ℕ → Word} {h : List (State × Event)} {e : Event}

/-- **One step**: the map is that of the history, and only the page that the operation is on may be
mapped otherwise than before. -/
theorem Kept.step (hk : Kept initRamPages ipd pd kernel h s)
    (he : Permitted initRamPages pd s e) (hstep : step initRamPages ipd pd e s = some s') :
    Kept initRamPages ipd pd kernel ((s, e) :: h) s' ∧
      ∀ p < userPages, ¬ e.On p → s'.view pd p = s.view pd p := by
  have hg := hk.good
  cases e with
  | setPage upage kpage writable =>
      obtain ⟨hset, hnew, -⟩ | ⟨t, hset, -, hg', hkernel, hview, htables⟩ :=
        pagedirSetPage_eq hg he hk.ne_init writable
      · rw [PageDir.step, hset] at hstep
        obtain rfl := Option.some.inj hstep
        refine ⟨⟨hg, hk.ne_init, fun p hp => ?_, fun a => ?_, hk.kernel⟩, fun _ _ _ => rfl⟩
        · simp only [lastSet, hset]
          exact hk.view p hp
        · simp only [created, hnew]
          exact hk.tables a
      · rw [PageDir.step, hset] at hstep
        obtain rfl := Option.some.inj hstep
        refine ⟨⟨hg', hk.ne_init, fun p hp => ?_, fun a => ?_, fun i hi hle => ?_⟩,
          fun p hp hnot => ?_⟩
        · simp only [lastSet, hset]
          rw [hview p hp, hk.view p hp]
        · simp only [created]
          rw [List.mem_append, Option.mem_toList, htables a, hk.tables a]
          exact or_comm
        · rw [hkernel i hi hle]
          exact hk.kernel i hi hle
        · exact (hview p hp).trans (if_neg hnot)
  | clearPage upage =>
      obtain ⟨t, hclear, hg', hword, hview⟩ := pagedirClearPage_eq hg he.1 he.2
      rw [PageDir.step, hclear] at hstep
      obtain rfl := Option.some.inj hstep
      refine ⟨⟨hg', hk.ne_init, fun p hp => ?_, fun a => ?_, fun i hi hle => ?_⟩,
        fun p hp hnot => ?_⟩
      · simp only [lastSet]
        rw [hview p hp, hk.view p hp]
      · refine Iff.trans ?_ (hk.tables a)
        refine exists_congr fun i => and_congr_right fun hi => ?_
        exact iff_of_eq (congrArg (· = some a) (Good.table_congr hword hi))
      · rw [hword i hi]
        exact hk.kernel i hi hle
      · exact (hview p hp).trans (if_neg hnot)
  | getPage uaddr =>
      rw [PageDir.step, pagedirGetPage_eq hg he] at hstep
      obtain rfl := Option.some.inj hstep
      exact ⟨⟨hg, hk.ne_init, hk.view, hk.tables, hk.kernel⟩, fun _ _ _ => rfl⟩
  | others c mem =>
      obtain ⟨hgiven, hoff⟩ := he
      obtain ⟨pages, hpages, rfl⟩ := Option.map_eq_some_iff.mp hstep
      obtain ⟨hg', hword, hview⟩ := hg.congr (hg.pages.step hgiven hpages)
        (step_sizes hg.pages hgiven hpages)
        (fun a ha => mem_live_step hpages (hg.owned a ha) (hoff a ha).1)
        (fun a ha => (hoff a ha).2)
      refine ⟨⟨hg', hk.ne_init, fun p hp => ?_, fun a => ?_, fun i hi hle => ?_⟩,
        fun p hp _ => hview p hp⟩
      · exact (hview p hp).trans (hk.view p hp)
      · refine Iff.trans ?_ (hk.tables a)
        refine exists_congr fun i => and_congr_right fun hi => ?_
        exact iff_of_eq (congrArg (· = some a) (Good.table_congr hword hi))
      · exact (hword i hi).trans (hk.kernel i hi hle)

end CSE130.Lab3.PageDir
