import CSE130.Lab3.PageDirectory
import Mathlib.Data.List.Nodup

/-! # A page directory from creation to its end

`pagedir_create` copies the entries for kernel addresses; `pagedir_destroy` goes through the entries
for user addresses and frees what it finds.  Freed pages are overwritten, and the loops go on reading
the others.

The page directory is a map from user pages to pages (`page_directory_map`). -/

namespace CSE130.Lab3.PageDir

open Transition Palloc

variable {initRamPages ipd pd pt a k i j p va : ℕ} {s s' t : State} {user : Bool} {l : List ℕ}
  {kernel : ℕ → Word} {h : List (State × Event)}

/-! ### The first directory -/

/-- The loop of `paging_init`, from a page of memory on; `inKernelText` says which addresses the
linker has put the kernel's code at. -/
def pagingLoop (pd : ℕ) (inKernelText : ℕ → Bool) : ℕ → ℕ → ℕ → State → Except Failure State
  | _, 0, _, s => .ok s
  | page, n + 1, pt, s => do
      let vaddr ← ptov (page * pgSize)
      let pde := pd + 4 * pdNo vaddr
      if s.mem pde = 0 then
        let (s, pt) ← s.pallocGetPage (palAssert ||| palZero)
        let s := s.store pde (← pdeCreate pt)
        let s := s.store (pt + 4 * ptNo vaddr) (← pteCreateKernel vaddr !inKernelText vaddr)
        pagingLoop pd inKernelText (page + 1) n pt s
      else
        let s := s.store (pt + 4 * ptNo vaddr) (← pteCreateKernel vaddr !inKernelText vaddr)
        pagingLoop pd inKernelText (page + 1) n pt s

/-- `paging_init`; the address of `init_page_dir`. -/
def pagingInit (inKernelText : ℕ → Bool) (initRamPages : ℕ) (s : State) :
    Except Failure (State × ℕ) := do
  let (s, pd) ← s.pallocGetPage (palAssert ||| palZero)
  return (← pagingLoop pd inKernelText 0 initRamPages 0 s, pd)

/-- A directory without entries for user addresses. -/
structure Booted (ipd : ℕ) (s : State) : Prop where
  pages : Palloc.Kept s.pages
  memory : InMemory s.pages.pools
  live : (ipd, 1) ∈ s.pages.live false
  user : ∀ i < userTables, s.mem (ipd + 4 * i) = 0

/-- A page of zeros that was not in use. -/
structure Fresh (s : State) (a : ℕ) (t : State) : Prop where
  pages : Palloc.Kept t.pages
  sizes : SameSizes s.pages.pools t.pages.pools
  live : t.pages.live false = (a, 1) :: s.pages.live false
  clear : ∀ r ∈ s.pages.live false, Clear (bytes (a, 1)) (bytes r)
  other : ∀ x, ¬ InPage a x → t.mem x = s.mem x
  zero : ∀ x, InPage a x → t.mem x = 0

theorem Fresh.ne (hf : Fresh s a t) (hk : (k, 1) ∈ s.pages.live false) : k ≠ a := by
  rintro rfl
  have happ := hf.clear _ hk
  unfold Clear bytes pgSize at happ
  dsimp only at happ
  omega

theorem getPage_fresh (hk : Palloc.Kept s.pages)
    (hget : s.pallocGetPage (palAssert ||| palZero) = .ok (t, a)) : Fresh s a t := by
  rw [State.pallocGetPage] at hget
  obtain ⟨pages, b, hok, hne, hkept, hlive, -, hclear⟩ | hnone :=
    hk.get_cases (palAssert ||| palZero) Nat.one_pos
  · have hzeroed : b ≠ 0 ∧ (palAssert ||| palZero) &&& palZero ≠ 0 := ⟨hne, by decide⟩
    rw [hok, ok_bind] at hget
    dsimp only at hget
    rw [if_pos hzeroed] at hget
    obtain ⟨rfl, rfl⟩ := Prod.mk.inj (Except.ok.inj hget)
    refine ⟨hkept, getMultiple_sizes hok, ?_, hclear false, fun x hx => if_neg hx,
      fun x hx => if_pos hx⟩
    change pages.live false = _
    rw [hlive]
    rfl
  · rw [hnone] at hget
    cases hget

/-- The invariant of the loop: the table in use is a page of its own. -/
structure Boots (pd pt : ℕ) (s : State) : Prop extends Booted pd s where
  table : (∀ i < 1024, s.mem (pd + 4 * i) = 0) ∨ (pt, 1) ∈ s.pages.live false ∧ pt ≠ pd

theorem Boots.store_table (hb : Boots pd pt s) (hpt : (pt, 1) ∈ s.pages.live false) (hne : pt ≠ pd)
    (va : ℕ) (w : Word) : Boots pd pt (s.store (pt + 4 * ptNo va) w) := by
  refine ⟨⟨hb.pages, hb.memory, hb.live, fun i hi => ?_⟩, .inr ⟨hpt, hne⟩⟩
  have hother := word_ne hb.pages hb.live hpt (Ne.symm hne) (userTables_le hi) (ptNo_lt va)
  exact (Function.update_of_ne hother ..).trans (hb.user i hi)

/-- A new table is put into the part of the directory for kernel addresses. -/
theorem Boots.new_table (hb : Boots pd pt s) (hf : Fresh s a t) (hva : userTables ≤ pdNo va)
    (w : Word) : Boots pd a (t.store (pd + 4 * pdNo va) w) ∧ (a, 1) ∈ t.pages.live false ∧ a ≠ pd := by
  have ha : (a, 1) ∈ t.pages.live false := by
    rw [hf.live]
    exact List.mem_cons_self
  have hpd : (pd, 1) ∈ t.pages.live false := by
    rw [hf.live]
    exact List.mem_cons_of_mem _ hb.live
  have hne := hf.ne hb.live
  refine ⟨⟨⟨hf.pages, hb.memory.of_sizes hf.sizes, hpd, fun i hi => ?_⟩, .inr ⟨ha, Ne.symm hne⟩⟩, ha,
    Ne.symm hne⟩
  have hother : pd + 4 * i ≠ pd + 4 * pdNo va := by omega
  refine (Function.update_of_ne hother ..).trans ((hf.other _ ?_).trans (hb.user i hi))
  exact not_inPage hf.pages hpd ha hne (inPage_word pd (userTables_le hi))

theorem pagingLoop_boots {inKernelText : ℕ → Bool} {page n : ℕ} (hb : Boots pd pt s)
    (hmax : page + n ≤ 16384) (hloop : pagingLoop pd inKernelText page n pt s = .ok t) :
    Booted pd t := by
  induction n generalizing page pt s with
  | zero =>
      obtain rfl := Except.ok.inj hloop
      exact hb.toBooted
  | succ n ih =>
      have hva : ptov (page * pgSize) = .ok (page * pgSize + Palloc.physBase) := by
        rw [ptov, assert_pos (by unfold pgSize Palloc.physBase; omega), ok_bind]
        rfl
      rw [pagingLoop, hva, ok_bind] at hloop
      dsimp only at hloop
      generalize hvaddr : page * pgSize + Palloc.physBase = vaddr at hloop
      have hlo : userTables ≤ pdNo vaddr := by
        rw [userTables_eq, ← hvaddr]
        unfold pdNo pgSize Palloc.physBase
        omega
      have hhi : pdNo vaddr < 1024 := by
        rw [← hvaddr]
        unfold pdNo pgSize Palloc.physBase
        omega
      split at hloop
      · cases hget : s.pallocGetPage (palAssert ||| palZero) with
        | error e =>
            rw [hget] at hloop
            cases hloop
        | ok r =>
            obtain ⟨s₁, a⟩ := r
            have hf := getPage_fresh hb.pages hget
            rw [hget, ok_bind] at hloop
            dsimp only at hloop
            cases hpde : pdeCreate a with
            | error e =>
                rw [hpde] at hloop
                cases hloop
            | ok w =>
                rw [hpde, ok_bind] at hloop
                cases hpte : pteCreateKernel vaddr !inKernelText vaddr with
                | error e =>
                    rw [hpte] at hloop
                    cases hloop
                | ok w' =>
                    rw [hpte, ok_bind] at hloop
                    obtain ⟨hb₁, ha, hne⟩ := hb.new_table hf hlo w
                    exact ih (hb₁.store_table ha hne vaddr w') (by omega) hloop
      · rename_i hentry
        obtain hzero | ⟨hpt, hne⟩ := hb.table
        · exact absurd (hzero _ hhi) hentry
        · cases hpte : pteCreateKernel vaddr !inKernelText vaddr with
          | error e =>
              rw [hpte] at hloop
              cases hloop
          | ok w' =>
              rw [hpte, ok_bind] at hloop
              exact ih (hb.store_table hpt hne vaddr w') (by omega) hloop

/-- **`paging_init`** leaves a directory without user pages. -/
theorem pagingInit_booted {inKernelText : ℕ → Bool} (hk : Palloc.Kept s.pages)
    (hm : InMemory s.pages.pools) (hmax : initRamPages ≤ 16384)
    (hinit : pagingInit inKernelText initRamPages s = .ok (t, ipd)) : Booted ipd t := by
  rw [pagingInit] at hinit
  cases hget : s.pallocGetPage (palAssert ||| palZero) with
  | error e =>
      rw [hget] at hinit
      cases hinit
  | ok r =>
      obtain ⟨s₁, pd⟩ := r
      have hf := getPage_fresh hk hget
      rw [hget, ok_bind] at hinit
      dsimp only at hinit
      cases hloop : pagingLoop pd inKernelText 0 initRamPages 0 s₁ with
      | error e =>
          rw [hloop] at hinit
          cases hinit
      | ok s₂ =>
          rw [hloop] at hinit
          obtain ⟨rfl, rfl⟩ := Prod.mk.inj (Except.ok.inj hinit)
          have hzero : ∀ i < 1024, s₁.mem (pd + 4 * i) = 0 := fun i hi =>
            hf.zero _ (inPage_word pd hi)
          have hpd : (pd, 1) ∈ s₁.pages.live false := by
            rw [hf.live]
            exact List.mem_cons_self
          have hboots : Boots pd 0 s₁ := by
            refine ⟨⟨hf.pages, hm.of_sizes hf.sizes, hpd, fun i hi => ?_⟩, .inl hzero⟩
            exact hzero i (userTables_le hi)
          exact pagingLoop_boots hboots (by omega) hloop

/-! ### Creation -/

/-- **`pagedir_create`**: the copy maps no user page. -/
theorem pagedirCreate_eq (hb : Booted ipd s) (initRamPages : ℕ) :
    s.pagedirCreate ipd = .ok (s, 0) ∨ ∃ t pd, s.pagedirCreate ipd = .ok (t, pd) ∧ pd ≠ 0 ∧
      Kept initRamPages ipd pd (fun i => s.mem (ipd + 4 * i)) [] t := by
  rw [State.pagedirCreate, State.pallocGetPage]
  obtain ⟨pages, pd, hget, hne, hk, hlive, hwithin, hclear⟩ | hget :=
    hb.pages.get_cases 0 Nat.one_pos
  · right
    have hsizes := getMultiple_sizes hget
    have hmem : (pd, 1) ∈ pages.live false := by
      rw [hlive]
      exact List.mem_cons_self
    have hnotzero : ¬ (pd ≠ 0 ∧ 0 &&& palZero ≠ 0) := fun hz => hz.2 (by decide)
    rw [hget, ok_bind]
    dsimp only
    rw [if_neg hnotzero]
    refine ⟨⟨pages, fun x => if InPage pd x then s.mem (ipd + (x - pd)) else s.mem x⟩, pd, ?_, hne,
      ?_⟩
    · change (if pd ≠ 0 then _ else _) = _
      rw [if_pos hne]
      rfl
    have hword : ∀ i < 1024,
        (fun x => if InPage pd x then s.mem (ipd + (x - pd)) else s.mem x) (pd + 4 * i) =
          s.mem (ipd + 4 * i) := by
      intro i hi
      dsimp only
      rw [if_pos (inPage_word pd hi), Nat.add_sub_cancel_left]
    generalize (fun x => if InPage pd x then s.mem (ipd + (x - pd)) else s.mem x) = mem at *
    have hzero : ∀ i < userTables, mem (pd + 4 * i) = 0 := fun i hi =>
      (hword i (userTables_le hi)).trans (hb.user i hi)
    have htable : ∀ i < userTables, State.table pd ⟨pages, mem⟩ i = none := by
      intro i hi
      exact (congrArg frame (hzero i hi)).trans frame_zero
    have hview : ∀ p < userPages, State.view pd ⟨pages, mem⟩ p = none := fun p hp =>
      view_eq_none (htable _ (div_lt_userTables hp))
    have hnone : ∀ i < userTables, ∀ a, State.table pd ⟨pages, mem⟩ i ≠ some a := by
      intro i hi a ha
      rw [htable i hi] at ha
      cases ha
    refine ⟨⟨hk, hb.memory.of_sizes hsizes, ?_, fun i hi => .inl (hzero i hi),
      fun i hi => hnone i hi pd, fun i hi _ _ a ha => absurd ha (hnone i hi a), ?_⟩, ?_, hview,
      fun a => ⟨?_, (by rintro ⟨⟩)⟩, fun i hi _ => hword i hi⟩
    · rintro a (rfl | ⟨i, hi, ht⟩)
      · exact hmem
      · exact absurd ht (hnone i hi a)
    · intro p hp k hv
      rw [hview p hp] at hv
      cases hv
    · -- the new page was not in use
      rintro rfl
      have happ := hclear false _ hb.live
      unfold Clear bytes pgSize at happ
      dsimp only at happ
      omega
    · rintro ⟨i, hi, ht⟩
      exact absurd ht (hnone i hi a)
  · rw [hget]
    exact .inl rfl

/-! ### The pages that are freed -/

/-- The pages are freed one after the other. -/
def State.freeAll (l : List ℕ) (s : State) : Except Failure State :=
  l.foldlM (fun s a => s.pallocFreePage a) s

theorem pallocFreePage_eq (hk : Palloc.Kept s.pages) (ha : (a, 1) ∈ s.pages.live user) :
    ∃ t, s.pallocFreePage a = .ok t ∧ Palloc.Kept t.pages ∧
      (∀ u r, r ∈ t.pages.live u ↔ r ∈ s.pages.live u ∧ r ≠ (a, 1)) ∧
      ∀ x, ¬ InPage a x → t.mem x = s.mem x := by
  obtain ⟨pages, hfree, hkept, hlive⟩ := hk.free_eq ha
  have hne : a ≠ 0 := hk.ne_zero ha
  rw [State.pallocFreePage, hfree, ok_bind]
  dsimp only
  rw [if_neg hne]
  refine ⟨_, rfl, hkept, fun u r => ?_, fun x hx => if_neg hx⟩
  change r ∈ pages.live u ↔ _
  rw [hlive, (hk.nodup u).mem_erase_iff]
  exact and_comm

theorem freeAll_cons : State.freeAll (a :: l) s = s.pallocFreePage a >>= State.freeAll l :=
  List.foldlM_cons

theorem freeAll_append {l' : List ℕ} :
    State.freeAll (l ++ l') s = State.freeAll l s >>= State.freeAll l' :=
  List.foldlM_append

theorem freeAll_eq (hk : Palloc.Kept s.pages) (hl : l.Nodup)
    (hlive : ∀ a ∈ l, ∃ u, (a, 1) ∈ s.pages.live u) :
    ∃ t, s.freeAll l = .ok t ∧ Palloc.Kept t.pages ∧
      (∀ u r, r ∈ t.pages.live u ↔ r ∈ s.pages.live u ∧ ∀ a ∈ l, r ≠ (a, 1)) ∧
      ∀ x, (∀ a ∈ l, ¬ InPage a x) → t.mem x = s.mem x := by
  induction l generalizing s with
  | nil => exact ⟨s, rfl, hk, fun u r => by simp, fun _ _ => rfl⟩
  | cons a l ih =>
      obtain ⟨hnot, hl⟩ := List.nodup_cons.mp hl
      obtain ⟨ha, hrest⟩ := List.forall_mem_cons.mp hlive
      obtain ⟨user, ha⟩ := ha
      obtain ⟨s₁, hfree, hk₁, hlive₁, hmem₁⟩ := pallocFreePage_eq hk ha
      have hrest₁ : ∀ b ∈ l, ∃ u, (b, 1) ∈ s₁.pages.live u := by
        intro b hb
        obtain ⟨u, hu⟩ := hrest b hb
        refine ⟨u, (hlive₁ u _).mpr ⟨hu, ?_⟩⟩
        rintro ⟨rfl⟩
        exact hnot hb
      obtain ⟨t, hall, hkt, hlivet, hmemt⟩ := ih hk₁ hl hrest₁
      refine ⟨t, ?_, hkt, fun u r => ?_, fun x hx => ?_⟩
      · rw [freeAll_cons, hfree]
        exact hall
      · rw [hlivet, hlive₁, List.forall_mem_cons, and_assoc]
      · obtain ⟨hxa, hxl⟩ := List.forall_mem_cons.mp hx
        rw [hmemt x hxl, hmem₁ x hxa]

/-- The pages that the entries `js` of a table point to. -/
def State.entries (pt : ℕ) (s : State) (js : List ℕ) : List ℕ :=
  js.filterMap fun j => frame (s.mem (pt + 4 * j))

theorem foldlM_freeEntry {js : List ℕ} (hk : Palloc.Kept s.pages)
    (hpt : (pt, 1) ∈ s.pages.live user) (hjs : ∀ j ∈ js, j < 1024) (hl : (s.entries pt js).Nodup)
    (hlive : ∀ k ∈ s.entries pt js, (∃ u, (k, 1) ∈ s.pages.live u) ∧ k ≠ pt ∧ k < 2 ^ 32) :
    js.foldlM (State.freeEntry pt) s = s.freeAll (s.entries pt js) := by
  induction js generalizing s with
  | nil => rfl
  | cons j js ih =>
      obtain ⟨hj, hjs⟩ := List.forall_mem_cons.mp hjs
      rw [List.foldlM_cons, State.freeEntry]
      cases hf : frame (s.mem (pt + 4 * j)) with
      | none =>
          have hentries : s.entries pt (j :: js) = s.entries pt js :=
            List.filterMap_cons_none hf
          rw [hentries] at hl hlive ⊢
          rw [if_neg (not_not_intro (frame_eq_none.mp hf)), ok_bind]
          exact ih hk hpt hjs hl hlive
      | some k =>
          have hentries : s.entries pt (j :: js) = k :: s.entries pt js :=
            List.filterMap_cons_some hf
          rw [hentries] at hl hlive ⊢
          obtain ⟨hnot, hl⟩ := List.nodup_cons.mp hl
          obtain ⟨⟨⟨u, hku⟩, hne, hlt⟩, hrest⟩ := List.forall_mem_cons.mp hlive
          obtain ⟨s₁, hfree, hk₁, hlive₁, hmem₁⟩ := pallocFreePage_eq hk hku
          -- the table is not overwritten
          have hsame : s₁.entries pt js = s.entries pt js := by
            refine List.filterMap_congr fun i hi => congrArg frame (hmem₁ _ ?_)
            exact not_inPage hk hpt hku (Ne.symm hne) (inPage_word pt (hjs i hi))
          have hpt₁ : (pt, 1) ∈ s₁.pages.live user := by
            refine (hlive₁ user _).mpr ⟨hpt, ?_⟩
            rintro ⟨rfl⟩
            exact hne rfl
          rw [if_pos (frame_eq_some hf).1, pteGetPage_eq hf hlt, ok_bind, freeAll_cons, hfree, ok_bind,
            ok_bind, ← hsame]
          refine ih hk₁ hpt₁ hjs (hsame ▸ hl) fun b hb => ?_
          rw [hsame] at hb
          obtain ⟨⟨v, hv⟩, hb'⟩ := hrest b hb
          refine ⟨⟨v, (hlive₁ v _).mpr ⟨hv, ?_⟩⟩, hb'⟩
          rintro ⟨rfl⟩
          exact hnot hb

/-- The pages that the entries `is` of the directory lead to, each table after its pages. -/
def State.reached (pd : ℕ) (s : State) (is : List ℕ) : List ℕ :=
  is.flatMap fun i =>
    match s.table pd i with
    | some pt => s.entries pt (List.range 1024) ++ [pt]
    | none => []

theorem reached_none (ht : s.table pd i = none) (is : List ℕ) :
    s.reached pd (i :: is) = s.reached pd is := by
  rw [State.reached, List.flatMap_cons, ht]
  rfl

theorem reached_some (ht : s.table pd i = some pt) (is : List ℕ) : s.reached pd (i :: is) =
    (s.entries pt (List.range 1024) ++ [pt]) ++ s.reached pd is := by
  rw [State.reached, List.flatMap_cons, ht]
  rfl

/-- Where neither the directory nor the pages that it leads to are written, it leads to the same. -/
theorem reached_congr {is : List ℕ} {s₁ : State}
    (hdir : ∀ i ∈ is, s₁.mem (pd + 4 * i) = s.mem (pd + 4 * i))
    (hpages : ∀ b ∈ s.reached pd is, ∀ x, InPage b x → s₁.mem x = s.mem x) :
    s₁.reached pd is = s.reached pd is := by
  refine List.flatMap_congr fun i hi => ?_
  have htable : s₁.table pd i = s.table pd i := congrArg frame (hdir i hi)
  rw [htable]
  cases ht : s.table pd i with
  | none => rfl
  | some pt =>
      have hin : pt ∈ s.reached pd is := by
        refine List.mem_flatMap.mpr ⟨i, hi, ?_⟩
        rw [ht]
        exact List.mem_append_right _ (List.mem_singleton_self pt)
      have hentries : s₁.entries pt (List.range 1024) = s.entries pt (List.range 1024) := by
        refine List.filterMap_congr fun j hj => congrArg frame ?_
        exact hpages pt hin _ (inPage_word pt (List.mem_range.mp hj))
      exact congrArg (· ++ [pt]) hentries

/-- One round of the outer loop of `pagedir_destroy`: the pages of a table, and its own. -/
theorem freeTable_eq (hk : Palloc.Kept s.pages) (hf : frame (s.mem (pd + 4 * i)) = some pt)
    (hl : (s.entries pt (List.range 1024) ++ [pt]).Nodup)
    (hlive : ∀ k ∈ s.entries pt (List.range 1024) ++ [pt],
      (∃ u, (k, 1) ∈ s.pages.live u) ∧ k < 2 ^ 32) :
    s.freeTable pd i = s.freeAll (s.entries pt (List.range 1024) ++ [pt]) := by
  obtain ⟨hentries, -, hpt⟩ := List.nodup_append'.mp hl
  obtain ⟨⟨u, hptu⟩, hlt⟩ := hlive pt (List.mem_append_right _ (List.mem_singleton_self pt))
  have hinner : (List.range 1024).foldlM (State.freeEntry pt) s =
      s.freeAll (s.entries pt (List.range 1024)) := by
    refine foldlM_freeEntry hk hptu (fun j hj => List.mem_range.mp hj) hentries fun k hk' => ?_
    obtain ⟨hku, hklt⟩ := hlive k (List.mem_append_left _ hk')
    refine ⟨hku, ?_, hklt⟩
    rintro rfl
    exact hpt hk' (List.mem_singleton_self k)
  rw [State.freeTable, if_pos (frame_eq_some hf).1, pdeGetPt_eq hf hlt, ok_bind, hinner,
    freeAll_append]
  refine congrArg _ (funext fun t => ?_)
  change t.pallocFreePage pt = t.pallocFreePage pt >>= pure
  rw [bind_pure]

theorem foldlM_freeTable {is : List ℕ} (hk : Palloc.Kept s.pages)
    (hpd : (pd, 1) ∈ s.pages.live user) (his : ∀ i ∈ is, i < 1024) (hl : (s.reached pd is).Nodup)
    (hlive : ∀ k ∈ s.reached pd is, (∃ u, (k, 1) ∈ s.pages.live u) ∧ k ≠ pd ∧ k < 2 ^ 32) :
    is.foldlM (State.freeTable pd) s = s.freeAll (s.reached pd is) := by
  induction is generalizing s with
  | nil => rfl
  | cons i is ih =>
      obtain ⟨hi, his⟩ := List.forall_mem_cons.mp his
      rw [List.foldlM_cons]
      cases hf : frame (s.mem (pd + 4 * i)) with
      | none =>
          rw [reached_none hf] at hl hlive ⊢
          rw [State.freeTable, if_neg (not_not_intro (frame_eq_none.mp hf)), ok_bind]
          exact ih hk hpd his hl hlive
      | some pt =>
          rw [reached_some hf] at hl hlive ⊢
          obtain ⟨hfirst, hrest, hdisjoint⟩ := List.nodup_append'.mp hl
          obtain ⟨hlive₁, hlive₂⟩ := List.forall_mem_append.mp hlive
          have hround := freeTable_eq hk hf hfirst fun k hk' => ⟨(hlive₁ k hk').1, (hlive₁ k hk').2.2⟩
          obtain ⟨s₁, hall, hk₁, hlives, hmem₁⟩ := freeAll_eq hk hfirst
            fun a ha => (hlive₁ a ha).1
          -- the directory and the other tables are not overwritten
          have hpdnot : pd ∉ s.entries pt (List.range 1024) ++ [pt] :=
            fun hmem => (hlive₁ pd hmem).2.1 rfl
          have hkeep : ∀ b v, (b, 1) ∈ s.pages.live v →
              b ∉ s.entries pt (List.range 1024) ++ [pt] → ∀ x, InPage b x →
              s₁.mem x = s.mem x := by
            intro b v hb hnot x hx
            refine hmem₁ x fun a ha => ?_
            obtain ⟨⟨v', ha'⟩, -⟩ := hlive₁ a ha
            apply not_inPage hk hb ha' _ hx
            rintro rfl
            exact hnot ha
          have hstays : ∀ b v, (b, 1) ∈ s.pages.live v →
              b ∉ s.entries pt (List.range 1024) ++ [pt] → (b, 1) ∈ s₁.pages.live v := by
            intro b v hb hnot
            refine (hlives v _).mpr ⟨hb, fun a ha => ?_⟩
            rintro ⟨rfl⟩
            exact hnot ha
          have hsame : s₁.reached pd is = s.reached pd is := by
            apply reached_congr
            · exact fun i' hi' => hkeep pd user hpd hpdnot _ (inPage_word pd (his i' hi'))
            · intro b hb
              obtain ⟨⟨v, hv⟩, -⟩ := hlive₂ b hb
              exact hkeep b v hv fun hmem => hdisjoint hmem hb
          rw [hround, hall, ok_bind, freeAll_append, hall, ok_bind, ← hsame]
          refine ih hk₁ (hstays pd user hpd hpdnot) his (hsame ▸ hrest) fun b hb => ?_
          rw [hsame] at hb
          obtain ⟨⟨v, hv⟩, hb'⟩ := hlive₂ b hb
          exact ⟨⟨v, hstays b v hv fun hmem => hdisjoint hmem hb⟩, hb'⟩

/-! ### Each page once -/

/-- The pages that an entry of the directory leads to. -/
def State.below (pd : ℕ) (s : State) (i : ℕ) : List ℕ :=
  match s.table pd i with
  | some pt => s.entries pt (List.range 1024) ++ [pt]
  | none => []

theorem mem_entries : k ∈ s.entries pt (List.range 1024) ↔
    ∃ j < 1024, frame (s.mem (pt + 4 * j)) = some k := by
  rw [State.entries, List.mem_filterMap]
  exact exists_congr fun j => and_congr_left fun _ => List.mem_range

theorem view_entry (ht : s.table pd i = some pt) (hj : j < 1024) :
    s.view pd (1024 * i + j) = frame (s.mem (pt + 4 * j)) := by
  have hdiv : (1024 * i + j) / 1024 = i := by omega
  have hmod : (1024 * i + j) % 1024 = j := by omega
  rw [view_eq (hdiv.symm ▸ ht), hmod]

theorem mem_below : a ∈ s.below pd i ↔
    s.table pd i = some a ∨ ∃ j < 1024, s.view pd (1024 * i + j) = some a := by
  rw [State.below]
  cases ht : s.table pd i with
  | none =>
      refine iff_of_false List.not_mem_nil ?_
      rintro (htable | ⟨j, hj, hv⟩)
      · cases htable
      · have hdiv : (1024 * i + j) / 1024 = i := by omega
        rw [view_eq_none (hdiv.symm ▸ ht)] at hv
        cases hv
  | some pt =>
      dsimp only
      rw [List.mem_append, List.mem_singleton, mem_entries, or_comm]
      refine or_congr ?_ (exists_congr fun j => and_congr_right fun hj => ?_)
      · exact ⟨fun he => he ▸ rfl, fun he => (Option.some.inj he).symm⟩
      · rw [view_entry ht hj]

theorem page_lt (hi : i < userTables) (hj : j < 1024) : 1024 * i + j < userPages := by
  rw [userTables_eq] at hi
  rw [userPages_eq]
  omega

theorem mem_reached : a ∈ s.reached pd (List.range userTables) ↔
    (∃ i < userTables, s.table pd i = some a) ∨ ∃ p < userPages, s.view pd p = some a := by
  have hbelow : a ∈ s.reached pd (List.range userTables) ↔ ∃ i < userTables, a ∈ s.below pd i := by
    refine List.mem_flatMap.trans (exists_congr fun i => ?_)
    rw [List.mem_range]
    rfl
  rw [hbelow]
  constructor
  · rintro ⟨i, hi, ha⟩
    obtain ht | ⟨j, hj, hv⟩ := mem_below.mp ha
    · exact .inl ⟨i, hi, ht⟩
    · exact .inr ⟨_, page_lt hi hj, hv⟩
  · rintro (⟨i, hi, ht⟩ | ⟨p, hp, hv⟩)
    · exact ⟨i, hi, mem_below.mpr (.inl ht)⟩
    · refine ⟨p / 1024, div_lt_userTables hp, mem_below.mpr (.inr ⟨p % 1024, by omega, ?_⟩)⟩
      rw [Nat.div_add_mod]
      exact hv

/-- Pages are mapped once, and they are no tables. -/
structure Once (pd : ℕ) (s : State) : Prop where
  inj : ∀ p < userPages, ∀ q < userPages, ∀ k, s.view pd p = some k → s.view pd q = some k → p = q
  not_table : ∀ p < userPages, ∀ i < userTables, ∀ k, s.view pd p = some k → s.table pd i ≠ some k

theorem nodup_below (ho : Once pd s) (hi : i < userTables) : (s.below pd i).Nodup := by
  rw [State.below]
  cases ht : s.table pd i with
  | none => exact List.nodup_nil
  | some pt =>
      refine List.nodup_append'.mpr ⟨?_, List.nodup_singleton pt, ?_⟩
      · refine List.pairwise_filterMap.mpr (List.nodup_range.imp_of_mem ?_)
        rintro j j' hj hj' hne k hk k' hk' rfl
        rw [List.mem_range] at hj hj'
        rw [← view_entry ht hj] at hk
        rw [← view_entry ht hj'] at hk'
        have heq := ho.inj _ (page_lt hi hj) _ (page_lt hi hj') k hk hk'
        omega
      · intro k hk hpt
        obtain rfl := List.mem_singleton.mp hpt
        obtain ⟨j, hj, hf⟩ := mem_entries.mp hk
        rw [← view_entry ht hj] at hf
        exact ho.not_table _ (page_lt hi hj) i hi k hf ht

theorem nodup_reached (hg : Good pd s) (ho : Once pd s) :
    (s.reached pd (List.range userTables)).Nodup := by
  refine List.nodup_flatMap.mpr ⟨fun i hi => nodup_below ho (List.mem_range.mp hi), ?_⟩
  refine List.nodup_range.imp_of_mem fun {i i'} hi hi' hne => ?_
  rw [List.mem_range] at hi hi'
  intro k hk hk'
  obtain ht | ⟨j, hj, hv⟩ := mem_below.mp hk
  · obtain ht' | ⟨j', hj', hv'⟩ := mem_below.mp hk'
    · exact hne (hg.inj i hi i' hi' k ht ht')
    · exact ho.not_table _ (page_lt hi' hj') i hi k hv' ht
  · obtain ht' | ⟨j', hj', hv'⟩ := mem_below.mp hk'
    · exact ho.not_table _ (page_lt hi hj) i' hi' k hv ht'
    · have heq := ho.inj _ (page_lt hi hj) _ (page_lt hi' hj') k hv hv'
      omega

/-- **`pagedir_destroy`** frees the pages that are mapped, the tables and the directory. -/
theorem pagedirDestroy_eq (hg : Good pd s) (ho : Once pd s) (hne : pd ≠ ipd)
    (hlive : ∀ p < userPages, ∀ k, s.view pd p = some k →
      (∃ u, (k, 1) ∈ s.pages.live u) ∧ k ≠ pd) :
    ∃ l : List ℕ, l.Nodup ∧ (∀ a, a ∈ l ↔ a = pd ∨ (∃ i < userTables, s.table pd i = some a) ∨
        ∃ p < userPages, s.view pd p = some a) ∧
      s.pagedirDestroy ipd pd = s.freeAll l ∧ ∃ t, s.freeAll l = .ok t ∧
        ∀ u r, r ∈ t.pages.live u ↔ r ∈ s.pages.live u ∧ ∀ a ∈ l, r ≠ (a, 1) := by
  have hreached : ∀ k ∈ s.reached pd (List.range userTables),
      (∃ u, (k, 1) ∈ s.pages.live u) ∧ k ≠ pd ∧ k < 2 ^ 32 := by
    intro k hk
    obtain ⟨i, hi, ht⟩ | ⟨p, hp, hv⟩ := mem_reached.mp hk
    · have hend := (hg.isPage_table hi ht).end_le
      refine ⟨⟨false, hg.table_live hi ht⟩, hg.table_ne_dir hi ht, ?_⟩
      unfold pgSize at hend
      omega
    · obtain ⟨hku, hkpd⟩ := hlive p hp k hv
      exact ⟨hku, hkpd, hg.pte p hp k hv⟩
  have hnodup := nodup_reached hg ho
  have hloop := foldlM_freeTable hg.pages hg.dir
    (fun i hi => userTables_le (List.mem_range.mp hi)) hnodup hreached
  have hl : (s.reached pd (List.range userTables) ++ [pd]).Nodup := by
    refine List.nodup_append'.mpr ⟨hnodup, List.nodup_singleton pd, fun k hk hpd => ?_⟩
    exact (hreached k hk).2.1 (List.mem_singleton.mp hpd)
  refine ⟨s.reached pd (List.range userTables) ++ [pd], hl, fun a => ?_, ?_, ?_⟩
  · rw [List.mem_append, List.mem_singleton, mem_reached, or_comm]
  · have hdestroy : s.pagedirDestroy ipd pd = (do
        let s ← (List.range userTables).foldlM (State.freeTable pd) s
        s.pallocFreePage pd) := by
      rw [State.pagedirDestroy, if_neg hg.isPage_dir.ne_zero, assert_pos hne, ok_bind, userTables]
    rw [hdestroy, hloop, freeAll_append]
    refine congrArg _ (funext fun t => ?_)
    change t.pallocFreePage pd = t.pallocFreePage pd >>= pure
    rw [bind_pure]
  · have hall : ∀ a ∈ s.reached pd (List.range userTables) ++ [pd],
        ∃ u, (a, 1) ∈ s.pages.live u := by
      intro a ha
      obtain ha | ha := List.mem_append.mp ha
      · exact (hreached a ha).1
      · obtain rfl := List.mem_singleton.mp ha
        exact ⟨false, hg.dir⟩
    obtain ⟨t, hfree, -, hlive', -⟩ := freeAll_eq hg.pages hl hall
    exact ⟨t, hfree, hlive'⟩

/-! ### Every run -/

/-- Every page that is mapped is one that the page allocator has given to others, mapped once. -/
def SetOnce (initRamPages ipd pd : ℕ) (h : List (State × Event)) (s : State) : Prop :=
  ∀ p < userPages, ∀ k, lastSet initRamPages ipd pd p h = some k →
    (∃ u, (k, 1) ∈ s.pages.live u) ∧ k ≠ pd ∧ k ∉ created pd h ∧
      ∀ q < userPages, lastSet initRamPages ipd pd q h = some k → p = q

/-- What a page directory is for, after a run with the history `h`; `kernel` are the entries that
were copied.  `pagedir_destroy` frees the pages that are mapped, the tables and the directory, each
once, and nothing else. -/
structure IsMap (initRamPages ipd pd : ℕ) (kernel : ℕ → Word) (h : List (State × Event))
    (s : State) : Prop where
  get : ∀ va, IsUserVaddr va → s.pagedirGetPage pd va =
    .ok (translate (fun p => lastSet initRamPages ipd pd p h) va)
  /-- `pagedir_set_page` fails only when there is no page for a table. -/
  sets : ∀ upage kpage writable, Permitted initRamPages pd s (.setPage upage kpage writable) →
    ∃ t ok, s.pagedirSetPage initRamPages ipd pd upage kpage writable = .ok (t, ok) ∧
      (ok = true ↔ s.HasTable pd upage)
  returns : ∀ e, Permitted initRamPages pd s e → (∀ c mem, e ≠ .others c mem) →
    ∃ t, step initRamPages ipd pd e s = some t
  frame : ∀ e t, Permitted initRamPages pd s e → step initRamPages ipd pd e s = some t →
    ∀ va, IsUserVaddr va → ¬ e.On (pgNo va) → t.pagedirGetPage pd va = s.pagedirGetPage pd va
  kernel : ∀ i < 1024, userTables ≤ i → s.mem (pd + 4 * i) = kernel i
  destroy : SetOnce initRamPages ipd pd h s → ∃ l : List ℕ, l.Nodup ∧
    (∀ a, a ∈ l ↔ a = pd ∨ a ∈ created pd h ∨
      ∃ p < userPages, lastSet initRamPages ipd pd p h = some a) ∧
    s.pagedirDestroy ipd pd = s.freeAll l ∧ ∃ t, s.freeAll l = .ok t ∧
      ∀ u r, r ∈ t.pages.live u ↔ r ∈ s.pages.live u ∧ ∀ a ∈ l, r ≠ (a, 1)

theorem translate_congr {f g : ℕ → Option ℕ} (hva : IsUserVaddr va)
    (hfg : ∀ p < userPages, f p = g p) : translate f va = translate g va := by
  rw [translate, translate, hfg _ (pgNo_lt hva)]

theorem Kept.isMap (hk : Kept initRamPages ipd pd kernel h s) :
    IsMap initRamPages ipd pd kernel h s where
  get va hva := by
    rw [pagedirGetPage_eq hk.good hva, translate_congr hva hk.view]
  sets upage kpage writable he := by
    obtain ⟨hset, -, hno⟩ | ⟨t, hset, hroom, -⟩ := pagedirSetPage_eq hk.good he hk.ne_init writable
    · exact ⟨s, false, hset, iff_of_false Bool.noConfusion hno⟩
    · exact ⟨t, true, hset, iff_of_true rfl hroom⟩
  returns e he hothers := by
    cases e with
    | setPage upage kpage writable =>
        obtain ⟨hset, -⟩ | ⟨t, hset, -⟩ := pagedirSetPage_eq hk.good he hk.ne_init writable
        · exact ⟨s, by rw [PageDir.step, hset]; rfl⟩
        · exact ⟨t, by rw [PageDir.step, hset]; rfl⟩
    | clearPage upage =>
        obtain ⟨t, hclear, -⟩ := pagedirClearPage_eq hk.good he.1 he.2
        exact ⟨t, by rw [PageDir.step, hclear]; rfl⟩
    | getPage uaddr => exact ⟨s, by rw [PageDir.step, pagedirGetPage_eq hk.good he]; rfl⟩
    | others c mem => exact absurd rfl (hothers c mem)
  frame e t he hstep va hva hnot := by
    obtain ⟨hkt, hview⟩ := hk.step he hstep
    rw [pagedirGetPage_eq hkt.good hva, pagedirGetPage_eq hk.good hva, translate, translate,
      hview _ (pgNo_lt hva) hnot]
  kernel := hk.kernel
  destroy honce := by
    have ho : Once pd s := by
      constructor
      · intro p hp q hq k hpk hqk
        rw [hk.view p hp] at hpk
        rw [hk.view q hq] at hqk
        exact (honce p hp k hpk).2.2.2 q hq hqk
      · intro p hp i hi k hpk ht
        rw [hk.view p hp] at hpk
        exact (honce p hp k hpk).2.2.1 ((hk.tables k).mp ⟨i, hi, ht⟩)
    obtain ⟨l, hl, hmem, hdestroy, hfree⟩ := pagedirDestroy_eq hk.good ho hk.ne_init
      fun p hp k hpk => by
        rw [hk.view p hp] at hpk
        exact ⟨(honce p hp k hpk).1, (honce p hp k hpk).2.1⟩
    refine ⟨l, hl, fun a => ?_, hdestroy, hfree⟩
    rw [hmem a, hk.tables a]
    refine or_congr_right (or_congr_right (exists_congr fun p => and_congr_right fun hp => ?_))
    rw [hk.view p hp]

/-- **Page directories.**  A directory that `pagedir_create` has made is a map, after every run. -/
theorem page_directory_map (initRamPages : ℕ) (hb : Booted ipd s)
    (hcreate : s.pagedirCreate ipd = .ok (t, pd)) (hne : pd ≠ 0)
    (hr : Run (step initRamPages ipd pd) (Permitted initRamPages pd) t h s') :
    IsMap initRamPages ipd pd (fun i => s.mem (ipd + 4 * i)) h s' := by
  have hstart : Kept initRamPages ipd pd (fun i => s.mem (ipd + 4 * i)) [] t := by
    obtain hnull | ⟨t', pd', hok, -, hkept⟩ := pagedirCreate_eq hb initRamPages
    · obtain ⟨-, rfl⟩ := Prod.mk.inj (Except.ok.inj (hnull.symm.trans hcreate))
      exact absurd rfl hne
    · obtain ⟨rfl, rfl⟩ := Prod.mk.inj (Except.ok.inj (hok.symm.trans hcreate))
      exact hkept
  have hkept : Kept initRamPages ipd pd (fun i => s.mem (ipd + 4 * i)) h s' :=
    hr.invariant (I := Kept initRamPages ipd pd fun i => s.mem (ipd + 4 * i)) hstart
      fun _ _ _ _ _ hk he hs => (hk.step he hs).1
  exact hkept.isMap

/-- A test for the operations that are permitted. -/
def permits (initRamPages pd : ℕ) (s : State) : Event → Bool
  | .setPage upage kpage _ => pgOfs upage = 0 && IsUserVaddr upage &&
      (s.pagedirGetPage pd upage).toOption == some 0 && kpage % pgSize = 0 &&
      Palloc.physBase ≤ kpage && kpage + pgSize ≤ 2 ^ 32 &&
      (kpage - Palloc.physBase) / pgSize < initRamPages
  | .clearPage upage => pgOfs upage = 0 && IsUserVaddr upage
  | .getPage uaddr => IsUserVaddr uaddr
  | .others _ _ => false

theorem permitted_of_permits {e : Event} (h : permits initRamPages pd s e = true) :
    Permitted initRamPages pd s e := by
  cases e with
  | setPage upage kpage writable =>
      simp only [permits, Bool.and_eq_true, decide_eq_true_eq, beq_iff_eq] at h
      obtain ⟨⟨⟨⟨⟨⟨hofs, huser⟩, hget⟩, haligned⟩, hkernel⟩, hend⟩, hram⟩ := h
      refine ⟨hofs, huser, ?_, ⟨haligned, hkernel, hend⟩, hram⟩
      cases hp : s.pagedirGetPage pd upage with
      | error e =>
          rw [hp] at hget
          cases hget
      | ok a =>
          rw [hp] at hget
          exact congrArg Except.ok (Option.some.inj hget)
  | clearPage upage => simpa [permits, Permitted] using h
  | getPage uaddr => simpa [permits, Permitted] using h
  | others c mem => cases h

/-- Two pages of a program are set, and the first one is cleared again. -/
def twoPages : List Event :=
  [.setPage 0x8048000 0xc0103000 true, .setPage 0x8049000 0xc0104000 true, .getPage 0x8048005,
    .clearPage 0x8048000]

/-- The first two directories of a machine with eight pages above the first megabyte, and four
operations on the second one. -/
theorem page_directory_map_eight : ∃ s ipd t pd s', Booted ipd s ∧
    s.pagedirCreate ipd = .ok (t, pd) ∧ pd ≠ 0 ∧
    execute (checked (permits 264 pd) (step 264 ipd pd)) twoPages t = some s' ∧
    (∃ h, Run (step 264 ipd pd) (Permitted 264 pd) t h s' ∧
      IsMap 264 ipd pd (fun i => s.mem (ipd + 4 * i)) h s') ∧
    (s'.pagedirGetPage pd 0x8048005).toOption = some 0 ∧
    (s'.pagedirGetPage pd 0x8049005).toOption = some 0xc0104005 := by
  have hrun : (do
      let p ← pallocInit (fun _ => 0) 264 0xffffffff
      let (s, ipd) ← State.pallocGetPage (palAssert ||| palZero) ⟨⟨p, fun _ => []⟩, fun _ => 0⟩
      let (t, pd) ← s.pagedirCreate ipd
      return decide (pd ≠ 0 ∧ (execute (checked (permits 264 pd) (step 264 ipd pd)) twoPages t).map
        (fun s' => ((s'.pagedirGetPage pd 0x8048005).toOption,
          (s'.pagedirGetPage pd 0x8049005).toOption)) = some (some 0, some 0xc0104005)) :
        Except Failure Bool) = .ok true := by decide +kernel
  obtain hpanic | ⟨p, hp, hkept⟩ := pallocInit_cases (fun _ => 0) 0xffffffff
    (by decide : 264 ≤ 16384)
  · rw [hpanic] at hrun
    cases hrun
  rw [hp, ok_bind] at hrun
  cases hget : State.pallocGetPage (palAssert ||| palZero) ⟨⟨p, fun _ => []⟩, fun _ => 0⟩ with
  | error e =>
      rw [hget] at hrun
      cases hrun
  | ok r =>
      obtain ⟨s, ipd⟩ := r
      rw [hget, ok_bind] at hrun
      dsimp only at hrun
      cases hcreate : s.pagedirCreate ipd with
      | error e =>
          rw [hcreate] at hrun
          cases hrun
      | ok r =>
          obtain ⟨t, pd⟩ := r
          rw [hcreate] at hrun
          obtain ⟨hne, hexec⟩ := of_decide_eq_true (Except.ok.inj hrun)
          obtain ⟨s', hs', hgets⟩ := Option.map_eq_some_iff.mp hexec
          obtain ⟨hfirst, hsecond⟩ := Prod.mk.inj hgets
          have hf := getPage_fresh (s := ⟨⟨p, fun _ => []⟩, fun _ => 0⟩) hkept hget
          have hb : Booted ipd s := by
            refine ⟨hf.pages, (pallocInit_inMemory (by decide) hp).of_sizes hf.sizes, ?_,
              fun i hi => hf.zero _ (inPage_word ipd (userTables_le hi))⟩
            rw [hf.live]
            exact List.mem_cons_self
          have hr : Run (step 264 ipd pd) (Permitted 264 pd) t _ s' :=
            (execute_run (G := fun _ _ => True) (fun _ _ _ => trivial) .nil hs').of_checked.mono
              fun _ _ hg => permitted_of_permits hg.1
          exact ⟨s, ipd, t, pd, s', hb, hcreate, hne, hs',
            ⟨_, hr, page_directory_map 264 hb hcreate hne hr⟩, hfirst, hsecond⟩

end CSE130.Lab3.PageDir
