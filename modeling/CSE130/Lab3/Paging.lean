import CSE130.Lab3.VirtualMemory
import Mathlib.Data.List.Nodup
import Mathlib.Tactic.Ring
import Mathlib.Tactic.SplitIfs

/-! # Pages on the move

A page that has been loaded lies in a frame or in a slot of the swap disk, no two in the same, and
is moved from one to the other with its bytes (`Placement`).  So the user reads what was written
last, or the bytes of the first load.  The right to write is not moved with it: `vm_load_page` asks
the supplemental entry for it only at the first load, and every page that comes back from the swap
disk is writable. -/

namespace CSE130.Lab3.Vm

open Function (update)

variable {st st' st₁ st₂ : State} {p q : UserPage} {k i j n t : ℕ} {e : Spte} {f : FrameEntry}
  {a : Answers} {b ok w : Bool} {page : ℕ → UInt8} {disk : ℕ → ℕ → UInt8}

/-! ### The loops of the swap disk -/

theorem swapOutLoop_succ : State.swapOutLoop page j (n + 1) disk =
    update (State.swapOutLoop page j n disk) (j * sectorsPerPage + n) fun o =>
      page (blockSectorSize * n + o) := by
  unfold State.swapOutLoop
  rw [List.range_succ, List.foldl_append]
  rfl

theorem swapOutLoop_at : ∀ {n : ℕ}, i < n →
    State.swapOutLoop page j n disk (j * sectorsPerPage + i) = fun o => page (blockSectorSize * i + o)
  | n + 1, hi => by
      rw [swapOutLoop_succ]
      by_cases h : i = n
      · subst h
        rw [Function.update_self]
      · rw [Function.update_of_ne (by omega)]
        exact swapOutLoop_at (by omega)

theorem swapOutLoop_other : ∀ {n : ℕ}, (∀ l < n, i ≠ j * sectorsPerPage + l) →
    State.swapOutLoop page j n disk i = disk i
  | 0, _ => rfl
  | n + 1, hi => by
      rw [swapOutLoop_succ, Function.update_of_ne (hi n (by omega))]
      exact swapOutLoop_other fun l hl => hi l (by omega)

theorem swapInLoop_succ (o : ℕ) : State.swapInLoop disk j (n + 1) page o =
    if blockSectorSize * n ≤ o ∧ o < blockSectorSize * n + blockSectorSize then
      disk (j * sectorsPerPage + n) (o - blockSectorSize * n)
    else State.swapInLoop disk j n page o := by
  unfold State.swapInLoop
  rw [List.range_succ, List.foldl_append]
  rfl

theorem swapInLoop_at : ∀ {n o : ℕ}, o < blockSectorSize * n → State.swapInLoop disk j n page o =
    disk (j * sectorsPerPage + o / blockSectorSize) (o % blockSectorSize)
  | n + 1, o, ho => by
      rw [swapInLoop_succ]
      unfold blockSectorSize at ho ⊢
      by_cases h : 512 * n ≤ o
      · have hdiv : o / 512 = n := by omega
        rw [if_pos (by omega), hdiv]
        congr 1
        omega
      · rw [if_neg (by omega)]
        exact swapInLoop_at (by unfold blockSectorSize; omega)

/-! ### Where the pages lie -/

/-- A place for the bytes of a page. -/
inductive Cell where
  | frame (k : ℕ)
  | slot (i : ℕ)

/-- The bytes of a page. -/
abbrev Contents := Fin pgSize → UInt8

/-- Where an entry says that its page lies, once it has been loaded. -/
def Spte.cell (e : Spte) : Option Cell :=
  match e.status with
  | .onFrame => e.kpage.map .frame
  | .onSwap => some (.slot e.swapIndex)
  | .allZero | .fromFilesys => none

namespace State

def cellData (st : State) : Cell → Contents
  | .frame k => fun o => st.mem k o
  | .slot i => fun o => st.swapBlock (i * sectorsPerPage + o / blockSectorSize) (o % blockSectorSize)

/-- The pages and the places where they lie. -/
def placement (st : State) : Placement UserPage Cell Contents where
  cellOf p := (st.supt p).bind Spte.cell
  data := st.cellData

/-- Where a page lies. -/
abbrev cellOf (st : State) (p : UserPage) : Option Cell := st.placement.cellOf p

/-- The bytes of a page. -/
abbrev view (st : State) (p : UserPage) : Option Contents := st.placement.view p

/-- The page table for the page is there. -/
def HasTable (st : State) (p : UserPage) : Prop := st.tables (p.1, p.2 / 1024) = true

end State

theorem cellOf_eq (hp : st.supt p = some e) : st.cellOf p = e.cell := by
  change (st.supt p).bind Spte.cell = e.cell
  rw [hp]
  rfl

theorem cell_frame (h : e.cell = some (.frame k)) : e.status = .onFrame ∧ e.kpage = some k := by
  unfold Spte.cell at h
  cases hs : e.status with
  | onFrame =>
      rw [hs] at h
      obtain ⟨k', hk, heq⟩ := Option.map_eq_some_iff.mp h
      cases heq
      exact ⟨rfl, hk⟩
  | _ =>
      rw [hs] at h
      cases h

/-- The frame table has the kernel page under the user page. -/
def State.Held (st : State) (p : UserPage) (k : ℕ) : Prop := ∃ f ∈ st.frames, f.page = p ∧ f.kpage = k

/-- The tables agree on where the pages lie. -/
structure Inv (st : State) : Prop where
  sole : st.placement.Sole
  mapped : ∀ p e, st.supt p = some e → e.status = .onFrame → e.kpage ≠ none
  held : ∀ p k, st.Held p k ↔ st.cellOf p = some (.frame k)
  used : ∀ p k, st.Held p k → k < st.poolSize ∧ st.used k = true
  nodup : (st.frames.map FrameEntry.kpage).Nodup
  resident : ∀ p k, st.cellOf p = some (.frame k) →
    st.HasTable p ∧ (st.ptes p).present = true ∧ (st.ptes p).kpage = k
  present : ∀ p, (st.ptes p).present = true → ∃ k, st.cellOf p = some (.frame k)
  swapped : ∀ p i, st.cellOf p = some (.slot i) →
    i < st.swapSize ∧ st.swapAvailable i = false ∧ st.HasTable p

/-- What a step leaves as it was: the bytes of all pages and the rights to write, and the entries of
the pages that are not in memory.  No page is new, and none is to come from a file again. -/
structure Keeps (st st' : State) : Prop where
  view : st'.placement.view = st.placement.view
  writable : ∀ p, (st'.ptes p).writable = (st.ptes p).writable
  supt : ∀ p, (∀ e, st.supt p = some e → e.status ≠ .onFrame) → st'.supt p = st.supt p
  known : ∀ p e, st'.supt p = some e →
    (st.supt p).isSome = true ∧ (e.status = .fromFilesys → st.supt p = some e)
  files : st'.files = st.files

/-- Steps that leave the supplemental entries alone. -/
theorem Keeps.of_supt (hv : st'.placement.view = st.placement.view)
    (hw : ∀ p, (st'.ptes p).writable = (st.ptes p).writable) (hs : st'.supt = st.supt)
    (hf : st'.files = st.files) : Keeps st st' where
  view := hv
  writable := hw
  supt _ _ := by rw [hs]
  known p e hp := by
    rw [hs] at hp
    rw [hp]
    exact ⟨rfl, fun _ => rfl⟩
  files := hf

theorem Keeps.refl (st : State) : Keeps st st := .of_supt rfl (fun _ => rfl) rfl rfl

theorem Keeps.trans (h : Keeps st st₁) (h' : Keeps st₁ st') : Keeps st st' where
  view := h'.view.trans h.view
  writable p := (h'.writable p).trans (h.writable p)
  supt p hp := by
    have hp₁ := h.supt p hp
    rw [h'.supt p fun e he => hp e (hp₁ ▸ he), hp₁]
  known p e hp := by
    obtain ⟨hsome, hfile⟩ := h'.known p e hp
    obtain ⟨e₁, he₁⟩ := Option.isSome_iff_exists.mp hsome
    refine ⟨(h.known p e₁ he₁).1, fun hs => (h.known p e (hfile hs)).2 hs⟩
  files := h'.files.trans h.files

/-! ### What the clock does -/

/-- Only the clock pointer, accessed and dirty bits have changed. -/
structure Same (st st' : State) : Prop where
  poolSize : st'.poolSize = st.poolSize
  used : st'.used = st.used
  mem : st'.mem = st.mem
  frames : st'.frames = st.frames
  supt : st'.supt = st.supt
  tables : st'.tables = st.tables
  ptes : ∀ p, (st'.ptes p).kpage = (st.ptes p).kpage ∧ (st'.ptes p).present = (st.ptes p).present ∧
    (st'.ptes p).writable = (st.ptes p).writable
  swapSize : st'.swapSize = st.swapSize
  swapAvailable : st'.swapAvailable = st.swapAvailable
  swapBlock : st'.swapBlock = st.swapBlock
  files : st'.files = st.files

namespace Same

theorem refl (st : State) : Same st st :=
  ⟨rfl, rfl, rfl, rfl, rfl, rfl, fun _ => ⟨rfl, rfl, rfl⟩, rfl, rfl, rfl, rfl⟩

theorem trans (h : Same st st₁) (h' : Same st₁ st') : Same st st' where
  poolSize := h'.poolSize.trans h.poolSize
  used := h'.used.trans h.used
  mem := h'.mem.trans h.mem
  frames := h'.frames.trans h.frames
  supt := h'.supt.trans h.supt
  tables := h'.tables.trans h.tables
  ptes p := by
    obtain ⟨h₁, h₂, h₃⟩ := h.ptes p
    obtain ⟨h₁', h₂', h₃'⟩ := h'.ptes p
    exact ⟨h₁'.trans h₁, h₂'.trans h₂, h₃'.trans h₃⟩
  swapSize := h'.swapSize.trans h.swapSize
  swapAvailable := h'.swapAvailable.trans h.swapAvailable
  swapBlock := h'.swapBlock.trans h.swapBlock
  files := h'.files.trans h.files

theorem placement (h : Same st st') : st'.placement = st.placement := by
  unfold State.placement
  congr 1
  · rw [h.supt]
  · funext c
    unfold State.cellData
    rw [h.mem, h.swapBlock]

theorem inv (hs : Same st st') (h : Inv st) : Inv st' := by
  have htable : ∀ p, st'.HasTable p ↔ st.HasTable p := fun p => by
    unfold State.HasTable
    rw [hs.tables]
  have hheld : ∀ p k, st'.Held p k ↔ st.Held p k := fun p k => by
    unfold State.Held
    rw [hs.frames]
  constructor
  · rw [hs.placement]
    exact h.sole
  · rw [hs.supt]
    exact h.mapped
  · intro p k
    rw [hheld, State.cellOf, hs.placement]
    exact h.held p k
  · intro p k hp
    rw [hs.poolSize, hs.used]
    exact h.used p k ((hheld p k).mp hp)
  · rw [hs.frames]
    exact h.nodup
  · intro p k hp
    rw [State.cellOf, hs.placement] at hp
    rw [htable, (hs.ptes p).1, (hs.ptes p).2.1]
    exact h.resident p k hp
  · intro p hp
    rw [(hs.ptes p).2.1] at hp
    rw [State.cellOf, hs.placement]
    exact h.present p hp
  · intro p i hp
    rw [State.cellOf, hs.placement] at hp
    rw [hs.swapSize, hs.swapAvailable, htable]
    exact h.swapped p i hp

theorem keeps (hs : Same st st') : Keeps st st' :=
  .of_supt (by rw [hs.placement]) (fun p => (hs.ptes p).2.2) hs.supt hs.files

end Same

/-- New accessed and dirty bits for one page. -/
theorem same_bits (st : State) (p : UserPage) (b b' : Bool) :
    Same st { st with ptes := update st.ptes p { st.ptes p with accessed := b, dirty := b' } } where
  poolSize := rfl
  used := rfl
  mem := rfl
  frames := rfl
  supt := rfl
  tables := rfl
  ptes q := by
    dsimp only
    by_cases hq : q = p
    · subst hq
      rw [Function.update_self]
      exact ⟨rfl, rfl, rfl⟩
    · rw [Function.update_of_ne hq]
      exact ⟨rfl, rfl, rfl⟩
  swapSize := rfl
  swapAvailable := rfl
  swapBlock := rfl
  files := rfl

theorem lookupPage_some {e : Pte} (h : st.lookupPage p = some e) : st.HasTable p ∧ e = st.ptes p := by
  unfold State.lookupPage at h
  split_ifs at h with ht
  exact ⟨ht, (Option.some.inj h).symm⟩

theorem lookupPage_of_table (h : st.HasTable p) : st.lookupPage p = some (st.ptes p) := if_pos h

theorem clearAccessed_same (st : State) (p : UserPage) : Same st (st.pagedirClearAccessed p) := by
  unfold State.pagedirClearAccessed
  cases h : st.lookupPage p with
  | none => exact .refl st
  | some e =>
      obtain ⟨-, rfl⟩ := lookupPage_some h
      exact same_bits st p false (st.ptes p).dirty

theorem clockFrameNext_spec {r : Option FrameEntry} (h : st.clockFrameNext = some (r, st')) :
    Same st st' ∧ ∀ f, r = some f → f ∈ st.frames := by
  unfold State.clockFrameNext at h
  dsimp only at h
  obtain ⟨rest, hrest, h⟩ := Option.map_eq_some_iff.mp h
  -- what is left of the list is part of it
  have hsub : ∀ f ∈ rest, f ∈ st.frames := by
    cases hc : st.clockPtr with
    | elem b =>
        rw [hc] at hrest
        dsimp only at hrest
        split at hrest
        · cases hrest
        · rename_i g l hl
          cases hrest
          intro f hf
          exact (List.dropWhile_sublist _).subset (hl ▸ List.mem_cons_of_mem g hf)
    | _ =>
        rw [hc] at hrest
        dsimp only at hrest
        split_ifs at hrest
        cases hrest
        exact fun f hf => hf
  cases rest with
  | nil =>
      cases h
      exact ⟨⟨rfl, rfl, rfl, rfl, rfl, rfl, fun _ => ⟨rfl, rfl, rfl⟩, rfl, rfl, rfl, rfl⟩, nofun⟩
  | cons f l =>
      cases h
      refine ⟨⟨rfl, rfl, rfl, rfl, rfl, rfl, fun _ => ⟨rfl, rfl, rfl⟩, rfl, rfl, rfl, rfl⟩, ?_⟩
      intro g hg
      cases hg
      exact hsub f List.mem_cons_self

/-- The clock finds a frame, and changes no more than accessed bits. -/
theorem pickLoop_spec : ∀ {n : ℕ} {st : State}, State.pickLoop b t n st = some (f, st') →
    Same st st' ∧ f ∈ st.frames
  | n + 1, st, h => by
      rw [State.pickLoop] at h
      simp only [Option.bind_eq_bind] at h
      obtain ⟨⟨r, st₁⟩, h₁, h⟩ := Option.bind_eq_some_iff.mp h
      obtain ⟨hsame, hmem⟩ := clockFrameNext_spec h₁
      cases r with
      | none =>
          dsimp only at h
          split_ifs at h
          obtain ⟨hs, hf⟩ := pickLoop_spec h
          exact ⟨hsame.trans hs, hsame.frames ▸ hf⟩
      | some e =>
          dsimp only at h
          split_ifs at h
          · obtain ⟨hs, hf⟩ := pickLoop_spec h
            exact ⟨hsame.trans hs, hsame.frames ▸ hf⟩
          · obtain ⟨hs, hf⟩ := pickLoop_spec h
            have hs := (clearAccessed_same st₁ _).trans hs
            refine ⟨hsame.trans hs, ?_⟩
            rw [(clearAccessed_same st₁ _).frames, hsame.frames] at hf
            exact hf
          · cases h
            exact ⟨hsame, hmem _ rfl⟩

theorem pickFrameToEvict_spec (h : st.pickFrameToEvict b t = some (f, st')) :
    Same st st' ∧ f ∈ st.frames := by
  unfold State.pickFrameToEvict at h
  split_ifs at h
  exact pickLoop_spec h

/-! ### A page is moved -/

/-- One page comes to lie in another cell; what belongs to other pages stays. -/
structure Moves (p : UserPage) (c : Cell) (st st' : State) : Prop where
  freeFor : st.placement.FreeFor p c
  entry : ∃ e, st'.supt = update st.supt p (some e) ∧ e.cell = some c
  data : ∀ q d, q ≠ p → st.cellOf q = some d → st'.cellData d = st.cellData d
  heldOthers : ∀ q j, q ≠ p → (st'.Held q j ↔ st.Held q j)
  held : ∀ j, st'.Held p j ↔ c = .frame j
  used : ∀ q j, st'.Held q j → j < st'.poolSize ∧ st'.used j = true
  nodup : (st'.frames.map FrameEntry.kpage).Nodup
  tables : ∀ q, st.HasTable q → st'.HasTable q
  table : st'.HasTable p
  ptes : ∀ q, q ≠ p → st'.ptes q = st.ptes q
  present : (st'.ptes p).present = true → ∃ k, c = .frame k
  resident : ∀ k, c = .frame k → (st'.ptes p).present = true ∧ (st'.ptes p).kpage = k
  swapSize : st'.swapSize = st.swapSize
  swappedOthers : ∀ q j, q ≠ p → st.cellOf q = some (.slot j) → st'.swapAvailable j = false
  swapped : ∀ j, c = .slot j → j < st.swapSize ∧ st'.swapAvailable j = false
  files : st'.files = st.files

namespace Moves

variable {c : Cell}

theorem puts (h : Moves p c st st') : st.placement.Puts p c st'.placement := by
  obtain ⟨e, hsupt, he⟩ := h.entry
  refine ⟨h.freeFor, ?_, fun q hq => ?_, h.data⟩
  · change (st'.supt p).bind Spte.cell = some c
    rw [hsupt, Function.update_self]
    exact he
  · change (st'.supt q).bind Spte.cell = (st.supt q).bind Spte.cell
    rw [hsupt, Function.update_of_ne hq]

theorem inv (h : Moves p c st st') (hinv : Inv st) : Inv st' := by
  have hcell : st'.cellOf p = some c := h.puts.cell
  have hcells : ∀ q, q ≠ p → st'.cellOf q = st.cellOf q := h.puts.cells
  have hself : ∀ d, st'.cellOf p = some d ↔ c = d := fun d => by
    rw [hcell, Option.some_inj]
  constructor
  · exact h.puts.sole hinv.sole
  · intro q e' hq hs
    obtain ⟨e, hsupt, he⟩ := h.entry
    by_cases hqp : q = p
    · subst hqp
      rw [hsupt, Function.update_self] at hq
      cases hq
      intro hnone
      unfold Spte.cell at he
      rw [hs, hnone] at he
      cases he
    · rw [hsupt, Function.update_of_ne hqp] at hq
      exact hinv.mapped q e' hq hs
  · intro q k
    by_cases hqp : q = p
    · subst hqp
      rw [h.held, hself]
    · rw [h.heldOthers q k hqp, hcells q hqp]
      exact hinv.held q k
  · exact h.used
  · exact h.nodup
  · intro q k hq
    by_cases hqp : q = p
    · subst hqp
      exact ⟨h.table, h.resident k ((hself _).mp hq)⟩
    · rw [hcells q hqp] at hq
      obtain ⟨htable, hres⟩ := hinv.resident q k hq
      rw [h.ptes q hqp]
      exact ⟨h.tables q htable, hres⟩
  · intro q hq
    by_cases hqp : q = p
    · subst hqp
      obtain ⟨k, rfl⟩ := h.present hq
      exact ⟨k, hcell⟩
    · rw [h.ptes q hqp] at hq
      rw [hcells q hqp]
      exact hinv.present q hq
  · intro q j hq
    rw [h.swapSize]
    by_cases hqp : q = p
    · subst hqp
      obtain ⟨hlt, havail⟩ := h.swapped j ((hself _).mp hq)
      exact ⟨hlt, havail, h.table⟩
    · rw [hcells q hqp] at hq
      obtain ⟨hlt, -, htable⟩ := hinv.swapped q j hq
      exact ⟨hlt, h.swappedOthers q j hqp hq, h.tables q htable⟩

/-- A page that is moved with its bytes. -/
theorem keeps (h : Moves p c st st') (hv : st.view p = some (st'.cellData c))
    (hw : (st'.ptes p).writable = (st.ptes p).writable)
    (hp : ∃ e, st.supt p = some e ∧ e.status = .onFrame) : Keeps st st' where
  view := h.puts.view_moved hv
  writable q := by
    by_cases hq : q = p
    · subst hq
      exact hw
    · rw [h.ptes q hq]
  supt q hq := by
    obtain ⟨e', hsupt, -⟩ := h.entry
    obtain ⟨e, he, hs⟩ := hp
    have hne : q ≠ p := by
      rintro rfl
      exact hq e he hs
    rw [hsupt, Function.update_of_ne hne]
  known q e hq := by
    obtain ⟨e', hsupt, hcell⟩ := h.entry
    rw [hsupt, Function.update_apply] at hq
    split_ifs at hq with hqp
    · -- an entry with a place is not to be read from the file
      cases hq
      obtain ⟨e₀, he₀, -⟩ := hp
      rw [hqp, he₀]
      refine ⟨rfl, fun hs => ?_⟩
      unfold Spte.cell at hcell
      rw [hs] at hcell
      cases hcell
    · rw [hq]
      exact ⟨rfl, fun _ => rfl⟩
  files := h.files

end Moves

/-! ### To the swap disk -/

theorem mem_eraseP : ∀ {l : List FrameEntry}, (l.map FrameEntry.kpage).Nodup →
    (f ∈ l.eraseP (·.kpage = k) ↔ f ∈ l ∧ f.kpage ≠ k)
  | [], _ => by simp
  | g :: l, hn => by
      obtain ⟨hg, hn⟩ := List.nodup_cons.mp hn
      by_cases hk : g.kpage = k
      · subst hk
        rw [List.eraseP_cons_of_pos (by simp)]
        constructor
        · intro hf
          refine ⟨List.mem_cons_of_mem g hf, fun heq => hg ?_⟩
          rw [← heq]
          exact List.mem_map_of_mem hf
        · rintro ⟨hf, hne⟩
          obtain rfl | hf := List.mem_cons.mp hf
          · exact absurd rfl hne
          · exact hf
      · rw [List.eraseP_cons_of_neg (by simpa using hk), List.mem_cons, List.mem_cons, mem_eraseP hn]
        constructor
        · rintro (rfl | ⟨hf, hne⟩)
          · exact ⟨.inl rfl, hk⟩
          · exact ⟨.inr hf, hne⟩
        · rintro ⟨rfl | hf, hne⟩
          · exact .inl rfl
          · exact .inr ⟨hf, hne⟩

theorem held_eraseP (hn : (st.frames.map FrameEntry.kpage).Nodup)
    (h : st'.frames = st.frames.eraseP (·.kpage = k)) (q : UserPage) (j : ℕ) :
    st'.Held q j ↔ st.Held q j ∧ j ≠ k := by
  unfold State.Held
  rw [h]
  constructor
  · rintro ⟨f, hf, rfl, rfl⟩
    obtain ⟨hf, hne⟩ := (mem_eraseP hn).mp hf
    exact ⟨⟨f, hf, rfl, rfl⟩, hne⟩
  · rintro ⟨⟨f, hf, rfl, rfl⟩, hne⟩
    exact ⟨f, (mem_eraseP hn).mpr ⟨hf, hne⟩, rfl, rfl⟩

/-- What an eviction does, when the clock has found the frame. -/
structure SwapsOut (f : FrameEntry) (i : ℕ) (st st' : State) : Prop where
  lt : i < st.swapSize
  free : st.swapAvailable i = true
  frames : st'.frames = st.frames.eraseP (·.kpage = f.kpage)
  poolSize : st'.poolSize = st.poolSize
  used : st'.used = update st.used f.kpage false
  mem : st'.mem = update st.mem f.kpage fun _ => 0xcc
  entry : ∃ e, st'.supt = update st.supt f.page (some e) ∧ e.cell = some (.slot i)
  tables : st'.tables = st.tables
  ptes : st'.ptes = update st.ptes f.page { st.ptes f.page with present := false }
  swapSize : st'.swapSize = st.swapSize
  swapAvailable : st'.swapAvailable = update st.swapAvailable i false
  swapBlock : st'.swapBlock = State.swapOutLoop (st.mem f.kpage) i sectorsPerPage st.swapBlock
  files : st'.files = st.files

theorem pagedirClearPage_eq (h : st.HasTable p) : st.pagedirClearPage p =
    { st with ptes := update st.ptes p { st.ptes p with present := false } } := by
  unfold State.pagedirClearPage
  rw [lookupPage_of_table h]

theorem evict_cases (h : Inv st) (he : st.evict b t = some st') :
    ∃ f i st₁, Same st st₁ ∧ f ∈ st₁.frames ∧ SwapsOut f i st₁ st' := by
  unfold State.evict at he
  simp only [Option.bind_eq_bind] at he
  obtain ⟨⟨f, st₁⟩, hpick, he⟩ := Option.bind_eq_some_iff.mp he
  obtain ⟨hsame, hf⟩ := pickFrameToEvict_spec hpick
  rw [← hsame.frames] at hf
  have h₁ := hsame.inv h
  have hcell := (h₁.held _ _).mp ⟨f, hf, rfl, rfl⟩
  obtain ⟨htable, -⟩ := h₁.resident _ _ hcell
  obtain ⟨e, hentry, -⟩ := Option.bind_eq_some_iff.mp hcell
  change st₁.supt f.page = some e at hentry
  dsimp only at he
  rw [pagedirClearPage_eq htable] at he
  obtain ⟨⟨i, st₂⟩, hout, he⟩ := Option.bind_eq_some_iff.mp he
  obtain ⟨i', hfind, heq⟩ := Option.map_eq_some_iff.mp hout
  cases heq
  obtain ⟨st₃, hset, he⟩ := Option.bind_eq_some_iff.mp he
  unfold State.vmSuptSetSwap State.vmSuptSetDirty at hset
  dsimp only at hset
  rw [hentry] at hset
  simp only [Function.update_self, Option.map_some, Option.some.injEq, Function.update_idem] at hset
  subst hset
  unfold State.vmFrameFree at he
  split_ifs at he
  cases he
  exact ⟨f, i, st₁, hsame, hf, List.mem_range.mp (List.mem_of_find?_eq_some hfind),
    List.find?_some hfind, rfl, rfl, rfl, rfl, ⟨_, rfl, rfl⟩, rfl, rfl, rfl, rfl, rfl, rfl⟩

namespace SwapsOut

/-- The slot has the bytes of the page. -/
theorem slot (h : SwapsOut f i st st') : st'.cellData (.slot i) = st.cellData (.frame f.kpage) := by
  funext o
  have ho : (o : ℕ) < pgSize := o.isLt
  unfold pgSize at ho
  have hblock : (o : ℕ) / blockSectorSize < sectorsPerPage := by
    change (o : ℕ) / 512 < 8
    omega
  change st'.swapBlock _ _ = st.mem f.kpage o
  rw [h.swapBlock, swapOutLoop_at hblock]
  dsimp only
  rw [Nat.div_add_mod]

/-- The other slots are left alone. -/
theorem slots (h : SwapsOut f i st st') (hj : j ≠ i) :
    st'.cellData (.slot j) = st.cellData (.slot j) := by
  funext o
  have ho : (o : ℕ) < pgSize := o.isLt
  unfold pgSize at ho
  have hblock : (o : ℕ) / blockSectorSize < sectorsPerPage := by
    change (o : ℕ) / 512 < 8
    omega
  have hsectors : sectorsPerPage = 8 := rfl
  change st'.swapBlock _ _ = st.swapBlock _ _
  generalize (o : ℕ) / blockSectorSize = r at hblock ⊢
  rw [h.swapBlock, swapOutLoop_other fun l hl => by rw [hsectors] at hblock hl ⊢; omega]

theorem moves (h : SwapsOut f i st st') (hinv : Inv st) (hf : f ∈ st.frames) :
    Moves f.page (.slot i) st st' := by
  have hcell : st.cellOf f.page = some (.frame f.kpage) := (hinv.held _ _).mp ⟨f, hf, rfl, rfl⟩
  -- nothing else lies in the frame, and nothing in the slot
  have hframe : ∀ q k, q ≠ f.page → st.cellOf q = some (.frame k) → k ≠ f.kpage := by
    rintro q k hq hk rfl
    exact hq (hinv.sole q f.page _ hk hcell)
  have hslot : st.placement.FreeFor f.page (.slot i) := by
    intro q hq
    obtain ⟨-, hused, -⟩ := hinv.swapped q i hq
    rw [h.free] at hused
    cases hused
  have hheld := held_eraseP hinv.nodup h.frames
  have htables : ∀ q, st'.HasTable q ↔ st.HasTable q := fun q => by
    unfold State.HasTable
    rw [h.tables]
  constructor
  · exact hslot
  · exact h.entry
  · rintro q (k | j) hq hd
    · funext o
      change st'.mem k o = st.mem k o
      rw [h.mem, Function.update_of_ne (hframe q k hq hd)]
    · refine h.slots ?_
      rintro rfl
      exact hq (hslot q hd)
  · intro q j hq
    rw [hheld]
    exact and_iff_left_of_imp fun hj => hframe q j hq ((hinv.held q j).mp hj)
  · intro j
    rw [hheld, hinv.held, hcell]
    constructor
    · rintro ⟨heq, hne⟩
      cases heq
      exact absurd rfl hne
    · nofun
  · intro q j hj
    obtain ⟨hj, hne⟩ := (hheld q j).mp hj
    rw [h.poolSize, h.used, Function.update_of_ne hne]
    exact hinv.used q j hj
  · rw [h.frames]
    exact hinv.nodup.sublist (List.Sublist.map _ List.eraseP_sublist)
  · intro q hq
    exact (htables q).mpr hq
  · exact (htables _).mpr (hinv.resident _ _ hcell).1
  · intro q hq
    rw [h.ptes, Function.update_of_ne hq]
  · intro hp
    rw [h.ptes, Function.update_self] at hp
    cases hp
  · nofun
  · exact h.swapSize
  · intro q j hq hj
    rw [h.swapAvailable, Function.update_apply]
    split_ifs
    · rfl
    · exact (hinv.swapped q j hj).2.1
  · rintro j heq
    cases heq
    exact ⟨h.lt, by rw [h.swapAvailable, Function.update_self]⟩
  · exact h.files

end SwapsOut

/-- **Eviction moves a page to the swap disk**, with its bytes. -/
theorem evict_spec (h : Inv st) (he : st.evict b t = some st') : Inv st' ∧ Keeps st st' := by
  obtain ⟨f, i, st₁, hsame, hf, hout⟩ := evict_cases h he
  have h₁ := hsame.inv h
  have hmoves := hout.moves h₁ hf
  have hcell : st₁.cellOf f.page = some (.frame f.kpage) := (h₁.held _ _).mp ⟨f, hf, rfl, rfl⟩
  refine ⟨hmoves.inv h₁, hsame.keeps.trans (hmoves.keeps ?_ ?_ ?_)⟩
  · rw [hout.slot]
    exact Placement.view_of_cell hcell
  · rw [hout.ptes, Function.update_self]
  · obtain ⟨e, hentry, he⟩ := Option.bind_eq_some_iff.mp hcell
    exact ⟨e, hentry, (cell_frame he).1⟩

/-! ### A page from the pool -/

theorem pallocGetPage_spec (h : Inv st) (hp : st.pallocGetPage = some (k, st')) :
    Inv st' ∧ Keeps st st' ∧ (k < st'.poolSize ∧ st'.used k = true) ∧ ∀ q, ¬st'.Held q k := by
  obtain ⟨k', hfind, heq⟩ := Option.map_eq_some_iff.mp hp
  cases heq
  have hfree : st.used k ≠ true := by
    have := List.find?_some hfind
    simpa using this
  have hlt : k < st.poolSize := List.mem_range.mp (List.mem_of_find?_eq_some hfind)
  refine ⟨⟨h.sole, h.mapped, h.held, fun q j hj => ?_, h.nodup, h.resident, h.present, h.swapped⟩,
    .of_supt rfl (fun _ => rfl) rfl rfl, ⟨hlt, Function.update_self ..⟩,
    fun q hq => hfree (h.used q k hq).2⟩
  obtain ⟨hj, hused⟩ := h.used q j hj
  refine ⟨hj, ?_⟩
  change update st.used k true j = true
  rw [Function.update_apply, hused, ite_self]

theorem obtainPage_spec (h : Inv st) (ho : st.obtainPage b t = some (k, st')) :
    Inv st' ∧ Keeps st st' ∧ (k < st'.poolSize ∧ st'.used k = true) ∧ ∀ q, ¬st'.Held q k := by
  unfold State.obtainPage at ho
  cases hp : st.pallocGetPage with
  | some r =>
      rw [hp] at ho
      cases ho
      exact pallocGetPage_spec h hp
  | none =>
      rw [hp] at ho
      obtain ⟨st₁, he, hget⟩ := Option.bind_eq_some_iff.mp ho
      obtain ⟨h₁, hk₁⟩ := evict_spec h he
      obtain ⟨h', hk', hrest⟩ := pallocGetPage_spec h₁ hget
      exact ⟨h', hk₁.trans hk', hrest⟩

/-- What is in a page of the pool that nothing lies in. -/
theorem given_back {kernelDirty : ℕ → Bool} (h : Inv st) (hk : ∀ q, ¬st.Held q k)
    (hst : st' = { st with
      used := update st.used k false, mem := update st.mem k page, kernelDirty }) :
    Inv st' ∧ Keeps st st' := by
  subst hst
  have hne : ∀ q j, st.cellOf q = some (.frame j) → j ≠ k := by
    rintro q j hq rfl
    exact hk q ((h.held q j).mpr hq)
  refine ⟨⟨h.sole, h.mapped, h.held, fun q j hj => ?_, h.nodup, h.resident, h.present, h.swapped⟩,
    .of_supt ?_ (fun _ => rfl) rfl rfl⟩
  · change j < st.poolSize ∧ update st.used k false j = true
    rw [Function.update_of_ne (hne q j ((h.held q j).mp hj))]
    exact h.used q j hj
  · funext q
    refine Placement.view_congr rfl fun c hc => ?_
    cases c with
    | frame j =>
        funext o
        change update st.mem k page j o = st.mem j o
        rw [Function.update_of_ne (hne q j hc)]
    | slot j => rfl

/-! ### Into a frame -/

/-- What a page is when it is loaded for the first time. -/
structure Seen where
  contents : Contents
  writable : Bool

/-- Zeros, or the bytes of the file. -/
def State.initial (st : State) (e : Spte) : Option Seen :=
  match e.status with
  | .allZero => some ⟨fun _ => 0, true⟩
  | .fromFilesys => some ⟨fun o =>
      if (o : ℕ) < e.readBytes then (st.files e.file).getD (e.fileOffset + o) 0 else 0, e.writable⟩
  | .onFrame | .onSwap => none

/-- What the entry says is in the frame, for a page that is to be writable or not. -/
def Fetched (st : State) (e : Spte) (page : ℕ → UInt8) (w : Bool) : Prop :=
  match e.status with
  | .onSwap => (fun o : Fin pgSize => page o) = st.cellData (.slot e.swapIndex) ∧ w = true
  | _ => st.initial e = some ⟨fun o => page o, w⟩

theorem Fetched.back (h : Fetched st e page w) (hs : e.status = .onSwap) :
    (fun o : Fin pgSize => page o) = st.cellData (.slot e.swapIndex) ∧ w = true := by
  unfold Fetched at h
  rwa [hs] at h

theorem Fetched.first (h : Fetched st e page w) (hs : e.status ≠ .onSwap) :
    st.initial e = some ⟨fun o => page o, w⟩ := by
  unfold Fetched at h
  cases hstatus : e.status with
  | onSwap => exact absurd hstatus hs
  | _ => rwa [hstatus] at h

/-- The bytes that come back from the swap disk. -/
theorem swapInLoop_slot (st : State) (i : ℕ) (page : ℕ → UInt8) :
    (fun o : Fin pgSize => State.swapInLoop st.swapBlock i sectorsPerPage page o) =
      st.cellData (.slot i) := by
  funext o
  exact swapInLoop_at o.isLt

/-- The bytes of a file that is long enough. -/
theorem fileRead_getD {file offset size o : ℕ} (ho : o < size) :
    (st.fileRead file offset size).getD o 0 = (st.files file).getD (offset + o) 0 := by
  unfold State.fileRead
  rw [List.getD_eq_getElem?_getD, List.getD_eq_getElem?_getD, List.getElem?_take_of_lt ho,
    List.getElem?_drop]

theorem vmLoadPageFromFilesys_cases (hf : st.vmLoadPageFromFilesys e k = some (ok, st')) :
    ∃ page kernelDirty, st' = { st with mem := update st.mem k page, kernelDirty } ∧
      (ok = true → ∀ o : Fin pgSize, page o =
        if (o : ℕ) < e.readBytes then (st.files e.file).getD (e.fileOffset + o) 0 else 0) := by
  unfold State.vmLoadPageFromFilesys at hf
  dsimp only at hf
  split_ifs at hf with hshort hsize
  · cases hf
    exact ⟨_, _, rfl, nofun⟩
  · cases hf
    refine ⟨_, _, by rw [Function.update_idem], fun _ o => ?_⟩
    have ho : (o : ℕ) < pgSize := o.isLt
    rw [not_not.mp hshort]
    by_cases hlt : (o : ℕ) < e.readBytes
    · rw [if_neg (by omega), Function.update_self, if_pos hlt, if_pos hlt, fileRead_getD hlt]
    · rw [if_pos (by omega), if_neg hlt]

/-- What `vm_load_page` does with the frame. -/
theorem fetchPage_cases {r : Option Bool} (he : e.status ≠ .onFrame)
    (hf : st.fetchPage e k = some (r, st')) :
    ∃ page kernelDirty, st' = { st with
        mem := update st.mem k page
        kernelDirty
        swapAvailable := if e.status = .onSwap then update st.swapAvailable e.swapIndex true
          else st.swapAvailable } ∧
      (r = none → e.status ≠ .onSwap) ∧ ∀ w, r = some w → Fetched st e page w := by
  unfold State.fetchPage at hf
  unfold Fetched State.initial
  cases hs : e.status with
  | onFrame => exact absurd hs he
  | allZero =>
      rw [hs] at hf
      cases hf
      refine ⟨_, _, rfl, nofun, ?_⟩
      rintro w ⟨⟩
      dsimp only
      congr 2
      funext o
      rw [if_pos o.isLt]
  | onSwap =>
      rw [hs] at hf
      obtain ⟨st₁, hin, heq⟩ := Option.map_eq_some_iff.mp hf
      cases heq
      unfold State.vmSwapIn at hin
      split_ifs at hin
      cases hin
      refine ⟨_, _, rfl, nofun, ?_⟩
      rintro w ⟨⟩
      exact ⟨swapInLoop_slot st e.swapIndex _, rfl⟩
  | fromFilesys =>
      rw [hs] at hf
      obtain ⟨⟨ok, st₁⟩, hload, heq⟩ := Option.map_eq_some_iff.mp hf
      obtain ⟨page, kernelDirty, rfl, hbytes⟩ := vmLoadPageFromFilesys_cases hload
      cases heq
      refine ⟨page, kernelDirty, rfl, nofun, fun w hw => ?_⟩
      cases ok with
      | false => cases hw
      | true =>
          cases hw
          dsimp only
          congr 2
          funext o
          exact (hbytes rfl o).symm

@[simp] theorem unpin_page (k : ℕ) (f : FrameEntry) : (f.unpin k).page = f.page := by
  unfold FrameEntry.unpin
  split_ifs
  · rfl
  · rfl

@[simp] theorem unpin_kpage (k : ℕ) (f : FrameEntry) : (f.unpin k).kpage = f.kpage := by
  unfold FrameEntry.unpin
  split_ifs
  · rfl
  · rfl

/-- The page lies in the frame `k`, and `vm_load_page` returns true. -/
structure LoadsIn (p : UserPage) (e : Spte) (k : ℕ) (page : ℕ → UInt8) (w : Bool) (st st' : State) :
    Prop where
  frames : ∃ b, st'.frames = (st.frames ++ [(⟨b, k, p, true⟩ : FrameEntry)]).map (FrameEntry.unpin k)
  poolSize : st'.poolSize = st.poolSize
  used : st'.used = st.used
  mem : st'.mem = update st.mem k page
  supt : st'.supt = update st.supt p (some { e with kpage := some k, status := .onFrame })
  tables : st'.tables = update st.tables (p.1, p.2 / 1024) true
  ptes : st'.ptes = update st.ptes p ⟨k, true, w, false, false⟩
  swapSize : st'.swapSize = st.swapSize
  swapAvailable : st'.swapAvailable =
    if e.status = .onSwap then update st.swapAvailable e.swapIndex true else st.swapAvailable
  swapBlock : st'.swapBlock = st.swapBlock
  files : st'.files = st.files

namespace LoadsIn

theorem held_iff (h : LoadsIn p e k page w st st') (q : UserPage) (j : ℕ) :
    st'.Held q j ↔ st.Held q j ∨ q = p ∧ j = k := by
  obtain ⟨b, hframes⟩ := h.frames
  unfold State.Held
  rw [hframes]
  simp only [List.mem_map, exists_exists_and_eq_and, unpin_page, unpin_kpage, List.mem_append,
    List.mem_singleton, or_and_right, exists_or, exists_eq_left, exists_eq_left']
  rw [eq_comm (a := p), eq_comm (a := k)]

theorem kpages (h : LoadsIn p e k page w st st') :
    st'.frames.map FrameEntry.kpage = st.frames.map FrameEntry.kpage ++ [k] := by
  obtain ⟨b, hframes⟩ := h.frames
  have hcomp : FrameEntry.kpage ∘ FrameEntry.unpin k = FrameEntry.kpage := funext (unpin_kpage k)
  rw [hframes, List.map_map, hcomp, List.map_append]
  rfl

/-- **Loading moves a page to its frame.** -/
theorem moves (h : LoadsIn p e k page w st st') (hinv : Inv st) (hp : st.supt p = some e)
    (hs : e.status ≠ .onFrame) (hused : k < st.poolSize ∧ st.used k = true)
    (hk : ∀ q, ¬st.Held q k) : Moves p (.frame k) st st' := by
  have hne : ∀ q j, st.cellOf q = some (.frame j) → j ≠ k := by
    rintro q j hq rfl
    exact hk q ((hinv.held q j).mpr hq)
  have hself : ∀ j, ¬st.Held p j := by
    intro j hj
    have hcell := (hinv.held p j).mp hj
    rw [cellOf_eq hp] at hcell
    exact hs (cell_frame hcell).1
  constructor
  · intro q hq
    exact absurd rfl (hne q k hq)
  · exact ⟨_, h.supt, rfl⟩
  · rintro q (j | j) hq hd
    · funext o
      change st'.mem j o = st.mem j o
      rw [h.mem, Function.update_of_ne (hne q j hd)]
    · funext o
      change st'.swapBlock _ _ = st.swapBlock _ _
      rw [h.swapBlock]
  · intro q j hq
    rw [h.held_iff]
    exact or_iff_left fun hj => hq hj.1
  · intro j
    rw [h.held_iff, or_iff_right (hself j)]
    constructor
    · rintro ⟨-, rfl⟩
      rfl
    · rintro heq
      cases heq
      exact ⟨rfl, rfl⟩
  · intro q j hj
    rw [h.poolSize, h.used]
    obtain hj | ⟨-, rfl⟩ := (h.held_iff q j).mp hj
    · exact hinv.used q j hj
    · exact hused
  · rw [h.kpages, List.nodup_append]
    refine ⟨hinv.nodup, List.nodup_singleton k, ?_⟩
    intro j hj j' hj' heq
    obtain ⟨f, hf, rfl⟩ := List.mem_map.mp hj
    rw [List.mem_singleton.mp hj'] at heq
    exact hk f.page ⟨f, hf, rfl, heq⟩
  · intro q hq
    unfold State.HasTable
    rw [h.tables, Function.update_apply]
    split_ifs
    · rfl
    · exact hq
  · unfold State.HasTable
    rw [h.tables, Function.update_self]
  · intro q hq
    rw [h.ptes, Function.update_of_ne hq]
  · exact fun _ => ⟨k, rfl⟩
  · rintro j heq
    cases heq
    rw [h.ptes, Function.update_self]
    exact ⟨rfl, rfl⟩
  · exact h.swapSize
  · intro q j hq hj
    obtain ⟨-, havail, -⟩ := hinv.swapped q j hj
    rw [h.swapAvailable]
    split_ifs with hswap
    · -- the slot of the page itself is another one
      have hcell : st.cellOf p = some (.slot e.swapIndex) := by
        rw [cellOf_eq hp]
        unfold Spte.cell
        rw [hswap]
      rw [Function.update_of_ne]
      · exact havail
      · rintro rfl
        exact hq (hinv.sole q p _ hj hcell)
    · exact havail
  · nofun
  · exact h.files

end LoadsIn

theorem vmLoadPage_cases (h : Inv st) (hl : st.vmLoadPage a p = some (ok, st')) :
    (∃ e, st.supt p = some e ∧ e.status = .onFrame ∧ ok = true ∧ st' = st) ∨
    (ok = false ∧ Inv st' ∧ Keeps st st') ∨
    ok = true ∧ ∃ e k page w st₁, st.supt p = some e ∧ e.status ≠ .onFrame ∧ Inv st₁ ∧ Keeps st st₁ ∧
      (k < st₁.poolSize ∧ st₁.used k = true) ∧ (∀ q, ¬st₁.Held q k) ∧ Fetched st₁ e page w ∧
      LoadsIn p e k page w st₁ st' := by
  unfold State.vmLoadPage at hl
  cases hp : st.supt p with
  | none =>
      rw [hp] at hl
      cases hl
      exact .inr (.inl ⟨rfl, h, .refl st⟩)
  | some e =>
      rw [hp] at hl
      dsimp only at hl
      split_ifs at hl with hs
      · cases hl
        exact .inl ⟨e, rfl, hs, rfl, rfl⟩
      obtain ⟨⟨frame, st₂⟩, halloc, hl⟩ := Option.bind_eq_some_iff.mp hl
      obtain ⟨⟨k, st₁⟩, hobtain, halloc⟩ := Option.bind_eq_some_iff.mp halloc
      obtain ⟨h₁, hk₁, hused, hheld⟩ := obtainPage_spec h hobtain
      have hp₁ : st₁.supt p = some e := by
        rw [hk₁.supt p fun e' he' => ?_, hp]
        rw [hp] at he'
        cases he'
        exact hs
      dsimp only at halloc
      cases hentry : a.frameEntry with
      | none =>
          rw [hentry] at halloc
          cases halloc
          cases hl
          exact .inr (.inl ⟨rfl, h₁, hk₁⟩)
      | some b =>
          rw [hentry] at halloc
          cases halloc
          -- the frame is given back where something fails
          have hback : ∀ {st₃ st₄ : State} {page : ℕ → UInt8} {kernelDirty : ℕ → Bool},
              st₃ = { st₁ with
                frames := st₁.frames ++ [⟨b, k, p, true⟩], mem := update st₁.mem k page, kernelDirty } →
              st₃.vmFrameFree k = some st₄ → Inv st₄ ∧ Keeps st st₄ := by
            rintro st₃ st₄ page kernelDirty rfl hfree
            unfold State.vmFrameFree at hfree
            split_ifs at hfree
            have hframes : (st₁.frames ++ [(⟨b, k, p, true⟩ : FrameEntry)]).eraseP (·.kpage = k) =
                st₁.frames := by
              rw [List.eraseP_append_right, List.eraseP_cons_of_pos (by simp), List.append_nil]
              intro f hf hk
              exact hheld f.page ⟨f, hf, rfl, of_decide_eq_true hk⟩
            have hst₄ : st₄ = { st₁ with
                used := update st₁.used k false, mem := update st₁.mem k fun _ => 0xcc, kernelDirty } := by
              rw [← Option.some.inj hfree]
              unfold State.pallocFreePage
              dsimp only
              rw [hframes, Function.update_idem]
            obtain ⟨h₄, hk₄⟩ := given_back h₁ hheld hst₄
            exact ⟨h₄, hk₁.trans hk₄⟩
          simp only [hp₁, Option.bind_eq_bind, Option.bind_some] at hl
          obtain ⟨⟨r, st₃⟩, hfetch, hl⟩ := Option.bind_eq_some_iff.mp hl
          obtain ⟨page, kernelDirty, hst₃, hnone, hsome⟩ := fetchPage_cases hs hfetch
          cases r with
          | none =>
              obtain ⟨st₄, hfree, heq⟩ := Option.map_eq_some_iff.mp hl
              cases heq
              rw [if_neg (hnone rfl)] at hst₃
              exact .inr (.inl ⟨rfl, hback hst₃ hfree⟩)
          | some w =>
              obtain ⟨⟨ok₄, st₄⟩, hset, hl⟩ := Option.bind_eq_some_iff.mp hl
              unfold State.pagedirSetPage at hset
              dsimp only at hset
              split_ifs at hset with huser htable hpresent
              · cases hset
                obtain ⟨st₅, hunpin, heq⟩ := Option.map_eq_some_iff.mp hl
                cases heq
                unfold State.vmFrameUnpin at hunpin
                split_ifs at hunpin
                cases hunpin
                refine .inr (.inr ⟨rfl, e, k, page, w, st₁, rfl, hs, h₁, hk₁, hused, hheld, hsome w rfl, ?_⟩)
                rw [hst₃]
                exact ⟨⟨b, rfl⟩, rfl, rfl, rfl, rfl, rfl, rfl, rfl, rfl, rfl, rfl⟩
              · cases hset
                obtain ⟨st₅, hfree, heq⟩ := Option.map_eq_some_iff.mp hl
                cases heq
                -- a page that comes back has its page table
                have hswap : e.status ≠ .onSwap := by
                  intro hswap
                  have hcell : st₁.cellOf p = some (.slot e.swapIndex) := by
                    rw [cellOf_eq hp₁]
                    unfold Spte.cell
                    rw [hswap]
                  obtain ⟨-, -, hhas⟩ := h₁.swapped p _ hcell
                  rw [hst₃] at htable
                  exact htable (by rw [show st₁.tables (p.1, p.2 / 1024) = true from hhas, Bool.true_or])
                rw [if_neg hswap] at hst₃
                exact .inr (.inl ⟨rfl, hback hst₃ hfree⟩)

/-! ### What the user is to see -/

/-- `vm_load_page` returns true. -/
def State.loads (st : State) (a : Answers) (p : UserPage) : Bool :=
  (st.vmLoadPage a p).any Prod.fst

/-- What the pages that have been loaded are to be after a history, newest step first: the first load
fixes the bytes and the right to write, and then the user changes bytes. -/
def expected : List (State × Action) → UserPage → Option Seen
  | [] => fun _ => none
  | (st, .load p a) :: h =>
      if st.loads a p && (expected h p).isNone then
        update (expected h) p ((st.supt p).bind st.initial)
      else expected h
  | (_, .write p o b) :: h =>
      update (expected h) p ((expected h p).map fun s => { s with contents := update s.contents o b })
  | (_, .installZeropage _ _) :: h => expected h
  | (_, .installFilesys _ _ _ _ _ _ _) :: h => expected h
  | (_, .read _) :: h => expected h
  | (_, .rewrite _ _) :: h => expected h

/-- The user reads what was written last, or the byte of the first load; the right to write is the
one of the first load; and no two pages have the same slot. -/
structure Transparent (h : List (State × Action)) (st : State) : Prop where
  bytes : ∀ p o b, st.userRead p o = some b → ∃ s, expected h p = some s ∧ b = s.contents o
  loaded : ∀ p e o, st.supt p = some e → e.status = .onFrame → (st.userRead p o).isSome = true
  rights : ∀ p s, expected h p = some s → (st.ptes p).present = true → (st.ptes p).writable = s.writable
  slots : ∀ p q e e', st.supt p = some e → st.supt q = some e' → e.status = .onSwap →
    e'.status = .onSwap → e.swapIndex = e'.swapIndex → p = q

/-- A page that comes back from the swap disk has the right to write: its page-table entry still
tells. -/
def BackWritable (st : State) (a : Action) : Prop :=
  ∀ p as e, a = .load p as → st.supt p = some e → e.status = .onSwap → (st.ptes p).writable = true

/-- The tables and the history agree. -/
structure Agrees (h : List (State × Action)) (st : State) : Prop where
  inv : Inv st
  view : ∀ p, st.view p = (expected h p).map Seen.contents
  writable : ∀ p s, expected h p = some s → (st.ptes p).writable = s.writable

variable {h : List (State × Action)}

/-- A step that the history does not see. -/
theorem Agrees.keeps {h' : List (State × Action)} (hg : Agrees h st) (hinv : Inv st')
    (hk : Keeps st st') (he : expected h' = expected h) : Agrees h' st' where
  inv := hinv
  view p := by
    rw [State.view, hk.view, he]
    exact hg.view p
  writable p s hs := by
    rw [he] at hs
    rw [hk.writable]
    exact hg.writable p s hs

/-- An entry for a new page. -/
theorem installed (hinv : Inv st) (hp : st.supt p = none) (hs : e.cell = none) (hf : e.status ≠ .onFrame)
    (hst : st' = { st with supt := update st.supt p (some e) }) :
    Inv st' ∧ st'.placement = st.placement ∧ st'.ptes = st.ptes := by
  have hplace : st'.placement = st.placement := by
    unfold State.placement
    congr 1
    · funext q
      rw [hst]
      dsimp only
      by_cases hq : q = p
      · subst hq
        rw [Function.update_self, hp]
        exact hs
      · rw [Function.update_of_ne hq]
    · rw [hst]
      rfl
  have hcell : ∀ q, st'.cellOf q = st.cellOf q := fun q => by rw [State.cellOf, hplace]
  refine ⟨?_, hplace, by rw [hst]⟩
  constructor
  · rw [hplace]
    exact hinv.sole
  · intro q e' hq hs'
    rw [hst] at hq
    dsimp only at hq
    by_cases hqp : q = p
    · subst hqp
      rw [Function.update_self] at hq
      cases hq
      exact absurd hs' hf
    · rw [Function.update_of_ne hqp] at hq
      exact hinv.mapped q e' hq hs'
  · intro q k
    rw [hcell, ← hinv.held q k]
    rw [hst]
    rfl
  · rw [hst]
    exact hinv.used
  · rw [hst]
    exact hinv.nodup
  · intro q k hq
    rw [hcell] at hq
    rw [hst]
    exact hinv.resident q k hq
  · intro q hq
    rw [hcell]
    rw [hst] at hq
    exact hinv.present q hq
  · intro q j hq
    rw [hcell] at hq
    rw [hst]
    exact hinv.swapped q j hq

theorem Agrees.write {o : Fin pgSize} {v : UInt8} (hg : Agrees h st)
    (hs : step (.write p o v) st = some st') : Agrees ((st, .write p o v) :: h) st' := by
  obtain ⟨e, he, hs⟩ := Option.bind_eq_some_iff.mp hs
  obtain ⟨-, rfl⟩ := lookupPage_some he
  split_ifs at hs with hpw
  obtain ⟨hpresent, -⟩ := Bool.and_eq_true_iff.mp hpw
  obtain ⟨k, hk⟩ := hg.inv.present p hpresent
  obtain ⟨-, -, rfl⟩ := hg.inv.resident p k hk
  -- first the bits, then the byte
  have hsame := same_bits st p true true
  have hbits := hsame.inv hg.inv
  have hcells : ∀ q, st'.cellOf q = st.cellOf q := fun q => by rw [← Option.some.inj hs]; rfl
  have hptes : ∀ q, (st'.ptes q).writable = (st.ptes q).writable := fun q => by
    rw [← Option.some.inj hs]
    exact (hsame.ptes q).2.2
  have hputs : st.placement.Puts p (.frame (st.ptes p).kpage) st'.placement := by
    refine ⟨hg.inv.sole.freeFor hk, (hcells p).trans hk, fun q _ => hcells q, ?_⟩
    rintro q (j | j) hq hj
    · have hne : j ≠ (st.ptes p).kpage := by
        rintro rfl
        exact hq (hg.inv.sole q p _ hj hk)
      rw [← Option.some.inj hs]
      funext l
      exact congrFun (Function.update_of_ne hne ..) (l : ℕ)
    · rw [← Option.some.inj hs]
      rfl
  have hdata : st'.cellData (.frame (st.ptes p).kpage) =
      update (st.cellData (.frame (st.ptes p).kpage)) o v := by
    rw [← Option.some.inj hs]
    funext l
    change update st.mem _ (update (st.mem (st.ptes p).kpage) (o : ℕ) v) _ (l : ℕ) = _
    rw [Function.update_self]
    by_cases hl : l = o
    · subst hl
      rw [Function.update_self, Function.update_self]
    · rw [Function.update_of_ne hl, Function.update_of_ne (Fin.val_ne_of_ne hl)]
      rfl
  have hview : st.view p = some (st.cellData (.frame (st.ptes p).kpage)) :=
    Placement.view_of_cell hk
  have hexpected : ∃ s, expected h p = some s ∧ s.contents = st.cellData (.frame (st.ptes p).kpage) := by
    rw [hg.view p] at hview
    obtain ⟨s, hs, heq⟩ := Option.map_eq_some_iff.mp hview
    exact ⟨s, hs, heq⟩
  obtain ⟨s, hexp, hcontents⟩ := hexpected
  refine ⟨?_, fun q => ?_, fun q s' hq => ?_⟩
  · rw [← Option.some.inj hs]
    exact ⟨hbits.sole, hbits.mapped, hbits.held, hbits.used, hbits.nodup, hbits.resident, hbits.present,
      hbits.swapped⟩
  · change st'.placement.view q = _
    rw [expected]
    by_cases hq : q = p
    · subst hq
      rw [hputs.view_self, Function.update_self, hexp, Option.map_some, Option.map_some, hcontents]
      exact congrArg some hdata
    · rw [hputs.view_ne hq, Function.update_of_ne hq]
      exact hg.view q
  · rw [hptes]
    rw [expected] at hq
    by_cases hqp : q = p
    · subst hqp
      rw [Function.update_self, hexp] at hq
      cases hq
      exact hg.writable q s hexp
    · rw [Function.update_of_ne hqp] at hq
      exact hg.writable q s' hq

theorem Agrees.load (hg : Agrees h st) (hback : BackWritable st (.load p a))
    (hl : st.vmLoadPage a p = some (ok, st')) : Agrees ((st, .load p a) :: h) st' := by
  have hloads : st.loads a p = ok := by
    unfold State.loads
    rw [hl]
    rfl
  obtain ⟨e, hp, hs, rfl, rfl⟩ | ⟨rfl, hinv, hk⟩ | ⟨rfl, e, k, page, w, st₁, hp, hs, h₁, hk, hused, hheld,
    hfetched, hin⟩ := vmLoadPage_cases hg.inv hl
  · refine hg.keeps hg.inv (.refl _) ?_
    rw [expected, hloads]
    -- it has been loaded before
    obtain ⟨k, hk⟩ := Option.ne_none_iff_exists'.mp (hg.inv.mapped p e hp hs)
    have hcell : st'.cellOf p = some (.frame k) := by
      rw [cellOf_eq hp]
      unfold Spte.cell
      rw [hs, hk]
      rfl
    have hview := hg.view p
    rw [State.view, Placement.view_of_cell hcell] at hview
    cases hexp : expected h p with
    | none =>
        rw [hexp] at hview
        cases hview
    | some s => rfl
  · refine hg.keeps hinv hk ?_
    rw [expected, hloads, Bool.false_and, if_neg Bool.false_ne_true]
  · have hg₁ : Agrees h st₁ := hg.keeps h₁ hk rfl
    have hp₁ : st₁.supt p = some e := by
      rw [hk.supt p fun e' he' => ?_, hp]
      rw [hp] at he'
      cases he'
      exact hs
    have hmoves := hin.moves h₁ hp₁ hs hused hheld
    have hdata : st'.cellData (.frame k) = fun o : Fin pgSize => page o := by
      funext o
      change st'.mem k o = page o
      rw [hin.mem, Function.update_self]
    have hright : (st'.ptes p).writable = w := by
      rw [hin.ptes, Function.update_self]
    -- what is expected of the page from now on
    have hexpected : ∃ s, expected ((st, .load p a) :: h) = update (expected h) p (some s) ∧
        s.contents = (fun o : Fin pgSize => page o) ∧ w = s.writable := by
      rw [expected, hloads, Bool.true_and]
      by_cases hswap : e.status = .onSwap
      · obtain ⟨hbytes, rfl⟩ := hfetched.back hswap
        have hcell : st₁.cellOf p = some (.slot e.swapIndex) := by
          rw [cellOf_eq hp₁]
          unfold Spte.cell
          rw [hswap]
        have hview := hg₁.view p
        rw [State.view, Placement.view_of_cell hcell] at hview
        obtain ⟨s, hexp, hcontents⟩ := Option.map_eq_some_iff.mp hview.symm
        refine ⟨s, ?_, hcontents.trans hbytes.symm, ?_⟩
        · rw [hexp, Option.isNone_some, if_neg Bool.false_ne_true, ← hexp, Function.update_eq_self]
        · rw [← hg.writable p s hexp]
          exact (hback p a e rfl hp hswap).symm
      · have hinit := hfetched.first hswap
        have hcell : e.cell = none := by
          unfold Spte.cell
          cases hstatus : e.status with
          | onSwap => exact absurd hstatus hswap
          | onFrame => exact absurd hstatus hs
          | _ => rfl
        have hview := hg.view p
        rw [State.view, Placement.view_none ((cellOf_eq hp).trans hcell)] at hview
        have hexp := Option.map_eq_none_iff.mp hview.symm
        have hfiles : st.initial e = st₁.initial e := by
          unfold State.initial
          rw [hk.files]
        refine ⟨⟨_, w⟩, ?_, rfl, rfl⟩
        rw [hexp, Option.isNone_none, if_pos rfl, hp, Option.bind_some, hfiles, hinit]
    obtain ⟨s, hexp, hcontents, hw⟩ := hexpected
    refine ⟨hmoves.inv h₁, fun q => ?_, fun q s' hq => ?_⟩
    · change st'.placement.view q = _
      rw [hexp]
      by_cases hqp : q = p
      · subst hqp
        rw [hmoves.puts.view_self, Function.update_self, Option.map_some, hcontents]
        exact congrArg some hdata
      · rw [hmoves.puts.view_ne hqp, Function.update_of_ne hqp]
        exact hg₁.view q
    · rw [hexp] at hq
      by_cases hqp : q = p
      · subst hqp
        rw [Function.update_self] at hq
        cases hq
        rw [hright, hw]
      · rw [Function.update_of_ne hqp] at hq
        rw [hmoves.ptes q hqp]
        exact hg₁.writable q s' hq

theorem Agrees.install {h' : List (State × Action)} (hg : Agrees h st) (hp : st.supt p = none)
    (hs : e.cell = none) (hf : e.status ≠ .onFrame)
    (hst : st' = { st with supt := update st.supt p (some e) }) (hexp : expected h' = expected h) :
    Agrees h' st' := by
  obtain ⟨hinv, hplace, hptes⟩ := installed hg.inv hp hs hf hst
  refine ⟨hinv, fun q => ?_, fun q s hq => ?_⟩
  · rw [State.view, hplace, hexp]
    exact hg.view q
  · rw [hexp] at hq
    rw [hptes]
    exact hg.writable q s hq

theorem Agrees.step {x : Action} (hg : Agrees h st) (hback : BackWritable st x)
    (hs : Vm.step x st = some st') : Agrees ((st, x) :: h) st' := by
  cases x with
  | installZeropage p e =>
      change st.vmSuptInstallZeropage p e = some st' at hs
      unfold State.vmSuptInstallZeropage at hs
      cases hp : st.supt p with
      | some e' =>
          rw [hp] at hs
          cases hs
      | none =>
          rw [hp] at hs
          cases hs
          exact hg.install hp (by rfl) (by nofun) rfl rfl
  | installFilesys p e file fileOffset readBytes zeroBytes writable =>
      change st.vmSuptInstallFilesys p e file fileOffset readBytes zeroBytes writable = some st' at hs
      unfold State.vmSuptInstallFilesys at hs
      cases hp : st.supt p with
      | some e' =>
          rw [hp] at hs
          cases hs
      | none =>
          rw [hp] at hs
          cases hs
          exact hg.install hp (by rfl) (by nofun) rfl rfl
  | load p a =>
      obtain ⟨⟨ok, st₁⟩, hl, heq⟩ := Option.map_eq_some_iff.mp hs
      cases heq
      exact hg.load hback hl
  | read p =>
      obtain ⟨e, he, hs⟩ := Option.bind_eq_some_iff.mp hs
      obtain ⟨-, rfl⟩ := lookupPage_some he
      split_ifs at hs
      have hsame := same_bits st p true (st.ptes p).dirty
      rw [← Option.some.inj hs]
      exact hg.keeps (hsame.inv hg.inv) hsame.keeps rfl
  | write p o v => exact hg.write hs
  | rewrite f bytes =>
      cases hs
      exact ⟨⟨hg.inv.sole, hg.inv.mapped, hg.inv.held, hg.inv.used, hg.inv.nodup, hg.inv.resident,
        hg.inv.present, hg.inv.swapped⟩, hg.view, hg.writable⟩

/-! ### Runs -/

/-- Nothing has been loaded yet. -/
theorem agrees_boot (poolSize : ℕ) (used : ℕ → Bool) (mem : ℕ → ℕ → UInt8) (swapSize : ℕ)
    (swapBlock : ℕ → ℕ → UInt8) (files : ℕ → List UInt8) :
    Agrees [] (boot poolSize used mem swapSize swapBlock files) where
  inv := by
    refine ⟨nofun, nofun, fun p k => ⟨?_, nofun⟩, ?_, .nil, nofun, nofun, nofun⟩
    · rintro ⟨f, hf, -⟩
      cases hf
    · rintro p k ⟨f, hf, -⟩
      cases hf
  view _ := rfl
  writable := nofun

theorem Agrees.transparent (hg : Agrees h st) : Transparent h st where
  bytes p o v hv := by
    obtain ⟨e, he, hv⟩ := Option.bind_eq_some_iff.mp hv
    obtain ⟨-, rfl⟩ := lookupPage_some he
    split_ifs at hv with hpresent
    cases hv
    obtain ⟨k, hk⟩ := hg.inv.present p hpresent
    obtain ⟨-, -, hkpage⟩ := hg.inv.resident p k hk
    have hview := hg.view p
    rw [State.view, Placement.view_of_cell hk] at hview
    obtain ⟨s, hs, hcontents⟩ := Option.map_eq_some_iff.mp hview.symm
    refine ⟨s, hs, ?_⟩
    rw [hcontents, hkpage]
    rfl
  loaded p e o hp hs := by
    obtain ⟨k, hk⟩ := Option.ne_none_iff_exists'.mp (hg.inv.mapped p e hp hs)
    have hcell : st.cellOf p = some (.frame k) := by
      rw [cellOf_eq hp]
      unfold Spte.cell
      rw [hs, hk]
      rfl
    obtain ⟨htable, hpresent, -⟩ := hg.inv.resident p k hcell
    unfold State.userRead
    rw [lookupPage_of_table htable, Option.bind_some, if_pos hpresent]
    rfl
  rights p s hs _ := hg.writable p s hs
  slots p q e e' hp hq hs hs' heq := by
    have hcell : ∀ {q : UserPage} {e : Spte}, st.supt q = some e → e.status = .onSwap →
        st.cellOf q = some (.slot e.swapIndex) := by
      intro q e hq hs
      rw [cellOf_eq hq]
      unfold Spte.cell
      rw [hs]
    exact hg.inv.sole p q _ (hcell hp hs) (heq ▸ hcell hq hs')

end CSE130.Lab3.Vm
