import CSE130.Lab3.FrameClock
import Mathlib.Data.List.TakeWhile

/-! # Transparency

As long as no read-only page comes back from the swap disk, the user cannot tell where a page lies
(`Agrees`).  That the kernel gets so far is another matter: there is room for a page only if the
clock finds a victim, and its hand does not go round.  It comes to the entries ahead of it; then it
takes the end of the list for an entry, and goes on from the beginning only if what lies behind the
end reads as pinned. -/

namespace CSE130.Lab3.Vm

open Transition
open Function (update)

variable {st st' st₁ : State} {p q : UserPage} {k t n : ℕ} {e : Spte} {f : FrameEntry}
  {a : Answers} {b ok : Bool} {l frames : List FrameEntry}

/-! ### How far the hand comes -/

/-- The entries that the hand comes to in `n` moves, when `l` lies ahead of it. -/
def reach (endPinned : Bool) (frames : List FrameEntry) : ℕ → List FrameEntry → List FrameEntry
  | 0, _ => []
  | n + 1, e :: l => e :: reach endPinned frames n l
  | n + 1, [] => if endPinned then reach endPinned frames n frames else []

namespace State

/-- The hand does not point to memory that is no entry's. -/
def HandLive (st : State) : Prop := ∀ b, st.clockPtr = .elem b → ∃ f ∈ st.frames, f.block = b

/-- `pick_frame_to_evict` comes to a victim. -/
def HandFinds (st : State) (endPinned : Bool) (t : ℕ) : Prop :=
  st.HandLive ∧
    st.HasVictim t (reach endPinned st.frames (st.frames.length + st.frames.length + 1) st.ahead)

/-- `vm_load_page` has to make room. -/
def Evicts (st : State) (p : UserPage) : Prop :=
  (∃ e, st.supt p = some e ∧ e.status ≠ .onFrame) ∧ st.pallocGetPage = none

end State

theorem reach_nil (b : Bool) : ∀ n, reach b [] n [] = []
  | 0 => rfl
  | n + 1 => by
      rw [reach, reach_nil b n, ite_self]

theorem clearAccessed_handLive (h : st.HandLive) (p : UserPage) :
    (st.pagedirClearAccessed p).HandLive := by
  unfold State.pagedirClearAccessed
  cases st.lookupPage p with
  | none => exact h
  | some e => exact h

theorem clockFrameNext_end {c : ℕ} (hc : st.clockPtr = .elem c) (hlive : st.HandLive)
    (hl : st.ahead = []) : st.clockFrameNext = some (none, { st with clockPtr := .listEnd }) := by
  obtain ⟨f, hf, hfc⟩ := hlive c hc
  unfold State.ahead at hl
  unfold State.clockFrameNext
  rw [hc] at hl ⊢
  dsimp only at hl ⊢
  cases hd : st.frames.dropWhile (·.block ≠ c) with
  | nil =>
      have := List.dropWhile_eq_nil_iff.mp hd f hf
      rw [hfc] at this
      simp at this
  | cons g l =>
      rw [hd] at hl
      obtain rfl : l = [] := hl
      rfl

theorem clockFrameNext_dangling (h : ¬ st.HandLive) : st.clockFrameNext = none := by
  unfold State.HandLive at h
  push Not at h
  obtain ⟨c, hc, hne⟩ := h
  have hd : st.frames.dropWhile (·.block ≠ c) = [] :=
    List.dropWhile_eq_nil_iff.mpr fun f hf => decide_eq_true (hne f hf)
  unfold State.clockFrameNext
  rw [hc]
  dsimp only
  rw [hd]
  rfl

/-- **The loop finds a frame** exactly if a victim is within its reach. -/
theorem pickLoop_isSome (hlive : st.HandLive) (hn : (st.frames.map FrameEntry.block).Nodup)
    (hl : st.ahead = l) :
    (State.pickLoop b t n st).isSome = true ↔ st.HasVictim t (reach b st.frames n l) := by
  induction n generalizing st l with
  | zero =>
      refine ⟨fun h => ?_, fun h => (hasVictim_nil h).elim⟩
      cases h
  | succ n ih =>
      cases l with
      | nil =>
          cases hc : st.clockPtr with
          | elem c =>
              rw [State.pickLoop, clockFrameNext_end hc hlive hl, reach]
              change (if b then State.pickLoop b t n _ else none).isSome = true ↔ _
              split_ifs
              · have hend : ({ st with clockPtr := .listEnd } : State).HandLive := by
                  rintro c ⟨⟩
                exact ih hend hn rfl
              · refine ⟨fun h => ?_, fun h => (hasVictim_nil h).elim⟩
                cases h
          | _ =>
              -- the list is empty
              have hnil : st.frames = [] := by
                unfold State.ahead at hl
                rwa [hc] at hl
              have hnext : st.clockFrameNext = none := by
                unfold State.clockFrameNext
                rw [hc, hnil]
                rfl
              rw [State.pickLoop, hnext, hnil, reach_nil]
              refine ⟨fun h => ?_, fun h => (hasVictim_nil h).elim⟩
              cases h
      | cons e l =>
          have hmem : e ∈ st.frames := (ahead_suffix st).subset (hl ▸ List.mem_cons_self)
          have hahead := ahead_next hn hl
          have hlive₁ : ({ st with clockPtr := .elem e.block } : State).HandLive := by
            rintro c ⟨⟩
            exact ⟨e, hmem, rfl⟩
          rw [State.pickLoop, clockFrameNext_cons hl, reach]
          change (if e.pinned then State.pickLoop b t n _
            else if st.pagedirIsAccessed (t, e.page.2) then State.pickLoop b t n _
            else some _).isSome = true ↔ _
          split_ifs with hp ha
          · rw [hasVictim_pinned hp]
            exact ih hlive₁ hn hahead
          · have hp : e.pinned = false := by simpa using hp
            have hsame := clearAccessed_same { st with clockPtr := .elem e.block } (t, e.page.2)
            have hclear := accessed_clear { st with clockPtr := .elem e.block } (t, e.page.2)
            rw [hasVictim_accessed hp ha hclear]
            have hnext := ih (clearAccessed_handLive hlive₁ (t, e.page.2))
              (by rw [hsame.frames]; exact hn) ((clearAccessed_ahead _ _).trans hahead)
            rwa [hsame.frames] at hnext
          · have hp : e.pinned = false := by simpa using hp
            exact ⟨fun _ => ⟨[], e, _, rfl, hp, fun h => (ha h).elim⟩, fun _ => rfl⟩

theorem pickFrameToEvict_isSome (hn : (st.frames.map FrameEntry.block).Nodup) :
    (st.pickFrameToEvict b t).isSome = true ↔ st.HandFinds b t := by
  unfold State.pickFrameToEvict State.HandFinds
  by_cases hlive : st.HandLive
  · rw [and_iff_right hlive, ← pickLoop_isSome hlive hn rfl]
    split_ifs with he
    · have hnil : st.frames = [] := List.isEmpty_iff.mp he
      have hahead : st.ahead = [] := List.suffix_nil.mp (hnil ▸ ahead_suffix st)
      rw [pickLoop_isSome hlive hn rfl, hahead, hnil, reach_nil]
      refine ⟨fun h => ?_, fun h => (hasVictim_nil h).elim⟩
      cases h
    · rfl
  · refine ⟨fun h => ?_, fun h => absurd h.1 hlive⟩
    split_ifs at h
    · cases h
    · rw [State.pickLoop, clockFrameNext_dangling hlive] at h
      cases h

/-! ### Room for a page -/

theorem vmSwapOut_some (st : State) (hswap : ∃ j < st.swapSize, st.swapAvailable j = true) (k : ℕ) :
    ∃ i disk available, st.vmSwapOut k =
      some (i, { st with swapBlock := disk, swapAvailable := available }) := by
  obtain ⟨j, hj, havail⟩ := hswap
  have hfind : ((List.range st.swapSize).find? fun j => st.swapAvailable j).isSome = true :=
    List.find?_isSome.mpr ⟨j, List.mem_range.mpr hj, havail⟩
  obtain ⟨i, hi⟩ := Option.isSome_iff_exists.mp hfind
  refine ⟨i, State.swapOutLoop (st.mem k) i sectorsPerPage st.swapBlock,
    update st.swapAvailable i false, ?_⟩
  unfold State.vmSwapOut
  rw [hi]
  rfl

/-- An eviction that has found a frame, and a slot, is carried out. -/
theorem evict_isSome (h : Inv st) (hswap : ∃ j < st.swapSize, st.swapAvailable j = true) :
    (st.evict b t).isSome = true ↔ (st.pickFrameToEvict b t).isSome = true := by
  constructor
  · intro he
    obtain ⟨st', he⟩ := Option.isSome_iff_exists.mp he
    obtain ⟨r, hpick, -⟩ := Option.bind_eq_some_iff.mp he
    exact Option.isSome_iff_exists.mpr ⟨r, hpick⟩
  · intro hpick
    obtain ⟨⟨f, st₁⟩, hpick⟩ := Option.isSome_iff_exists.mp hpick
    obtain ⟨hsame, hf⟩ := pickFrameToEvict_spec hpick
    rw [← hsame.frames] at hf
    have h₁ := hsame.inv h
    have hcell := (h₁.held _ _).mp ⟨f, hf, rfl, rfl⟩
    obtain ⟨htable, -⟩ := h₁.resident _ _ hcell
    obtain ⟨e, hentry, -⟩ := Option.bind_eq_some_iff.mp hcell
    change st₁.supt f.page = some e at hentry
    rw [← hsame.swapSize, ← hsame.swapAvailable] at hswap
    unfold State.evict
    rw [hpick]
    simp only [Option.bind_eq_bind, Option.bind_some]
    rw [pagedirClearPage_eq htable]
    obtain ⟨i, disk, available, hout⟩ := vmSwapOut_some { st₁ with
      ptes := update st₁.ptes f.page { st₁.ptes f.page with present := false } } hswap f.kpage
    rw [hout, Option.bind_some]
    unfold State.vmSuptSetSwap State.vmSuptSetDirty State.vmFrameFree
    dsimp only
    rw [hentry]
    dsimp only
    rw [Function.update_self, Option.map_some, Option.bind_some,
      if_pos (List.any_eq_true.mpr ⟨f, hf, decide_eq_true rfl⟩)]
    rfl

/-- The page of the victim is to be had then. -/
theorem evict_room (h : Inv st) (he : st.evict b t = some st') :
    (st'.pallocGetPage).isSome = true := by
  obtain ⟨f, i, st₁, hsame, hf, hout⟩ := evict_cases h he
  obtain ⟨hlt, -⟩ := (hsame.inv h).used f.page f.kpage ⟨f, hf, rfl, rfl⟩
  unfold State.pallocGetPage
  rw [Option.isSome_map, List.find?_isSome]
  refine ⟨f.kpage, List.mem_range.mpr (by rw [hout.poolSize]; exact hlt), ?_⟩
  rw [hout.used, Function.update_self]
  rfl

theorem obtainPage_isSome (h : Inv st) (hn : (st.frames.map FrameEntry.block).Nodup)
    (hswap : st.pallocGetPage = none → ∃ j < st.swapSize, st.swapAvailable j = true) :
    (st.obtainPage b t).isSome = true ↔ (st.pallocGetPage = none → st.HandFinds b t) := by
  unfold State.obtainPage
  cases hp : st.pallocGetPage with
  | some r =>
      refine ⟨fun _ h => ?_, fun _ => rfl⟩
      cases h
  | none =>
      rw [← pickFrameToEvict_isSome hn, ← evict_isSome h (hswap hp)]
      dsimp only
      cases he : st.evict b t with
      | none =>
          refine ⟨fun h => ?_, fun h => h rfl⟩
          cases h
      | some st₁ => exact ⟨fun _ _ => rfl, fun _ => evict_room h he⟩

/-! ### What is asked of the others -/

/-- The processes install user pages once, with bytes for the whole page, and touch what they may
touch; `malloc` returns no memory that an entry lies in, and the swap disk has room. -/
def Legal (st : State) : Action → Prop
  | .installZeropage p _ => st.supt p = none ∧ p.2 < userPages
  | .installFilesys p _ _ _ readBytes zeroBytes _ =>
      st.supt p = none ∧ p.2 < userPages ∧ readBytes + zeroBytes = pgSize
  | .load p a => FrameCall.Proper st (.allocate p a) ∧
      (st.Evicts p → ∃ j < st.swapSize, st.swapAvailable j = true)
  | .read p => (st.lookupPage p).any Pte.present = true
  | .write p _ _ => ((st.lookupPage p).any fun e => e.present && e.writable) = true
  | .rewrite _ _ => True

/-- A load that has to make room comes to a victim. -/
def FindsVictim (st : State) : Action → Prop
  | .load p a => st.Evicts p → st.HandFinds a.endPinned p.1
  | _ => True

/-- The entries are of user pages, and those of file pages for a whole page. -/
def Installed (st : State) : Prop := ∀ p e, st.supt p = some e →
  p.2 < userPages ∧ (e.status = .fromFilesys → e.readBytes + e.zeroBytes = pgSize)

theorem Installed.keeps (h : Installed st) (hk : Keeps st st') : Installed st' := by
  intro p e hp
  obtain ⟨hsome, hfile⟩ := hk.known p e hp
  obtain ⟨e₀, he₀⟩ := Option.isSome_iff_exists.mp hsome
  exact ⟨(h p e₀ he₀).1, fun hs => (h p e (hfile hs)).2 hs⟩

theorem Installed.update (h : Installed st) (hp : p.2 < userPages)
    (he : e.status = .fromFilesys → e.readBytes + e.zeroBytes = pgSize)
    (hst : st'.supt = update st.supt p (some e)) : Installed st' := by
  intro q e' hq
  rw [hst, Function.update_apply] at hq
  split_ifs at hq with hqp
  · cases hq
    exact ⟨hqp ▸ hp, he⟩
  · exact h q e' hq

/-! ### A load has a result -/

theorem vmSwapIn_isSome {i : ℕ} (hi : i < st.swapSize) (hused : st.swapAvailable i = false) (k : ℕ) :
    (st.vmSwapIn i k).isSome = true := by
  unfold State.vmSwapIn
  rw [if_neg (by simp [hi, hused])]
  rfl

theorem vmLoadPageFromFilesys_isSome (he : e.readBytes + e.zeroBytes = pgSize) (k : ℕ) :
    (st.vmLoadPageFromFilesys e k).isSome = true := by
  unfold State.vmLoadPageFromFilesys
  dsimp only
  split_ifs with hshort hsize
  · rfl
  · exact absurd he hsize
  · rfl

theorem fetchPage_isSome (st : State) (hslot : e.status = .onSwap →
      e.swapIndex < st.swapSize ∧ st.swapAvailable e.swapIndex = false)
    (hfile : e.status = .fromFilesys → e.readBytes + e.zeroBytes = pgSize) (k : ℕ) :
    (st.fetchPage e k).isSome = true := by
  unfold State.fetchPage
  cases hs : e.status with
  | onSwap =>
      obtain ⟨hi, hused⟩ := hslot hs
      exact Option.isSome_map.trans (vmSwapIn_isSome hi hused k)
  | fromFilesys => exact Option.isSome_map.trans (vmLoadPageFromFilesys_isSome (hfile hs) k)
  | _ => rfl

theorem vmFrameFree_isSome (hf : ∃ f ∈ st.frames, f.kpage = k) : (st.vmFrameFree k).isSome = true := by
  obtain ⟨f, hf, hk⟩ := hf
  unfold State.vmFrameFree
  rw [if_pos (List.any_eq_true.mpr ⟨f, hf, decide_eq_true hk⟩)]
  rfl

theorem vmFrameUnpin_isSome (hf : ∃ f ∈ st.frames, f.kpage = k) :
    (st.vmFrameUnpin k).isSome = true := by
  obtain ⟨f, hf, hk⟩ := hf
  unfold State.vmFrameUnpin
  rw [if_pos (List.any_eq_true.mpr ⟨f, hf, decide_eq_true hk⟩)]
  rfl

/-- Once there is a page, `vm_load_page` returns. -/
theorem vmLoadPage_of_page (h : Inv st) (hi : Installed st) (hp : st.supt p = some e)
    (hs : e.status ≠ .onFrame) (ho : st.obtainPage a.endPinned p.1 = some (k, st₁)) :
    (st.vmLoadPage a p).isSome = true := by
  obtain ⟨h₁, hk₁, -⟩ := obtainPage_spec h ho
  have hp₁ : st₁.supt p = some e := by
    rw [hk₁.supt p fun e' he' => ?_, hp]
    rw [hp] at he'
    cases he'
    exact hs
  obtain ⟨huser, hfile⟩ := hi p e hp
  have hslot : e.status = .onSwap →
      e.swapIndex < st₁.swapSize ∧ st₁.swapAvailable e.swapIndex = false := by
    intro hswap
    have hcell : st₁.cellOf p = some (.slot e.swapIndex) := by
      rw [cellOf_eq hp₁]
      unfold Spte.cell
      rw [hswap]
    obtain ⟨hlt, hused, -⟩ := h₁.swapped p _ hcell
    exact ⟨hlt, hused⟩
  have habsent : ¬ (st₁.ptes p).present = true := by
    intro hpresent
    obtain ⟨j, hj⟩ := h₁.present p hpresent
    rw [cellOf_eq hp₁] at hj
    exact hs (cell_frame hj).1
  unfold State.vmLoadPage State.vmFrameAllocate
  rw [hp]
  simp only [Option.bind_eq_bind]
  rw [if_neg hs, ho, Option.bind_some]
  dsimp only
  cases a.frameEntry with
  | none => rfl
  | some c =>
      rw [Option.bind_some]
      dsimp only
      rw [hp₁, Option.bind_some]
      obtain ⟨⟨r, st₂⟩, hfetch⟩ := Option.isSome_iff_exists.mp (fetchPage_isSome
        { st₁ with frames := st₁.frames ++ [⟨c, k, p, true⟩] } hslot hfile k)
      obtain ⟨page, kernelDirty, rfl, -⟩ := fetchPage_cases hs hfetch
      have hentry : ∃ f ∈ st₁.frames ++ [(⟨c, k, p, true⟩ : FrameEntry)], f.kpage = k :=
        ⟨_, List.mem_append_right _ (List.mem_singleton_self _), rfl⟩
      rw [hfetch, Option.bind_some]
      cases r with
      | none => exact Option.isSome_map.trans (vmFrameFree_isSome hentry)
      | some w =>
          unfold State.pagedirSetPage
          dsimp only
          rw [if_neg (Nat.not_le.mpr huser)]
          by_cases htable : (st₁.tables (p.1, p.2 / 1024) || a.tableMemory) = true
          · rw [if_pos htable, if_neg habsent, Option.bind_some]
            dsimp only
            rw [if_neg (by decide)]
            exact Option.isSome_map.trans (vmFrameUnpin_isSome hentry)
          · rw [if_neg htable, Option.bind_some]
            dsimp only
            rw [if_pos rfl]
            exact Option.isSome_map.trans (vmFrameFree_isSome hentry)

theorem vmLoadPage_isSome (h : Inv st) (hn : (st.frames.map FrameEntry.block).Nodup)
    (hi : Installed st) (hl : Legal st (.load p a)) :
    (st.vmLoadPage a p).isSome = true ↔ FindsVictim st (.load p a) := by
  cases hp : st.supt p with
  | none =>
      have hload : st.vmLoadPage a p = some (false, st) := by
        unfold State.vmLoadPage
        rw [hp]
      refine ⟨fun _ => ?_, fun _ => by rw [hload]; rfl⟩
      rintro ⟨⟨e, he, -⟩, -⟩
      rw [hp] at he
      cases he
  | some e =>
      by_cases hs : e.status = .onFrame
      · have hload : st.vmLoadPage a p = some (true, st) := by
          unfold State.vmLoadPage
          rw [hp]
          exact if_pos hs
        refine ⟨fun _ => ?_, fun _ => by rw [hload]; rfl⟩
        rintro ⟨⟨e', he, hne⟩, -⟩
        rw [hp] at he
        cases he
        exact absurd hs hne
      · have hev : st.Evicts p ↔ st.pallocGetPage = none := and_iff_right ⟨e, hp, hs⟩
        have hpage := obtainPage_isSome (b := a.endPinned) (t := p.1) h hn
          fun hnone => hl.2 (hev.mpr hnone)
        have hfinds : FindsVictim st (.load p a) ↔
            (st.obtainPage a.endPinned p.1).isSome = true := by
          rw [hpage, ← hev]
          rfl
        rw [hfinds]
        constructor
        · intro hload
          obtain ⟨r, hload⟩ := Option.isSome_iff_exists.mp hload
          unfold State.vmLoadPage at hload
          rw [hp] at hload
          dsimp only at hload
          rw [if_neg hs] at hload
          obtain ⟨⟨frame, st₂⟩, halloc, -⟩ := Option.bind_eq_some_iff.mp hload
          obtain ⟨⟨j, st₁⟩, ho, -⟩ := Option.bind_eq_some_iff.mp halloc
          rw [ho]
          rfl
        · intro ho
          obtain ⟨⟨j, st₁⟩, ho⟩ := Option.isSome_iff_exists.mp ho
          exact vmLoadPage_of_page h hi hp hs ho

/-! ### What is kept -/

theorem fetchPage_sameTable {r : Option Bool} (h : st.fetchPage e k = some (r, st')) :
    SameTable st st' := by
  by_cases hs : e.status = .onFrame
  · unfold State.fetchPage at h
    rw [hs] at h
    cases h
    exact ⟨rfl, rfl⟩
  · obtain ⟨page, kernelDirty, rfl, -⟩ := fetchPage_cases hs h
    exact ⟨rfl, rfl⟩

theorem setPage_sameTable {b' w : Bool} (h : st.pagedirSetPage b p k w = some (b', st')) :
    SameTable st st' := by
  unfold State.pagedirSetPage at h
  split_ifs at h
  · cases h
    exact ⟨rfl, rfl⟩
  · cases h
    exact ⟨rfl, rfl⟩

theorem Table.same (h : Table st) (hs : SameTable st st') : Table st' :=
  h.congr hs.frames fun f hf => by
    rw [hs.used]
    exact h.used f hf

/-- A load keeps the frame table in order. -/
theorem Table.vmLoadPage (ht : Table st) (hg : FrameCall.Proper st (.allocate p a))
    (hl : st.vmLoadPage a p = some (ok, st')) : Table st' := by
  unfold State.vmLoadPage at hl
  cases hp : st.supt p with
  | none =>
      rw [hp] at hl
      cases hl
      exact ht
  | some e =>
      rw [hp] at hl
      dsimp only at hl
      split_ifs at hl
      · cases hl
        exact ht
      obtain ⟨⟨frame, st₂⟩, halloc, hl⟩ := Option.bind_eq_some_iff.mp hl
      have ht₂ := ht.allocate hg halloc
      cases frame with
      | none =>
          cases hl
          exact ht₂
      | some k =>
          obtain ⟨e₂, -, hl⟩ := Option.bind_eq_some_iff.mp hl
          obtain ⟨⟨r, st₃⟩, hfetch, hl⟩ := Option.bind_eq_some_iff.mp hl
          have ht₃ := ht₂.same (fetchPage_sameTable hfetch)
          cases r with
          | none =>
              obtain ⟨st₄, hfree, heq⟩ := Option.map_eq_some_iff.mp hl
              cases heq
              exact ht₃.step (c := .free k) trivial hfree
          | some w =>
              obtain ⟨⟨ok₄, st₄⟩, hset, hl⟩ := Option.bind_eq_some_iff.mp hl
              have ht₄ := ht₃.same (setPage_sameTable hset)
              cases ok₄ with
              | false =>
                  obtain ⟨st₅, hfree, heq⟩ := Option.map_eq_some_iff.mp hl
                  cases heq
                  exact ht₄.step (c := .free k) trivial hfree
              | true =>
                  obtain ⟨st₅, hunpin, heq⟩ := Option.map_eq_some_iff.mp hl
                  cases heq
                  refine Table.step (c := .unpin k) ?_ trivial hunpin
                  exact ht₄.same ⟨rfl, rfl⟩

theorem Installed.vmLoadPage (hi : Installed st) (h : Inv st)
    (hl : st.vmLoadPage a p = some (ok, st')) : Installed st' := by
  obtain ⟨e, -, -, -, rfl⟩ | ⟨-, -, hk⟩ | ⟨-, e, k, page, w, st₁, hp, -, -, hk, -, -, -, hin⟩ :=
    vmLoadPage_cases h hl
  · exact hi
  · exact hi.keeps hk
  · refine (hi.keeps hk).update (hi p e hp).1 (fun hs => ?_) hin.supt
    cases hs

/-- What is known of a state with its history. -/
structure Sound (h : List (State × Action)) (st : State) : Prop where
  agrees : Agrees h st
  table : Table st
  installed : Installed st

variable {h : List (State × Action)}

theorem Sound.step {x : Action} (hs : Sound h st) (hl : Legal st x) (hback : BackWritable st x)
    (hx : Vm.step x st = some st') : Sound ((st, x) :: h) st' := by
  have hg := hs.agrees.step hback hx
  cases x with
  | installZeropage p e =>
      change st.vmSuptInstallZeropage p e = some st' at hx
      unfold State.vmSuptInstallZeropage at hx
      rw [hl.1] at hx
      cases hx
      refine ⟨hg, hs.table.same ⟨rfl, rfl⟩, hs.installed.update hl.2 (fun hf => ?_) rfl⟩
      cases hf
  | installFilesys p e file fileOffset readBytes zeroBytes writable =>
      change st.vmSuptInstallFilesys p e file fileOffset readBytes zeroBytes writable = some st' at hx
      unfold State.vmSuptInstallFilesys at hx
      rw [hl.1] at hx
      cases hx
      exact ⟨hg, hs.table.same ⟨rfl, rfl⟩, hs.installed.update hl.2.1 (fun _ => hl.2.2) rfl⟩
  | load p a =>
      obtain ⟨⟨ok, st₁⟩, hload, heq⟩ := Option.map_eq_some_iff.mp hx
      cases heq
      exact ⟨hg, hs.table.vmLoadPage hl.1 hload, hs.installed.vmLoadPage hs.agrees.inv hload⟩
  | read p =>
      obtain ⟨e, -, hx⟩ := Option.bind_eq_some_iff.mp hx
      split_ifs at hx
      cases hx
      exact ⟨hg, hs.table.same ⟨rfl, rfl⟩, hs.installed⟩
  | write p o v =>
      obtain ⟨e, -, hx⟩ := Option.bind_eq_some_iff.mp hx
      split_ifs at hx
      cases hx
      exact ⟨hg, hs.table.same ⟨rfl, rfl⟩, hs.installed⟩
  | rewrite f bytes =>
      cases hx
      exact ⟨hg, hs.table.same ⟨rfl, rfl⟩, hs.installed⟩

/-- What is legal has a result, if the clock finds its victim. -/
theorem Sound.step_isSome {x : Action} (hs : Sound h st) (hl : Legal st x) :
    (Vm.step x st).isSome = true ↔ FindsVictim st x := by
  cases x with
  | installZeropage p e =>
      refine ⟨fun _ => trivial, fun _ => ?_⟩
      change (st.vmSuptInstallZeropage p e).isSome = true
      unfold State.vmSuptInstallZeropage
      rw [hl.1]
      rfl
  | installFilesys p e file fileOffset readBytes zeroBytes writable =>
      refine ⟨fun _ => trivial, fun _ => ?_⟩
      change (st.vmSuptInstallFilesys p e file fileOffset readBytes zeroBytes writable).isSome = true
      unfold State.vmSuptInstallFilesys
      rw [hl.1]
      rfl
  | load p a =>
      have hload := vmLoadPage_isSome hs.agrees.inv hs.table.blocks hs.installed hl
      rw [← hload]
      exact Bool.eq_iff_iff.mp Option.isSome_map
  | read p =>
      refine ⟨fun _ => trivial, fun _ => ?_⟩
      obtain ⟨e, he, hpresent⟩ := (Option.any_eq_true _ _).mp hl
      change ((st.lookupPage p).bind _).isSome = true
      rw [he, Option.bind_some, if_pos hpresent]
      rfl
  | write p o v =>
      refine ⟨fun _ => trivial, fun _ => ?_⟩
      obtain ⟨e, he, hwritable⟩ := (Option.any_eq_true _ _).mp hl
      change ((st.lookupPage p).bind _).isSome = true
      rw [he, Option.bind_some, if_pos hwritable]
      rfl
  | rewrite f bytes => exact ⟨fun _ => trivial, fun _ => rfl⟩

/-! ### Runs -/

theorem sound_boot (poolSize : ℕ) (used : ℕ → Bool) (mem : ℕ → ℕ → UInt8) (swapSize : ℕ)
    (swapBlock : ℕ → ℕ → UInt8) (files : ℕ → List UInt8) :
    Sound [] (boot poolSize used mem swapSize swapBlock files) where
  agrees := agrees_boot poolSize used mem swapSize swapBlock files
  table := init_table (boot poolSize used mem swapSize swapBlock files)
  installed p e hp := by cases hp

/-- **When virtual memory is transparent**: as long as no page comes back from the swap disk that may
not be written, and every eviction comes to a victim.  Of what may happen next, all has a result but
the loads whose eviction comes to none. -/
theorem vm_transparent {poolSize : ℕ} {used : ℕ → Bool} {mem : ℕ → ℕ → UInt8} {swapSize : ℕ}
    {swapBlock : ℕ → ℕ → UInt8} {files : ℕ → List UInt8}
    (hr : Run step (fun st x => Legal st x ∧ BackWritable st x ∧ FindsVictim st x)
      (boot poolSize used mem swapSize swapBlock files) h st) :
    Transparent h st ∧ ∀ x, Legal st x → ((step x st).isSome = true ↔ FindsVictim st x) := by
  have hs : Sound h st := hr.invariant (I := Sound)
    (sound_boot poolSize used mem swapSize swapBlock files)
    fun _ _ _ _ _ hs hg hx => hs.step hg.1 hg.2.1 hx
  exact ⟨hs.agrees.transparent, fun x hl => hs.step_isSome hl⟩

/-! ### A pool of two pages -/

/-- Two pages of memory, four slots, and a file of four bytes. -/
def start : State := boot 2 (fun _ => false) (fun _ _ => 9) 4 (fun _ _ => 1) fun _ => [1, 2, 3, 4]

/-- A page fault and the access after it: `malloc` gives the block. -/
def fault (upage block : ℕ) : List Action :=
  [.load (0, upage) ⟨some block, true, false⟩, .read (0, upage)]

/-- A page from the file, writable or not, and a page of zeros.  Another process needs a page then for
which the file is too short: it takes the place of the first, and gives it back. -/
def threePages (writable : Bool) (writes : List Action) : List Action :=
  [.installFilesys (0, 5) default 0 1 2 4094 writable, .installZeropage (0, 6) default,
    .installFilesys (1, 7) default 0 0 8 4088 true] ++ fault 5 70 ++ writes ++ fault 6 80 ++
    [.load (1, 7) ⟨some 70, true, false⟩]

/-- The first page comes back. -/
def back : Action := .load (0, 5) ⟨some 70, true, false⟩

/-- A test of `Legal`. -/
def legal (st : State) : Action → Bool
  | .installZeropage p _ => (st.supt p).isNone && p.2 < userPages
  | .installFilesys p _ _ _ readBytes zeroBytes _ =>
      (st.supt p).isNone && p.2 < userPages && readBytes + zeroBytes == pgSize
  | .load p a => properCall st (.allocate p a) &&
      (List.range st.swapSize).any fun j => st.swapAvailable j
  | .read p => (st.lookupPage p).any Pte.present
  | .write p _ _ => (st.lookupPage p).any fun e => e.present && e.writable
  | .rewrite _ _ => true

/-- A test for a victim right in front of a hand that has not moved. -/
def findsVictim (st : State) : Action → Bool
  | .load p a => st.pallocGetPage.isSome || (st.clockPtr matches .null) &&
      ((reach a.endPinned st.frames (st.frames.length + st.frames.length + 1) st.ahead).head?.any
        fun f => !f.pinned && !st.pagedirIsAccessed (p.1, f.page.2))
  | _ => true

/-- The test of `BackWritable`. -/
def backWritable (st : State) : Action → Bool
  | .load p _ => !(st.supt p).any (·.status = .onSwap) || (st.ptes p).writable
  | _ => true

theorem legal_of {x : Action} (h : legal st x = true) : Legal st x := by
  cases x with
  | installZeropage p e => simpa [legal, Legal] using h
  | installFilesys p e file fileOffset readBytes zeroBytes writable =>
      simpa [legal, Legal, and_assoc] using h
  | load p a =>
      obtain ⟨hproper, hswap⟩ := Bool.and_eq_true_iff.mp h
      obtain ⟨j, hj, havail⟩ := List.any_eq_true.mp hswap
      exact ⟨proper_of_properCall hproper, fun _ => ⟨j, List.mem_range.mp hj, havail⟩⟩
  | read p => exact h
  | write p o v => exact h
  | rewrite f bytes => trivial

theorem findsVictim_of {x : Action} (h : findsVictim st x = true) : FindsVictim st x := by
  cases x with
  | load p a =>
      rintro ⟨-, hnone⟩
      unfold findsVictim at h
      dsimp only at h
      rw [hnone, Option.isSome_none, Bool.false_or, Bool.and_eq_true] at h
      obtain ⟨hnull, hhead⟩ := h
      refine ⟨fun c hc => ?_, hasVictim_head hhead⟩
      rw [hc] at hnull
      cases hnull
  | _ => trivial

theorem backWritable_of {x : Action} (h : backWritable st x = true) : BackWritable st x := by
  rintro p as e rfl hp hs
  unfold backWritable at h
  dsimp only at h
  rw [hp, Option.any_some, decide_eq_true hs] at h
  exact h

/-- What is to be seen of the first page when it has come back, in a run whose steps pass a test. -/
def roundTrip (test : State → Action → Bool) (writable : Bool) (writes : List Action) :
    Option (List Bool × Option UInt8) := do
  let st ← execute (checked test step) (threePages writable writes) start
  let st' ← step back st
  let h := trace (checked test step) (threePages writable writes) start
  some ([(st'.ptes (0, 5)).present, (st'.ptes (0, 5)).writable,
    (expected ((st, back) :: h) (0, 5)).map Seen.writable == some writable, test st back],
    st'.userRead (0, 5) 1)

theorem round_trip {test : State → Action → Bool} {writable : Bool} {writes : List Action}
    {v : Option UInt8} (h : roundTrip test writable writes = some ([true, true, true, true], v)) :
    ∃ h st, Run step (fun st x => test st x = true) start h st ∧ (st.ptes (0, 5)).present = true ∧
      (st.ptes (0, 5)).writable = true ∧ (expected h (0, 5)).map Seen.writable = some writable ∧
      st.userRead (0, 5) 1 = v := by
  unfold roundTrip at h
  simp only [Option.bind_eq_bind, Option.bind_eq_some_iff] at h
  obtain ⟨st, hst, st', hs, hfacts⟩ := h
  simp only [Option.some.injEq, Prod.mk.injEq, List.cons.injEq, beq_iff_eq, and_true] at hfacts
  obtain ⟨⟨hpresent, hwritable, hexp, hback⟩, hread⟩ := hfacts
  have hrun := execute_run (G := fun _ _ => True) (fun _ _ _ => trivial) Run.nil hst
  rw [List.append_nil] at hrun
  have hrun := hrun.of_checked.mono fun _ _ hg => hg.1
  exact ⟨_, st', hrun.cons hback hs, hpresent, hwritable, hexp, hread⟩

/-- A writable page comes back as the user has left it. -/
theorem vm_transparent_writable : ∃ h st,
    Run step (fun st x => Legal st x ∧ BackWritable st x ∧ FindsVictim st x) start h st ∧
    st.userRead (0, 5) 1 = some 77 ∧ Transparent h st ∧
    ∀ x, Legal st x → ((step x st).isSome = true ↔ FindsVictim st x) := by
  have h : roundTrip (fun st x => legal st x && (backWritable st x && findsVictim st x)) true
      [.write (0, 5) 1 77] = some ([true, true, true, true], some 77) := by
    decide +kernel
  obtain ⟨h, st, hr, -, -, -, hread⟩ := round_trip h
  have hr : Run step (fun st x => Legal st x ∧ BackWritable st x ∧ FindsVictim st x) start h st := by
    refine hr.mono fun st x hg => ?_
    obtain ⟨hl, hg⟩ := Bool.and_eq_true_iff.mp hg
    obtain ⟨hb, hf⟩ := Bool.and_eq_true_iff.mp hg
    exact ⟨legal_of hl, backWritable_of hb, findsVictim_of hf⟩
  obtain ⟨ht, hstep⟩ := vm_transparent hr
  exact ⟨h, st, hr, hread, ht, hstep⟩

/-- A page that may not be written comes back writable. -/
theorem vm_rights_lost : ∃ h st,
    Run step (fun st x => Legal st x ∧ FindsVictim st x) start h st ∧
    (st.ptes (0, 5)).present = true ∧ (st.ptes (0, 5)).writable = true ∧
    (expected h (0, 5)).map Seen.writable = some false ∧ ¬Transparent h st := by
  have h : roundTrip (fun st x => legal st x && findsVictim st x) false [] =
      some ([true, true, true, true], some 3) := by
    decide +kernel
  obtain ⟨h, st, hr, hpresent, hwritable, hexp, -⟩ := round_trip h
  refine ⟨h, st, hr.mono fun st x hg => ?_, hpresent, hwritable, hexp, fun ht => ?_⟩
  · obtain ⟨hl, hf⟩ := Bool.and_eq_true_iff.mp hg
    exact ⟨legal_of hl, findsVictim_of hf⟩
  · obtain ⟨s, hs, hw⟩ := Option.map_eq_some_iff.mp hexp
    rw [← ht.rights (0, 5) s hs hpresent, hwritable] at hw
    cases hw

end CSE130.Lab3.Vm
