import CSE130.Lab3.Inode

/-! # What the allocation of sectors leaves alone

Reserving and deallocating sectors works on the free map and on the disk, and asks `malloc` for
bounce buffers.  It does not see the list of open inodes. -/

namespace CSE130.Lab3.Files

open State

variable {st st' st₁ : State} {s : Sector} {ok : Bool} {d d' : InodeDisk}

/-- Some answers of `malloc` have been used. -/
def Later (heap heap' : ℕ → Bool) : Prop := ∃ n, heap' = fun k => heap (k + n)

theorem Later.refl (heap : ℕ → Bool) : Later heap heap := ⟨0, rfl⟩

theorem Later.trans {heap heap₁ heap' : ℕ → Bool} (h : Later heap heap₁) (h' : Later heap₁ heap') :
    Later heap heap' := by
  obtain ⟨n, rfl⟩ := h
  obtain ⟨n', rfl⟩ := h'
  refine ⟨n' + n, ?_⟩
  funext k
  change heap (k + n' + n) = heap (k + (n' + n))
  rw [Nat.add_assoc]

theorem Later.next (heap : ℕ → Bool) : Later heap fun k => heap (k + 1) := ⟨1, rfl⟩

/-- Only the free map and the disk are different. -/
structure SectorsOnly (st st' : State) : Prop where
  size : st'.size = st.size
  freeMapFile : st'.freeMapFile = st.freeMapFile
  openInodes : st'.openInodes = st.openInodes
  live : st'.live = st.live
  heap : Later st.heap st'.heap
  failed : st.allocFailed = true → st'.allocFailed = true

namespace SectorsOnly

theorem refl (st : State) : SectorsOnly st st := ⟨rfl, rfl, rfl, rfl, .refl _, id⟩

theorem trans (h : SectorsOnly st st₁) (h' : SectorsOnly st₁ st') : SectorsOnly st st' where
  size := h'.size.trans h.size
  freeMapFile := h'.freeMapFile.trans h.freeMapFile
  openInodes := h'.openInodes.trans h.openInodes
  live := h'.live.trans h.live
  heap := h.heap.trans h'.heap
  failed hf := h'.failed (h.failed hf)

end SectorsOnly

theorem malloc_only (st : State) : SectorsOnly st st.malloc.2 :=
  ⟨rfl, rfl, rfl, rfl, .next _, fun h => by
    change (st.allocFailed || !st.heap 0) = true
    rw [h, Bool.true_or]⟩

theorem write_only (st : State) (s : Sector) (b : Block) : SectorsOnly st (st.write s b) :=
  ⟨rfl, rfl, rfl, rfl, .refl _, id⟩

theorem mark_only (st : State) (s : Sector) (b : Bool) : SectorsOnly st (st.mark s b) :=
  ⟨rfl, rfl, rfl, rfl, .refl _, id⟩

/-! ### The free map -/

theorem bitmapWrite_only (st : State) : SectorsOnly st st.bitmapWrite.2 := by
  unfold State.bitmapWrite
  split
  · exact .refl st
  · exact ⟨rfl, rfl, rfl, rfl, .next _, id⟩

theorem freeMapAllocate_only (st : State) : SectorsOnly st st.freeMapAllocate.2 := by
  unfold State.freeMapAllocate
  split
  · exact ⟨rfl, rfl, rfl, rfl, .refl _, fun _ => rfl⟩
  · rename_i s _
    have hw := (mark_only st s true).trans (bitmapWrite_only _)
    dsimp only
    split_ifs
    · exact hw
    · exact hw.trans ⟨rfl, rfl, rfl, rfl, .refl _, fun _ => rfl⟩
    · exact mark_only st s true

theorem freeMapRelease_only (h : st.freeMapRelease s = some st') : SectorsOnly st st' := by
  unfold State.freeMapRelease at h
  split_ifs at h
  cases h
  exact (mark_only st s false).trans (bitmapWrite_only _)

/-! ### Reservation -/

theorem reserveSector_only (st : State) (e : Sector) :
    SectorsOnly st (st.reserveSector e).2.2 := by
  have h := freeMapAllocate_only st
  unfold State.reserveSector
  split_ifs
  · split
    · rename_i he
      rw [he] at h
      exact h
    · rename_i he
      rw [he] at h
      exact h.trans (write_only ..)
  · exact .refl st

theorem indexSector_only (st : State) (e : Sector) : SectorsOnly st (st.indexSector e).2 := by
  have h := freeMapAllocate_only st
  unfold State.indexSector
  split_ifs
  · split
    · rename_i he
      rw [he] at h
      exact h.trans (write_only ..)
    · rename_i he
      rw [he] at h
      exact h.trans (write_only ..)
  · exact .refl st

theorem reserveLoop_only {f : State → Sector → ℕ → Option (Bool × Sector × State)} {unit : ℕ}
    (hf : ∀ st e n ok e' st', f st e n = some (ok, e', st') → SectorsOnly st st') :
    ∀ {count i : ℕ} {st : State} {blocks : ℕ → Sector} {n : ℕ} {ok : Bool} {blocks' : ℕ → Sector}
      {r : ℕ} {st' : State}, reserveLoop f unit count i st blocks n = some (ok, blocks', r, st') →
      SectorsOnly st st'
  | 0, _, _, _, _, _, _, _, _, h => by
      cases h
      exact .refl _
  | count + 1, i, st, blocks, n, ok, blocks', r, st', h => by
      unfold reserveLoop at h
      obtain ⟨⟨ok₁, e, st₁⟩, h₁, h⟩ := Option.bind_eq_some_iff.mp h
      dsimp only at h
      have hone := hf _ _ _ _ _ _ h₁
      split_ifs at h
      · exact hone.trans (reserveLoop_only hf h)
      · cases h
        exact hone

theorem reserveIndirect_only : ∀ {level : ℕ} {st : State} {e : Sector} {n : ℕ} {ok : Bool}
    {e' : Sector} {st' : State}, reserveIndirect level st e n = some (ok, e', st') →
    SectorsOnly st st'
  | 0, st, e, _, _, _, _, h => by
      obtain rfl := congrArg (fun x => x.2.2) (Option.some.inj h)
      exact reserveSector_only st e
  | level + 1, st, e, n, ok, e', st', h => by
      unfold reserveIndirect at h
      dsimp only at h
      obtain ⟨⟨ok₁, blocks, rest, st₁⟩, h₁, h⟩ := Option.bind_eq_some_iff.mp h
      dsimp only at h
      have hloop := (indexSector_only st e).trans
        (reserveLoop_only (fun _ _ _ _ _ _ => reserveIndirect_only) h₁)
      split_ifs at h
      · cases h
        exact hloop.trans (write_only ..)
      · cases h
        exact hloop

/-- The three parts of `inode_reserve`. -/
theorem inodeReserve_only {length : ℤ} (h : st.inodeReserve d length = some (ok, d', st')) :
    SectorsOnly st st' := by
  unfold State.inodeReserve at h
  by_cases hneg : length < 0
  · rw [if_pos hneg] at h
    cases h
    exact .refl st
  · rw [if_neg hneg] at h
    obtain ⟨⟨ok₁, blocks, rest, st₁⟩, h₁, h⟩ := Option.bind_eq_some_iff.mp h
    have hdirect : SectorsOnly st st₁ := by
      refine reserveLoop_only (fun st e n ok e' st' he => ?_) h₁
      obtain rfl := congrArg (fun x => x.2.2) (Option.some.inj he)
      exact reserveSector_only st e
    dsimp only at h
    split at h
    · cases h
      exact hdirect
    · split at h
      · cases h
        exact hdirect
      · obtain ⟨⟨ok₂, e, st₂⟩, h₂, h⟩ := Option.bind_eq_some_iff.mp h
        have hindirect := hdirect.trans (reserveIndirect_only h₂)
        dsimp only at h
        split at h
        · cases h
          exact hindirect
        · split at h
          · cases h
            exact hindirect
          · obtain ⟨⟨ok₃, e₃, st₃⟩, h₃, h⟩ := Option.bind_eq_some_iff.mp h
            have hdoubly := hindirect.trans (reserveIndirect_only h₃)
            dsimp only at h
            split_ifs at h
            · cases h
              exact hdoubly
            · cases h
              exact hdoubly

/-! ### Deallocation -/

theorem deallocateLoop_only {f : State → Sector → ℕ → Option State} {unit : ℕ} {blocks : ℕ → Sector}
    (hf : ∀ st e n st', f st e n = some st' → SectorsOnly st st') :
    ∀ {count i : ℕ} {st : State} {n r : ℕ} {st' : State},
      deallocateLoop f unit blocks count i st n = some (r, st') → SectorsOnly st st'
  | 0, _, _, _, _, _, h => by
      cases h
      exact .refl _
  | count + 1, i, st, n, r, st', h => by
      unfold deallocateLoop at h
      obtain ⟨st₁, h₁, h⟩ := Option.bind_eq_some_iff.mp h
      exact (hf _ _ _ _ h₁).trans (deallocateLoop_only hf h)

theorem deallocateIndirect_only : ∀ {level : ℕ} {st : State} {e : Sector} {n : ℕ} {st' : State},
    deallocateIndirect level st e n = some st' → SectorsOnly st st'
  | 0, _, _, _, _, h => freeMapRelease_only h
  | level + 1, st, e, n, st', h => by
      unfold deallocateIndirect at h
      dsimp only at h
      obtain ⟨⟨rest, st₁⟩, h₁, h⟩ := Option.bind_eq_some_iff.mp h
      dsimp only at h
      split_ifs at h
      exact (deallocateLoop_only (fun _ _ _ _ => deallocateIndirect_only) h₁).trans
        (freeMapRelease_only h)

/-- A part of `inode_deallocate`, with what follows. -/
theorem deallocate_bind_only {c : Prop} [Decidable c] {level n : ℕ} {e : Sector}
    {g : State → Option State} (hg : ∀ st₁, g st₁ = some st' → SectorsOnly st₁ st')
    (h : (if c then (deallocateIndirect level st e n).bind g else (some st).bind g) = some st') :
    SectorsOnly st st' := by
  split_ifs at h
  · obtain ⟨st₁, h₁, h⟩ := Option.bind_eq_some_iff.mp h
    exact (deallocateIndirect_only h₁).trans (hg st₁ h)
  · exact hg st h

theorem inodeDeallocate_only (h : st.inodeDeallocate d = some st') : SectorsOnly st st' := by
  unfold State.inodeDeallocate at h
  dsimp only at h
  obtain ⟨⟨rest, st₁⟩, h₁, h⟩ := Option.bind_eq_some_iff.mp h
  refine (deallocateLoop_only (fun _ _ _ _ => freeMapRelease_only) h₁).trans ?_
  refine deallocate_bind_only (fun st₂ h₂ => ?_) h
  refine deallocate_bind_only (fun st₃ h₃ => ?_) h₂
  split_ifs at h₃
  cases h₃
  exact .refl _

theorem inodeCreate_only {length : ℤ} {isDir : Bool}
    (h : st.inodeCreate s length isDir = some (ok, st')) : SectorsOnly st st' := by
  unfold State.inodeCreate at h
  by_cases hneg : length < 0
  · rw [if_pos hneg] at h
    cases h
  · rw [if_neg hneg] at h
    dsimp only at h
    have hm := malloc_only st
    split at h
    · obtain ⟨⟨ok₁, d, st₁⟩, h₁, h⟩ := Option.bind_eq_some_iff.mp h
      have hr := hm.trans (inodeReserve_only h₁)
      dsimp only at h
      split_ifs at h
      · cases h
        exact hr.trans (write_only ..)
      · cases h
        exact hr
    · cases h
      exact hm

/-! ### The answers of `malloc` -/

theorem inodeOpen_heap (st : State) (s : Sector) : Later st.heap (st.inodeOpen s).2.heap := by
  unfold State.inodeOpen
  split
  · exact .refl _
  · dsimp only
    split_ifs
    · exact .next _
    · exact .next _

theorem inodeClose_heap (h : st.inodeClose s = some st') : Later st.heap st'.heap := by
  unfold State.inodeClose at h
  split at h
  · cases h
  · split at h
    · dsimp only at h
      split at h
      · obtain ⟨st₁, h₁, h⟩ := Option.bind_eq_some_iff.mp h
        obtain ⟨st₂, h₂, h⟩ := Option.bind_eq_some_iff.mp h
        cases h
        exact (freeMapRelease_only h₁).heap.trans (inodeDeallocate_only h₂).heap
      · cases h
        exact .refl _
    · cases h
      exact .refl _

theorem inodeExtend_heap {i i' : Inode} {size : ℤ} {offset : ℕ}
    (h : st.inodeExtend s i size offset = some (ok, i', st')) : Later st.heap st'.heap := by
  unfold State.inodeExtend at h
  split at h
  · obtain ⟨⟨ok₁, d, st₁⟩, h₁, h⟩ := Option.bind_eq_some_iff.mp h
    have hr := (inodeReserve_only h₁).heap
    dsimp only at h
    split at h
    · cases h
      exact hr
    · cases h
      exact hr
  · cases h
    exact .refl _

theorem inodeWriteAt_heap {buffer : ℕ → UInt8} {size : ℤ} {offset n : ℕ}
    (h : st.inodeWriteAt s buffer size offset = some (n, st')) : Later st.heap st'.heap := by
  unfold State.inodeWriteAt at h
  split at h
  · cases h
  · split at h
    · cases h
      exact .refl _
    · obtain ⟨⟨ok, i, st₁⟩, h₁, h⟩ := Option.bind_eq_some_iff.mp h
      have hx := inodeExtend_heap h₁
      dsimp only at h
      split at h
      · cases h
        exact hx.trans (.next _)
      · cases h
        exact hx

theorem filesysCreate_heap {length : ℤ} {isDir added : Bool}
    (h : st.filesysCreate length isDir added = some st') : Later st.heap st'.heap := by
  have ha := (freeMapAllocate_only st).heap
  unfold State.filesysCreate at h
  split at h
  · rename_i he
    rw [he] at ha
    cases h
    exact ha
  · rename_i he
    rw [he] at ha
    obtain ⟨⟨ok, st₁⟩, h₁, h⟩ := Option.bind_eq_some_iff.mp h
    have hc := ha.trans (inodeCreate_only h₁).heap
    dsimp only at h
    split at h
    · cases h
      exact hc
    · exact hc.trans (freeMapRelease_only h).heap

theorem act_heap {a : Action} (h : act a st = some st') : Later st.heap st'.heap := by
  cases a with
  | create length isDir added =>
      unfold act at h
      dsimp only at h
      split_ifs at h
      exact filesysCreate_heap h
  | «open» s =>
      unfold act at h
      dsimp only at h
      split_ifs at h
      cases h
      exact inodeOpen_heap st s
  | write s buffer size offset =>
      unfold act at h
      dsimp only at h
      split_ifs at h
      obtain ⟨⟨n, st₁⟩, hw, rfl⟩ := Option.map_eq_some_iff.mp h
      exact inodeWriteAt_heap hw
  | remove s =>
      unfold act at h
      dsimp only at h
      split_ifs at h
      obtain ⟨i, -, rfl⟩ := Option.map_eq_some_iff.mp h
      exact .refl _
  | close s =>
      unfold act at h
      dsimp only at h
      split_ifs at h
      exact inodeClose_heap h
  | denyWrite s =>
      unfold act State.inodeDenyWrite at h
      dsimp only at h
      split_ifs at h
      split at h
      · cases h
      · split_ifs at h
        cases h
        exact .refl _
  | allowWrite s =>
      unfold act State.inodeAllowWrite at h
      dsimp only at h
      split_ifs at h
      split at h
      · cases h
      · split_ifs at h
        cases h
        exact .refl _

/-! ### A write and the entry of the inode -/

theorem inodeReserve_isDir {length : ℤ} (h : st.inodeReserve d length = some (ok, d', st')) :
    d'.isDir = d.isDir := by
  unfold State.inodeReserve at h
  by_cases hneg : length < 0
  · rw [if_pos hneg] at h
    cases h
    rfl
  · rw [if_neg hneg] at h
    obtain ⟨⟨ok₁, blocks, rest, st₁⟩, -, h⟩ := Option.bind_eq_some_iff.mp h
    dsimp only at h
    split at h
    · cases h
      rfl
    · split at h
      · cases h
        rfl
      · obtain ⟨⟨ok₂, e, st₂⟩, -, h⟩ := Option.bind_eq_some_iff.mp h
        dsimp only at h
        split at h
        · cases h
          rfl
        · split at h
          · cases h
            rfl
          · obtain ⟨⟨ok₃, e₃, st₃⟩, -, h⟩ := Option.bind_eq_some_iff.mp h
            dsimp only at h
            split_ifs at h
            · cases h
              rfl
            · cases h
              rfl

/-- The same inode, of which only the blocks and the length may be different. -/
structure SameEntry (i i' : Inode) : Prop where
  openCnt : i'.openCnt = i.openCnt
  removed : i'.removed = i.removed
  denyWriteCnt : i'.denyWriteCnt = i.denyWriteCnt
  isDir : i'.data.isDir = i.data.isDir

theorem inodeExtend_entry {i i' : Inode} {size : ℤ} {offset : ℕ} (hi : st.openInodes s = some i)
    (h : st.inodeExtend s i size offset = some (ok, i', st')) :
    st'.live = st.live ∧ st'.openInodes = Function.update st.openInodes s (some i') ∧
      SameEntry i i' := by
  unfold State.inodeExtend at h
  split at h
  · obtain ⟨⟨ok₁, d, st₁⟩, h₁, h⟩ := Option.bind_eq_some_iff.mp h
    have hr := inodeReserve_only h₁
    have hdir := inodeReserve_isDir h₁
    have hopen : ∀ j, (st₁.setInode s j).openInodes = Function.update st.openInodes s j := by
      intro j
      rw [← hr.openInodes]
      rfl
    dsimp only at h
    split at h
    · cases h
      exact ⟨hr.live, hopen _, rfl, rfl, rfl, hdir⟩
    · cases h
      exact ⟨hr.live, hopen _, rfl, rfl, rfl, hdir⟩
  · cases h
    exact ⟨rfl, by rw [← hi, Function.update_eq_self], rfl, rfl, rfl, rfl⟩

/-- A write changes the data in the entry of the inode, and nothing else in the list. -/
theorem inodeWriteAt_entry {i : Inode} {buffer : ℕ → UInt8} {size : ℤ} {offset n : ℕ}
    (hi : st.openInodes s = some i) (h : st.inodeWriteAt s buffer size offset = some (n, st')) :
    st'.live = st.live ∧ ∃ i', st'.openInodes = Function.update st.openInodes s (some i') ∧
      SameEntry i i' := by
  unfold State.inodeWriteAt at h
  rw [hi] at h
  dsimp only at h
  split at h
  · cases h
    exact ⟨rfl, i, by rw [← hi, Function.update_eq_self], rfl, rfl, rfl, rfl⟩
  · obtain ⟨⟨ok, i', st₁⟩, h₁, h⟩ := Option.bind_eq_some_iff.mp h
    obtain ⟨hl, ho, hsame⟩ := inodeExtend_entry hi h₁
    dsimp only at h
    split at h
    · cases h
      exact ⟨hl, i', ho, hsame⟩
    · cases h
      exact ⟨hl, i', ho, hsame⟩

end CSE130.Lab3.Files
