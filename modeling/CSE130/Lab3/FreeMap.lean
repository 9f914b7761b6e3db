import CSE130.Lab3.Copies
import CSE130.Lab3.Deeds

/-! # What is on the disk is up to date

The free map is in memory, and in a file of the file system that it describes; an open inode is in
memory, and in its sector.  As long as `malloc` does not fail, an operation that does what it is for
leaves the copies the same (`Saves`): each allocation and each release has written the bitmap, and
each extension the inode. -/

namespace CSE130.Lab3.Files

open BlockTree Transition
open Function (update)

variable {st st' st₁ st₂ : State} {K X S : Set Sector} {s t x : Sector} {i i' : Inode}
  {full ok isDir : Bool} {size : ℤ} {offset n : ℕ} {buffer : ℕ → UInt8} {e : DirEntry}

/-! ### The free map's file -/

/-- The sectors of the free map's file are those from before. -/
theorem Local.freeMap_sectors (hl : Local s st st') (h : Inv st) (h0 : s ≠ 0) :
    st'.freeMapData = st.freeMapData ∧ st'.freeMapIndex = st.freeMapIndex := by
  have howned : ∀ p x, Owned st'.disk (st'.dataOf 0) p x ↔ Owned st.disk (st.dataOf 0) p x :=
    fun p x => by
      rw [hl.dataOf_eq h h0.symm h.live_zero]
      exact hl.owned_iff h h0.symm h.live_zero
  constructor
  · ext x
    exact exists_congr fun p => and_congr_right fun _ => howned p x
  · ext x
    exact exists_congr fun p => and_congr_right fun _ => howned p x

/-- Another entry of the list of open inodes. -/
theorem Synced.setInode {o : Option Inode} (h : Synced K X st) (h0 : s ≠ 0) :
    Synced K X (st.setInode s o) :=
  h.next h.memory rfl rfl rfl (Function.update_of_ne h0.symm ..) fun _ _ => rfl

theorem Synced.malloc (h : Synced K X st) : Synced K X st.malloc.2 :=
  h.next (fun k => h.memory (k + 1)) rfl rfl rfl rfl fun _ _ => rfl

/-- The sector of an inode is apart from those of the free map's file. -/
theorem Inv.apart_self (h : Inv st) (h0 : s ≠ 0) (hs : st.live s = true) :
    s ∉ st.freeMapData ∪ st.freeMapIndex :=
  h.apart_freeMap h0 (owns_self hs)

theorem inodeExtend_synced (h : Inv st) (h0 : s ≠ 0) (hi : st.openInodes s = some i)
    (hcov : Covered (offT (offset + size)) st.heap)
    (he : st.inodeExtend s i size offset = some (true, i', st'))
    (hs : Synced st.freeMapData st.freeMapIndex st) :
    Synced st.freeMapData st.freeMapIndex st' := by
  unfold State.inodeExtend at he
  split_ifs at he with hb
  · simp only [Option.bind_eq_bind, Option.bind_eq_some_iff] at he
    obtain ⟨⟨ok, d, st₁⟩, hres, he⟩ := he
    cases ok with
    | false => cases he
    | true =>
        have hnneg : 0 ≤ offT (offset + size) := by
          by_contra hneg
          unfold State.inodeReserve at hres
          rw [if_pos (not_le.mp hneg)] at hres
          cases hres
        have hplaced := h.placed h0 (h.opened s i hi)
        rw [dataOf_open hi] at hplaced
        obtain ⟨ok, d₂, st₂, hr, -, -, hres₂⟩ := inodeReserve_cases h.ground hplaced
          (hcov.settled id) hnneg
        rw [hres₂] at hres
        split_ifs at hres
        cases hres
        cases he
        exact ((hr.synced rfl hs).setInode h0).write (h.apart_self h0 (h.opened s i hi)) h0
  · cases he
    exact hs

/-- A write that is done to the end. -/
theorem inodeWriteAt_synced (h : Inv st) (h0 : s ≠ 0) (hi : st.openInodes s = some i)
    (hcov : Covered (offT (offset + size)) st.heap) (hpos : 0 < n)
    (hw : st.inodeWriteAt s buffer size offset = some (n, st'))
    (hs : Synced st.freeMapData st.freeMapIndex st) :
    Synced st.freeMapData st.freeMapIndex st' := by
  rcases inodeWriteAt_cases hi hw with ⟨hn, -⟩ | ⟨-, ok, i', st₁, he, hcase⟩
  · omega
  have hx := inodeExtend_extended h h0 hi hcov he
  rcases hcase with ⟨-, hn, -⟩ | ⟨rfl, -, hst⟩
  · omega
  have hs₁ := inodeExtend_synced h h0 hi hcov he hs
  have hin : Inside s i' st₁ st' := by
    rw [hst]
    exact writeLoop_inside hx.inv hx.openInodes
  have hheap : st'.heap = fun k => st₁.heap (k + 1) := by
    rw [hst]
  refine hs₁.next (fun k => ?_) hin.freeMapFile hin.freeMap hin.size
    (congrFun hin.openInodes 0) fun x hx' => hin.disk x ?_
  · rw [hheap]
    exact hs₁.memory (k + 1)
  -- the data sectors of the inode are none of those
  · rintro ⟨p, -, hp⟩
    have hlive := hx.inv.opened s i' hx.openInodes
    rw [← dataOf_open hx.openInodes] at hp
    rcases hx' with hx' | rfl
    · obtain ⟨hK, hX⟩ := hx.loc.freeMap_sectors h h0
      rw [← hK, ← hX] at hx'
      exact hx.inv.apart_freeMap h0 ⟨hlive, .inr hp⟩ hx'
    · exact hp.ne_zero rfl

theorem inodeClose_synced (h : Inv st) (h0 : s ≠ 0) (hc : st.inodeClose s = some st')
    (hs : Synced st.freeMapData st.freeMapIndex st) :
    Synced st.freeMapData st.freeMapIndex st' := by
  obtain ⟨i, hi⟩ := inodeClose_open hc
  by_cases hlast : i.openCnt - 1 = 0 ∧ i.removed = true
  · obtain ⟨st₁, h₁, hr⟩ := inodeClose_released h h0 hi hlast.1 hlast.2
    obtain rfl := Option.some.inj (h₁.symm.trans hc)
    have hs₁ := hr.synced (hs.setInode h0)
    exact hs₁.next hs₁.memory rfl rfl rfl rfl fun _ _ => rfl
  · unfold State.inodeClose at hc
    rw [hi] at hc
    dsimp only at hc
    split_ifs at hc with hcnt hrem
    · exact absurd ⟨hcnt, hrem⟩ hlast
    · cases hc
      exact hs.setInode h0
    · cases hc
      exact hs.setInode h0

theorem inodeCreate_synced (g : Ground K X st) (hZ : s ∉ K ∪ X) (h0 : s ≠ 0)
    (hset : 123 < bytesToSectors size.toNat → Settled st)
    (hc : st.inodeCreate s size isDir = some (true, st')) (hs : Synced K X st) :
    Synced K X st' := by
  obtain ⟨-, -, -, -, hok⟩ := inodeCreate_cases g (fun hX => hZ (.inr hX)) hset hc
  obtain ⟨d, st₁, -, -, hr, rfl⟩ := hok rfl
  exact (hr.synced rfl hs.malloc).write hZ h0

/-! ### What is stored -/

/-- The copies on the disk are up to date, and the kernel alone has the free map's file open. -/
structure Saved (st : State) : Prop where
  synced : Synced st.freeMapData st.freeMapIndex st
  freeMapFile : ∃ i, st.openInodes 0 = some i ∧ i.openCnt = 1 ∧ i.removed = false
  stored : Stored st

/-- A new file system, with memory. -/
theorem saved_format {disk : Sector → Block} {size : Sector} {heap : ℕ → Bool}
    (hf : State.format disk size heap = some st) (hm : ∀ k, heap k = true) : Saved st := by
  have hstored := (kept_format hf).stored
  obtain ⟨st₀, st₁, st₃, st₄, st₅, d, -, -, hheap₀, hcreate, hheap₃, -, hd₃, hopen₃, -, hopen₄,
    hinv₃, hloc, hinv₄, hused₄, hn, hbitmap, hroot, rfl⟩ := format_cases hf
  have hi₃ : st₃.openInodes 0 = some ⟨1, false, 0, .ofBlock d.toBlock⟩ := by
    rw [hopen₃, Function.update_self]
  have hm₃ : ∀ k, st₃.heap k = true := by
    intro k
    rw [hheap₃]
    exact (inodeCreate_only hcreate).heap.all (fun k => by rw [hheap₀]; exact hm k) (k + 1)
  have h1 : (1 : Sector) ≠ 0 := by decide
  -- the sectors of the free map's file stay the same
  have hcreated := Created.root hinv₄ hused₄ hn hroot
  have hlast : Local 1 (st₄.mark 1 false) { st₅ with live := update st₅.live 1 true } :=
    hcreated.takes.loc fun t ht => by rw [hcreated.live, Function.update_of_ne ht]
  obtain ⟨hK₄, hX₄⟩ := hloc.freeMap_sectors hinv₃ h1
  obtain ⟨hK, hX⟩ := hlast.freeMap_sectors (hinv₄.unmark hn) h1
  have hs₄ : Synced st₄.freeMapData st₄.freeMapIndex st₄ := by
    have hout : (0 : Sector) ∉ st₃.freeMapData := fun ⟨p, _, hp⟩ => hp.ne_zero rfl
    have h := bitmapWrite_synced hm₃ hout hinv₃.ground hinv₃.freeMapFile hi₃
      (hd₃.trans (toBlock_ofBlock d).symm)
    rw [hbitmap] at h
    rw [hK₄, hX₄]
    exact h
  have hs₅ : Synced st₄.freeMapData st₄.freeMapIndex st₅ := by
    refine inodeCreate_synced hinv₄.ground ?_ h1 (fun hlt => absurd hlt (by decide)) hroot hs₄
    rintro (⟨p, -, hp⟩ | ⟨p, -, hp⟩)
    · exact hn 0 p ⟨hinv₄.live_zero, .inr hp⟩
    · exact hn 0 p ⟨hinv₄.live_zero, .inr hp⟩
  refine ⟨?_, ⟨⟨1, false, 0, .ofBlock d.toBlock⟩, ?_, rfl, rfl⟩, hstored⟩
  · rw [hK, hX]
    exact hs₅.next hs₅.memory rfl rfl rfl rfl fun _ _ => rfl
  · change st₅.openInodes 0 = _
    rw [(inodeCreate_only hroot).openInodes, hopen₄]
    exact hi₃

/-- An operation after which they still are. -/
def Saves (st st' : State) : Prop := Healthy st → Clean st → Saved st → Saved st'

/-- What is to be shown of the inode that was worked on. -/
theorem Saved.step_local (hv : Saved st) (h : Inv st) (hl : Local s st st') (h0 : s ≠ 0)
    (hs : Synced st.freeMapData st.freeMapIndex st')
    (hd : st'.live s = true → st'.disk s = (st'.dataOf s).toBlock) : Saved st' where
  synced := by
    obtain ⟨hK, hX⟩ := hl.freeMap_sectors h h0
    rw [hK, hX]
    exact hs
  freeMapFile := by
    rw [hl.openInodes 0 h0.symm]
    exact hv.freeMapFile
  stored t ht ht0 := by
    by_cases hts : t = s
    · subst hts
      exact hd ht
    · rw [hl.live t hts] at ht
      exact hl.stored h hts ht0 ht (hv.stored t ht ht0)

theorem Saved.call {heap : ℕ → Bool} (hv : Saved st) (hm : ∀ k, heap k = true) :
    Saved (st.call heap) where
  synced := hv.synced.next hm rfl rfl rfl rfl fun _ _ => rfl
  freeMapFile := hv.freeMapFile
  stored := hv.stored

theorem Drift.saves (hd : Drift st st') : Saves st st' := by
  obtain ⟨heap, f, hl, rfl⟩ := hd
  exact fun _ _ hv => ⟨hv.synced.next (hl.all hv.synced.memory) rfl rfl rfl rfl fun _ _ => rfl,
    hv.freeMapFile, hv.stored⟩

theorem opened_saves (hs : st.live s = true) (h0 : s ≠ 0) : Saves st (st.opened s) := by
  refine fun h _ hv => hv.step_local h.inv (local_setInode h.inv _) h0 (hv.synced.setInode h0)
    fun _ => ?_
  rw [opened_dataOf, opened_disk]
  exact hv.stored s hs h0

theorem recount_saves (h0 : s ≠ 0) (hi : st.openInodes s = some i) (hd : i'.data = i.data) :
    Saves st (st.setInode s (some i')) := fun h _ hv =>
  hv.step_local h.inv (local_setInode h.inv _) h0 (hv.synced.setInode h0) fun _ =>
    (recount_stored hi hd (hv.stored s (h.inv.opened s i hi) h0)).1

theorem inodeWriteAt_saves (h0 : s ≠ 0) (hcov : Covered (offT (offset + size)) st.heap)
    (hpos : 1 ≤ size) (hsize : offT size = size) (hoffset : offT offset = offset)
    (hw : st.inodeWriteAt s buffer size offset = some (size.toNat, st')) : Saves st st' := by
  intro h hz hv
  obtain ⟨i, hi⟩ := inodeWriteAt_open hw
  have hlive := h.inv.opened s i hi
  have hclean := hz s hlive h0
  have hstored := hv.stored s hlive h0
  rw [dataOf_open hi] at hclean hstored
  exact hv.step_local h.inv (inodeWriteAt_local h.inv h0 hi hcov hw).2 h0
    (inodeWriteAt_synced h.inv h0 hi hcov (by omega) hw hv.synced) fun _ =>
      (inodeWriteAt_stored h.inv h0 hi hclean hcov hpos hsize hoffset hstored hw
        (.inl (by omega))).1

theorem inodeClose_saves (h0 : s ≠ 0) (hc : st.inodeClose s = some st') : Saves st st' := by
  intro h _ hv
  refine hv.step_local h.inv (inodeClose_local h.inv h0 hc).2 h0
    (inodeClose_synced h.inv h0 hc hv.synced) fun hlive => ?_
  obtain ⟨i, hi⟩ := inodeClose_open hc
  exact (inodeClose_stored h.inv h0 hc hlive (hv.stored s (h.inv.opened s i hi) h0)).1

/-- `filesys_create` up to `dir_add`, when it has made an inode. -/
theorem create_saves (hsize : offT size = size) (hcov : Covered size st.heap)
    (ha : st.freeMapAllocate = (some s, st₁)) (hc : st₁.inodeCreate s size isDir = some (true, st₂)) :
    Saves st { st₂ with live := update st₂.live s true } := by
  intro h _ hv
  have hfiles : st.filesysCreate size isDir true =
      some { st₂ with live := update st₂.live s true } := by
    unfold State.filesysCreate
    rw [ha]
    dsimp only
    rw [hc]
    rfl
  have hact : act (.create size isDir true) st = some { st₂ with live := update st₂.live s true } := by
    unfold act
    dsimp only
    rw [if_pos hsize, hfiles]
  have g := h.inv.ground
  rcases allocate_cases g with ⟨u, st₃, hu, hfree, hlt, hstill⟩ | ⟨st₃, hn, -⟩
  · obtain ⟨heq, rfl⟩ := Prod.mk.inj (hu.symm.trans ha)
    obtain rfl := Option.some.inj heq
    have hold := h.inv.not_live hfree
    have hnew : update st₂.live u true u = true := Function.update_self ..
    have hcreated := act_created (a := .create size isDir true) h.inv hcov hact hold hnew
    have hlocal : Local u st { st₂ with live := update st₂.live u true } :=
      hcreated.takes.loc fun t ht => by rw [hcreated.live, Function.update_of_ne ht]
    have hZ : u ∉ st.freeMapData ∪ st.freeMapIndex := fun hu => hfree (g.used u hu)
    have hsync := inodeCreate_synced ((g.mark hlt).still hstill g.disjoint) hZ (h.inv.ne_zero hfree)
      (hcov.settled ((passive_mark st u true).trans hstill.passive).steady) hc
      (allocate_synced g ha hv.synced)
    exact hv.step_local h.inv hlocal (h.inv.ne_zero hfree)
      (hsync.next hsync.memory rfl rfl rfl rfl fun _ _ => rfl) fun _ =>
        (filesysCreate_stored h.inv hcov hfiles hold hnew hcreated).1
  · cases hn.symm.trans ha

/-! ### Sequences of operations -/

/-- A deed that with `full` also saves what it changes. -/
structure Work (S : Set Sector) (full : Bool) (st st' : State) : Prop where
  deed : Deed S full st st'
  saves : full = true → Saves st st'

/-- A sequence of such deeds. -/
abbrev Works (S : Set Sector) (full : Bool) : State → State → Prop :=
  Relation.ReflTransGen (Work S full)

theorem Works.deeds (h : Works S full st st') : Deeds S full st st' :=
  Relation.ReflTransGen.mono (fun _ _ => Work.deed) _ _ h

theorem Healthy.works (h : Healthy st) (hw : Works S full st st') :
    Healthy st' ∧ Beside S st st' := h.deeds hw.deeds

theorem Works.saves (hw : Works S true st st') : Saves st st' := by
  intro h hz hv
  induction hw with
  | refl => exact hv
  | tail hws hw ih => exact hw.saves rfl (h.works hws).1 (hz.deeds h (Works.deeds hws)) ih

theorem Work.mono {S' : Set Sector} {full' : Bool} (h : Work S full st st') (hS : S ⊆ S')
    (hf : full' = true → full = true) : Work S' full' st st' :=
  ⟨h.deed.mono hS hf, fun hfull => h.saves (hf hfull)⟩

theorem Works.mono {S' : Set Sector} {full' : Bool} (h : Works S full st st') (hS : S ⊆ S')
    (hf : full' = true → full = true) : Works S' full' st st' :=
  Relation.ReflTransGen.mono (fun _ _ hw => Work.mono hw hS hf) _ _ h

theorem Works.later (h : Works S full st st') : Later st.heap st'.heap := h.deeds.later

theorem Work.drift (hd : Drift st st') : Work S full st st' := ⟨.drift hd, fun _ => hd.saves⟩

theorem Work.opened (hS : s ∈ S) (hs : st.live s = true) (h0 : s ≠ 0) :
    Work S full st (st.opened s) :=
  ⟨.opened hS hs h0, fun _ => opened_saves hs h0⟩

theorem writeEntry_work {ofs : ℕ} (hS : s ∈ S) (h0 : s ≠ 0) (hofs : ofs + 20 < 2 ^ 31)
    (hcov : Covered (ofs + 20) st.heap) (hw : st.writeEntry s e ofs = some (ok, st')) :
    Work S ok st st' := by
  refine ⟨writeEntry_deed hS h0 hofs hcov hw, ?_⟩
  rintro rfl
  obtain ⟨⟨n, st₁⟩, hw, heq⟩ := Option.map_eq_some_iff.mp hw
  obtain ⟨hn, rfl⟩ := Prod.mk.inj heq
  obtain rfl : n = 20 := eq_of_beq hn
  have hsum : offT ((ofs : ℤ) + 20) = ofs + 20 := offT_of_lt (by omega) (by omega)
  rw [← hsum] at hcov
  exact inodeWriteAt_saves h0 hcov (by decide) (show offT 20 = 20 by decide)
    (offT_of_lt (by omega) (by omega)) hw

theorem close_work (hS : s ∈ S) (h0 : s ≠ 0) (hc : st.inodeClose s = some st') :
    Work S full st st' :=
  ⟨close_deed hS h0 hc, fun _ => inodeClose_saves h0 hc⟩

end CSE130.Lab3.Files
