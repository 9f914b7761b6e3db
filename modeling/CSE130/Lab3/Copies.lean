import CSE130.Lab3.Contents

/-! # The two copies of an inode

An open inode is in memory and in its sector.  As long as no allocation fails, the two are the same
after every operation (`Stored`), so a file that is closed and opened again is the same file, and
its bytes are those that the writes have put there. -/

namespace CSE130.Lab3.Files

open BlockTree Transition
open Function (update)

variable {st st' st₁ st₂ : State} {s t x : Sector} {i i' : Inode} {p : List ℕ}
  {m m' : Sector → Block} {d d' : InodeDisk} {buffer : ℕ → UInt8}

theorem toBlock_ofBlock (d : InodeDisk) : (InodeDisk.ofBlock d.toBlock).toBlock = d.toBlock := by
  have hlen : UInt32.ofNat (UInt32.ofNat d.length).toNat = UInt32.ofNat d.length :=
    UInt32.ofNat_toNat
  unfold InodeDisk.toBlock InodeDisk.ofBlock
  refine congrArg ofWords (funext fun j => ?_)
  simp only [word_ofWords]
  obtain h | rfl | rfl | rfl | rfl | h :
      j < 123 ∨ j = 123 ∨ j = 124 ∨ j = 125 ∨ j = 126 ∨ 126 < j := by omega
  · simp only [if_pos h]
  · rfl
  · rfl
  · cases d.isDir <;> rfl
  · exact hlen
  · have hne : ¬ j < 123 ∧ j ≠ 123 ∧ j ≠ 124 ∧ j ≠ 125 ∧ j ≠ 126 := by omega
    obtain ⟨h₁, h₂, h₃, h₄, h₅⟩ := hne
    simp only [if_neg h₁, if_neg h₂, if_neg h₃, if_neg h₄, if_neg h₅]

/-- The contents depend on the roots and on the length alone. -/
theorem contents_congr (hroot : rootOf d' = rootOf d) (hlen : d'.length = d.length)
    (hc : Complete m d) : contents m d' = contents m d := by
  have howned : Owned m d' = Owned m d := by
    unfold Owned
    rw [hroot]
  have hc' : Complete m d' := ⟨by rw [hlen]; exact hc.small, by rw [hlen, howned]; exact hc.place⟩
  unfold contents
  rw [hlen]
  refine List.map_congr_left fun pos hpos => ?_
  have hpos := List.mem_range.mp hpos
  obtain ⟨x, hx, -⟩ := hc.sector hpos
  rw [byteAt_owned hc hpos hx, byteAt_owned hc' (hlen ▸ hpos) (howned ▸ hx)]

theorem contents_ofBlock (hc : Complete m d) :
    contents m (.ofBlock d.toBlock) = contents m d :=
  contents_congr (rootOf_ofBlock d) (length_ofBlock hc.small) hc

/-- Every file's inode is on the disk as it is in memory. -/
def Stored (st : State) : Prop :=
  ∀ s, st.live s = true → s ≠ 0 → st.disk s = (st.dataOf s).toBlock

theorem Local.stored (hl : Local s st st') (h : Inv st) (ht : t ≠ s) (h0 : t ≠ 0)
    (hlive : st.live t = true) (hs : st.disk t = (st.dataOf t).toBlock) :
    st'.disk t = (st'.dataOf t).toBlock := by
  rw [hl.dataOf_eq h ht hlive, hl.disk_eq h ht (owns_self hlive) (.inl h0), hs]

/-! ### Writing -/

theorem inodeExtend_block {size : ℤ} {offset : ℕ} (hs : st.disk s = i.data.toBlock)
    (he : st.inodeExtend s i size offset = some (true, i', st')) : st'.disk s = i'.data.toBlock := by
  unfold State.inodeExtend at he
  split_ifs at he with hb
  · simp only [Option.bind_eq_bind, Option.bind_eq_some_iff] at he
    obtain ⟨⟨ok₁, d, st₁⟩, -, he⟩ := he
    cases ok₁ with
    | false => cases he
    | true =>
        cases he
        exact Function.update_self ..
  · cases he
    exact hs

/-- An inode is not extended without an allocation that fails, but for a size that is negative. -/
theorem inodeExtend_refused {size : ℤ} {offset : ℕ} (h : Inv st) (h0 : s ≠ 0)
    (hi : st.openInodes s = some i) (hcov : Covered (offT (offset + size)) st.heap)
    (he : st.inodeExtend s i size offset = some (false, i', st')) (hf : st'.allocFailed = false) :
    st' = st := by
  unfold State.inodeExtend at he
  split_ifs at he with hb
  · simp only [Option.bind_eq_bind, Option.bind_eq_some_iff] at he
    obtain ⟨⟨ok₁, d, st₁⟩, hres, he⟩ := he
    by_cases hneg : offT (offset + size) < 0
    · unfold State.inodeReserve at hres
      rw [if_pos hneg] at hres
      cases hres
      cases he
      unfold State.setInode
      rw [← hi, Function.update_eq_self]
    · have hplaced := h.placed h0 (h.opened s i hi)
      rw [dataOf_open hi] at hplaced
      obtain ⟨ok₂, d₂, st₂, hr, -, -, hres₂⟩ := inodeReserve_cases h.ground hplaced
        (hcov.settled id) (not_lt.mp hneg)
      rw [hres₂] at hres
      split_ifs at hres
      cases hres
      cases ok₁ with
      | false =>
          cases he
          have hfailed : st₁.allocFailed = true := hr.failed rfl
          exact absurd (hfailed.symm.trans hf) nofun
      | true => cases he
  · cases he

theorem inodeWriteAt_whole {size : ℤ} {offset n : ℕ} (h : Inv st) (h0 : s ≠ 0)
    (hi : st.openInodes s = some i) (hcov : Covered (offT (offset + size)) st.heap) (hpos : 1 ≤ size)
    (hsize : offT size = size) (hoffset : offT offset = offset)
    (hw : st.inodeWriteAt s buffer size offset = some (n, st')) (hf : st'.allocFailed = false) :
    n = 0 ∧ st' = st ∨ (n : ℤ) = size := by
  rcases inodeWriteAt_cases hi hw with ⟨hn, rfl, -⟩ | ⟨-, ok, i₁, st₁, he, hcase⟩
  · exact .inl ⟨hn, rfl⟩
  rcases hcase with ⟨rfl, hn, rfl⟩ | ⟨rfl, hn, hst⟩
  · exact .inl ⟨hn, inodeExtend_refused h h0 hi hcov he hf⟩
  · rw [hst] at hf
    rw [hn]
    exact .inr (inodeExtend_writes h hi hpos hsize hoffset he (Bool.or_eq_false_iff.mp hf).2)

/-- A write, when all is written, or when no allocation fails. -/
theorem inodeWriteAt_stored {size : ℤ} {offset n : ℕ} (h : Inv st) (h0 : s ≠ 0)
    (hi : st.openInodes s = some i) (hz : ZeroBehind st.disk i.data)
    (hcov : Covered (offT (offset + size)) st.heap) (hpos : 1 ≤ size) (hsize : offT size = size)
    (hoffset : offT offset = offset) (hs : st.disk s = i.data.toBlock)
    (hw : st.inodeWriteAt s buffer size offset = some (n, st'))
    (hf : (n : ℤ) = size ∨ st'.allocFailed = false) :
    st'.disk s = (st'.dataOf s).toBlock ∧
      contents st'.disk (st'.dataOf s) =
        if n = 0 then contents st.disk (st.dataOf s)
        else laidOver (contents st.disk (st.dataOf s)) buffer offset n := by
  obtain ⟨i', hi', hwritten, -, hlen⟩ :=
    inodeWriteAt_written h h0 hi hz hcov hpos hsize hoffset hw
  have hall : n = 0 ∧ st' = st ∨ (n : ℤ) = size := by
    rcases hf with hn | hf
    · exact .inr hn
    · exact inodeWriteAt_whole h h0 hi hcov hpos hsize hoffset hw hf
  rcases hall with ⟨hn, rfl⟩ | hn
  · rw [if_pos hn, dataOf_open hi]
    exact ⟨hs, rfl⟩
  have hinv' := (inodeWriteAt_local h h0 hi hcov hw).1
  rcases inodeWriteAt_cases hi hw with ⟨hn', -, -⟩ | ⟨-, ok, i₁, st₁, he, hcase⟩
  · omega
  have hx := inodeExtend_extended h h0 hi hcov he
  rcases hcase with ⟨-, hn', -⟩ | ⟨rfl, -, hst⟩
  · omega
  · have hin : Inside s i₁ st₁ st' := by
      rw [hst]
      exact writeLoop_inside hx.inv hx.openInodes
    obtain rfl : i' = i₁ := by
      have hopen := hi'
      rw [hin.openInodes, hx.openInodes] at hopen
      exact (Option.some.inj hopen).symm
    rw [if_neg (by omega), dataOf_open hi', dataOf_open hi, hin.sector_eq hx.inv hx.openInodes]
    exact ⟨inodeExtend_block hs he, hwritten.contents_eq (hinv'.opened_data hi').1 (hlen hn)⟩

/-! ### Creating an inode -/

theorem filesysCreate_block {length : ℤ} {isDir added : Bool} (h : Inv st)
    (hcov : Covered length st.heap) (hc : st.filesysCreate length isDir added = some st')
    (hold : st.live s = false) (hnew : st'.live s = true) :
    ∃ d : InodeDisk, d.length = length.toNat ∧ bytesToSectors d.length ≤ 16635 ∧
      st'.disk s = d.toBlock := by
  have hchanged : st'.live ≠ st.live := by
    intro heq
    rw [heq, hold] at hnew
    cases hnew
  unfold State.filesysCreate at hc
  have g := h.ground
  rcases allocate_cases g with ⟨u, st₁, ha, hfree, hsize, hstill⟩ | ⟨st₁, ha, hstill, -⟩
  · rw [ha] at hc
    simp only [Option.bind_eq_bind, Option.bind_eq_some_iff] at hc
    obtain ⟨⟨ok, st₂⟩, hcreate, hc⟩ := hc
    have hZ : u ∉ st.freeMapData ∪ st.freeMapIndex := fun hu => hfree (g.used u hu)
    have g₁ := (g.mark hsize).still hstill g.disjoint
    have hpassive₁ := (passive_mark st u true).trans hstill.passive
    obtain ⟨g₂, hpassive₂, hused₂, -, hok⟩ := inodeCreate_cases g₁ (fun hu => hZ (.inr hu))
      (hcov.settled hpassive₁.steady) hcreate
    have hlive : st₂.live = st.live := hpassive₂.live.trans hpassive₁.live
    split_ifs at hc with hboth
    · cases hc
      obtain ⟨rfl, -⟩ := Bool.and_eq_true_iff.mp hboth
      obtain ⟨d, st₃, hlen, hsmall, -, hst⟩ := hok rfl
      have hsu : s = u := by
        by_contra hne
        have hnew : update st₂.live u true s = true := hnew
        rw [Function.update_of_ne hne, hlive, hold] at hnew
        cases hnew
      subst hsu
      refine ⟨d, hlen, hlen ▸ hsmall, ?_⟩
      rw [hst]
      exact Function.update_self ..
    · have hused : st₂.Used u := hused₂ u (hstill.used.mpr (by rw [used_mark, if_pos rfl]))
      obtain ⟨st₃, hrel, hreleased⟩ := freeMapRelease_released g₂
        ((hpassive₁.trans hpassive₂).freeMapFile.trans h.freeMapFile) hused (h.ne_zero hfree) hZ
      rw [hrel] at hc
      cases hc
      exact absurd (hreleased.passive.live.trans hlive) hchanged
  · rw [ha] at hc
    cases hc
    exact absurd hstill.passive.live hchanged

theorem filesysCreate_stored {length : ℤ} {isDir added : Bool} (h : Inv st)
    (hcov : Covered length st.heap) (hc : st.filesysCreate length isDir added = some st')
    (hold : st.live s = false) (hnew : st'.live s = true) (hcreated : Created s st st') :
    st'.disk s = (st'.dataOf s).toBlock ∧
      contents st'.disk (st'.dataOf s) = List.replicate length.toNat 0 := by
  obtain ⟨d, hlen, hsmall, hblock⟩ := filesysCreate_block h hcov hc hold hnew
  have hnone : st'.openInodes s = none := by
    rw [hcreated.takes.openInodes, h.not_open hold]
  have hdata : st'.dataOf s = .ofBlock d.toBlock := by
    rw [dataOf_closed hnone, hblock]
  refine ⟨by rw [hdata, hblock, toBlock_ofBlock], ?_⟩
  have hcomplete := hcreated.inv.complete s hnew
  have hl : (st'.dataOf s).length = length.toNat := by
    rw [hdata, length_ofBlock hsmall, hlen]
  apply List.ext_getElem
  · rw [contents_length, hl, List.length_replicate]
  · intro pos hpos _
    rw [contents_length] at hpos
    obtain ⟨x, hx, -⟩ := hcomplete.sector hpos
    rw [List.getElem_replicate]
    simp only [contents, List.getElem_map, List.getElem_range]
    rw [byteAt_owned hcomplete hpos hx, hcreated.blank x ⟨_, isLeaf_filePath _, hx⟩]
    rfl

/-! ### Opening and closing -/

theorem inodeOpen_stored (hs : st.disk s = (st.dataOf s).toBlock) :
    (st.inodeOpen s).2.disk s = ((st.inodeOpen s).2.dataOf s).toBlock ∧
      contents (st.inodeOpen s).2.disk ((st.inodeOpen s).2.dataOf s) =
        contents st.disk (st.dataOf s) := by
  rcases inodeOpen_cases st s with ⟨i, hi, he⟩ | ⟨ho, he | he⟩
  · rw [he, dataOf_setInode]
    rw [dataOf_open hi] at hs ⊢
    exact ⟨hs, rfl⟩
  · rw [he]
    exact ⟨hs, rfl⟩
  · rw [he, dataOf_setInode]
    rw [dataOf_closed ho] at hs ⊢
    exact ⟨hs, rfl⟩

theorem recount_stored (hi : st.openInodes s = some i) (hd : i'.data = i.data)
    (hs : st.disk s = (st.dataOf s).toBlock) :
    (st.setInode s (some i')).disk s = ((st.setInode s (some i')).dataOf s).toBlock ∧
      contents (st.setInode s (some i')).disk ((st.setInode s (some i')).dataOf s) =
        contents st.disk (st.dataOf s) := by
  rw [dataOf_setInode, hd]
  rw [dataOf_open hi] at hs ⊢
  exact ⟨hs, rfl⟩

theorem inodeClose_stored (h : Inv st) (h0 : s ≠ 0) (hc : st.inodeClose s = some st')
    (hlive : st'.live s = true) (hs : st.disk s = (st.dataOf s).toBlock) :
    st'.disk s = (st'.dataOf s).toBlock ∧
      contents st'.disk (st'.dataOf s) = contents st.disk (st.dataOf s) := by
  rcases inodeClose_cases h h0 hc with ⟨i, -, -, hl, -⟩ | ⟨i, hi, rfl⟩ | ⟨i, i', hi, rfl, hd⟩
  · rw [hl, Function.update_self] at hlive
    cases hlive
  · have hcomplete := (h.opened_data hi).1
    rw [dataOf_setInode_none]
    rw [dataOf_open hi] at hs ⊢
    change st.disk s = (InodeDisk.ofBlock (st.disk s)).toBlock ∧
      contents st.disk (.ofBlock (st.disk s)) = _
    rw [hs, toBlock_ofBlock, contents_ofBlock hcomplete]
    exact ⟨rfl, rfl⟩
  · exact recount_stored hi hd hs

/-! ### Every operation -/

/-- Every file is stored, and its bytes are `bytes`. -/
structure Kept (st : State) (bytes : Sector → List UInt8) : Prop where
  inv : Inv st
  clean : Clean st
  stored : Stored st
  contents : ∀ s, st.live s = true → s ≠ 0 → contents st.disk (st.dataOf s) = bytes s

namespace Kept

variable {bytes bytes' : Sector → List UInt8}

theorem call {heap : ℕ → Bool} (h : Kept st bytes) : Kept (st.call heap) bytes :=
  ⟨h.inv.call, h.clean, h.stored, h.contents⟩

/-- What is to be shown of the inode that was worked on. -/
theorem step_local (h : Kept st bytes) (hinv : Inv st') (hclean : Clean st') (hl : Local s st st')
    (hs : st'.live s = true → s ≠ 0 → st'.disk s = (st'.dataOf s).toBlock ∧
      Files.contents st'.disk (st'.dataOf s) = bytes' s)
    (hbytes : ∀ t, t ≠ s → st.live t = true → bytes' t = bytes t) : Kept st' bytes' := by
  refine ⟨hinv, hclean, fun t ht h0 => ?_, fun t ht h0 => ?_⟩
  · by_cases hts : t = s
    · subst hts
      exact (hs ht h0).1
    · rw [hl.live t hts] at ht
      exact hl.stored h.inv hts h0 ht (h.stored t ht h0)
  · by_cases hts : t = s
    · subst hts
      exact (hs ht h0).2
    · rw [hl.live t hts] at ht
      rw [hl.contents_eq h.inv hts h0 ht, hbytes t hts ht]
      exact h.contents t ht h0

theorem create {length : ℤ} {isDir added : Bool} (h : Kept st bytes)
    (hcov : Covered length st.heap) (hs : act (.create length isDir added) st = some st') :
    Kept st' fun s =>
      if st'.live s && !st.live s then List.replicate length.toNat 0 else bytes s := by
  have hclean := h.clean.act h.inv (a := .create length isDir added) hcov nofun hs
  obtain ⟨hinv, u, hl, hu⟩ := act_local (a := .create length isDir added) h.inv hcov hs
  have hfiles := (act_create hs).2
  have hold : st.live u = false := by
    rcases hu with hu | ⟨-, hu⟩
    · cases hu
    · exact hu
  refine h.step_local hinv hclean hl (fun hnew _ => ?_) fun t ht hlive => ?_
  · have hc := act_created (a := .create length isDir added) h.inv hcov hs hold hnew
    rw [hnew, hold]
    exact filesysCreate_stored h.inv hcov hfiles hold hnew hc
  · rw [hlive, hl.live t ht, hlive]
    rfl

theorem write {size : ℤ} {offset n : ℕ} (h : Kept st bytes) (h0 : s ≠ 0)
    (hi : st.openInodes s = some i) (hcov : Covered (offT (offset + size)) st.heap)
    (hpos : 1 ≤ size) (hsize : offT size = size) (hoffset : offT offset = offset)
    (hw : st.inodeWriteAt s buffer size offset = some (n, st'))
    (hf : (n : ℤ) = size ∨ st'.allocFailed = false) :
    Kept st' (if n = 0 then bytes else update bytes s (laidOver (bytes s) buffer offset n)) := by
  have hs := h.inv.opened s i hi
  have hz := h.clean s hs h0
  have hstored := h.stored s hs h0
  rw [dataOf_open hi] at hz hstored
  have hact : act (.write s buffer size offset) st = some st' := by
    unfold act
    dsimp only
    rw [if_pos ⟨h0, hsize, hoffset⟩, hw]
    rfl
  have hpositive : Positive (.write s buffer size offset) := by
    rintro s' buffer' size' offset' heq
    cases heq
    exact hpos
  have hclean := h.clean.act h.inv (a := .write s buffer size offset) hcov hpositive hact
  obtain ⟨hinv, hl⟩ := inodeWriteAt_local h.inv h0 hi hcov hw
  obtain ⟨hblock, hcontents⟩ := inodeWriteAt_stored h.inv h0 hi hz hcov hpos hsize hoffset hstored hw hf
  rw [h.contents s hs h0] at hcontents
  refine h.step_local hinv hclean hl (fun _ _ => ⟨hblock, hcontents.trans ?_⟩) fun t ht _ => ?_
  · split_ifs
    · rfl
    · rw [Function.update_self]
  · split_ifs
    · rfl
    · rw [Function.update_of_ne ht]

/-- An operation that does not change the data of the inode. -/
theorem same {a : Action} (h : Kept st bytes) (ha : a.inode = some s)
    (hnw : ∀ buffer size offset, a ≠ .write s buffer size offset)
    (hs : act a st = some st') : Kept st' bytes := by
  have hg : Sound st (a, st.heap) := by
    cases a with
    | create length isDir added => cases ha
    | write t buffer size offset =>
        cases ha
        exact absurd rfl (hnw buffer size offset)
    | _ => trivial
  have hp : Positive a := by
    rintro t buffer size offset rfl
    cases ha
    exact absurd rfl (hnw buffer size offset)
  have hclean := h.clean.act h.inv hg hp hs
  obtain ⟨h0, hlive⟩ := act_live h.inv ha hs
  obtain ⟨hinv, u, hl, hu⟩ := act_local h.inv hg hs
  obtain rfl : s = u := by
    rcases hu with hu | ⟨hu, -⟩
    · exact Option.some.inj (ha.symm.trans hu)
    · rw [ha] at hu
      cases hu
  refine h.step_local hinv hclean hl (fun hnew _ => ?_) fun _ _ _ => rfl
  have hstored := h.stored s hlive h0
  rw [← h.contents s hlive h0]
  cases (act_acts ha hs).2 with
  | opened => exact inodeOpen_stored hstored
  | written => exact absurd rfl (hnw _ _ _)
  | closed hc => exact inodeClose_stored h.inv h0 hc hnew hstored
  | recounted hi hd => exact recount_stored hi hd hstored

end Kept

theorem inodeCreate_block {length : ℤ} {isDir : Bool}
    (hc : st.inodeCreate s length isDir = some (true, st')) : ∃ d : InodeDisk, st'.disk s = d.toBlock := by
  unfold State.inodeCreate at hc
  split_ifs at hc
  rcases hm : st.malloc with ⟨ok, st₁⟩
  rw [hm] at hc
  cases ok with
  | false => cases hc
  | true =>
      simp only [if_true, Option.bind_eq_bind, Option.bind_eq_some_iff] at hc
      obtain ⟨⟨ok, d, st₂⟩, -, hc⟩ := hc
      cases ok with
      | false => cases hc
      | true =>
          cases hc
          exact ⟨d, Function.update_self ..⟩

theorem kept_format {disk : Sector → Block} {size : Sector} {heap : ℕ → Bool}
    (hf : State.format disk size heap = some st) :
    Kept st fun s => contents st.disk (st.dataOf s) := by
  refine ⟨inv_format hf, clean_format hf, fun s hs h0 => ?_, fun _ _ _ => rfl⟩
  obtain ⟨st₁, -, hinv, hc, hlive, -⟩ := format_created hf
  obtain rfl : s = 1 := by
    by_contra hne
    rw [hc.live, Function.update_of_ne hne, hlive s h0] at hs
    cases hs
  have hnone : st.openInodes 1 = none := by
    rw [hc.takes.openInodes]
    exact hinv.not_open (hlive 1 (by decide))
  obtain ⟨d, hd⟩ : ∃ d : InodeDisk, st.disk 1 = d.toBlock := by
    obtain ⟨-, _, _, _, _, -, -, -, hroot, rfl⟩ := format_calls hf
    obtain ⟨d, hd⟩ := inodeCreate_block hroot
    exact ⟨d, hd⟩
  rw [dataOf_closed hnone, hd, toBlock_ofBlock]

end CSE130.Lab3.Files
