import CSE130.Lab3.FreeMap

/-! # The calls on paths

`dir_add`, `dir_remove` and the functions of `filesys.c` as sequences of operations on inodes.
They go wrong in one way only: the directory that a path leads to, or the file that an entry refers
to, need not be an inode (`State.Leads`).  `dir_open_path` looks up names in any file, and
`filesys_open` lets any file be written. -/

namespace CSE130.Lab3.Files

open BlockTree Transition
open Function (update)

variable {st st' st₁ st₂ : State} {s t x dir : Sector} {i i' : Inode} {S : Set Sector} {full : Bool}
  {name : Name} {e : DirEntry} {ok isDir : Bool} {heap : ℕ → Bool} {f : Bool}

/-! ### `dir_add` -/

/-- What `dir_add` does to a new directory, with memory or without. -/
theorem linkParent_cases {r : Option DirEntry} (hn : Counted st)
    (h : st.linkParent dir s e = some (r, st')) :
    r = none ∧ Drift st st' ∧ ¬(∀ k, st.heap k = true) ∨
      ∃ ok st₁ st₂, Drift (st.opened s) st₁ ∧
        st₁.writeEntry s { e with inodeSector := dir } 0 = some (ok, st₂) ∧
        st₂.inodeClose s = some st' ∧ r = if ok then some { e with inodeSector := dir } else none := by
  unfold State.linkParent at h
  obtain ⟨⟨ok₁, st₁⟩, h₁, h⟩ := Option.bind_eq_some_iff.mp h
  have hd₁ := openSector_drift h₁
  cases ok₁ with
  | false =>
      cases h
      exact .inl ⟨rfl, hd₁, fun hm => nomatch openSector_memory (hm 0) h₁⟩
  | true =>
      obtain ⟨hd₁, -⟩ := hd₁
      dsimp only at h
      rw [if_neg Bool.noConfusion] at h
      obtain ⟨⟨ok₂, st₂⟩, h₂, h⟩ := Option.bind_eq_some_iff.mp h
      have hd₂ := dirOpen_drift hn hd₁ h₂
      cases ok₂ with
      | false =>
          cases h
          exact .inl ⟨rfl, hd₂, fun hm => nomatch dirOpen_memory (hd₁.memory hm 0) h₂⟩
      | true =>
          dsimp only at h
          rw [if_neg Bool.noConfusion] at h
          obtain ⟨⟨ok₃, st₃⟩, h₃, h⟩ := Option.bind_eq_some_iff.mp h
          obtain ⟨st₄, h₄, h⟩ := Option.bind_eq_some_iff.mp h
          cases h
          exact .inr ⟨ok₃, st₂, st₃, hd₂, h₃, h₄, rfl⟩

/-- The new directory was not open, and is closed again. -/
theorem linkParent_closed {st₃ : State} (hn : st.openInodes s = none) (hd : Drift (st.opened s) st₁)
    (hw : st₁.writeEntry s e 0 = some (ok, st₂)) (hc : st₂.inodeClose s = some st₃) :
    st₁.openInodes s = some ⟨1, false, 0, .ofBlock (st.disk s)⟩ ∧ st₃ = st₂.setInode s none ∧
      st₂.live = st.live := by
  obtain ⟨heap, f, -, rfl⟩ := hd
  have hi : ((st.opened s).drift heap f).openInodes s = some ⟨1, false, 0, .ofBlock (st.disk s)⟩ := by
    unfold State.opened
    rw [hn]
    exact Function.update_self ..
  obtain ⟨⟨n, st₄⟩, hw, heq⟩ := Option.map_eq_some_iff.mp hw
  cases heq
  obtain ⟨hl, i', ho, hsame⟩ := inodeWriteAt_entry hi hw
  have hi' : st₂.openInodes s = some i' := by rw [ho, Function.update_self]
  exact ⟨hi, close_of_entry hc hi' hsame.openCnt hsame.removed, hl⟩

theorem linkParent_works {r : Option DirEntry} (hn : Counted st) (hs : st.live s = true) (h0 : s ≠ 0)
    (h : st.linkParent dir s e = some (r, st')) :
    Works {s} r.isSome st st' ∧
      (st.openInodes s = none → st'.openInodes s = none ∧ st'.live = st.live) := by
  have hS : s ∈ ({s} : Set Sector) := rfl
  rcases linkParent_cases hn h with ⟨rfl, hd, -⟩ | ⟨ok, st₁, st₂, hd, hw, hc, rfl⟩
  · refine ⟨.single (.drift hd), fun hi => ?_⟩
    obtain ⟨heap, f, -, rfl⟩ := hd
    exact ⟨hi, rfl⟩
  · have hcov : Covered ((0 : ℕ) + 20) st₁.heap := .inl (by decide)
    have hr : (if ok = true then some { e with inodeSector := dir } else none).isSome = ok := by
      cases ok with
      | false => rfl
      | true => rfl
    rw [hr]
    refine ⟨(((Relation.ReflTransGen.single (.opened hS hs h0)).tail (.drift hd)).tail
      (writeEntry_work hS h0 (by decide) hcov hw)).tail (close_work hS h0 hc), fun hi => ?_⟩
    obtain ⟨-, rfl, hl⟩ := linkParent_closed hi hd hw hc
    exact ⟨Function.update_self .., hl⟩

theorem lookup_none {m : Sector → Block} {d : InodeDisk} (h : ¬(lookup m d name).isSome = true) :
    entryOf (contents m d) name = none := by
  rw [lookup_eq, Option.isSome_map] at h
  exact Option.not_isSome_iff_eq_none.mp h

/-- `dir_add` does not get to writing the name. -/
def Refused (bytes : List UInt8) (name : Name) : Prop :=
  name = [] ∨ nameMax < name.length ∨ entryOf bytes name ≠ none

/-- The ways through `dir_add`: the name is refused, the new directory is not linked to its
parent, or the entry is written, to the first free slot. -/
inductive Adds (dir : Sector) (i : Inode) (name : Name) (s : Sector) (isDir : Bool) (e : DirEntry)
    (st : State) : Bool → State → Prop
  | refused (hr : Refused (contents st.disk i.data) name) : Adds dir i name s isDir e st false st
  | unlinked {st' : State} (hr : ¬Refused (contents st.disk i.data) name) (hd : isDir = true)
      (hl : st.linkParent dir s e = some (none, st')) : Adds dir i name s isDir e st false st'
  | written {st₁ st' : State} {i₁ : Inode} {e₁ e' : DirEntry} {ok : Bool}
      (hr : ¬Refused (contents st.disk i.data) name)
      (hl : if isDir then st.linkParent dir s e = some (some e₁, st₁) else st₁ = st)
      (hi : st₁.openInodes dir = some i₁)
      (hw : st₁.writeEntry dir (DirEntry.setName { e' with inUse := 1, inodeSector := s } name)
        (20 * freeSlot (contents st₁.disk i₁.data)) = some (ok, st')) :
      Adds dir i name s isDir e st ok st'

theorem dirAdd_adds (hi : st.openInodes dir = some i)
    (ha : st.dirAdd dir name s isDir e = some (ok, st')) : Adds dir i name s isDir e st ok st' := by
  unfold State.dirAdd at ha
  rw [hi] at ha
  simp only [Option.bind_eq_bind, Option.bind_some] at ha
  split_ifs at ha with hname hpresent hdir
  · cases ha
    exact .refused (hname.imp id .inl)
  · cases ha
    refine .refused (.inr (.inr fun hnone => ?_))
    rw [lookup_eq, hnone] at hpresent
    cases hpresent
  all_goals
    have hr : ¬Refused (contents st.disk i.data) name := by
      rintro (h | h | h)
      · exact hname (.inl h)
      · exact hname (.inr h)
      · exact h (lookup_none hpresent)
  · obtain ⟨⟨r, st₁⟩, hl, ha⟩ := Option.bind_eq_some_iff.mp ha
    cases r with
    | none =>
        cases ha
        exact .unlinked hr hdir hl
    | some e₁ =>
        obtain ⟨i₁, hi₁, ha⟩ := Option.bind_eq_some_iff.mp ha
        dsimp only at ha
        rw [freeSlotLoop_start] at ha
        exact .written hr (by rw [if_pos hdir]; exact hl) hi₁ ha
  · rw [hi, Option.bind_some, freeSlotLoop_start] at ha
    have hl : if isDir then st.linkParent dir s e = some (some e, st) else st = st := by
      rw [if_neg hdir]
    exact .written hr hl hi ha

/-- Linking a new directory leaves the one above alone. -/
theorem linkParent_beside {r : Option DirEntry} (h : Healthy st) (hi : st.openInodes dir = some i)
    (h0 : dir ≠ 0) (hs : st.live s = true) (hs0 : s ≠ 0) (hsd : s ≠ dir)
    (hl : st.linkParent dir s e = some (r, st')) :
    st'.openInodes dir = some i ∧ contents st'.disk i.data = contents st.disk i.data := by
  have hb := (h.works (linkParent_works h.counted hs hs0 hl).1).2
  have hlive := h.inv.opened dir i hi
  have hnot : dir ∉ ({s} : Set Sector) := fun hmem => hsd hmem.symm
  have hopen : st'.openInodes dir = some i := (hb.openInodes dir hnot hlive).trans hi
  have hc := (hb.data dir hnot h0 hlive).2
  rw [dataOf_open hopen, dataOf_open hi] at hc
  exact ⟨hopen, hc⟩

/-- What `dir_add` does before it writes to the directory, and which entry it writes. -/
theorem dirAdd_cases (h : Healthy st) (hi : st.openInodes dir = some i) (h0 : dir ≠ 0)
    (hs : isDir = true → st.live s = true ∧ s ≠ 0 ∧ s ≠ dir)
    (ha : st.dirAdd dir name s isDir e = some (ok, st')) :
    ok = false ∧ Works {s} false st st' ∧
        (st.openInodes s = none → st'.openInodes s = none ∧ st'.live = st.live) ∨
      ∃ (e' : DirEntry) (st₁ : State), name.length ≤ nameMax ∧ entryOf (contents st.disk i.data) name = none ∧
        Works {s} true st st₁ ∧ (st.openInodes s = none → st₁.openInodes s = none ∧ st₁.live = st.live) ∧
        st₁.openInodes dir = some i ∧
        contents st₁.disk i.data = contents st.disk i.data ∧
        st₁.writeEntry dir (DirEntry.setName { e' with inUse := 1, inodeSector := s } name)
          (20 * freeSlot (contents st.disk i.data)) = some (ok, st') := by
  cases dirAdd_adds hi ha with
  | refused => exact .inl ⟨rfl, .refl, fun hi => ⟨hi, rfl⟩⟩
  | unlinked hr hdir hl =>
      obtain ⟨hlive, hs0, -⟩ := hs hdir
      obtain ⟨hdeeds, hclosed⟩ := linkParent_works h.counted hlive hs0 hl
      exact .inl ⟨rfl, hdeeds, hclosed⟩
  | @written st₁ _ i₁ e₁ e' _ hr hl hi₁ hw =>
      have hshort : name.length ≤ nameMax := not_lt.mp fun hlt => hr (.inr (.inl hlt))
      have hnone : entryOf (contents st.disk i.data) name = none := by
        by_contra hne
        exact hr (.inr (.inr hne))
      by_cases hdir : isDir = true
      · rw [if_pos hdir] at hl
        obtain ⟨hlive, hs0, hsd⟩ := hs hdir
        obtain ⟨hdeeds, hclosed⟩ := linkParent_works h.counted hlive hs0 hl
        obtain ⟨hopen, hbytes⟩ := linkParent_beside h hi h0 hlive hs0 hsd hl
        obtain rfl := Option.some.inj (hopen.symm.trans hi₁)
        rw [hbytes] at hw
        exact .inr ⟨e', st₁, hshort, hnone, hdeeds, hclosed, hopen, hbytes, hw⟩
      · rw [if_neg hdir] at hl
        subst hl
        obtain rfl := Option.some.inj (hi.symm.trans hi₁)
        exact .inr ⟨e', st₁, hshort, hnone, .refl, fun hi => ⟨hi, rfl⟩, hi, rfl, hw⟩

theorem Healthy.slot_lt (h : Healthy st) (hi : st.openInodes dir = some i) {k : ℕ}
    (hk : k ≤ i.data.length / 20) : 20 * k + 20 < 2 ^ 31 := by
  have hsmall := (h.inv.opened_data hi).1.small
  unfold bytesToSectors at hsmall
  omega

theorem dirAdd_works (h : Healthy st) (hi : st.openInodes dir = some i) (h0 : dir ≠ 0)
    (hs : isDir = true → st.live s = true ∧ s ≠ 0 ∧ s ≠ dir)
    (hcov : Covered (i.data.length + 20) st.heap)
    (ha : st.dirAdd dir name s isDir e = some (ok, st')) :
    Works {dir, s} ok st st' ∧ (st.openInodes s = none → s ≠ dir →
      st'.openInodes s = none ∧ st'.live = st.live) := by
  rcases dirAdd_cases h hi h0 hs ha with ⟨rfl, hd, hclosed⟩ |
      ⟨e', st₁, -, -, hd, hclosed, hopen, -, hw⟩
  · exact ⟨hd.mono (Set.singleton_subset_iff.mpr (.inr rfl)) id, fun hn _ => hclosed hn⟩
  · have hle := freeSlot_le (contents st.disk i.data)
    rw [contents_length] at hle
    have hcov' : Covered ((20 * freeSlot (contents st.disk i.data) : ℕ) + 20) st₁.heap :=
      hcov.later (by omega) hd.later
    refine ⟨(hd.mono (Set.singleton_subset_iff.mpr (.inr rfl)) fun _ => rfl).tail
      (writeEntry_work (.inl rfl) h0 (h.slot_lt hi hle) hcov' hw), fun hn hsd => ?_⟩
    obtain ⟨hclosed, hlive⟩ := hclosed hn
    obtain ⟨⟨n, st₂⟩, hw, heq⟩ := Option.map_eq_some_iff.mp hw
    cases heq
    obtain ⟨hl, i', ho, -⟩ := inodeWriteAt_entry hopen hw
    refine ⟨?_, hl.trans hlive⟩
    rw [ho, Function.update_of_ne hsd]
    exact hclosed

/-! ### `dir_remove` -/

theorem remove_work (hS : s ∈ S) (h0 : s ≠ 0) (hr : st.inodeRemove s = some st') :
    Work S full st st' := by
  have hact : Files.act (.remove s) st = some st' := by
    unfold Files.act
    dsimp only
    rw [if_pos h0, hr]
  refine ⟨.act (a := .remove s) (fun t ht => ?_) trivial nofun (fun _ => nofun) hact, fun _ => ?_⟩
  · cases ht
    exact hS
  · obtain ⟨-, i, i', hi, rfl, hd⟩ := recount_cases (.inl rfl) hact
    exact recount_saves h0 hi hd

/-- `dir_remove` has opened the inode at `s`, and looked whether it is of a directory with
entries.  For this it opens a `struct dir`, which takes the reference, and closes it again. -/
def Tested (st : State) (s : Sector) (isEmpty : Bool) (st₂ : State) : Prop :=
  ∃ st₁, Drift (st.opened s) st₁ ∧
    if (st.dataOf s).isDir then
      isEmpty = (nextEntry (contents st.disk (st.dataOf s)) 1).isNone ∧ st₁.inodeClose s = some st₂
    else isEmpty = true ∧ st₂ = st₁

/-- The ways through `dir_remove` for the entry `e` in the slot `k`. -/
inductive Removes (dir : Sector) (k : ℕ) (e : DirEntry) (st : State) : Bool → State → Prop
  | unopened {st' : State} (ho : st.openSector e.inodeSector = some (false, st')) :
      Removes dir k e st false st'
  | nonempty {st₂ st' : State} (ht : Tested st e.inodeSector false st₂)
      (hc : st₂.inodeClose e.inodeSector = some st') : Removes dir k e st false st'
  | unwritten {st₂ st₃ st' : State} (ht : Tested st e.inodeSector true st₂)
      (hw : st₂.writeEntry dir { e with inUse := 0 } (20 * k) = some (false, st₃))
      (hc : st₃.inodeClose e.inodeSector = some st') : Removes dir k e st false st'
  | removed {st₂ st₃ st₄ st' : State} (ht : Tested st e.inodeSector true st₂)
      (hw : st₂.writeEntry dir { e with inUse := 0 } (20 * k) = some (true, st₃))
      (hr : st₃.inodeRemove e.inodeSector = some st₄)
      (hc : st₄.inodeClose e.inodeSector = some st') : Removes dir k e st true st'

theorem dirRemove_removes (hn : Counted st) (hi : st.openInodes dir = some i)
    (hr : st.dirRemove dir name = some (ok, st')) :
    entryOf (contents st.disk i.data) name = none ∧ ok = false ∧ st' = st ∨
      ∃ k, entryOf (contents st.disk i.data) name = some k ∧
        Removes dir k (entryAt (contents st.disk i.data) k) st ok st' := by
  unfold State.dirRemove at hr
  rw [hi] at hr
  simp only [Option.bind_eq_bind, Option.bind_some] at hr
  rw [lookup_eq] at hr
  cases hk : entryOf (contents st.disk i.data) name with
  | none =>
      rw [hk] at hr
      cases hr
      exact .inl ⟨rfl, rfl, rfl⟩
  | some k =>
      rw [hk] at hr
      refine .inr ⟨k, rfl, ?_⟩
      dsimp only [Option.map_some] at hr
      generalize entryAt (contents st.disk i.data) k = e at hr ⊢
      obtain ⟨⟨ok₁, st₁⟩, h₁, hr⟩ := Option.bind_eq_some_iff.mp hr
      cases ok₁ with
      | false =>
          cases hr
          exact .unopened h₁
      | true =>
          obtain ⟨hd₁, -⟩ := openSector_drift h₁
          dsimp only at hr
          rw [if_neg Bool.noConfusion] at hr
          obtain ⟨target, htarget, hr⟩ := Option.bind_eq_some_iff.mp hr
          have hdata : target.data = st.dataOf e.inodeSector := by
            obtain ⟨heap, f, -, rfl⟩ := hd₁
            rw [← dataOf_open htarget, drift_dataOf, opened_dataOf]
          -- what follows the test for an empty directory
          have hlast : ∀ {st₂ : State}, Tested st e.inodeSector true st₂ →
              ((st₂.writeEntry dir { e with inUse := 0 } (20 * k)).bind fun x =>
                if x.1 = false then (x.2.inodeClose e.inodeSector).map fun st => (false, st)
                else (x.2.inodeRemove e.inodeSector).bind fun st =>
                  (st.inodeClose e.inodeSector).map fun st => (true, st)) = some (ok, st') →
              Removes dir k e st ok st' := by
            intro st₂ ht hr
            obtain ⟨⟨ok₃, st₃⟩, hw, hr⟩ := Option.bind_eq_some_iff.mp hr
            cases ok₃ with
            | false =>
                obtain ⟨st₄, hc, heq⟩ := Option.map_eq_some_iff.mp hr
                cases heq
                exact .unwritten ht hw hc
            | true =>
                obtain ⟨st₄, hrem, hr⟩ := Option.bind_eq_some_iff.mp hr
                obtain ⟨st₅, hc, heq⟩ := Option.map_eq_some_iff.mp hr
                cases heq
                exact .removed ht hw hrem hc
          rw [hdata] at hr
          cases hdir : (st.dataOf e.inodeSector).isDir with
          | false =>
              rw [hdir] at hr
              exact hlast ⟨st₁, hd₁, by rw [hdir]; exact ⟨rfl, rfl⟩⟩ hr
          | true =>
              rw [hdir] at hr
              obtain ⟨⟨ok₂, st₂⟩, h₂, hr⟩ := Option.bind_eq_some_iff.mp hr
              have hd₂ := dirOpen_drift hn hd₁ h₂
              cases ok₂ with
              | false => cases hr
              | true =>
                  obtain ⟨st₃, hc, hr⟩ := Option.bind_eq_some_iff.mp hr
                  have hdisk : st₂.disk = st.disk := by
                    obtain ⟨heap, f, -, rfl⟩ := hd₂
                    rfl
                  have hempty := isEmptyLoop_eq st₂.disk (st.dataOf e.inodeSector)
                    ((st.dataOf e.inodeSector).length / 20) 1 (by omega)
                  rw [hdisk] at hempty
                  have htested : Tested st e.inodeSector
                      (nextEntry (contents st.disk (st.dataOf e.inodeSector)) 1).isNone st₃ :=
                    ⟨st₂, hd₂, by rw [hdir]; exact ⟨rfl, hc⟩⟩
                  rw [← hempty] at htested
                  split_ifs at hr with hfull
                  · obtain ⟨st₄, hc, heq⟩ := Option.map_eq_some_iff.mp hr
                    cases heq
                    rw [hdisk] at hfull
                    rw [hfull] at htested
                    exact .nonempty htested hc
                  · rw [hdisk] at hfull
                    rw [Bool.eq_true_of_not_eq_false hfull] at htested
                    exact hlast htested hr

theorem Tested.works {isEmpty : Bool} (ht : Tested st s isEmpty st₂) (hlive : st.live s = true)
    (h0 : s ≠ 0) (full : Bool) : Works {s} full st st₂ := by
  obtain ⟨st₁, hd, ht⟩ := ht
  have hopen : Works {s} full st st₁ :=
    (Relation.ReflTransGen.single (.opened rfl hlive h0)).tail (.drift hd)
  split_ifs at ht
  · exact hopen.tail (close_work rfl h0 ht.2)
  · rw [ht.2]
    exact hopen

theorem dirRemove_works (h : Healthy st) (hi : st.openInodes dir = some i) (h0 : dir ≠ 0)
    (hs : ∀ k, entryOf (contents st.disk i.data) name = some k →
      st.live (entryAt (contents st.disk i.data) k).inodeSector = true ∧
        (entryAt (contents st.disk i.data) k).inodeSector ≠ 0)
    (hcov : Covered i.data.length st.heap) (hr : st.dirRemove dir name = some (ok, st')) :
    Works Set.univ ok st st' := by
  have hS : ∀ x : Sector, x ∈ Set.univ := Set.mem_univ
  rcases dirRemove_removes h.counted hi hr with ⟨-, -, rfl⟩ | ⟨k, hk, hrem⟩
  · exact .refl
  obtain ⟨hlive, hs0⟩ := hs k hk
  obtain ⟨⟨-, -, hlt⟩, -⟩ := entryOf_eq_some.mp hk
  rw [contents_length] at hlt
  generalize entryAt (contents st.disk i.data) k = e at hlive hs0 hrem
  have htest : ∀ {isEmpty full : Bool} {st₂ : State}, Tested st e.inodeSector isEmpty st₂ →
      Works Set.univ full st st₂ := fun ht =>
    Works.mono (ht.works hlive hs0 true) (Set.subset_univ _) fun _ => rfl
  have hwrite : ∀ {b : Bool} {st₂ st₃ : State}, Works Set.univ true st st₂ →
      st₂.writeEntry dir { e with inUse := 0 } (20 * k) = some (b, st₃) → Work Set.univ b st₂ st₃ := by
    intro b st₂ st₃ hd hw
    exact writeEntry_work (hS dir) h0 (h.slot_lt hi hlt.le) (hcov.later (by omega) hd.later) hw
  cases hrem with
  | unopened ho => exact .single (.drift (openSector_drift ho))
  | nonempty ht hc => exact (htest ht).tail (close_work (hS _) hs0 hc)
  | unwritten ht hw hc =>
      exact ((htest ht).tail (hwrite (htest ht) hw)).tail (close_work (hS _) hs0 hc)
  | removed ht hw hremove hc =>
      exact (((htest ht).tail (hwrite (htest ht) hw)).tail (remove_work (hS _) hs0 hremove)).tail
        (close_work (hS _) hs0 hc)

/-! ### Calls on paths -/

variable {cwd : Option Sector} {path : List UInt8}

/-- The inode of a file or directory, not the free map's. -/
def IsFile (st : State) (s : Sector) : Prop := st.live s = true ∧ s ≠ 0

theorem opened_entry (hd : Drift (st.opened dir) st₁) :
    (∃ i, st₁.openInodes dir = some i ∧ i.data = st.dataOf dir) ∧ st₁.disk = st.disk ∧
      st₁.live = st.live := by
  obtain ⟨heap, f, -, rfl⟩ := hd
  have hi : ∃ i, ((st.opened dir).drift heap f).openInodes dir = some i :=
    ⟨_, Function.update_self ..⟩
  obtain ⟨i, hi⟩ := hi
  refine ⟨⟨i, hi, ?_⟩, rfl, rfl⟩
  rw [← dataOf_open hi, drift_dataOf, opened_dataOf]

theorem opened_works (hS : s ∈ S) (hs : IsFile st s) (hd : Drift (st.opened s) st') :
    Works S full st st' :=
  (Relation.ReflTransGen.single (.opened hS hs.1 hs.2)).tail (.drift hd)

theorem filesysOpen_works {r : Option Sector} (h : Healthy st)
    (hs : ∀ s, resolve st cwd path = some s → IsFile st s)
    (ho : Paths.filesysOpen st cwd path = some (r, st')) : Works Set.univ full st st' := by
  rcases filesysOpen_cases h.counted ho with ⟨-, hd⟩ | ⟨s, hr, -, hd⟩
  · exact .single (.drift hd)
  · exact opened_works (Set.mem_univ s) (hs s hr) hd

/-- The directory is closed at the end of a call. -/
theorem dirClose_work {b ok : Bool} (hS : dir ∈ S) (h0 : dir ≠ 0)
    (hc : ((st₁.dirClose (some dir)).map fun st => (b, st)) = some (ok, st')) :
    ok = b ∧ ∀ full, Work S full st₁ st' := by
  obtain ⟨st₂, hc, heq⟩ := Option.map_eq_some_iff.mp hc
  cases heq
  exact ⟨rfl, fun _ => close_work hS h0 hc⟩

/-- The file that `filesys_remove` is to remove. -/
def victim (st : State) (cwd : Option Sector) (path : List UInt8) : Option Sector :=
  (pathDir st cwd (splitPathFilename path).1).bind fun d =>
    (entryOf (contents st.disk (st.dataOf d)) (splitPathFilename path).2).map fun k =>
      (entryAt (contents st.disk (st.dataOf d)) k).inodeSector

@[simp] theorem victim_drift (st : State) :
    victim (st.drift heap f) cwd path = victim st cwd path := by
  unfold victim
  rw [pathDir_drift]
  rfl

theorem filesysRemove_works (h : Healthy st)
    (hd : ∀ d, pathDir st cwd (splitPathFilename path).1 = some d →
      IsFile st d ∧ Covered (st.dataOf d).length st.heap)
    (hs : ∀ s, victim st cwd path = some s → IsFile st s)
    (hr : Paths.filesysRemove st cwd path = some (ok, st')) : Works Set.univ ok st st' := by
  unfold Paths.filesysRemove at hr
  rcases hsplit : splitPathFilename path with ⟨directory, fileName⟩
  unfold victim at hs
  rw [hsplit] at hr hd hs
  dsimp only at hr hd hs
  obtain ⟨⟨r, st₁⟩, hp, hr⟩ := Option.bind_eq_some_iff.mp hr
  rcases dirOpenPath_cases h.counted hp with ⟨rfl, hdrift⟩ | ⟨d, rfl, hdir, hdrift⟩
  · cases hr
    exact .single (.drift hdrift)
  · obtain ⟨hfile, hcov⟩ := hd d hdir
    rw [hdir, Option.bind_some] at hs
    have hopen : Works Set.univ true st st₁ := opened_works (Set.mem_univ d) hfile hdrift
    obtain ⟨⟨i, hi, hdata⟩, hdisk, hlive⟩ := opened_entry hdrift
    obtain ⟨⟨removed, st₂⟩, hrem, hr⟩ := Option.bind_eq_some_iff.mp hr
    obtain ⟨rfl, hclose⟩ := dirClose_work (Set.mem_univ d) hfile.2 hr
    refine ((hopen.mono (fun _ => id) fun _ => rfl).trans (dirRemove_works (h.works hopen).1 hi hfile.2
      (fun k hk => ?_) ?_ hrem)).tail (hclose _)
    · rw [hdata, hdisk] at hk ⊢
      rw [hlive]
      exact hs _ (by rw [hk]; rfl)
    · rw [hdata]
      exact hcov.later (Int.le_refl _) hopen.later

/-- The inode of a new file, before its name is in a directory. -/
theorem create_work {size : ℤ} (hsize : offT size = size) (hcov : Covered size st.heap)
    (hc : st.filesysCreate size isDir true = some st') (hv : full = true → Saves st st') :
    Work S full st st' := by
  refine ⟨.act (a := .create size isDir true) nofun hcov nofun (fun _ => nofun) ?_, hv⟩
  unfold Files.act
  dsimp only
  rw [if_pos hsize, hc]

theorem allocate_new (h : Inv st) (ha : st.freeMapAllocate = (some s, st₁)) :
    st.live s = false ∧ s ≠ 0 ∧ st.openInodes s = none := by
  rcases allocate_cases h.ground with ⟨u, st₂, hu, hfree, -⟩ | ⟨st₂, hn, -⟩
  · obtain ⟨heq, -⟩ := Prod.mk.inj (hu.symm.trans ha)
    obtain rfl := Option.some.inj heq
    have hlive := h.not_live hfree
    exact ⟨hlive, h.ne_zero hfree, h.not_open hlive⟩
  · cases hn.symm.trans ha

variable (name e) in
theorem create_cases {size : ℤ} (h : Healthy st) (hi : st.openInodes dir = some i) (h0 : dir ≠ 0)
    (hsize : offT size = size) (hcov : Covered size st.heap)
    (hcov' : Covered (i.data.length + 20) st.heap) (ha : st.freeMapAllocate = (some s, st₁))
    {created : Bool} (hc : st₁.inodeCreate s size isDir = some (created, st₂))
    {added : Bool} {st₃ : State} (hadd : (if created then
        State.dirAdd { st₂ with live := update st₂.live s true } dir name s isDir e
      else some (false, st₂)) = some (added, st₃)) :
    if added then Works {dir, s} true st st₃
    else ∀ st₄, st₃.freeMapRelease s = some st₄ →
      Works {dir, s} false st { st₄ with live := update st₄.live s false } := by
  obtain ⟨hlive, hs0, hn⟩ := allocate_new h.inv ha
  have honly := (show SectorsOnly st st₁ from by
    have := freeMapAllocate_only st
    rwa [ha] at this).trans (inodeCreate_only hc)
  cases created with
  | false =>
      cases hadd
      intro st₄ hr
      have hfiles : st.filesysCreate size isDir true = some st₄ := by
        unfold State.filesysCreate
        rw [ha]
        dsimp only
        rw [hc]
        exact hr
      have hsame : { st₄ with live := update st₄.live s false } = st₄ := by
        have hl : st₄.live s = false := by
          rw [(honly.trans (freeMapRelease_only hr)).live, hlive]
        rw [← hl, Function.update_eq_self]
      rw [hsame]
      exact .single (create_work hsize hcov hfiles nofun)
  | true =>
      have hfiles : st.filesysCreate size isDir true =
          some { st₂ with live := update st₂.live s true } := by
        unfold State.filesysCreate
        rw [ha]
        dsimp only
        rw [hc]
        rfl
      have hwork : ∀ full, Work (∅ : Set Sector) full st { st₂ with live := update st₂.live s true } :=
        fun _ => create_work hsize hcov hfiles fun _ => create_saves hsize hcov ha hc
      obtain ⟨h', hb⟩ := h.deed (hwork true).deed
      have hdirlive := h.inv.opened dir i hi
      have hsd : s ≠ dir := by
        rintro rfl
        rw [hlive] at hdirlive
        cases hdirlive
      have hnew : update st₂.live s true s = true := Function.update_self ..
      have hn' : st₂.openInodes s = none := by rw [honly.openInodes, hn]
      have hi' := (hb.openInodes dir (Set.notMem_empty dir) hdirlive).trans hi
      obtain ⟨hadds, hclosed⟩ := dirAdd_works h' hi' h0 (fun _ => ⟨hnew, hs0, hsd⟩)
        (hcov'.later (Int.le_refl _) (hwork true).deed.later) hadd
      obtain ⟨hn₃, hl₃⟩ := hclosed hn' hsd
      have hall : Works {dir, s} added st st₃ :=
        (Relation.ReflTransGen.single ((hwork added).mono (Set.empty_subset _) id)).trans hadds
      cases added with
      | true => exact hall
      | false =>
          intro st₄ hr
          refine hall.tail ⟨.abandon (.inr rfl) rfl ?_ hs0 hn₃ hr, nofun⟩
          rw [hl₃]
          exact hnew

/-- The inodes that a creation works on: the directory, and one that is not in use before. -/
def Creates (st : State) (cwd : Option Sector) (path : List UInt8) : Set Sector :=
  {x | pathDir st cwd (splitPathFilename path).1 = some x ∨ st.live x = false}

theorem filesysCreate_works {size : ℤ} (h : Healthy st)
    (hd : ∀ d, pathDir st cwd (splitPathFilename path).1 = some d →
      IsFile st d ∧ Covered ((st.dataOf d).length + 20) st.heap)
    (hsize : offT size = size) (hcov : Covered size st.heap)
    (hc : Paths.filesysCreate st cwd path size isDir e = some (ok, st')) :
    Works (Creates st cwd path) ok st st' := by
  unfold Paths.filesysCreate at hc
  unfold Creates
  rcases hsplit : splitPathFilename path with ⟨directory, fileName⟩
  rw [hsplit] at hc hd
  dsimp only at hc hd ⊢
  obtain ⟨⟨r, st₁⟩, hp, hc⟩ := Option.bind_eq_some_iff.mp hc
  rcases dirOpenPath_cases h.counted hp with ⟨rfl, hdrift⟩ | ⟨d, rfl, hdir, hdrift⟩
  · cases hc
    exact .single (.drift hdrift)
  · obtain ⟨hfile, hcovd⟩ := hd d hdir
    have hS : d ∈ {x | pathDir st cwd directory = some x ∨ st.live x = false} := .inl hdir
    have hopen : ∀ full, Works {x | pathDir st cwd directory = some x ∨ st.live x = false} full st st₁ :=
      fun _ => opened_works hS hfile hdrift
    obtain ⟨⟨i, hi, hdata⟩, -, hlive⟩ := opened_entry hdrift
    have h₁ := (h.works (hopen true)).1
    have hcov₁ := hcov.later (Int.le_refl _) (hopen true).later
    have hcovd₁ : Covered (i.data.length + 20) st₁.heap := by
      rw [hdata]
      exact hcovd.later (Int.le_refl _) (hopen true).later
    dsimp only at hc
    rcases ha : st₁.freeMapAllocate with ⟨_ | s, st₂⟩
    · rw [ha] at hc
      obtain ⟨rfl, hclose⟩ := dirClose_work hS hfile.2 hc
      have hfiles : st₁.filesysCreate size isDir true = some st₂ := by
        unfold State.filesysCreate
        rw [ha]
      exact ((hopen false).tail (create_work hsize hcov₁ hfiles nofun)).tail (hclose _)
    · rw [ha] at hc
      have hsub : ({d, s} : Set Sector) ⊆ {x | pathDir st cwd directory = some x ∨ st.live x = false} := by
        rintro x (rfl | rfl)
        · exact hS
        · exact .inr (hlive ▸ (allocate_new h₁.inv ha).1)
      obtain ⟨⟨created, st₃⟩, hcreate, hc⟩ := Option.bind_eq_some_iff.mp hc
      cases created with
      | false =>
          obtain ⟨st₅, hrel, hc⟩ := Option.bind_eq_some_iff.mp hc
          obtain ⟨rfl, hclose⟩ := dirClose_work hS hfile.2 hc
          obtain ⟨st₆, hr, rfl⟩ := Option.map_eq_some_iff.mp hrel
          have hfailed := create_cases fileName e h₁ hi hfile.2 hsize hcov₁ hcovd₁ ha hcreate rfl
          exact ((hopen false).trans ((hfailed st₆ hr).mono hsub id)).tail (hclose _)
      | true =>
          obtain ⟨⟨added, st₄⟩, hadd, hc⟩ := Option.bind_eq_some_iff.mp hc
          dsimp only at hc
          have hadded := create_cases fileName e h₁ hi hfile.2 hsize hcov₁ hcovd₁ ha hcreate hadd
          cases added with
          | true =>
              obtain ⟨rfl, hclose⟩ := dirClose_work hS hfile.2 hc
              exact ((hopen true).trans (Works.mono hadded hsub id)).tail (hclose _)
          | false =>
              obtain ⟨st₅, hrel, hc⟩ := Option.bind_eq_some_iff.mp hc
              obtain ⟨rfl, hclose⟩ := dirClose_work hS hfile.2 hc
              obtain ⟨st₆, hr, rfl⟩ := Option.map_eq_some_iff.mp hrel
              exact ((hopen false).trans (Works.mono (hadded st₆ hr) hsub id)).tail (hclose _)

end CSE130.Lab3.Files
