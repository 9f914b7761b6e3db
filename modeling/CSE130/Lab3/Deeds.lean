import CSE130.Lab3.Entries
import CSE130.Lab3.References

/-! # The directory layer works on inodes

Each call on a path is a sequence of operations of `inode.c` (`Deeds`), so it keeps what these keep.
There is one exception: when `dir_add` fails, `filesys_create` releases the sector of an inode that
is complete, and the blocks of this inode are lost (`Deed.abandon`). -/

namespace CSE130.Lab3.Files

open BlockTree Transition
open Function (update)

variable {st st' st₁ st₂ : State} {s t x dir : Sector} {i i' : Inode} {S : Set Sector} {full : Bool}
  {name : Name} {e : DirEntry} {ok isDir : Bool} {heap : ℕ → Bool} {f : Bool}

/-- What holds between any two calls. -/
structure Healthy (st : State) : Prop where
  inv : Inv st
  counted : Counted st

/-- A write writes all it is asked to. -/
def Full (st : State) (a : Action) : Prop :=
  ∀ s buffer size offset, a = .write s buffer size offset →
    ∃ st', st.inodeWriteAt s buffer size offset = some (size.toNat, st')

/-- An operation on an inode of `S`, or on a new one.  With `full` nothing goes wrong. -/
inductive Deed (S : Set Sector) (full : Bool) (st : State) : State → Prop
  | drift {st' : State} (hd : Drift st st') : Deed S full st st'
  | opened {s : Sector} (hS : s ∈ S) (hs : st.live s = true) (h0 : s ≠ 0) : Deed S full st (st.opened s)
  | act {a : Action} {st' : State} (hS : ∀ s, a.inode = some s → s ∈ S)
      (hg : Sound st (a, st.heap)) (hp : Positive a) (hf : full = true → Full st a)
      (hs : act a st = some st') : Deed S full st st'
  | abandon {s : Sector} {st' : State} (hS : s ∈ S) (hf : full = false) (hs : st.live s = true)
      (h0 : s ≠ 0) (hi : st.openInodes s = none) (hr : st.freeMapRelease s = some st') :
      Deed S full st { st' with live := update st'.live s false }

/-- A sequence of such operations. -/
abbrev Deeds (S : Set Sector) (full : Bool) : State → State → Prop :=
  Relation.ReflTransGen (Deed S full)

/-- The inodes outside of `S` are as before. -/
structure Beside (S : Set Sector) (st st' : State) : Prop where
  size : st'.size = st.size
  live : ∀ t, t ∉ S → st.live t = true → st'.live t = true
  openInodes : ∀ t, t ∉ S → st.live t = true → st'.openInodes t = st.openInodes t
  data : ∀ t, t ∉ S → t ≠ 0 → st.live t = true → st'.dataOf t = st.dataOf t ∧
    contents st'.disk (st'.dataOf t) = contents st.disk (st.dataOf t)

theorem Beside.refl (st : State) : Beside S st st :=
  ⟨rfl, fun _ _ h => h, fun _ _ _ => rfl, fun _ _ _ _ => ⟨rfl, rfl⟩⟩

theorem Beside.trans (h : Beside S st st₁) (h' : Beside S st₁ st') : Beside S st st' where
  size := h'.size.trans h.size
  live t ht hl := h'.live t ht (h.live t ht hl)
  openInodes t ht hl := (h'.openInodes t ht (h.live t ht hl)).trans (h.openInodes t ht hl)
  data t ht h0 hl := by
    obtain ⟨hd, hc⟩ := h.data t ht h0 hl
    obtain ⟨hd', hc'⟩ := h'.data t ht h0 (h.live t ht hl)
    exact ⟨hd'.trans hd, hc'.trans hc⟩

theorem Local.beside (hl : Local s st st') (h : Inv st) (hS : s ∈ S ∨ st.live s = false) :
    Beside S st st' := by
  have hne : ∀ t, t ∉ S → st.live t = true → t ≠ s := by
    rintro t ht hlive rfl
    rcases hS with hS | hS
    · exact ht hS
    · rw [hS] at hlive
      cases hlive
  exact {
    size := hl.size
    live := fun t ht hlive => (hl.live t (hne t ht hlive)).trans hlive
    openInodes := fun t ht hlive => hl.openInodes t (hne t ht hlive)
    data := fun t ht h0 hlive => ⟨hl.dataOf_eq h (hne t ht hlive) hlive,
      hl.contents_eq h (hne t ht hlive) h0 hlive⟩ }

/-! ### Reference counts stay positive -/

theorem Counted.of_eq (h : Counted st) (ho : st'.openInodes = st.openInodes) : Counted st' := by
  unfold Counted
  rw [ho]
  exact h

theorem Counted.setInode (h : Counted st) (hi : i.openCnt ≠ 0) :
    Counted (st.setInode s (some i)) := by
  intro t j hj
  by_cases ht : t = s
  · subst ht
    rw [setInode_self] at hj
    cases hj
    exact hi
  · have hj : update st.openInodes s _ t = some j := hj
    rw [Function.update_of_ne ht] at hj
    exact h t j hj

theorem Counted.erase (h : Counted st) : Counted (st.setInode s none) := by
  intro t j hj
  have hj : update st.openInodes s none t = some j := hj
  by_cases ht : t = s
  · subst ht
    rw [Function.update_self] at hj
    cases hj
  · rw [Function.update_of_ne ht] at hj
    exact h t j hj

theorem Counted.of_counts (h : Counted st) (hc : SameCounts st st')
    (ho : ∀ t, st'.openInodes t ≠ none → st.openInodes t ≠ none) : Counted st' := by
  intro t i' hi'
  obtain ⟨i, hi⟩ := Option.ne_none_iff_exists'.mp (ho t (by rw [hi']; nofun))
  have hopens := hc.opens t
  rw [opens_of_open hi', opens_of_open hi] at hopens
  rw [hopens]
  exact h t i hi

theorem Counted.drift_of (h : Counted st) (hd : Drift st st') : Counted st' := by
  obtain ⟨heap, f, -, rfl⟩ := hd
  exact h

theorem Counted.close (h : Counted st) (hc : st.inodeClose s = some st') : Counted st' := by
  unfold State.inodeClose at hc
  split at hc
  · cases hc
  · rename_i i hi
    split at hc
    · dsimp only at hc
      split at hc
      · obtain ⟨st₁, h₁, hc⟩ := Option.bind_eq_some_iff.mp hc
        obtain ⟨st₂, h₂, hc⟩ := Option.bind_eq_some_iff.mp hc
        cases hc
        exact h.erase.of_eq ((freeMapRelease_only h₁).trans (inodeDeallocate_only h₂)).openInodes
      · cases hc
        exact h.erase
    · rename_i hcnt
      cases hc
      exact h.setInode hcnt

theorem Counted.act {a : Action} (hn : Counted st) (h : Inv st) (hg : Sound st (a, st.heap))
    (hs : act a st = some st') : Counted st' := by
  have hdom : ∀ u, Local u st st' → st.openInodes u ≠ none →
      ∀ t, st'.openInodes t ≠ none → st.openInodes t ≠ none := by
    intro u hl hu t ht
    by_cases htu : t = u
    · rwa [htu]
    · rwa [← hl.openInodes t htu]
  -- a change of the counters of an inode that is open
  have hrecount : ∀ s i, st.openInodes s = some i → ∀ i', st' = st.setInode s (some i') →
      (∀ t, st'.opens t = st.opens t) → Counted st' := by
    rintro s i hi i' rfl hopens
    refine hn.setInode ?_
    have := hopens s
    rw [opens_setInode, if_pos rfl, opens_of_open hi, Option.map_some, Option.getD_some] at this
    rw [this]
    exact hn s i hi
  cases a with
  | create length isDir added =>
      rcases filesysCreate_cases h hg (act_create hs).2 with ⟨ht, -⟩ | ⟨s, hc⟩
      · exact hn.of_eq ht.openInodes
      · exact hn.of_eq hc.takes.openInodes
  | «open» s =>
      unfold Files.act at hs
      dsimp only at hs
      split_ifs at hs
      cases hs
      rcases ho : st.inodeOpen s with ⟨ok, st₁⟩
      have hd := inodeOpen_drift ho
      cases ok with
      | false => exact hn.drift_of hd
      | true => exact hn.opened.drift_of hd
  | write s buffer size offset =>
      unfold Files.act at hs
      dsimp only at hs
      split_ifs at hs with hc
      obtain ⟨⟨n, st₁⟩, hw, rfl⟩ := Option.map_eq_some_iff.mp hs
      obtain ⟨i, hi⟩ := inodeWriteAt_open hw
      obtain ⟨-, hl⟩ := inodeWriteAt_local h hc.1 hi hg hw
      exact hn.of_counts (inodeWriteAt_counts hw) (hdom s hl (by rw [hi]; nofun))
  | remove s =>
      obtain ⟨h0, i, i', hi, he, -⟩ := recount_cases (.inl rfl) hs
      unfold Files.act at hs
      dsimp only at hs
      rw [if_pos h0] at hs
      exact hrecount s i hi i' he (inodeRemove_counts hs).opens
  | close s =>
      unfold Files.act at hs
      dsimp only at hs
      split_ifs at hs
      exact hn.close hs
  | denyWrite s =>
      obtain ⟨h0, i, i', hi, he, -⟩ := recount_cases (.inr (.inl rfl)) hs
      unfold Files.act at hs
      dsimp only at hs
      rw [if_pos h0] at hs
      exact hrecount s i hi i' he (inodeDenyWrite_counts hs).1
  | allowWrite s =>
      obtain ⟨h0, i, i', hi, he, -⟩ := recount_cases (.inr (.inr rfl)) hs
      unfold Files.act at hs
      dsimp only at hs
      rw [if_pos h0] at hs
      exact hrecount s i hi i' he (inodeAllowWrite_counts hs).1

/-! ### What every operation keeps -/

theorem Inv.drift (h : Inv st) (hd : Drift st st') : Inv st' := by
  obtain ⟨heap, f, -, rfl⟩ := hd
  exact ⟨h.sole, h.used, h.range, h.complete, h.opened, h.older, h.freeMapFile, h.freeMap⟩

theorem Drift.beside (hd : Drift st st') : Beside S st st' := by
  obtain ⟨heap, f, -, rfl⟩ := hd
  exact ⟨rfl, fun _ _ h => h, fun _ _ _ => rfl, fun _ _ _ _ => ⟨rfl, rfl⟩⟩

theorem Healthy.drift (h : Healthy st) (hd : Drift st st') : Healthy st' :=
  ⟨h.inv.drift hd, h.counted.drift_of hd⟩

theorem opened_beside (h : Inv st) (hS : s ∈ S) : Beside S st (st.opened s) :=
  (local_setInode h _).beside h (.inl hS)

theorem Healthy.opened (h : Healthy st) (hs : st.live s = true) (h0 : s ≠ 0) :
    Healthy (st.opened s) := by
  -- `inode_open` with memory
  have hinv : Inv (st.call fun _ => true) := h.inv.call
  rcases ho : (st.call fun _ => true).inodeOpen s with ⟨ok, st₁⟩
  obtain rfl : ok = true := by
    unfold State.inodeOpen at ho
    split at ho
    · exact (congrArg Prod.fst ho).symm
    · exact (congrArg Prod.fst ho).symm
  have hd : Drift ((st.call fun _ => true).opened s) st₁ := inodeOpen_drift ho
  obtain ⟨heap, f, -, rfl⟩ := hd
  have hopen := hinv.open h0 hs
  rw [ho] at hopen
  exact ⟨⟨hopen.sole, hopen.used, hopen.range, hopen.complete, hopen.opened, hopen.older,
    hopen.freeMapFile, hopen.freeMap⟩, h.counted.opened⟩

theorem Healthy.act {a : Action} (h : Healthy st) (hg : Sound st (a, st.heap))
    (hs : Files.act a st = some st') : Healthy st' :=
  ⟨(act_local h.inv hg hs).1, h.counted.act h.inv hg hs⟩

/-- The sector of an inode is released, and its blocks are lost. -/
theorem abandon_local (h : Inv st) (hs : st.live s = true) (h0 : s ≠ 0)
    (hi : st.openInodes s = none) (hr : st.freeMapRelease s = some st₁) :
    Inv { st₁ with live := update st₁.live s false } ∧
      Local s st { st₁ with live := update st₁.live s false } := by
  obtain ⟨st₂, hr₂, hrel⟩ := freeMapRelease_released h.ground h.freeMapFile
    (h.used s [] s (owns_self hs)) h0 (h.apart_freeMap h0 (owns_self hs))
  obtain rfl := Option.some.inj (hr₂.symm.trans hr)
  have hl : Local s st { st₂ with live := update st₂.live s false } :=
    { size := hrel.passive.size
      freeMapFile := hrel.passive.freeMapFile
      live := fun t ht => (Function.update_of_ne ht ..).trans (congrFun hrel.passive.live t)
      openInodes := fun t _ => congrFun hrel.passive.openInodes t
      disk := fun x _ hk _ _ => hrel.disk x hk
      used := fun x hx hn => (hrel.used x).mpr ⟨hx, fun hxs => hn [] (by rw [hxs]; exact owns_self hs)⟩
      range := fun x hx => h.range x ((hrel.used x).mp hx).1 }
  have hdead : ¬(update st₂.live s false) s = true := by
    rw [Function.update_self]
    exact Bool.false_ne_true
  refine ⟨h.step_local h0 hl (fun p x hx => absurd hx.1 hdead)
    (fun p q x hx => absurd hx.1 hdead) (fun hx => absurd hx hdead) fun j hj => ?_, hl⟩
  change st₂.openInodes s = some j at hj
  rw [hrel.passive.openInodes, hi] at hj
  cases hj

theorem Healthy.deed (h : Healthy st) (hd : Deed S full st st') : Healthy st' ∧ Beside S st st' := by
  cases hd with
  | drift hd => exact ⟨h.drift hd, hd.beside⟩
  | opened hS hs h0 => exact ⟨h.opened hs h0, opened_beside h.inv hS⟩
  | act hS hg hp hf hs =>
      obtain ⟨-, u, hl, hu⟩ := act_local h.inv hg hs
      exact ⟨h.act hg hs, hl.beside h.inv (hu.imp (hS u) And.right)⟩
  | abandon hS hf hs h0 hi hr =>
      obtain ⟨hinv, hl⟩ := abandon_local h.inv hs h0 hi hr
      exact ⟨⟨hinv, h.counted.of_eq (freeMapRelease_only hr).openInodes⟩, hl.beside h.inv (.inl hS)⟩

theorem Healthy.deeds (h : Healthy st) (hd : Deeds S full st st') :
    Healthy st' ∧ Beside S st st' := by
  induction hd with
  | refl => exact ⟨h, .refl st⟩
  | tail _ hd ih =>
      obtain ⟨h', hb⟩ := ih.1.deed hd
      exact ⟨h', ih.2.trans hb⟩

/-- The bytes behind the end of each file stay zero. -/
theorem Clean.deed (hz : Clean st) (h : Healthy st) (hd : Deed S full st st') : Clean st' := by
  cases hd with
  | drift hd =>
      obtain ⟨heap, f, -, rfl⟩ := hd
      exact hz
  | opened hS hs h0 =>
      intro t ht ht0
      rw [opened_dataOf, opened_disk]
      exact hz t ht ht0
  | act hS hg hp hf hs => exact hz.act h.inv hg hp hs
  | @abandon s st₁ hS hf hs h0 hi hr =>
      obtain ⟨-, hl⟩ := abandon_local h.inv hs h0 hi hr
      intro t ht ht0
      have hts : t ≠ s := by
        rintro rfl
        have ht : update st₁.live t false t = true := ht
        rw [Function.update_self] at ht
        cases ht
      rw [hl.live t hts] at ht
      exact hl.zeroBehind h.inv hts ht0 ht (hz t ht ht0)

theorem Clean.deeds (hz : Clean st) (h : Healthy st) (hd : Deeds S full st st') : Clean st' := by
  induction hd with
  | refl => exact hz
  | tail hds hd ih => exact ih.deed (h.deeds hds).1 hd

theorem Deed.mono {S' : Set Sector} {full' : Bool} (h : Deed S full st st') (hS : S ⊆ S')
    (hf : full' = true → full = true) : Deed S' full' st st' := by
  cases h with
  | drift hd => exact .drift hd
  | opened hs hl h0 => exact .opened (hS hs) hl h0
  | act hs hg hp hfull ha => exact .act (fun s hi => hS (hs s hi)) hg hp (fun h => hfull (hf h)) ha
  | abandon hs hfull hl h0 hi hr =>
      refine .abandon (hS hs) ?_ hl h0 hi hr
      rw [hfull] at hf
      exact Bool.eq_false_iff.mpr fun h => nomatch hf h

theorem Deed.later (h : Deed S full st st') : Later st.heap st'.heap := by
  cases h with
  | drift hd =>
      obtain ⟨heap, f, hl, rfl⟩ := hd
      exact hl
  | opened => exact .refl _
  | act hS hg hp hf hs => exact act_heap hs
  | abandon hS hf hs h0 hi hr => exact (freeMapRelease_only hr).heap

theorem Deeds.later (h : Deeds S full st st') : Later st.heap st'.heap := by
  induction h with
  | refl => exact .refl _
  | tail _ hd ih => exact ih.trans hd.later

/-! ### Writing an entry -/

theorem Covered.later {length length' : ℤ} {heap' : ℕ → Bool} (h : Covered length heap)
    (hle : length' ≤ length) (hl : Later heap heap') : Covered length' heap' := by
  obtain ⟨n, rfl⟩ := hl
  exact h.imp (fun h => hle.trans h) fun h k hk => by
    have hnext := h (k + n) hk
    rwa [Nat.add_right_comm] at hnext

theorem writeEntry_deed {ofs : ℕ} (hS : s ∈ S) (h0 : s ≠ 0) (hofs : ofs + 20 < 2 ^ 31)
    (hcov : Covered (ofs + 20) st.heap) (hw : st.writeEntry s e ofs = some (ok, st')) :
    Deed S ok st st' := by
  obtain ⟨⟨n, st₁⟩, hw, heq⟩ := Option.map_eq_some_iff.mp hw
  cases heq
  have hsum : offT ((ofs : ℤ) + 20) = ofs + 20 := offT_of_lt (by omega) (by omega)
  refine .act (a := .write s e.toBytes 20 ofs) (fun t ht => ?_) ?_ ?_ (fun hn => ?_) ?_
  · cases ht
    exact hS
  · change Covered (offT ((ofs : ℤ) + 20)) st.heap
    rw [hsum]
    exact hcov
  · rintro t buffer size offset heq
    cases heq
    decide
  · rintro t buffer size offset heq
    cases heq
    exact ⟨st', by rw [hw, eq_of_beq hn]; rfl⟩
  · unfold Files.act
    dsimp only
    rw [if_pos ⟨h0, by decide, offT_of_lt (by omega) (by omega)⟩, hw]
    rfl

theorem close_deed (hS : s ∈ S) (h0 : s ≠ 0) (hc : st.inodeClose s = some st') :
    Deed S full st st' := by
  refine .act (a := .close s) (fun t ht => ?_) trivial nofun (fun _ => nofun) ?_
  · cases ht
    exact hS
  · unfold Files.act
    dsimp only
    rw [if_pos h0, hc]

/-- The reference that was taken is given back: `inode_close` after a write. -/
theorem close_of_entry (hc : st.inodeClose s = some st') (hi : st.openInodes s = some i)
    (hone : i.openCnt = 1) (hr : i.removed = false) : st' = st.setInode s none := by
  unfold State.inodeClose at hc
  rw [hi] at hc
  simp only [hone, Nat.sub_self, if_true, hr, Bool.false_eq_true, if_false, Option.some.injEq] at hc
  exact hc.symm

end CSE130.Lab3.Files
