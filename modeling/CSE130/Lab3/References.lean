import CSE130.Lab3.Frames
import Mathlib.Data.Nat.Notation

/-! # The counters of an inode

What the functions of `inode.c` do to `open_cnt` and `deny_write_cnt`.  Allocation, release,
creation and writing leave both alone, whether they succeed or not; `inode_open` and
`inode_close`, `inode_deny_write` and `inode_allow_write` change one of them by one.  An inode that
is not in memory counts as zero. -/

namespace CSE130.Lab3.Files

open Function (update)

/-- The references to the inode at `s`. -/
def State.opens (st : State) (s : Sector) : ℕ := ((st.openInodes s).map Inode.openCnt).getD 0

/-- The denials of writes to the inode at `s`. -/
def State.denials (st : State) (s : Sector) : ℕ :=
  ((st.openInodes s).map Inode.denyWriteCnt).getD 0

/-- No counter has changed. -/
structure SameCounts (st st' : State) : Prop where
  opens : ∀ s, st'.opens s = st.opens s
  denials : ∀ s, st'.denials s = st.denials s

variable {st st' st₁ : State} {s t : Sector} {i : Inode} {ok : Bool} {d d' : InodeDisk}

theorem SameCounts.refl (st : State) : SameCounts st st := ⟨fun _ => rfl, fun _ => rfl⟩

theorem SameCounts.trans (h : SameCounts st st₁) (h' : SameCounts st₁ st') : SameCounts st st' :=
  ⟨fun s => (h'.opens s).trans (h.opens s), fun s => (h'.denials s).trans (h.denials s)⟩

theorem SameCounts.of_eq (h : st'.openInodes = st.openInodes) : SameCounts st st' := by
  unfold State.openInodes at h
  refine ⟨fun s => ?_, fun s => ?_⟩
  · unfold State.opens State.openInodes
    rw [h]
  · unfold State.denials State.openInodes
    rw [h]

theorem opens_of_open (h : st.openInodes s = some i) : st.opens s = i.openCnt := by
  simp [State.opens, h]

theorem denials_of_open (h : st.openInodes s = some i) : st.denials s = i.denyWriteCnt := by
  simp [State.denials, h]

theorem opens_of_closed (h : st.openInodes s = none) : st.opens s = 0 := by
  simp [State.opens, h]

theorem denials_of_closed (h : st.openInodes s = none) : st.denials s = 0 := by
  simp [State.denials, h]

theorem open_of_denials (h : st.denials s ≠ 0) : ∃ i, st.openInodes s = some i := by
  cases hi : st.openInodes s with
  | none => exact absurd (denials_of_closed hi) h
  | some i => exact ⟨i, rfl⟩

theorem open_of_opens (h : st.opens s ≠ 0) : ∃ i, st.openInodes s = some i := by
  cases hi : st.openInodes s with
  | none => exact absurd (opens_of_closed hi) h
  | some i => exact ⟨i, rfl⟩

theorem setInode_self (st : State) (s : Sector) (o : Option Inode) :
    (st.setInode s o).openInodes s = o := Function.update_self ..

theorem opens_setInode (st : State) (s : Sector) (o : Option Inode) (t : Sector) :
    (st.setInode s o).opens t = if t = s then (o.map Inode.openCnt).getD 0 else st.opens t := by
  unfold State.opens State.setInode
  dsimp only
  rw [Function.update_apply]
  split <;> rfl

theorem denials_setInode (st : State) (s : Sector) (o : Option Inode) (t : Sector) :
    (st.setInode s o).denials t =
      if t = s then (o.map Inode.denyWriteCnt).getD 0 else st.denials t := by
  unfold State.denials State.setInode
  dsimp only
  rw [Function.update_apply]
  split <;> rfl

/-- Only the data of an inode change. -/
theorem sameCounts_setInode {i' : Inode} (h : st.openInodes s = some i)
    (ho : i'.openCnt = i.openCnt) (hd : i'.denyWriteCnt = i.denyWriteCnt) :
    SameCounts st (st.setInode s (some i')) := by
  refine ⟨fun t => ?_, fun t => ?_⟩
  · rw [opens_setInode]
    split
    · subst t
      rw [opens_of_open h]
      exact ho
    · rfl
  · rw [denials_setInode]
    split
    · subst t
      rw [denials_of_open h]
      exact hd
    · rfl

/-! ### The operations on inodes -/

theorem inodeCreate_counts {length : ℤ} {isDir : Bool}
    (h : st.inodeCreate s length isDir = some (ok, st')) : SameCounts st st' :=
  .of_eq (inodeCreate_only h).openInodes

theorem filesysCreate_counts {length : ℤ} {isDir added : Bool}
    (h : st.filesysCreate length isDir added = some st') : SameCounts st st' := by
  have ha := (freeMapAllocate_only st).openInodes
  unfold State.filesysCreate at h
  split at h
  · rename_i he
    rw [he] at ha
    cases h
    exact .of_eq ha
  · rename_i he
    rw [he] at ha
    obtain ⟨⟨ok, st₁⟩, h₁, h⟩ := Option.bind_eq_some_iff.mp h
    have hc := (SameCounts.of_eq ha).trans (inodeCreate_counts h₁)
    dsimp only at h
    split at h
    · cases h
      exact hc.trans (.of_eq rfl)
    · exact hc.trans (.of_eq (freeMapRelease_only h).openInodes)

theorem inodeWriteAt_counts {buffer : ℕ → UInt8} {size : ℤ} {offset n : ℕ}
    (h : st.inodeWriteAt s buffer size offset = some (n, st')) : SameCounts st st' := by
  cases hi : st.openInodes s with
  | none =>
      unfold State.inodeWriteAt at h
      rw [hi] at h
      cases h
  | some i =>
      obtain ⟨-, i', ho, hsame⟩ := inodeWriteAt_entry hi h
      exact (sameCounts_setInode hi hsame.openCnt hsame.denyWriteCnt).trans (.of_eq ho)

theorem inodeRemove_counts (h : st.inodeRemove s = some st') : SameCounts st st' := by
  obtain ⟨i, hi, rfl⟩ := Option.map_eq_some_iff.mp h
  exact sameCounts_setInode hi rfl rfl

/-- `inode_open` takes a reference, unless there is no memory. -/
theorem inodeOpen_counts (h : st.inodeOpen s = (ok, st')) :
    (∀ t, st'.opens t = st.opens t + if ok = true ∧ t = s then 1 else 0) ∧
      ∀ t, st'.denials t = st.denials t := by
  unfold State.inodeOpen at h
  split at h
  · rename_i i hi
    cases h
    refine ⟨fun t => ?_, fun t => ?_⟩
    · rw [opens_setInode]
      by_cases ht : t = s
      · subst ht
        simp [opens_of_open hi]
      · simp [ht]
    · rw [denials_setInode]
      by_cases ht : t = s
      · subst ht
        simp [denials_of_open hi]
      · simp [ht]
  · rename_i hi
    have hm : SameCounts st st.malloc.2 := .of_eq (malloc_only st).openInodes
    dsimp only at h
    split at h
    · cases h
      refine ⟨fun t => ?_, fun t => ?_⟩
      · rw [opens_setInode, hm.opens]
        by_cases ht : t = s
        · subst ht
          simp [opens_of_closed hi]
        · simp [ht]
      · rw [denials_setInode, hm.denials]
        by_cases ht : t = s
        · subst ht
          simp [denials_of_closed hi]
        · simp [ht]
    · cases h
      exact ⟨fun t => by simp [hm.opens], hm.denials⟩

/-- What `inode_close` leaves of the entry. -/
theorem inodeClose_entry (h : st.inodeClose s = some st') (hi : st.openInodes s = some i) :
    i.openCnt - 1 = 0 ∧ SameCounts (st.setInode s none) st' ∨
      i.openCnt - 1 ≠ 0 ∧ st' = st.setInode s (some { i with openCnt := i.openCnt - 1 }) := by
  unfold State.inodeClose at h
  rw [hi] at h
  dsimp only at h
  by_cases hcnt : i.openCnt - 1 = 0
  · rw [if_pos hcnt] at h
    refine .inl ⟨hcnt, ?_⟩
    split at h
    · obtain ⟨st₁, h₁, h⟩ := Option.bind_eq_some_iff.mp h
      obtain ⟨st₂, h₂, h⟩ := Option.bind_eq_some_iff.mp h
      cases h
      exact .of_eq ((freeMapRelease_only h₁).trans (inodeDeallocate_only h₂)).openInodes
    · cases h
      exact .refl _
  · rw [if_neg hcnt] at h
    cases h
    exact .inr ⟨hcnt, rfl⟩

/-- `inode_close` gives a reference back. -/
theorem inodeClose_opens (h : st.inodeClose s = some st') (h0 : st.opens s ≠ 0) (t : Sector) :
    st'.opens t + (if t = s then 1 else 0) = st.opens t := by
  obtain ⟨i, hi⟩ := open_of_opens h0
  rw [opens_of_open hi] at h0
  rcases inodeClose_entry h hi with ⟨hcnt, hset⟩ | ⟨hcnt, rfl⟩
  · rw [hset.opens, opens_setInode]
    by_cases ht : t = s
    · subst ht
      rw [opens_of_open hi, if_pos rfl, if_pos rfl, Option.map_none, Option.getD_none]
      omega
    · simp [ht]
  · rw [opens_setInode]
    by_cases ht : t = s
    · subst ht
      simp only [opens_of_open hi, if_true, Option.map_some, Option.getD_some]
      omega
    · simp [ht]

/-- The last reference takes no denial with it. -/
theorem inodeClose_counts (h : st.inodeClose s = some st') (h0 : st.opens s ≠ 0)
    (hlast : st.opens s = 1 → st.denials s = 0) :
    (∀ t, st'.opens t + (if t = s then 1 else 0) = st.opens t) ∧
      ∀ t, st'.denials t = st.denials t := by
  refine ⟨inodeClose_opens h h0, fun t => ?_⟩
  obtain ⟨i, hi⟩ := open_of_opens h0
  rw [opens_of_open hi] at h0 hlast
  rw [denials_of_open hi] at hlast
  rcases inodeClose_entry h hi with ⟨hcnt, hset⟩ | ⟨hcnt, rfl⟩
  · rw [hset.denials, denials_setInode]
    by_cases ht : t = s
    · subst ht
      simp [denials_of_open hi, hlast (by omega)]
    · simp [ht]
  · rw [denials_setInode]
    by_cases ht : t = s
    · subst ht
      simp [denials_of_open hi]
    · simp [ht]

/-- A reference is taken and given back. -/
theorem open_close_counts (hle : st.denials s ≤ st.opens s) (ho : st.inodeOpen s = (true, st₁))
    {st₂ : State} (hc : SameCounts st₁ st₂) (h : st₂.inodeClose s = some st') : SameCounts st st' := by
  obtain ⟨hopens, hdenials⟩ := inodeOpen_counts ho
  have hs : st₂.opens s = st.opens s + 1 := by simp [hc.opens, hopens]
  obtain ⟨hopens', hdenials'⟩ := inodeClose_counts h (by omega) fun hone => by
    rw [hc.denials, hdenials]
    omega
  refine ⟨fun t => ?_, fun t => ?_⟩
  · have ht := hopens' t
    rw [hc.opens, hopens] at ht
    simp only [true_and] at ht
    omega
  · rw [hdenials', hc.denials, hdenials]

theorem inodeDenyWrite_counts (h : st.inodeDenyWrite s = some st') :
    (∀ t, st'.opens t = st.opens t) ∧
      ∀ t, st'.denials t = st.denials t + if t = s then 1 else 0 := by
  unfold State.inodeDenyWrite at h
  split at h
  · cases h
  · rename_i i hi
    split_ifs at h
    cases h
    refine ⟨fun t => ?_, fun t => ?_⟩
    · rw [opens_setInode]
      by_cases ht : t = s
      · subst ht
        simp [opens_of_open hi]
      · simp [ht]
    · rw [denials_setInode]
      by_cases ht : t = s
      · subst ht
        simp [denials_of_open hi]
      · simp [ht]

theorem inodeDenyWrite_isSome (h : st.denials s < st.opens s) :
    (st.inodeDenyWrite s).isSome = true := by
  obtain ⟨i, hi⟩ := open_of_opens (Nat.ne_of_gt (Nat.zero_lt_of_lt h))
  rw [opens_of_open hi, denials_of_open hi] at h
  unfold State.inodeDenyWrite
  rw [hi]
  dsimp only
  rw [if_pos (Nat.succ_le_of_lt h)]
  rfl

theorem inodeAllowWrite_counts (h : st.inodeAllowWrite s = some st') :
    (∀ t, st'.opens t = st.opens t) ∧
      ∀ t, st'.denials t + (if t = s then 1 else 0) = st.denials t := by
  unfold State.inodeAllowWrite at h
  split at h
  · cases h
  · rename_i i hi
    split_ifs at h with hpos
    cases h
    refine ⟨fun t => ?_, fun t => ?_⟩
    · rw [opens_setInode]
      by_cases ht : t = s
      · subst ht
        simp [opens_of_open hi]
      · simp [ht]
    · rw [denials_setInode]
      by_cases ht : t = s
      · subst ht
        simp only [denials_of_open hi, if_true, Option.map_some, Option.getD_some]
        omega
      · simp [ht]

end CSE130.Lab3.Files
