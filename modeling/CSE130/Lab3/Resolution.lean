import CSE130.Lab3.Directory
import CSE130.Lab3.Frames
import CSE130.Lab3.Owners

/-! # Path resolution

`dir_open_path` opens and closes one directory after the other.  Whatever the entries say, nothing
of it remains but a reference to the inode at the end, and the answers of `malloc` that were used
(`walk_cases`).  Where a path leads is a function of the state before (`follow`, `resolve`). -/

namespace CSE130.Lab3.Files

open Function (update)

variable {st st' st₁ st₂ : State} {s t dir curr : Sector} {name : Name} {r : Option Sector}
  {ok : Bool} {heap : ℕ → Bool} {f : Bool} {cwd : Option Sector} {path : List UInt8}

/-- Every inode in memory is referenced. -/
def Counted (st : State) : Prop := ∀ s i, st.openInodes s = some i → i.openCnt ≠ 0

/-- One more reference to the inode at `s`. -/
def State.opened (st : State) (s : Sector) : State :=
  st.setInode s (some (match st.openInodes s with
    | some i => { i with openCnt := i.openCnt + 1 }
    | none => ⟨1, false, 0, .ofBlock (st.disk s)⟩))

/-- Other answers of `malloc` to come. -/
def State.drift (st : State) (heap : ℕ → Bool) (f : Bool) : State :=
  { st with heap := heap, allocFailed := f }

/-- Only answers of `malloc` have been used. -/
def Drift (st st' : State) : Prop := ∃ heap f, Later st.heap heap ∧ st' = st.drift heap f

theorem opened_self (st : State) (s : Sector) : (st.opened s).openInodes s =
    some (match st.openInodes s with
      | some i => { i with openCnt := i.openCnt + 1 }
      | none => ⟨1, false, 0, .ofBlock (st.disk s)⟩) :=
  Function.update_self ..

@[simp] theorem opened_disk (st : State) (s : Sector) : (st.opened s).disk = st.disk := rfl

@[simp] theorem drift_disk (st : State) : (st.drift heap f).disk = st.disk := rfl

@[simp] theorem opened_dataOf (st : State) (s t : Sector) :
    (st.opened s).dataOf t = st.dataOf t := by
  unfold State.opened State.setInode State.dataOf
  by_cases ht : t = s
  · subst ht
    dsimp only
    rw [Function.update_self]
    cases st.openInodes t with
    | none => rfl
    | some i => rfl
  · dsimp only
    rw [Function.update_of_ne ht]

@[simp] theorem drift_dataOf (st : State) (t : Sector) :
    (st.drift heap f).dataOf t = st.dataOf t := rfl

theorem Counted.drift (h : Counted st) : Counted (st.drift heap f) := h

theorem Counted.opened (h : Counted st) : Counted (st.opened s) := by
  intro t i hi
  by_cases ht : t = s
  · subst ht
    have hi : update st.openInodes t _ t = some i := hi
    rw [Function.update_self] at hi
    cases hi
    split <;> exact Nat.succ_ne_zero _
  · have hi : update st.openInodes s _ t = some i := hi
    rw [Function.update_of_ne ht] at hi
    exact h t i hi

/-- Opening and closing gives the state back. -/
theorem opened_close (h : Counted st) (hc : (st.opened s).inodeClose s = some st') : st' = st := by
  have hself : ∀ o o', st.openInodes s = o → (st.setInode s o').setInode s o = st := by
    rintro o o' rfl
    unfold State.setInode
    dsimp only
    rw [Function.update_idem, Function.update_eq_self]
  unfold State.opened at hc
  cases hi : st.openInodes s with
  | none =>
      rw [hi] at hc
      unfold State.inodeClose at hc
      rw [show (st.setInode s _).openInodes s = _ from Function.update_self ..] at hc
      simp only [Nat.sub_self, if_true, Bool.false_eq_true, if_false, Option.some.injEq] at hc
      rw [← hc]
      exact hself _ _ hi
  | some i =>
      rw [hi] at hc
      unfold State.inodeClose at hc
      rw [show (st.setInode s _).openInodes s = _ from Function.update_self ..] at hc
      simp only [Nat.add_sub_cancel, h s i hi, if_false, Option.some.injEq] at hc
      rw [← hc]
      exact hself _ _ hi

/-- The order of two openings does not matter. -/
theorem opened_comm (st : State) (s t : Sector) :
    (st.opened s).opened t = (st.opened t).opened s := by
  by_cases h : s = t
  · rw [h]
  · have hs : (st.opened t).openInodes s = st.openInodes s := Function.update_of_ne h ..
    have ht : (st.opened s).openInodes t = st.openInodes t := Function.update_of_ne (Ne.symm h) ..
    rw [State.opened.eq_1 (st.opened s), State.opened.eq_1 (st.opened t), hs, ht, opened_disk,
      opened_disk]
    unfold State.opened State.setInode
    dsimp only
    rw [Function.update_comm h]

namespace Drift

theorem refl (st : State) : Drift st st := ⟨st.heap, st.allocFailed, .refl _, rfl⟩

theorem trans (h : Drift st st₁) (h' : Drift st₁ st') : Drift st st' := by
  obtain ⟨heap, f, hl, rfl⟩ := h
  obtain ⟨heap', f', hl', rfl⟩ := h'
  exact ⟨heap', f', hl.trans hl', rfl⟩

theorem opened (h : Drift st st₁) (s : Sector) : Drift (st.opened s) (st₁.opened s) := by
  obtain ⟨heap, f, hl, rfl⟩ := h
  exact ⟨heap, f, hl, rfl⟩

/-- The reference is given back. -/
theorem close (h : Drift (st.opened s) st₁) (hn : Counted st) (hc : st₁.inodeClose s = some st') :
    Drift st st' := by
  obtain ⟨heap, f, hl, rfl⟩ := h
  exact ⟨heap, f, hl, opened_close hn.drift hc⟩

/-- The first of two references is given back. -/
theorem close_first (h : Drift ((st.opened s).opened t) st₁) (hn : Counted st)
    (hc : st₁.inodeClose s = some st') : Drift (st.opened t) st' := by
  rw [opened_comm] at h
  exact h.close hn.opened hc

end Drift

/-! ### One directory -/

/-- Where `dir_lookup` leads. -/
def target (st : State) (dir : Sector) (name : Name) : Option Sector :=
  if name = dot then some dir
  else if name = dotDot then
    let (ok, e) := readEntry st.disk (st.dataOf dir) default 0
    if ok then some e.inodeSector else none
  else (lookup st.disk (st.dataOf dir) name).map fun x => x.1.inodeSector

@[simp] theorem target_opened (st : State) (s : Sector) :
    target (st.opened s) dir name = target st dir name := by
  unfold target
  rw [opened_dataOf, opened_disk]

theorem Drift.target (h : Drift st st₁) : target st₁ dir name = target st dir name := by
  obtain ⟨heap, f, -, rfl⟩ := h
  rfl

theorem inodeOpen_drift (h : st.inodeOpen s = (ok, st')) :
    if ok then Drift (st.opened s) st' else Drift st st' := by
  unfold State.inodeOpen at h
  unfold State.opened
  cases hi : st.openInodes s with
  | some i =>
      rw [hi] at h
      cases h
      exact .refl _
  | none =>
      rw [hi] at h
      dsimp only at h
      split_ifs at h with hm
      · cases h
        exact ⟨_, _, .next _, rfl⟩
      · cases h
        exact ⟨_, _, .next _, rfl⟩

theorem openSector_drift (h : st.openSector s = some (ok, st')) :
    if ok then Drift (st.opened s) st' ∧ s < st.size else Drift st st' := by
  unfold State.openSector at h
  rcases ho : st.inodeOpen s with ⟨ok₁, st₁⟩
  have hopen := inodeOpen_drift ho
  rw [ho] at h
  dsimp only at h
  split_ifs at h with hs
  cases h
  cases ok with
  | false => exact hopen
  | true => exact ⟨hopen, UInt32.not_le.mp fun hle => hs ⟨rfl, hle⟩⟩

/-! With memory these calls succeed. -/

theorem inodeOpen_memory (hm : st.heap 0 = true) : (st.inodeOpen s).1 = true := by
  unfold State.inodeOpen
  cases hi : st.openInodes s with
  | some i => rfl
  | none =>
      unfold State.malloc
      dsimp only
      rw [if_pos hm]

theorem openSector_memory (hm : st.heap 0 = true) (h : st.openSector s = some (ok, st')) :
    ok = true := by
  have hopen := inodeOpen_memory (s := s) hm
  unfold State.openSector at h
  rcases ho : st.inodeOpen s with ⟨ok₁, st₁⟩
  rw [ho] at h hopen
  dsimp only at h hopen
  split_ifs at h
  cases h
  exact hopen

theorem dirOpen_memory (hm : st.heap 0 = true) (h : st.dirOpen s = some (ok, st')) : ok = true := by
  unfold State.dirOpen State.malloc at h
  dsimp only at h
  rw [if_pos hm] at h
  cases h
  rfl

theorem Later.all {heap heap' : ℕ → Bool} (h : Later heap heap') (hm : ∀ k, heap k = true) :
    ∀ k, heap' k = true := by
  obtain ⟨n, rfl⟩ := h
  exact fun k => hm (k + n)

theorem Drift.memory (hd : Drift st st') (hm : ∀ k, st.heap k = true) : ∀ k, st'.heap k = true := by
  obtain ⟨heap, f, hl, rfl⟩ := hd
  exact hl.all hm

theorem malloc_drift (st : State) : Drift st st.malloc.2 := ⟨_, _, .next _, rfl⟩

/-- `dir_open` keeps the reference, or gives it back. -/
theorem dirOpen_drift (hn : Counted st) (hd : Drift (st.opened s) st₁)
    (h : st₁.dirOpen s = some (ok, st')) :
    if ok then Drift (st.opened s) st' else Drift st st' := by
  have hm := hd.trans (malloc_drift st₁)
  unfold State.dirOpen at h
  rcases hmal : st₁.malloc with ⟨ok₁, st₂⟩
  rw [hmal] at h hm
  cases ok₁ with
  | true =>
      cases h
      exact hm
  | false =>
      obtain ⟨st₃, hc, hr⟩ := Option.map_eq_some_iff.mp h
      cases hr
      exact hm.close hn hc

/-- The last step of `dir_lookup`, for the entry that was found. -/
theorem openFound_cases {e : DirEntry} (h : ((st.openSector e.inodeSector).bind fun x =>
      some (if x.1 = true then some e.inodeSector else none, x.2)) = some (r, st')) :
    r = none ∧ Drift st st' ∨ r = some e.inodeSector ∧ Drift (st.opened e.inodeSector) st' := by
  obtain ⟨⟨ok, st₁⟩, ho, h⟩ := Option.bind_eq_some_iff.mp h
  have hopen := openSector_drift ho
  cases ok with
  | false =>
      cases h
      exact .inl ⟨rfl, hopen⟩
  | true =>
      cases h
      exact .inr ⟨rfl, hopen.1⟩

theorem dirLookup_cases (h : st.dirLookup dir name = some (r, st')) :
    r = none ∧ Drift st st' ∨
      ∃ s, r = some s ∧ target st dir name = some s ∧ Drift (st.opened s) st' := by
  unfold State.dirLookup at h
  obtain ⟨i, hi, h⟩ := Option.bind_eq_some_iff.mp h
  unfold target
  rw [dataOf_open hi]
  by_cases hdot : name = dot
  · rw [if_pos hdot] at h
    cases h
    have ho : st.inodeOpen dir = (true, (st.inodeOpen dir).2) := by
      unfold State.inodeOpen
      rw [hi]
    exact .inr ⟨dir, rfl, by rw [if_pos hdot], inodeOpen_drift ho⟩
  rw [if_neg hdot] at h ⊢
  by_cases hdots : name = dotDot
  · rw [if_pos hdots] at h ⊢
    dsimp only at h ⊢
    split_ifs at h ⊢ with hread
    · exact (openFound_cases h).imp_right fun ho => ⟨_, ho.1, rfl, ho.2⟩
    · cases h
  · rw [if_neg hdots] at h ⊢
    cases hl : lookup st.disk i.data name with
    | none =>
        rw [hl] at h
        cases h
        exact .inl ⟨rfl, .refl st⟩
    | some x =>
        rw [hl] at h
        exact (openFound_cases h).imp_right fun ho => ⟨_, ho.1, rfl, ho.2⟩

/-! ### Paths -/

/-- Where the names lead, from the directory `curr`. -/
def follow (st : State) (curr : Sector) : List Name → Option Sector
  | [] => some curr
  | token :: rest => (target st curr token).bind fun s => follow st s rest

theorem walk_cases (hn : Counted st) : ∀ {tokens : List Name} {curr : Sector} {st₁ : State},
    Drift (st.opened curr) st₁ → st₁.walk curr tokens = some (r, st') →
    r = none ∧ Drift st st' ∨
      ∃ s, r = some s ∧ follow st curr tokens = some s ∧ Drift (st.opened s) st'
  | [], curr, st₁, hd, h => by
      cases h
      exact .inr ⟨curr, rfl, rfl, hd⟩
  | token :: rest, curr, st₁, hd, h => by
      unfold State.walk at h
      obtain ⟨⟨found, st₂⟩, hl, h⟩ := Option.bind_eq_some_iff.mp h
      rcases dirLookup_cases hl with ⟨rfl, hd₂⟩ | ⟨s, rfl, ht, hd₂⟩
      · obtain ⟨st₃, hc, hr⟩ := Option.map_eq_some_iff.mp h
        cases hr
        exact .inl ⟨rfl, (hd.trans hd₂).close hn hc⟩
      · rw [hd.target, target_opened] at ht
        obtain ⟨⟨ok, st₃⟩, ho, h⟩ := Option.bind_eq_some_iff.mp h
        obtain ⟨st₄, hc, h⟩ := Option.bind_eq_some_iff.mp h
        have hopen := dirOpen_drift hn.opened ((hd.opened s).trans hd₂) ho
        cases ok with
        | false =>
            cases h
            exact .inl ⟨rfl, Drift.close hopen hn hc⟩
        | true =>
            -- the directory before is closed, and the walk goes on in the next one
            rcases walk_cases hn (Drift.close_first hopen hn hc) h with hnone | ⟨t, hr, hf, hd'⟩
            · exact .inl hnone
            · refine .inr ⟨t, hr, ?_, hd'⟩
              unfold follow
              rw [ht, Option.bind_some, hf]

/-- The directory of a path, from the working directory `cwd`. -/
def pathDir (st : State) (cwd : Option Sector) (path : List UInt8) : Option Sector :=
  follow st (if path.head? = some slash then rootDirSector else cwd.getD rootDirSector) (tokens path)

theorem follow_drift (st : State) : ∀ (tokens : List Name) (curr : Sector),
    follow (st.drift heap f) curr tokens = follow st curr tokens
  | [], _ => rfl
  | token :: rest, curr => by
      unfold follow
      change (target st curr token).bind _ = _
      congr 1
      funext s
      exact follow_drift st rest s

@[simp] theorem pathDir_drift (st : State) :
    pathDir (st.drift heap f) cwd path = pathDir st cwd path := follow_drift st _ _

theorem dirOpenPath_cases (hn : Counted st) (h : st.dirOpenPath cwd path = some (r, st')) :
    r = none ∧ Drift st st' ∨
      ∃ s, r = some s ∧ pathDir st cwd path = some s ∧ Drift (st.opened s) st' := by
  unfold State.dirOpenPath at h
  dsimp only at h
  rcases hopen : st.inodeOpen
    (if path.head? = some slash then rootDirSector else cwd.getD rootDirSector) with ⟨ok, st₁⟩
  rw [hopen] at h
  have hd := inodeOpen_drift hopen
  cases ok with
  | false => cases h
  | true =>
      simp only [Bool.true_eq_false, if_false] at h
      obtain ⟨⟨ok, st₂⟩, ho, h⟩ := Option.bind_eq_some_iff.mp h
      have hd₂ := dirOpen_drift hn hd ho
      cases ok with
      | false => cases h
      | true =>
          simp only [Bool.true_eq_false, if_false] at h
          obtain ⟨⟨found, st₃⟩, hw, h⟩ := Option.bind_eq_some_iff.mp h
          rcases walk_cases hn hd₂ hw with ⟨rfl, hd₃⟩ | ⟨s, rfl, hf, hd₃⟩
          · cases h
            exact .inl ⟨rfl, hd₃⟩
          · obtain ⟨i, -, h⟩ := Option.bind_eq_some_iff.mp h
            split_ifs at h
            · obtain ⟨st₄, hc, hr⟩ := Option.map_eq_some_iff.mp h
              cases hr
              exact .inl ⟨rfl, hd₃.close hn hc⟩
            · cases h
              exact .inr ⟨s, rfl, hf, hd₃⟩

/-- Where a path leads. -/
def resolve (st : State) (cwd : Option Sector) (path : List UInt8) : Option Sector :=
  (pathDir st cwd (splitPathFilename path).1).bind fun dir =>
    if (splitPathFilename path).2 = [] then some dir else target st dir (splitPathFilename path).2

@[simp] theorem resolve_drift (st : State) :
    resolve (st.drift heap f) cwd path = resolve st cwd path := by
  unfold resolve
  rw [pathDir_drift]
  rfl

/-- `filesys_open`; of a removed file the reference remains. -/
theorem filesysOpen_cases (hn : Counted st) (h : Paths.filesysOpen st cwd path = some (r, st')) :
    r = none ∧ Drift st st' ∨
      ∃ s, resolve st cwd path = some s ∧ (r = some s ∨ r = none) ∧ Drift (st.opened s) st' := by
  unfold Paths.filesysOpen at h
  split_ifs at h with hempty
  · cases h
    exact .inl ⟨rfl, .refl st⟩
  rcases hsplit : splitPathFilename path with ⟨directory, fileName⟩
  unfold resolve
  rw [hsplit] at h ⊢
  dsimp only at h ⊢
  obtain ⟨⟨dir, st₁⟩, hp, h⟩ := Option.bind_eq_some_iff.mp h
  -- the inode is removed, or `file_open` succeeds or fails
  have hlast : ∀ {st₂ : State} {s : Sector}, Drift (st.opened s) st₂ →
      ((st₂.openInodes s).bind fun i => if i.removed then some (none, st₂) else
        (st₂.fileOpen s).bind fun x => some (if x.1 then some s else none, x.2)) = some (r, st') →
      r = none ∧ Drift st st' ∨ (r = some s ∨ r = none) ∧ Drift (st.opened s) st' := by
    intro st₂ s hd hlast
    obtain ⟨i, -, hlast⟩ := Option.bind_eq_some_iff.mp hlast
    split_ifs at hlast
    · cases hlast
      exact .inr ⟨.inr rfl, hd⟩
    · obtain ⟨⟨ok, st₃⟩, ho, hlast⟩ := Option.bind_eq_some_iff.mp hlast
      cases hlast
      have hfile := dirOpen_drift hn hd ho
      cases ok with
      | false => exact .inl ⟨rfl, hfile⟩
      | true => exact .inr ⟨.inl rfl, hfile⟩
  rcases dirOpenPath_cases hn hp with ⟨rfl, hd⟩ | ⟨d, rfl, hdir, hd⟩
  · cases h
    exact .inl ⟨rfl, hd⟩
  rw [hdir, Option.bind_some]
  dsimp only at h
  by_cases hname : fileName = []
  · rw [if_neg (not_not.mpr hname)] at h
    rcases hlast hd h with hnone | hsome
    · exact .inl hnone
    · exact .inr ⟨d, if_pos hname, hsome⟩
  · rw [if_pos hname] at h
    obtain ⟨⟨found₁, st₃⟩, hl, h⟩ := Option.bind_eq_some_iff.mp h
    obtain ⟨st₂, hc, h⟩ := Option.bind_eq_some_iff.mp h
    rcases dirLookup_cases hl with ⟨rfl, hd₂⟩ | ⟨s, rfl, ht, hd₂⟩
    · cases h
      exact .inl ⟨rfl, (hd.trans hd₂).close hn hc⟩
    · rw [hd.target, target_opened] at ht
      have hd₄ := ((hd.opened s).trans hd₂).close_first hn hc
      rw [if_neg hname, ht]
      rcases hlast hd₄ h with hnone | hsome
      · exact .inl hnone
      · exact .inr ⟨s, rfl, hsome⟩

end CSE130.Lab3.Files
