import CSE130.Lab3.Sharing

/-! # Deletion gives back what creation and writing took

Between its creation and its last closing a file owns exactly the sectors that its own calls have
taken, and its length says where they are (`Own`).  So the last closing of a removed file, which
goes by the length alone, releases these and no others. -/

namespace CSE130.Lab3.Files

open BlockTree Transition
open Function (update)

variable {st st' st₁ st₂ : State} {s x : Sector} {i : Inode} {p : List ℕ}
  {a : Action × (ℕ → Bool)} {h : List (State × (Action × (ℕ → Bool)))}

/-- The inode is there, and a write to it is of at least one byte and is done to the end. -/
def Extending (s : Sector) (st : State) (a : Action × (ℕ → Bool)) : Prop :=
  st.live s = true ∧ ∀ buffer size offset, a.1 = .write s buffer size offset →
    1 ≤ size ∧ ∃ st', (st.call a.2).inodeWriteAt s buffer size offset = some (size.toNat, st')

/-- The sectors that the calls of a history on the file `s` have taken. -/
def Taken (s : Sector) (h : List (State × (Action × (ℕ → Bool)))) (x : Sector) : Prop :=
  ∃ y ∈ h, y.2.1.inode = some s ∧ ¬y.1.Used x ∧ ∃ st', step y.2 y.1 = some st' ∧ st'.Used x

/-- The sectors that the creation of `s`, from `st` to `st₁`, and the calls since have taken. -/
def TakenSince (st st₁ : State) (s : Sector) (h : List (State × (Action × (ℕ → Bool))))
    (x : Sector) : Prop :=
  ¬st.Used x ∧ st₁.Used x ∨ Taken s h x

/-- The tree of the file reaches no further than its length, and is the same on the disk. -/
structure Tidy (s : Sector) (st : State) : Prop where
  exact : ∀ p x, Owned st.disk (st.dataOf s) p x →
    Onto (FileLeaves (bytesToSectors (st.dataOf s).length)) p
  stored : ∀ i, st.openInodes s = some i → rootOf (.ofBlock (st.disk s)) = rootOf i.data

/-! ### One step -/

/-- What a call on the file, or on another one, does to its sectors. -/
structure Carries (s : Sector) (st st' : State) (own : Prop) : Prop where
  tidy : Tidy s st'
  owns : ∀ x, (∃ p, st'.Owns s p x) ↔ (∃ p, st.Owns s p x) ∨ own ∧ ¬st.Used x ∧ st'.Used x
  used : own → ∀ x, st.Used x → st'.Used x

theorem Local.carries {u : Sector} (hl : Local u st st') (hinv : Inv st) (hs : s ≠ u) (h0 : s ≠ 0)
    (hlive : st.live s = true) (ht : Tidy s st) {own : Prop} (hown : ¬own) :
    Carries s st st' own where
  tidy :=
    { exact := fun p x hx => by
        rw [hl.dataOf_eq hinv hs hlive] at hx ⊢
        exact ht.exact p x ((hl.owned_iff hinv hs hlive).mp hx)
      stored := fun i hi => by
        rw [hl.openInodes s hs] at hi
        rw [hl.disk_eq hinv hs (owns_self hlive) (.inl h0)]
        exact ht.stored i hi }
  owns x := by
    rw [or_iff_left fun hx => hown hx.1]
    exact exists_congr fun p => hl.owns_iff hinv hs
  used ho := absurd ho hown

theorem carries_of_root {own : Prop} (ht : Tidy s st) (hdisk : st'.disk = st.disk)
    (hused : st'.freeMap = st.freeMap) (hlive : st'.live = st.live)
    (hroot : rootOf (st'.dataOf s) = rootOf (st.dataOf s))
    (hlen : (st'.dataOf s).length = (st.dataOf s).length)
    (hstored : ∀ i, st'.openInodes s = some i → rootOf (.ofBlock (st'.disk s)) = rootOf i.data) :
    Carries s st st' own := by
  have howned : ∀ p x, Owned st'.disk (st'.dataOf s) p x ↔ Owned st.disk (st.dataOf s) p x :=
    fun p x => by
      unfold Owned
      rw [hroot, hdisk]
  have hu : ∀ x, st'.Used x ↔ st.Used x := fun x => by
    unfold State.Used
    rw [hused]
  refine ⟨⟨fun p x hx => ?_, hstored⟩, fun x => ?_, fun _ x hx => (hu x).mpr hx⟩
  · rw [hlen]
    exact ht.exact p x ((howned p x).mp hx)
  · rw [or_iff_left fun hx => hx.2.1 ((hu x).mp hx.2.2)]
    refine exists_congr fun p => ?_
    unfold State.Owns
    rw [hlive, howned]

theorem carries_recount {own : Prop} {i' : Inode} (ht : Tidy s st) (hi : st.openInodes s = some i)
    (hd : i'.data = i.data) : Carries s st (st.setInode s (some i')) own := by
  refine carries_of_root ht rfl rfl rfl ?_ ?_ fun j hj => ?_
  · rw [dataOf_setInode, dataOf_open hi, hd]
  · rw [dataOf_setInode, dataOf_open hi, hd]
  · obtain rfl := Option.some.inj ((Function.update_self (f := st.openInodes) ..).symm.trans hj)
    rw [hd]
    exact ht.stored i hi

theorem inodeOpen_carries {own : Prop} (ht : Tidy s st) : Carries s st (st.inodeOpen s).2 own := by
  rcases inodeOpen_cases st s with ⟨i, hi, he⟩ | ⟨ho, he | he⟩
  · rw [he]
    exact carries_recount ht hi rfl
  · rw [he]
    exact carries_of_root ht rfl rfl rfl rfl rfl ht.stored
  · rw [he]
    refine carries_of_root ht rfl rfl rfl ?_ ?_ fun j hj => ?_
    · rw [dataOf_setInode, dataOf_closed ho]
    · rw [dataOf_setInode, dataOf_closed ho]
    · obtain rfl := Option.some.inj ((Function.update_self (f := st.openInodes) ..).symm.trans hj)
      rfl

theorem inodeClose_carries {own : Prop} (hinv : Inv st) (h0 : s ≠ 0) (ht : Tidy s st)
    (hc : st.inodeClose s = some st') (hlive : st'.live s = true) : Carries s st st' own := by
  rcases inodeClose_cases hinv h0 hc with ⟨i, -, -, hl, -⟩ | ⟨i, hi, rfl⟩ | ⟨i, i', hi, rfl, hd⟩
  · rw [hl, Function.update_self] at hlive
    cases hlive
  · refine carries_of_root ht rfl rfl rfl ?_ ?_ fun j hj => ?_
    · rw [dataOf_setInode_none, dataOf_open hi, ht.stored i hi]
    · rw [dataOf_setInode_none, dataOf_open hi, (hinv.older s i hi h0).length]
    · cases (Function.update_self (f := st.openInodes) ..).symm.trans hj
  · exact carries_recount ht hi hd

theorem inodeWriteAt_carries {buffer : ℕ → UInt8} {size : ℤ} {offset : ℕ} {own : Prop} (ho : own)
    (hinv : Inv st) (h0 : s ≠ 0) (ht : Tidy s st) (hcov : Covered (offT (offset + size)) st.heap)
    (hpos : 1 ≤ size) (hsize : offT size = size) (hoffset : offT offset = offset)
    (hw : st.inodeWriteAt s buffer size offset = some (size.toNat, st')) :
    Carries s st st' own := by
  obtain ⟨i, hi⟩ := inodeWriteAt_open hw
  rcases inodeWriteAt_cases hi hw with ⟨hn, -⟩ | ⟨-, ok, i', st₁, he, hcase⟩
  · omega
  have hx := inodeExtend_extended hinv h0 hi hcov he
  rcases hcase with ⟨-, hn, -⟩ | ⟨rfl, -, hst⟩
  · omega
  have hin : Inside s i' st₁ st' := by
    rw [hst]
    exact writeLoop_inside hx.inv hx.openInodes
  have hi' : st'.openInodes s = some i' := by
    rw [hin.openInodes, hx.openInodes]
  have hd := dataOf_open hi
  have hd' := dataOf_open hi'
  have hs := hinv.opened s i hi
  have hlive : st'.live = st.live := hin.live.trans hx.live
  have howned : ∀ p x, Owned st'.disk i'.data p x ↔ Owned st₁.disk i'.data p x := fun p x =>
    hin.owned_iff hx.inv hx.openInodes
  have hlen : bytesToSectors i.data.length ≤ bytesToSectors i'.data.length := by
    unfold bytesToSectors
    rcases inodeExtend_length hinv hi hpos hsize hoffset he with ⟨rfl, -⟩ | ⟨h1, h2⟩ <;> omega
  refine ⟨⟨fun p x hp => ?_, fun j hj => ?_⟩, fun x => ⟨?_, ?_⟩, fun _ x hu =>
    hin.used_iff.mpr (hx.grows.used x hu)⟩
  · rw [hd'] at hp ⊢
    rcases hx.grows.source p x ((howned p x).mp hp) with hp | ⟨-, -, hb⟩
    · have hexact := ht.exact p x (hd ▸ hp)
      rw [hd] at hexact
      exact hexact.mono fun q ⟨j, hj, hq⟩ => ⟨j, by omega, hq⟩
    · exact hb rfl
  · obtain rfl := Option.some.inj (hi'.symm.trans hj)
    rw [hin.sector_eq hx.inv hx.openInodes]
    exact hx.stored rfl (ht.stored i hi)
  · rintro ⟨p, -, ⟨rfl, rfl⟩ | hp⟩
    · exact .inl ⟨[], owns_self hs⟩
    · rw [hd'] at hp
      rcases hx.grows.source p x ((howned p x).mp hp) with hp | ⟨hn, hu, -⟩
      · exact .inl ⟨p, hs, .inr (hd ▸ hp)⟩
      · exact .inr ⟨ho, hn, hin.used_iff.mpr hu⟩
  · have hs' : st'.live s = true := by
      rw [hlive]
      exact hs
    rintro (⟨p, -, ⟨rfl, rfl⟩ | hp⟩ | ⟨-, hn, hu⟩)
    · exact ⟨[], owns_self hs'⟩
    · rw [hd] at hp
      exact ⟨p, hs', .inr (hd' ▸ (howned p x).mpr (hx.grows.keep p x hp))⟩
    · rcases hx.tight rfl x (hin.used_iff.mp hu) with hu | ⟨p, hp⟩
      · exact absurd hu hn
      · exact ⟨p, hs', .inr (hd' ▸ (howned p x).mpr hp)⟩

theorem act_carries {a : Action} (hinv : Inv st) (h0 : s ≠ 0) (ht : Tidy s st)
    (hg : Sound st (a, st.heap)) (hown : a.inode = some s)
    (hw : ∀ buffer size offset, a = .write s buffer size offset →
      1 ≤ size ∧ ∃ st', st.inodeWriteAt s buffer size offset = some (size.toNat, st'))
    (hs : act a st = some st') (hlive : st'.live s = true) :
    Carries s st st' (a.inode = some s) := by
  cases (act_acts hown hs).2 with
  | opened => exact inodeOpen_carries ht
  | written hi hsize hoffset hwrite =>
      obtain ⟨hpos, st₁, h₁⟩ := hw _ _ _ rfl
      obtain ⟨-, rfl⟩ := Prod.mk.inj (Option.some.inj (h₁.symm.trans hwrite))
      exact inodeWriteAt_carries rfl hinv h0 ht hg hpos hsize hoffset h₁
  | closed hc => exact inodeClose_carries hinv h0 ht hc hlive
  | recounted hi hd => exact carries_recount ht hi hd

/-- One step of a run in which the writes to the file are done to the end. -/
theorem step_carries (hinv : Inv st) (h0 : s ≠ 0) (ht : Tidy s st) (hg : Sound st a)
    (he : Extending s st a) (hs : step a st = some st') (hlive : st'.live s = true) :
    Carries s st st' (a.1.inode = some s) := by
  have ht' : Tidy s (st.call a.2) := ⟨ht.exact, ht.stored⟩
  have hc : Carries s (st.call a.2) st' (a.1.inode = some s) := by
    by_cases hown : a.1.inode = some s
    · exact act_carries hinv.call h0 ht' hg hown he.2 hs hlive
    · obtain ⟨-, u, hl, hu⟩ := act_local hinv.call hg hs
      have hne : s ≠ u := by
        rintro rfl
        rcases hu with hu | ⟨-, hu⟩
        · exact hown hu
        · exact absurd he.1 (by rw [show st.live s = false from hu]; exact Bool.false_ne_true)
      exact hl.carries hinv.call hne h0 he.1 ht' hown
  exact ⟨hc.tidy, hc.owns, hc.used⟩

/-! ### The run -/

/-- The file owns what its calls have taken. -/
structure Own (st st₁ : State) (s : Sector) (h : List (State × (Action × (ℕ → Bool))))
    (st₂ : State) : Prop where
  inv : Inv st₂
  tidy : Tidy s st₂
  owns : ∀ x, TakenSince st st₁ s h x ↔ ∃ p, st₂.Owns s p x
  used : (∀ y ∈ h, y.2.1.inode = some s) → ∀ x,
    (st₂.Used x ↔ st.Used x ∨ TakenSince st st₁ s h x) ∧ (st.Used x → ¬TakenSince st st₁ s h x)

theorem Created.own (hinv : Inv st) (hc : Created s st st₁) : Own st st₁ s [] st₁ := by
  have htaken : ∀ x, TakenSince st st₁ s [] x ↔ ¬st.Used x ∧ st₁.Used x := fun x =>
    or_iff_left fun ⟨_, hy, _⟩ => nomatch hy
  refine ⟨hc.inv, ⟨hc.exact, fun i hi => ?_⟩, fun x => ?_, fun _ x => ?_⟩
  · rw [hc.takes.openInodes, hinv.not_open (hinv.not_live hc.free)] at hi
    cases hi
  · rw [htaken]
    constructor
    · rintro ⟨hn, hu⟩
      exact (hc.tight x hu).resolve_left hn
    · rintro ⟨p, hp⟩
      exact ⟨hc.source p x hp, hc.inv.used s p x hp⟩
  · rw [htaken]
    refine ⟨⟨fun hu => ?_, ?_⟩, fun hu hx => hx.1 hu⟩
    · by_cases hx : st.Used x
      · exact .inl hx
      · exact .inr ⟨hx, hu⟩
    · rintro (hu | ⟨-, hu⟩)
      · exact hc.takes.used x hu
      · exact hu

theorem Own.step (ho : Own st st₁ s h st₂) (h0 : s ≠ 0) (hg : Sound st₂ a) (he : Extending s st₂ a)
    (hs : Files.step a st₂ = some st') (hlive : st'.live s = true) :
    Own st st₁ s ((st₂, a) :: h) st' := by
  have hc := step_carries ho.inv h0 ho.tidy hg he hs hlive
  have htaken : ∀ x, TakenSince st st₁ s ((st₂, a) :: h) x ↔
      TakenSince st st₁ s h x ∨ a.1.inode = some s ∧ ¬st₂.Used x ∧ st'.Used x := fun x => by
    unfold TakenSince Taken
    rw [or_assoc]
    refine or_congr_right ?_
    constructor
    · rintro ⟨y, hy, hi, hn, st₃, h₃, hu⟩
      rcases List.mem_cons.mp hy with rfl | hy
      · obtain rfl := Option.some.inj (hs.symm.trans h₃)
        exact .inr ⟨hi, hn, hu⟩
      · exact .inl ⟨y, hy, hi, hn, st₃, h₃, hu⟩
    · rintro (⟨y, hy, hrest⟩ | ⟨hi, hn, hu⟩)
      · exact ⟨y, List.mem_cons_of_mem _ hy, hrest⟩
      · exact ⟨_, List.mem_cons_self, hi, hn, st', hs, hu⟩
  refine ⟨ho.inv.step hg hs, hc.tidy, fun x => ?_, fun hall x => ?_⟩
  · rw [htaken, ho.owns, hc.owns]
  · have hown := hall _ List.mem_cons_self
    obtain ⟨hused, hdisj⟩ := ho.used (fun y hy => hall y (List.mem_cons_of_mem _ hy)) x
    rw [htaken, ← or_assoc, ← hused]
    refine ⟨⟨fun hu => ?_, ?_⟩, fun hu hx => ?_⟩
    · by_cases hx : st₂.Used x
      · exact .inl hx
      · exact .inr ⟨hown, hx, hu⟩
    · rintro (hu | ⟨-, -, hu⟩)
      · exact hc.used hown x hu
      · exact hu
    · rcases hx with hx | ⟨-, hn, -⟩
      · exact hdisj hu hx
      · exact hn (hused.mpr (.inl hu))

theorem own_run {length : ℤ} {isDir added : Bool} {heap : ℕ → Bool} (hinv : Inv st)
    (hg : Sound st (.create length isDir added, heap))
    (hc : Files.step (.create length isDir added, heap) st = some st₁) (hold : st.live s = false)
    (hnew : st₁.live s = true)
    (hrun : Run Files.step (fun st a => Sound st a ∧ Extending s st a) st₁ h st₂)
    (hlive : st₂.live s = true) : s ≠ 0 ∧ Own st st₁ s h st₂ := by
  have hcreated : Created s (st.call heap) st₁ :=
    act_created (a := .create length isDir added) hinv.call hg hc hold hnew
  have h0 := hinv.call.ne_zero hcreated.free
  have h₁ := hcreated.own hinv.call
  refine ⟨h0, hrun.invariant (I := fun h st₂ => st₂.live s = true → Own st st₁ s h st₂)
    (fun _ => ⟨h₁.inv, h₁.tidy, h₁.owns, h₁.used⟩) (fun h st a st' _ ih hg hs hl => ?_) hlive⟩
  exact (ih hg.2.1).step h0 hg.1 hg.2 hs hl

/-- **Deletion gives back what creation and writing took**: until its last closing no sector that
the calls on a file have taken is free, and the last closing of the removed file frees these
sectors and no others; when no other file was worked on, the free map is the one before. -/
theorem file_deletion {disk : Sector → Block} {size : Sector} {heap heap₁ : ℕ → Bool} {st₀ : State}
    {length : ℤ} {isDir added : Bool} (hf : State.format disk size heap = some st₀)
    (hr : Reachable step Sound st₀ st) (hg : Sound st (.create length isDir added, heap₁))
    (hc : step (.create length isDir added, heap₁) st = some st₁) (hold : st.live s = false)
    (hnew : st₁.live s = true)
    (hrun : Run step (fun st a => Sound st a ∧ Extending s st a) st₁ h st₂)
    (hlive : st₂.live s = true) :
    (∀ x, TakenSince st st₁ s h x → st₂.Used x ∧ st₂.freeMapAllocate.1 ≠ some x) ∧
      ∀ i heap₂, st₂.openInodes s = some i → i.removed = true → i.openCnt = 1 →
        ∃ st₃, step (.close s, heap₂) st₂ = some st₃ ∧
          (∀ x, st₃.Used x ↔ st₂.Used x ∧ ¬TakenSince st st₁ s h x) ∧
          ((∀ y ∈ h, y.2.1.inode = some s) → st₃.freeMap = st.freeMap) := by
  have hinv : Inv st := hr.invariant (inv_format hf) fun _ _ _ _ h hg hs => h.step hg hs
  obtain ⟨h0, ho⟩ := own_run hinv hg hc hold hnew hrun hlive
  have hused : ∀ x, TakenSince st st₁ s h x → st₂.Used x := fun x hx => by
    obtain ⟨p, hp⟩ := (ho.owns x).mp hx
    exact ho.inv.used s p x hp
  refine ⟨fun x hx => ⟨hused x hx, fun hx' => ?_⟩, fun i heap₂ hi hrem hcnt => ?_⟩
  · rcases allocate_cases ho.inv.ground with ⟨t, st', ha, hn, -⟩ | ⟨st', ha, -⟩
    · rw [ha] at hx'
      obtain rfl := Option.some.inj hx'
      exact hn (hused t hx)
    · rw [ha] at hx'
      cases hx'
  · have hinv₂ : Inv (st₂.call heap₂) := ho.inv.call
    obtain ⟨st₃, h₃, -, -, -, hfree⟩ := inodeClose_removed hinv₂ h0 hi (by omega) hrem
    have hours : ∀ x, Ours (st₂.call heap₂) s i x ↔ TakenSince st st₁ s h x := fun x => by
      rw [ho.owns]
      constructor
      · rintro (rfl | ⟨p, hp⟩)
        · exact ⟨[], owns_self hlive⟩
        · exact ⟨p, hlive, .inr (by rw [dataOf_open hi]; exact hp.2)⟩
      · rintro ⟨p, -, ⟨-, hx⟩ | hp⟩
        · exact .inl hx
        · have hexact := ho.tidy.exact p x hp
          rw [dataOf_open hi] at hp hexact
          exact .inr ⟨p, hexact, hp⟩
    have hfree' : ∀ x, st₃.Used x ↔ st₂.Used x ∧ ¬TakenSince st st₁ s h x := fun x => by
      rw [hfree, hours]
      rfl
    refine ⟨st₃, ?_, hfree', fun hall => ?_⟩
    · unfold step act
      dsimp only
      rw [if_pos h0]
      exact h₃
    · funext x
      apply Bool.eq_iff_iff.mpr
      change st₃.Used x ↔ st.Used x
      obtain ⟨hused, hdisj⟩ := ho.used hall x
      rw [hfree', hused]
      exact ⟨fun hx => hx.1.resolve_right hx.2, fun hx => ⟨.inl hx, hdisj hx⟩⟩

/-- What is to be seen of a run in which a file is created, written and removed. -/
def deletionRun : Option (List Bool) := do
  let st₀ ← State.format (fun _ => zeros) 40 fun _ => true
  let st₁ ← step (.create 600 false true, fun _ => true) st₀
  let st₂ ← step (.open 4, fun _ => true) st₁
  let (n, _) ← (st₂.call fun _ => true).inodeWriteAt 4 (fun _ => 7) 3 2000
  let st₃ ← step (.write 4 (fun _ => 7) 3 2000, fun _ => true) st₂
  let st₄ ← step (.remove 4, fun _ => true) st₃
  let i ← st₄.openInodes 4
  some [st₀.live 4, st₁.live 4, st₂.live 4, n == 3, st₃.live 4, st₄.live 4, i.openCnt == 1,
    i.removed]

theorem file_deletion_write : ∃ st₀ st₄ st₅, State.format (fun _ => zeros) 40 (fun _ => true) = some st₀ ∧
    execute step [(.create 600 false true, fun _ => true), (.open 4, fun _ => true),
      (.write 4 (fun _ => 7) 3 2000, fun _ => true), (.remove 4, fun _ => true)] st₀ = some st₄ ∧
    step (.close 4, fun _ => true) st₄ = some st₅ ∧ st₅.freeMap = st₀.freeMap := by
  have h : deletionRun = some [false, true, true, true, true, true, true, true] := by
    decide +kernel
  unfold deletionRun at h
  simp only [Option.bind_eq_bind, Option.bind_eq_some_iff] at h
  obtain ⟨st₀, h₀, st₁, h₁, st₂, h₂, ⟨n, r⟩, hw, st₃, h₃, st₄, h₄, i, hi, hfacts⟩ := h
  simp only [Option.some.injEq, List.cons.injEq, beq_iff_eq] at hfacts
  obtain ⟨hl₀, hl₁, hl₂, rfl, hl₃, hl₄, hcnt, hrem, -⟩ := hfacts
  have hrun : Run step (fun st a => Sound st a ∧ Extending 4 st a) st₁
      [(st₃, (.remove 4, fun _ => true)), (st₂, (.write 4 (fun _ => 7) 3 2000, fun _ => true)),
        (st₁, (.open 4, fun _ => true))] st₄ := by
    refine .cons (.cons (.cons .nil ⟨trivial, hl₁, nofun⟩ h₂) ⟨.inl (by decide), hl₂, ?_⟩ h₃)
      ⟨trivial, hl₃, nofun⟩ h₄
    rintro _ _ _ ⟨⟩
    exact ⟨by decide, r, hw⟩
  have hfirst : Sound st₀ (.create 600 false true, fun _ => true) := .inl (by decide)
  obtain ⟨st₅, h₅, -, hmap⟩ := (file_deletion h₀ .refl hfirst h₁ hl₀ hl₁ hrun hl₄).2 i
    (fun _ => true) hi hrem hcnt
  refine ⟨st₀, st₄, st₅, h₀, ?_, h₅, hmap ?_⟩
  · simp only [execute, h₁, h₂, h₃, h₄, Option.bind_some]
  · intro y hy
    simp only [List.mem_cons, List.not_mem_nil, or_false] at hy
    rcases hy with rfl | rfl | rfl <;> rfl

/-- When `malloc` recovers in the middle of a write, the free map loses sector 0. -/
theorem file_deletion_transient : ∃ st₀ st₁ h st₂ i st₃,
    State.format (fun _ => zeros) 200 (fun _ => true) = some st₀ ∧
    step (.create (123 * 512) false true, fun _ => true) st₀ = some st₁ ∧ st₀.live 4 = false ∧
    st₁.live 4 = true ∧ Run step (Extending 4) st₁ h st₂ ∧ st₂.live 4 = true ∧
    st₂.openInodes 4 = some i ∧ i.removed = true ∧ i.openCnt = 1 ∧
    (∀ y ∈ h, y.2.1.inode = some 4) ∧
    step (.close 4, fun _ => true) st₂ = some st₃ ∧ st₃.freeMap ≠ st₀.freeMap := by
  obtain ⟨st₀, st₁, st₂, st₃, st₄, st₅, i, r, h₀, h₁, h₂, hw, h₃, h₄, hi, h₅,
    ⟨hl₀, hf₀, hl₁, hl₂, hl₃, hl₄⟩, hcnt, hrem, -, hf₅⟩ := transient_run
  have hrun : Run step (Extending 4) st₁
      [(st₃, (.remove 4, fun _ => true)),
        (st₂, (.write 4 (fun _ => 7) 1 (123 * 512), fun k => k != 0)),
        (st₁, (.open 4, fun _ => true))] st₄ := by
    refine .cons (.cons (.cons .nil ⟨hl₁, nofun⟩ h₂) ⟨hl₂, ?_⟩ h₃) ⟨hl₃, nofun⟩ h₄
    rintro _ _ _ ⟨⟩
    exact ⟨by decide, r, hw⟩
  refine ⟨st₀, st₁, _, st₄, i, st₅, h₀, h₁, hl₀, hl₁, hrun, hl₄, hi, hrem, hcnt, ?_, h₅, fun h => ?_⟩
  · intro y hy
    simp only [List.mem_cons, List.not_mem_nil, or_false] at hy
    rcases hy with rfl | rfl | rfl <;> rfl
  · rw [h, hf₀] at hf₅
    cases hf₅

end CSE130.Lab3.Files
