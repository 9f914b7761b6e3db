import CSE130.Lab3.Names
import CSE130.Lab3.ZeroWrites
import CSE130.Lab3.Growth

/-! # The references of `dir_remove`

`dir_remove` opens the inode that it removes, and closes it at the common exit.  When the inode is
of a directory, `dir_open` takes this reference over, and `dir_close` gives it back before the exit
does: every directory is closed twice.  With no other opener the inode is freed before it is used
(`dir_remove` has no result here), with others one of their references is gone
(`dir_remove_balances`). -/

namespace CSE130.Lab3.Files

open BlockTree Transition
open Function (update)

variable {st st' st₀ st₁ st₂ st₃ : State} {s t x dir : Sector} {i i' : Inode} {name : Name}
  {e : DirEntry} {ok isEmpty : Bool} {k : ℕ} {heap : ℕ → Bool}

/-- The inode of the entry for the name. -/
def entrySector (st : State) (dir : Sector) (name : Name) : Option Sector :=
  (entryOf (contents st.disk (st.dataOf dir)) name).map fun k =>
    (entryAt (contents st.disk (st.dataOf dir)) k).inodeSector

/-- The sectors of the inode at `s`, as far as its length goes. -/
def Blocks (st : State) (s x : Sector) : Prop :=
  x = s ∨ ∃ p, Cut (FileLeaves (bytesToSectors (st.dataOf s).length)) (Owned st.disk (st.dataOf s)) p x

/-- The sectors of the inode are free when those who had it open have closed it. -/
def Goes (st : State) (s : Sector) (st' : State) : Prop :=
  ∃ st₂, State.closeTimes s (st.opens s) st' = some st₂ ∧ ∀ x, Blocks st s x → ¬st₂.Used x

/-- `dir_remove` uses no inode that is freed, gives back what it takes, and what it removes goes
with the last reference. -/
def Balances (st : State) (dir : Sector) (name : Name) : Prop :=
  ∃ ok st', st.dirRemove dir name = some (ok, st') ∧ (∀ t, st'.opens t = st.opens t) ∧
    (ok = true → ∀ s, entrySector st dir name = some s → Goes st s st')

/-- The name is not of a directory, or its inode cannot be opened at all. -/
def ClosedOnce (st : State) (dir : Sector) (name : Name) : Prop :=
  ∀ s, entrySector st dir name = some s →
    (st.dataOf s).isDir = false ∨ st.openInodes s = none ∧ st.heap 0 = false

/-! ### Counting -/

theorem opens_opened (st : State) (s t : Sector) :
    (st.opened s).opens t = st.opens t + if t = s then 1 else 0 := by
  unfold State.opened
  rw [opens_setInode]
  by_cases ht : t = s
  · subst ht
    rw [if_pos rfl, if_pos rfl]
    cases hi : st.openInodes t with
    | none => rw [opens_of_closed hi]; rfl
    | some i => rw [opens_of_open hi]; rfl
  · rw [if_neg ht, if_neg ht, Nat.add_zero]

theorem Drift.opens (hd : Drift st st') (t : Sector) : st'.opens t = st.opens t := by
  obtain ⟨heap, f, -, rfl⟩ := hd
  rfl

theorem Counted.opens_ne (hn : Counted st) (hi : st.openInodes s = some i) : st.opens s ≠ 0 := by
  rw [opens_of_open hi]
  exact hn s i hi

theorem Counted.close_opens (hn : Counted st) (hc : st.inodeClose s = some st') :
    st'.opens s + 1 = st.opens s := by
  obtain ⟨i, hi⟩ := inodeClose_open hc
  have h := inodeClose_opens hc (hn.opens_ne hi) s
  rwa [if_pos rfl] at h

theorem writeEntry_counted {ofs : ℕ} (hn : Counted st) (hw : st.writeEntry s e ofs = some (ok, st')) :
    Counted st' ∧ ∀ t, st'.opens t = st.opens t := by
  obtain ⟨⟨n, st₁⟩, hw, heq⟩ := Option.map_eq_some_iff.mp hw
  cases heq
  have hc := inodeWriteAt_counts hw
  refine ⟨hn.of_counts hc fun t ht => ?_, hc.opens⟩
  obtain ⟨i, hi⟩ := inodeWriteAt_open hw
  obtain ⟨-, i', ho, -⟩ := inodeWriteAt_entry hi hw
  rw [ho] at ht
  by_cases hts : t = s
  · rw [hts, hi]
    exact Option.some_ne_none i
  · rwa [Function.update_of_ne hts] at ht

theorem remove_counted (hn : Counted st) (hr : st.inodeRemove s = some st') :
    Counted st' ∧ ∀ t, st'.opens t = st.opens t := by
  have hc := inodeRemove_counts hr
  obtain ⟨i, hi, rfl⟩ := Option.map_eq_some_iff.mp hr
  exact ⟨hn.setInode (hn s i hi), hc.opens⟩

/-! ### A directory -/

theorem Tested.drift (ht : Tested st s isEmpty st₂) (hn : Counted st) (hd : (st.dataOf s).isDir = true) :
    Drift st st₂ := by
  obtain ⟨st₁, hopen, ht⟩ := ht
  rw [if_pos hd] at ht
  exact hopen.close hn ht.2

/-- **A directory is closed twice**, unless it could not be opened. -/
theorem Removes.directory (hr : Removes dir k e st ok st') (hn : Counted st)
    (hd : (st.dataOf e.inodeSector).isDir = true) :
    ok = false ∧ st.openSector e.inodeSector = some (false, st') ∨
      st'.opens e.inodeSector + 1 = st.opens e.inodeSector := by
  -- the test leaves nothing but answers of `malloc`
  have htest : ∀ {isEmpty : Bool} {st₂ : State}, Tested st e.inodeSector isEmpty st₂ →
      Counted st₂ ∧ ∀ t, st₂.opens t = st.opens t := by
    intro isEmpty st₂ ht
    have hdrift := ht.drift hn hd
    exact ⟨hn.drift_of hdrift, hdrift.opens⟩
  cases hr with
  | unopened ho => exact .inl ⟨rfl, ho⟩
  | nonempty ht hc =>
      obtain ⟨hn₂, ho₂⟩ := htest ht
      right
      rw [hn₂.close_opens hc, ho₂]
  | unwritten ht hw hc =>
      obtain ⟨hn₂, ho₂⟩ := htest ht
      obtain ⟨hn₃, ho₃⟩ := writeEntry_counted hn₂ hw
      right
      rw [hn₃.close_opens hc, ho₃, ho₂]
  | removed ht hw hremove hc =>
      obtain ⟨hn₂, ho₂⟩ := htest ht
      obtain ⟨hn₃, ho₃⟩ := writeEntry_counted hn₂ hw
      obtain ⟨hn₄, ho₄⟩ := remove_counted hn₃ hremove
      right
      rw [hn₄.close_opens hc, ho₄, ho₃, ho₂]

theorem openSector_failed (ho : st.openSector s = some (false, st')) :
    st.openInodes s = none ∧ st.heap 0 = false := by
  have hmem : st.heap 0 = false := by
    by_contra h
    exact nomatch openSector_memory (Bool.eq_true_of_not_eq_false h) ho
  refine ⟨?_, hmem⟩
  unfold State.openSector State.inodeOpen at ho
  cases hi : st.openInodes s with
  | none => rfl
  | some i =>
      rw [hi] at ho
      dsimp only at ho
      split_ifs at ho
      cases ho

/-! ### A regular file -/

/-- What is written to a place inside a file changes nothing but its bytes. -/
theorem writeEntry_inside (e : DirEntry) {ofs : ℕ} (h : Inv st) (hi : st.openInodes s = some i)
    (hle : ofs + 20 ≤ i.data.length) :
    ∃ ok st', st.writeEntry s e ofs = some (ok, st') ∧ Inside s i st st' := by
  unfold State.writeEntry State.inodeWriteAt
  rw [hi]
  dsimp only
  by_cases hdeny : i.denyWriteCnt = 0
  · have hext : st.inodeExtend s i 20 ofs = some (true, i, st) :=
      inodeExtend_inside h hi (by omega) (by omega)
    rw [if_neg (not_not.mpr hdeny), hext]
    exact ⟨_, _, rfl, writeLoop_inside h hi⟩
  · rw [if_pos hdeny]
    exact ⟨_, _, rfl, rfl, rfl, rfl, rfl, rfl, fun _ _ => rfl⟩

theorem Inside.opens (hin : Inside dir i st st') (t : Sector) : st'.opens t = st.opens t := by
  unfold State.opens
  rw [hin.openInodes]

theorem closed_opens (hd : Drift (st.opened s) st₁) (ho : ∀ t, st₂.opens t = st₁.opens t)
    (hc : st₂.inodeClose s = some st') (t : Sector) : st'.opens t = st.opens t := by
  have hopens : ∀ t, st₂.opens t = st.opens t + if t = s then 1 else 0 := fun t => by
    rw [ho, hd.opens, opens_opened]
  have hs := hopens s
  rw [if_pos rfl] at hs
  have ht := inodeClose_opens hc (by omega) t
  rw [hopens] at ht
  exact Nat.add_right_cancel ht

theorem close_total (hn : Counted st) (hd : Drift (st.opened s) st₁)
    (ho : st₂.openInodes = st₁.openInodes) : ∃ st', st₂.inodeClose s = some st' := by
  obtain ⟨heap, f, -, rfl⟩ := hd
  have hi : st₂.openInodes s = (st.opened s).openInodes s := congrFun ho s
  unfold State.opened State.setInode at hi
  dsimp only at hi
  rw [Function.update_self] at hi
  unfold State.inodeClose
  rw [hi]
  cases hs : st.openInodes s with
  | none => exact ⟨_, rfl⟩
  | some i =>
      have hcnt := hn s i hs
      dsimp only
      rw [if_neg (by omega)]
      exact ⟨_, rfl⟩

theorem erased_goes (h : Healthy st) (hi : st.openInodes dir = some i) (h0 : dir ≠ 0)
    (hs : IsFile st s) (hne : s ≠ dir) (hd : Drift (st.opened s) st₁) (hin : Inside dir i st₁ st₂) :
    ∃ st₃ st', st₂.inodeRemove s = some st₃ ∧ st₃.inodeClose s = some st' ∧
      (∀ t, st'.opens t = st.opens t) ∧ Goes st s st' := by
  have h₁ : Healthy st₁ := (h.opened hs.1 hs.2).drift hd
  have hi₁ : st₁.openInodes dir = some i := by
    obtain ⟨heap, f, -, rfl⟩ := hd
    exact (Function.update_of_ne hne.symm ..).trans hi
  obtain ⟨⟨j, hj, hdata⟩, hdisk, hlive⟩ := opened_entry hd
  have hj₂ : st₂.openInodes s = some j := by
    rw [hin.openInodes, hj]
  have hcnt : j.openCnt = st.opens s + 1 := by
    rw [← opens_of_open hj₂, hin.opens, hd.opens, opens_opened, if_pos rfl]
  -- its blocks are what they were
  have howned : ∀ p x, Owned st₂.disk j.data p x ↔ Owned st.disk (st.dataOf s) p x := by
    intro p x
    have hlive₁ : st₁.live s = true := by rw [hlive, hs.1]
    have hsame := (hin.loc h₁.inv hi₁).owned_iff (p := p) (x := x) h₁.inv hne hlive₁
    rw [← hdata]
    rwa [dataOf_open hj, hdisk] at hsame
  have hinv : Inv (st₂.setInode s (some { j with removed := true })) :=
    (hin.inv h₁.inv h0 hi₁).recount hs.2 hj₂ rfl
  obtain ⟨st₄, hclose, hused⟩ := closeTimes_removed hs.2 (st.opens s) hinv (Function.update_self ..)
    rfl hcnt
  rw [State.closeTimes] at hclose
  obtain ⟨st', hc, hclose⟩ := Option.bind_eq_some_iff.mp hclose
  have hremove : st₂.inodeRemove s = some (st₂.setInode s (some { j with removed := true })) := by
    unfold State.inodeRemove
    rw [hj₂]
    rfl
  have hopens : ∀ t, (st₂.setInode s (some { j with removed := true })).opens t = st₁.opens t :=
    fun t => ((inodeRemove_counts hremove).opens t).trans (hin.opens t)
  refine ⟨_, st', hremove, hc, closed_opens hd hopens hc, st₄, hclose, fun x hx hu =>
    ((hused x).mp hu).2 ?_⟩
  rcases hx with rfl | ⟨p, hcut, hx⟩
  · exact .inl rfl
  · rw [← hdata] at hcut
    exact .inr ⟨p, hcut, (howned p x).mpr hx⟩

theorem openSector_total (h : Inv st) (hlive : st.live s = true) :
    ∃ ok st', st.openSector s = some (ok, st') := by
  have hlt : s < st.size := h.range s (h.used s [] s (owns_self hlive))
  unfold State.openSector
  dsimp only
  rw [if_neg fun hle => UInt32.not_le.mpr hlt hle.2]
  exact ⟨_, _, rfl⟩

/-- **A regular file is closed once.** -/
theorem dirRemove_file (h : Healthy st) (hi : st.openInodes dir = some i) (h0 : dir ≠ 0)
    (hk : entryOf (contents st.disk i.data) name = some k)
    (he : (entryAt (contents st.disk i.data) k).inodeSector = s) (hs : IsFile st s) (hne : s ≠ dir)
    (hfile : (st.dataOf s).isDir = false) :
    ∃ ok st', st.dirRemove dir name = some (ok, st') ∧ (∀ t, st'.opens t = st.opens t) ∧
      (ok = true → Goes st s st') := by
  have hlt := entryOf_lt hk
  unfold State.dirRemove
  rw [hi]
  simp only [Option.bind_eq_bind, Option.bind_some, lookup_eq, hk, Option.map_some]
  generalize entryAt (contents st.disk i.data) k = e at he ⊢
  subst he
  obtain ⟨ok, st₁, hopen⟩ := openSector_total h.inv hs.1
  have hd := openSector_drift hopen
  rw [hopen]
  cases ok with
  | false => exact ⟨false, st₁, rfl, hd.opens, nofun⟩
  | true =>
      obtain ⟨hd, -⟩ := hd
      obtain ⟨⟨j, hj, hdata⟩, -, -⟩ := opened_entry hd
      have hi₁ : st₁.openInodes dir = some i := by
        obtain ⟨heap, f, -, rfl⟩ := hd
        exact (Function.update_of_ne hne.symm ..).trans hi
      obtain ⟨ok, st₂, hw, hin⟩ := writeEntry_inside { e with inUse := 0 }
        ((h.opened hs.1 hs.2).drift hd).inv hi₁ hlt
      simp only [hj, hdata, hfile, hw, Option.bind_some, Bool.true_eq_false, Bool.false_eq_true, if_false]
      cases ok with
      | false =>
          obtain ⟨st', hc⟩ := close_total h.counted hd hin.openInodes
          exact ⟨false, st', by rw [if_pos rfl, hc]; rfl, closed_opens hd hin.opens hc, nofun⟩
      | true =>
          obtain ⟨st₃, st', hremove, hc, hopens, hgoes⟩ := erased_goes h hi h0 hs hne hd hin
          refine ⟨true, st', ?_, hopens, fun _ => hgoes⟩
          rw [if_neg Bool.noConfusion, hremove, Option.bind_some, hc]
          rfl

/-! ### The balance -/

theorem entrySector_eq (hi : st.openInodes dir = some i) : entrySector st dir name =
    (entryOf (contents st.disk i.data) name).map fun k =>
      (entryAt (contents st.disk i.data) k).inodeSector := by
  unfold entrySector
  rw [dataOf_open hi]

theorem openSector_none (hn : st.openInodes s = none) (hm : st.heap 0 = false) :
    st.openSector s = some (false, st.malloc.2) := by
  have hmalloc : st.malloc.1 = false := hm
  unfold State.openSector State.inodeOpen
  rw [hn]
  dsimp only
  rw [hmalloc, if_neg Bool.false_ne_true, if_neg fun h => Bool.false_ne_true h.1]

theorem Balances.once (hb : Balances st dir name) (h : Healthy st) (hi : st.openInodes dir = some i) :
    ClosedOnce st dir name := by
  obtain ⟨ok, st', hrem, hopens, -⟩ := hb
  intro s hs
  rw [entrySector_eq hi] at hs
  obtain ⟨k, hk, rfl⟩ := Option.map_eq_some_iff.mp hs
  cases hd : (st.dataOf (entryAt (contents st.disk i.data) k).inodeSector).isDir with
  | false => exact .inl rfl
  | true =>
      obtain ⟨hnone, -⟩ | ⟨k', hk', hremoves⟩ := dirRemove_removes h.counted hi hrem
      · rw [hk] at hnone
        cases hnone
      · obtain rfl := Option.some.inj (hk.symm.trans hk')
        obtain ⟨-, hopen⟩ | hless := hremoves.directory h.counted hd
        · exact .inr (openSector_failed hopen)
        · rw [hopens] at hless
          omega

theorem ClosedOnce.balances (hc : ClosedOnce st dir name) (h : Healthy st)
    (hi : st.openInodes dir = some i) (h0 : dir ≠ 0) (hdir : i.data.isDir = true)
    (hfile : ∀ s, entrySector st dir name = some s → IsFile st s) : Balances st dir name := by
  cases hk : entryOf (contents st.disk i.data) name with
  | none =>
      refine ⟨false, st, ?_, fun _ => rfl, nofun⟩
      unfold State.dirRemove
      rw [hi]
      simp only [Option.bind_eq_bind, Option.bind_some, lookup_eq, hk, Option.map_none]
  | some k =>
      have hs : entrySector st dir name = some (entryAt (contents st.disk i.data) k).inodeSector := by
        rw [entrySector_eq hi, hk]
        rfl
      obtain hfileOf | ⟨hnone, hmem⟩ := hc _ hs
      · have hne : (entryAt (contents st.disk i.data) k).inodeSector ≠ dir := by
          intro heq
          rw [heq, dataOf_open hi, hdir] at hfileOf
          cases hfileOf
        obtain ⟨ok, st', hrem, hopens, hgoes⟩ := dirRemove_file h hi h0 hk rfl (hfile _ hs) hne hfileOf
        refine ⟨ok, st', hrem, hopens, fun hok s hs' => ?_⟩
        obtain rfl := Option.some.inj (hs.symm.trans hs')
        exact hgoes hok
      · refine ⟨false, st.malloc.2, ?_, (malloc_drift st).opens, nofun⟩
        unfold State.dirRemove
        rw [hi]
        simp only [Option.bind_eq_bind, Option.bind_some, lookup_eq, hk, Option.map_some,
          openSector_none hnone hmem, if_true]

/-- **When the references balance**: only when the name is not of a directory, or its inode is not
opened at all. -/
theorem dirRemove_balances {disk : Sector → Block} {size : Sector} {heap₀ : ℕ → Bool} {e₀ : DirEntry}
    (hf : Paths.doFormat disk size heap₀ e₀ = some st₀) (hr : Reachable pathStep Orderly st₀ st)
    (hi : st.openInodes dir = some i) (h0 : dir ≠ 0) (hdir : i.data.isDir = true)
    (hfile : ∀ s, entrySector st dir name = some s → IsFile st s) :
    Balances (st.call heap) dir name ↔ ClosedOnce (st.call heap) dir name := by
  have h := (healthy_reachable hf hr).1
  have hcall : Healthy (st.call heap) := ⟨h.inv.call, h.counted⟩
  exact ⟨fun hb => hb.once hcall hi, fun hc => hc.balances hcall hi h0 hdir hfile⟩

/-! ### The removal of "a" from the root directory -/

/-- `"a"` is created, empty, and the root directory opened: what is to be seen of it, and whether
`dir_remove` has a result. -/
def removalRun (isDir : Bool) : Option (List Bool) := do
  let st₀ ← Paths.doFormat (fun _ => zeros) 40 (fun _ => true) ⟨0, List.replicate 15 0, 1⟩
  let st₁ ← pathStep (.create none [97] 0 isDir default, fun _ => true) st₀
  let st ← pathStep (.inode (.open 1), fun _ => true) st₁
  let i ← st.openInodes 1
  some [st₀.live 1, i.data.isDir, entrySector st 1 [97] == some 4, st.live 4, (st.dataOf 4).isDir,
    ((st.call fun _ => true).dirRemove 1 [97]).isSome]

theorem removalRun_eq (isDir : Bool) :
    removalRun isDir = some [true, true, true, true, isDir, !isDir] := by
  cases isDir
  · decide +kernel
  · decide +kernel

theorem removal_run (isDir : Bool) : ∃ st₀ st i,
    Paths.doFormat (fun _ => zeros) 40 (fun _ => true) ⟨0, List.replicate 15 0, 1⟩ = some st₀ ∧
    Reachable pathStep Orderly st₀ st ∧ st.openInodes 1 = some i ∧ i.data.isDir = true ∧
    entrySector st 1 [97] = some 4 ∧ IsFile st 4 ∧ (st.dataOf 4).isDir = isDir ∧
    ((st.call fun _ => true).dirRemove 1 [97]).isSome = !isDir := by
  have h := removalRun_eq isDir
  unfold removalRun at h
  simp only [Option.bind_eq_bind, Option.bind_eq_some_iff] at h
  obtain ⟨st₀, h₀, st₁, h₁, st, h₂, i, hi, hfacts⟩ := h
  simp only [Option.some.injEq, List.cons.injEq, beq_iff_eq, and_true] at hfacts
  obtain ⟨hlive₀, hdir, hentry, hlive, hkind, hresult⟩ := hfacts
  have hgood : Orderly st₀ (.create none [97] 0 isDir default, fun _ => true) := by
    refine ⟨.inl (by decide), fun d hd => ?_⟩
    obtain rfl : (1 : Sector) = d := Option.some.inj hd
    exact ⟨⟨hlive₀, by decide⟩, .inr fun _ h => nomatch h⟩
  have hgood₁ : Orderly st₁ (.inode (.open 1), fun _ => true) := ⟨trivial, nofun⟩
  exact ⟨st₀, st, i, h₀, (Reachable.refl.tail hgood h₁).tail hgood₁ h₂, hi, hdir, hentry,
    ⟨hlive, by decide⟩, hkind, hresult⟩

/-- A regular file. -/
theorem dirRemove_balances_file : ∃ st₀ st i,
    Paths.doFormat (fun _ => zeros) 40 (fun _ => true) ⟨0, List.replicate 15 0, 1⟩ = some st₀ ∧
    Reachable pathStep Orderly st₀ st ∧ st.openInodes 1 = some i ∧ i.data.isDir = true ∧
    entrySector st 1 [97] = some 4 ∧ Balances (st.call fun _ => true) 1 [97] := by
  obtain ⟨st₀, st, i, h₀, hr, hi, hdir, hentry, hfile, hkind, -⟩ := removal_run false
  refine ⟨st₀, st, i, h₀, hr, hi, hdir, hentry,
    (dirRemove_balances h₀ hr hi (by decide) hdir fun s hs => ?_).mpr fun s hs => .inl ?_⟩
  · obtain rfl := Option.some.inj (hentry.symm.trans hs)
    exact hfile
  · obtain rfl := Option.some.inj (hentry.symm.trans hs)
    exact hkind

/-- An empty directory that nobody else has open. -/
theorem dirRemove_freed : ∃ st₀ st i,
    Paths.doFormat (fun _ => zeros) 40 (fun _ => true) ⟨0, List.replicate 15 0, 1⟩ = some st₀ ∧
    Reachable pathStep Orderly st₀ st ∧ st.openInodes 1 = some i ∧ i.data.isDir = true ∧
    entrySector st 1 [97] = some 4 ∧ IsFile st 4 ∧ (st.dataOf 4).isDir = true ∧
    (st.call fun _ => true).dirRemove 1 [97] = none ∧ ¬Balances (st.call fun _ => true) 1 [97] := by
  obtain ⟨st₀, st, i, h₀, hr, hi, hdir, hentry, hfile, hkind, hresult⟩ := removal_run true
  have hnone : (st.call fun _ => true).dirRemove 1 [97] = none := Option.not_isSome_iff_eq_none.mp
    (Bool.eq_false_iff.mp hresult)
  refine ⟨st₀, st, i, h₀, hr, hi, hdir, hentry, hfile, hkind, hnone, ?_⟩
  rintro ⟨ok, st', hrem, -⟩
  rw [hnone] at hrem
  cases hrem

end CSE130.Lab3.Files
