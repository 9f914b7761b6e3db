import CSE130.Lab3.Calls

/-! # A name that is added is found

`dir_add` looks for a free slot from slot 0 on, where the entry for the parent is; its byte
`in_use` is whatever was on the stack when the entry was written.  If it is not zero, the new name
is found and everything else is as before.  If it is zero, the new entry takes the place of the
parent's, where `lookup` does not see it (`dir_add_findable`). -/

namespace CSE130.Lab3.Files

open BlockTree Transition
open Function (update)

variable {st st' st₀ st₁ st₂ : State} {s t dir : Sector} {i i' : Inode} {name other : Name}
  {e : DirEntry} {ok isDir : Bool} {heap : ℕ → Bool} {c : List ℕ}

/-! ### Runs of calls -/

/-- The calls on paths, and all operations on inodes. -/
inductive PathCall where
  | create (cwd : Option Sector) (path : List UInt8) (initialSize : ℤ) (isDir : Bool) (e : DirEntry)
  | open (cwd : Option Sector) (path : List UInt8)
  | remove (cwd : Option Sector) (path : List UInt8)
  | inode (a : Action)

/-- A call. -/
def pathCall (c : PathCall) (st : State) : Option State :=
  match c with
  | .create cwd path initialSize isDir e =>
      if offT initialSize = initialSize then
        (Paths.filesysCreate st cwd path initialSize isDir e).map Prod.snd
      else none
  | .open cwd path => (Paths.filesysOpen st cwd path).map Prod.snd
  | .remove cwd path => (Paths.filesysRemove st cwd path).map Prod.snd
  | .inode a => act a st

/-- A call with the answers that `malloc` gives to it. -/
def pathStep (c : PathCall × (ℕ → Bool)) (st : State) : Option State := pathCall c.1 (st.call c.2)

/-- The path of a call leads to files, and `malloc` does not succeed again in a call that needs
index blocks. -/
def Orderly (st : State) (c : PathCall × (ℕ → Bool)) : Prop :=
  match c.1 with
  | .create cwd path initialSize _ _ => Covered initialSize c.2 ∧
      ∀ d, pathDir st cwd (splitPathFilename path).1 = some d →
        IsFile st d ∧ Covered ((st.dataOf d).length + 20) c.2
  | .open cwd path => ∀ s, resolve st cwd path = some s → IsFile st s
  | .remove cwd path => (∀ s, victim st cwd path = some s → IsFile st s) ∧
      ∀ d, pathDir st cwd (splitPathFilename path).1 = some d →
        IsFile st d ∧ Covered (st.dataOf d).length c.2
  | .inode a => Sound st (a, c.2) ∧ Positive a

theorem Healthy.call {c : PathCall × (ℕ → Bool)} (h : Healthy st) (hz : Clean st) (hg : Orderly st c)
    (hs : pathStep c st = some st') : Healthy st' ∧ Clean st' := by
  obtain ⟨c, heap⟩ := c
  have h : Healthy (st.drift heap false) := ⟨h.inv.call, h.counted⟩
  have hz : Clean (st.drift heap false) := hz
  have hall : ∀ {S full}, Deeds S full (st.drift heap false) st' → Healthy st' ∧ Clean st' :=
    fun hd => ⟨(h.deeds hd).1, hz.deeds h hd⟩
  unfold pathStep pathCall at hs
  cases c with
  | create cwd path initialSize isDir e =>
      dsimp only at hs
      split_ifs at hs with hsize
      obtain ⟨⟨ok, st₁⟩, hc, rfl⟩ := Option.map_eq_some_iff.mp hs
      refine hall (filesysCreate_works h (fun d hd => ?_) hsize hg.1 hc).deeds
      rw [pathDir_drift] at hd
      exact hg.2 d hd
  | «open» cwd path =>
      obtain ⟨⟨r, st₁⟩, ho, rfl⟩ := Option.map_eq_some_iff.mp hs
      have hd : Works Set.univ true _ st₁ := filesysOpen_works h (fun s hr => ?_) ho
      · exact hall hd.deeds
      · rw [resolve_drift] at hr
        exact hg s hr
  | remove cwd path =>
      obtain ⟨⟨ok, st₁⟩, hr, rfl⟩ := Option.map_eq_some_iff.mp hs
      refine hall (filesysRemove_works h (fun d hd => ?_) (fun s hv => ?_) hr).deeds
      · rw [pathDir_drift] at hd
        exact hg.2 d hd
      · rw [victim_drift] at hv
        exact hg.1 s hv
  | inode a => exact ⟨h.act hg.1 hs, hz.act h.inv hg.1 hg.2 hs⟩

theorem doFormat_cases {disk : Sector → Block} {size : Sector}
    (hf : Paths.doFormat disk size heap e = some st) : ∃ st₁ st₂ st₃,
      State.format disk size heap = some st₁ ∧ Healthy st₁ ∧ IsFile st₁ 1 ∧
      Drift (st₁.opened 1) st₂ ∧
      st₂.writeEntry 1 { e with inodeSector := 1 } 0 = some (true, st₃) ∧
      st₃.inodeClose 1 = some st := by
  unfold Paths.doFormat at hf
  obtain ⟨st₁, hformat, hf⟩ := Option.bind_eq_some_iff.mp hf
  obtain ⟨st₂, d, -, hc, -, hopen⟩ := format_created hformat
  have hn : Counted st₁ := by
    intro s i hi
    rw [hc.takes.openInodes, hopen] at hi
    by_cases hs : s = 0
    · subst hs
      rw [Function.update_self] at hi
      cases hi
      exact Nat.one_ne_zero
    · rw [Function.update_of_ne hs] at hi
      cases hi
  have h1 : IsFile st₁ 1 := ⟨by rw [hc.live, Function.update_self], by decide⟩
  rcases ho : st₁.inodeOpen rootDirSector with ⟨ok, st₃⟩
  rw [ho] at hf
  have hd := inodeOpen_drift ho
  cases ok with
  | false => cases hf
  | true =>
      simp only [Bool.true_eq_false, if_false] at hf
      obtain ⟨⟨ok, st₄⟩, hopen, hf⟩ := Option.bind_eq_some_iff.mp hf
      have hd := dirOpen_drift hn hd hopen
      cases ok with
      | false => cases hf
      | true =>
          simp only [Bool.true_eq_false, if_false] at hf
          obtain ⟨⟨ok, st₅⟩, hw, hf⟩ := Option.bind_eq_some_iff.mp hf
          obtain ⟨st₆, hclose, hf⟩ := Option.bind_eq_some_iff.mp hf
          split_ifs at hf with hok
          cases hf
          obtain rfl : ok = true := hok
          exact ⟨st₁, st₄, st₅, hformat, ⟨inv_format hformat, hn⟩, h1, hd, hw, hclose⟩

theorem healthy_doFormat {disk : Sector → Block} {size : Sector}
    (hf : Paths.doFormat disk size heap e = some st) : Healthy st ∧ Clean st := by
  obtain ⟨st₁, st₂, st₃, hformat, h, h1, hd, hw, hclose⟩ := doFormat_cases hf
  have hworks : Works Set.univ true st₁ st :=
    ((opened_works (Set.mem_univ _) h1 hd).tail (writeEntry_work (Set.mem_univ _) h1.2 (by decide)
      (.inl (by decide)) hw)).tail (close_work (Set.mem_univ _) h1.2 hclose)
  exact ⟨(h.works hworks).1, (clean_format hformat).deeds h hworks.deeds⟩

theorem healthy_reachable {disk : Sector → Block} {size : Sector}
    (hf : Paths.doFormat disk size heap e = some st₀)
    (hr : Reachable pathStep Orderly st₀ st) : Healthy st ∧ Clean st :=
  hr.invariant (I := fun st => Healthy st ∧ Clean st) (healthy_doFormat hf)
    fun _ _ _ _ h hg hs => h.1.call h.2 hg hs

/-! ### Looking up a name -/

/-- The inode that `dir_lookup` finds, with memory for it; `none` where it panics. -/
def finds (st : State) (dir : Sector) (name : Name) : Option (Option Sector) :=
  ((st.call fun _ => true).dirLookup dir name).map Prod.fst

/-- The device is read only within its size. -/
def openable (st : State) (s : Sector) : Option (Option Sector) :=
  if s < st.size then some (some s) else none

theorem openSector_openable (st : State) (s : Sector) :
    (((st.call fun _ => true).openSector s).bind fun x =>
      some (if x.1 = true then some s else none, x.2)).map Prod.fst = openable st s := by
  unfold State.openSector openable
  rcases ho : (st.call fun _ => true).inodeOpen s with ⟨ok, st₁⟩
  obtain rfl : ok = true := by
    unfold State.inodeOpen at ho
    split at ho
    · exact (congrArg Prod.fst ho).symm
    · exact (congrArg Prod.fst ho).symm
  dsimp only
  by_cases hs : s < st.size
  · rw [if_neg fun h => UInt32.not_lt.mpr h.2 hs, if_pos hs]
    rfl
  · rw [if_pos ⟨rfl, UInt32.not_lt.mp hs⟩, if_neg hs]
    rfl

theorem finds_eq (hi : st.openInodes dir = some i) : finds st dir name =
    if name = dot then some (some dir)
    else if name = dotDot then
      if 20 ≤ i.data.length then openable st (entryAt (contents st.disk i.data) 0).inodeSector
      else none
    else match entryOf (contents st.disk i.data) name with
      | none => some none
      | some k => openable st (entryAt (contents st.disk i.data) k).inodeSector := by
  unfold finds State.dirLookup
  rw [show (st.call fun _ => true).openInodes dir = some i from hi]
  simp only [Option.bind_eq_bind, Option.bind_some]
  by_cases hdot : name = dot
  · rw [if_pos hdot, if_pos hdot]
    rfl
  rw [if_neg hdot, if_neg hdot]
  by_cases hdots : name = dotDot
  · rw [if_pos hdots, if_pos hdots]
    by_cases hlen : 20 ≤ i.data.length
    · have hread := readEntry_ok (m := st.disk) (d := i.data) (e := default) (k := 0) (by omega)
      rw [Nat.mul_zero] at hread
      rw [hread, if_pos hlen]
      exact openSector_openable st _
    · have hread := readEntry_short (m := st.disk) (d := i.data) (e := default) (k := 0) (by omega)
      rw [Nat.mul_zero] at hread
      rw [if_neg hlen, if_neg (by rw [hread]; exact Bool.false_ne_true)]
      rfl
  · rw [if_neg hdots, if_neg hdots, lookup_eq]
    cases entryOf (contents st.disk i.data) name with
    | none => rfl
    | some k => exact openSector_openable st _

/-! ### Adding a name -/

theorem writeEntry_entry {k : ℕ} (h : Healthy st) (hz : Clean st) (hi : st.openInodes dir = some i) (h0 : dir ≠ 0)
    (hk : k ≤ i.data.length / 20) (hcov : Covered ((20 * k : ℕ) + 20) st.heap)
    (hw : st.writeEntry dir e (20 * k) = some (true, st')) :
    ∃ i', st'.openInodes dir = some i' ∧
      contents st'.disk i'.data = setEntry (contents st.disk i.data) k e ∧ st'.size = st.size := by
  obtain ⟨⟨n, st₁⟩, hw, heq⟩ := Option.map_eq_some_iff.mp hw
  obtain ⟨hn, rfl⟩ := Prod.mk.inj heq
  obtain rfl : n = 20 := eq_of_beq hn
  have hlt := h.slot_lt hi hk
  have hz := hz dir (h.inv.opened dir i hi) h0
  rw [dataOf_open hi] at hz
  have hsum : offT (((20 * k : ℕ) : ℤ) + 20) = (20 * k : ℕ) + 20 := offT_of_lt (by omega) (by omega)
  rw [← hsum] at hcov
  obtain ⟨i', hi', hwritten, -, hlen⟩ := inodeWriteAt_written h.inv h0 hi hz hcov (by decide)
    (by decide) (offT_of_lt (by omega) (by omega)) hw
  obtain ⟨hinv, hl⟩ := inodeWriteAt_local h.inv h0 hi hcov hw
  exact ⟨i', hi', hwritten.contents_eq (hinv.opened_data hi').1 (hlen rfl), hl.size⟩

/-- What is found depends on the entry for the parent and the one for the name. -/
theorem finds_congr (hi : st.openInodes dir = some i) (hi' : st'.openInodes dir = some i')
    (hsize : st'.size = st.size) (hlen : 20 ≤ i.data.length) (hlen' : 20 ≤ i'.data.length)
    (h0 : entryAt (contents st'.disk i'.data) 0 = entryAt (contents st.disk i.data) 0)
    (hentry : entryOf (contents st'.disk i'.data) other = entryOf (contents st.disk i.data) other)
    (hat : ∀ j, entryOf (contents st.disk i.data) other = some j →
      entryAt (contents st'.disk i'.data) j = entryAt (contents st.disk i.data) j) :
    finds st' dir other = finds st dir other := by
  have hopen : ∀ s, openable st' s = openable st s := fun s => by
    unfold openable
    rw [hsize]
  rw [finds_eq hi, finds_eq hi']
  by_cases hdot : other = dot
  · rw [if_pos hdot, if_pos hdot]
  rw [if_neg hdot, if_neg hdot]
  by_cases hdots : other = dotDot
  · rw [if_pos hdots, if_pos hdots, if_pos hlen, if_pos hlen', h0, hopen]
  · rw [if_neg hdots, if_neg hdots, hentry]
    cases hf : entryOf (contents st.disk i.data) other with
    | none => rfl
    | some j =>
        dsimp only
        rw [hat j hf, hopen]

theorem setEntry_length_le {bytes bytes' : List UInt8} {k : ℕ} (hc : bytes' = setEntry bytes k e) :
    bytes.length ≤ bytes'.length := by
  rw [hc]
  unfold setEntry
  rw [laidOver_length]
  exact Nat.le_max_left ..

/-- Another name, or the entry for the parent: the new entry is not the one that was found. -/
theorem finds_other (hi : st.openInodes dir = some i) (hi' : st'.openInodes dir = some i')
    (hsize : st'.size = st.size) (he : e.name.length = 15) (hne : e.string ≠ other)
    (h0 : freeSlot (contents st.disk i.data) ≠ 0)
    (hc : contents st'.disk i'.data =
      setEntry (contents st.disk i.data) (freeSlot (contents st.disk i.data)) e) :
    finds st' dir other = finds st dir other := by
  have hle := freeSlot_le (contents st.disk i.data)
  have hlen := setEntry_length_le hc
  rw [contents_length] at hle
  rw [contents_length, contents_length] at hlen
  refine finds_congr hi hi' hsize (by omega) (by omega) ?_ ?_ fun j hj => ?_
  · rw [hc, entryAt_other (Ne.symm h0)]
  · rw [hc, entryOf_other he hne]
  · have hfree : j ≠ freeSlot (contents st.disk i.data) := by
      rintro rfl
      obtain ⟨⟨hn, -, hlt⟩, -⟩ := entryOf_eq_some.mp hj
      exact hn.1 (freeSlot_free _ hlt)
    rw [hc, entryAt_other hfree]

theorem finds_none (hi : st.openInodes dir = some i) (hn : finds st dir name = some none) :
    name ≠ dot ∧ name ≠ dotDot ∧ entryOf (contents st.disk i.data) name = none := by
  have hopen : ∀ s, openable st s ≠ some none := by
    intro s
    unfold openable
    split_ifs
    · nofun
    · nofun
  rw [finds_eq hi] at hn
  split_ifs at hn with hdot hdots hlen
  · cases hn
  · exact absurd hn (hopen _)
  · refine ⟨hdot, hdots, ?_⟩
    cases hf : entryOf (contents st.disk i.data) name with
    | none => rfl
    | some k =>
        rw [hf] at hn
        exact absurd hn (hopen _)

theorem finds_self {bytes : List UInt8} (hi' : st'.openInodes dir = some i')
    (hdot : e.string ≠ dot) (hdots : e.string ≠ dotDot) (he : e.name.length = 15)
    (hu : e.inUse ≠ 0) (hnone : entryOf bytes e.string = none)
    (hc : contents st'.disk i'.data = setEntry bytes (freeSlot bytes) e) :
    finds st' dir e.string = if freeSlot bytes = 0 then some none else openable st' e.inodeSector := by
  rw [finds_eq hi', if_neg hdot, if_neg hdots, hc, entryOf_self he hu hnone]
  by_cases hk : freeSlot bytes = 0
  · rw [if_pos hk, if_pos hk]
  · rw [if_neg hk, if_neg hk]
    dsimp only
    rw [entryAt_self he]

theorem freeSlot_ne_zero (m : Sector → Block) (d : InodeDisk) : freeSlot (contents m d) ≠ 0 ↔
    (readEntry m d default 0).1 = true ∧ (readEntry m d default 0).2.inUse ≠ 0 := by
  rw [Ne, freeSlot_zero, not_not, contents_length]
  by_cases hlen : 20 ≤ d.length
  · have hread := readEntry_ok (m := m) (d := d) (e := default) (k := 0) (by omega)
    rw [Nat.mul_zero] at hread
    rw [hread]
    exact and_congr_left fun _ => iff_of_true hlen rfl
  · have hread := readEntry_short (m := m) (d := d) (e := default) (k := 0) (by omega)
    rw [Nat.mul_zero] at hread
    rw [hread]
    exact iff_of_false (fun h => hlen h.1) fun h => nomatch h.1

/-- **A name that is added is found** exactly when slot 0 is in use: in every reachable state, when
`dir_add` returns true for a name that was not found, then the name is found, and every other name
and `".."` as before, if and only if the byte `in_use` of slot 0 is not zero. -/
theorem dir_add_findable {disk : Sector → Block} {size : Sector} {heap₀ : ℕ → Bool} {e₀ : DirEntry}
    (hf : Paths.doFormat disk size heap₀ e₀ = some st₀)
    (hr : Reachable pathStep Orderly st₀ st) (hi : st.openInodes dir = some i) (h0 : dir ≠ 0)
    (hs : s < st.size) (hdir : isDir = true → IsFile st s ∧ s ≠ dir)
    (hcov : Covered (i.data.length + 20) heap) (hname : (0 : UInt8) ∉ name)
    (hnew : finds st dir name = some none)
    (hadd : (st.call heap).dirAdd dir name s isDir e = some (true, st')) :
    (finds st' dir name = some (some s) ∧
      ∀ other, other ≠ name → finds st' dir other = finds st dir other) ↔
      (readEntry st.disk i.data default 0).1 = true ∧
        (readEntry st.disk i.data default 0).2.inUse ≠ 0 := by
  obtain ⟨h, hz⟩ := healthy_reachable hf hr
  have h : Healthy (st.call heap) := ⟨h.inv.call, h.counted⟩
  have hz : Clean (st.call heap) := hz
  have hi₀ : (st.call heap).openInodes dir = some i := hi
  rcases dirAdd_cases h hi₀ h0 (fun hd => ⟨(hdir hd).1.1, (hdir hd).1.2, (hdir hd).2⟩) hadd with
    ⟨hfalse, -⟩ | ⟨e', st₁, hlen, hnone, hd, -, hi₁, hbytes, hw⟩
  · cases hfalse
  obtain ⟨h₁, hb⟩ := h.works hd
  set bytes := contents st.disk i.data with hbytes₀
  have hbytes : contents st₁.disk i.data = bytes := hbytes
  have hnone : entryOf bytes name = none := hnone
  have hk := freeSlot_le bytes
  rw [hbytes₀, contents_length, ← hbytes₀] at hk
  have hcov₁ : Covered ((20 * freeSlot bytes : ℕ) + 20) st₁.heap := hcov.later (by omega) hd.later
  obtain ⟨i', hi', hc, hsize⟩ := writeEntry_entry h₁ (hz.deeds h hd.deeds) hi₁ h0 hk hcov₁ hw
  have hsize : st'.size = st.size := hsize.trans hb.size
  rw [hbytes] at hc
  have he := setName_length { e' with inUse := 1, inodeSector := s } name
  have hstring := string_setName (e := { e' with inUse := 1, inodeSector := s }) hlen hname
  have hu : (DirEntry.setName { e' with inUse := 1, inodeSector := s } name).inUse ≠ 0 := by
    change (1 : UInt8) ≠ 0
    decide
  have hsector : (DirEntry.setName { e' with inUse := 1, inodeSector := s } name).inodeSector = s := rfl
  generalize DirEntry.setName { e' with inUse := 1, inodeSector := s } name = e₁ at *
  subst hstring hsector
  obtain ⟨hdot, hdots, -⟩ := finds_none hi hnew
  have hself := finds_self hi' hdot hdots he hu hnone hc
  rw [← freeSlot_ne_zero]
  constructor
  · intro hfind hk
    rw [hself, if_pos hk] at hfind
    exact nomatch hfind.1
  · intro hk
    refine ⟨?_, fun other hne => finds_other hi hi' hsize he hne.symm hk hc⟩
    rw [hself, if_neg hk]
    unfold openable
    rw [if_pos (hsize ▸ hs)]

/-- `dir_add` of `"a"` to the root directory of a new file system; `inUse` was on the stack of
`dir_create`. -/
def addFirst (inUse : UInt8) : Option (List ℕ × List (Option (Option Sector))) := do
  let st₀ ← Paths.doFormat (fun _ => zeros) 40 (fun _ => true) ⟨0, List.replicate 15 0, inUse⟩
  let st ← execute pathStep [(.inode (.open 1), fun _ => true),
    (.inode (.create 0 false true), fun _ => true)] st₀
  let i ← st.openInodes 1
  let (ok, st') ← (st.call fun _ => true).dirAdd 1 [97] 4 false default
  some ([i.data.length, if ok then 1 else 0, st.size.toNat,
      (readEntry st.disk i.data default 0).2.inUse.toNat],
    [finds st 1 [97], finds st' 1 [97], finds st 1 dotDot, finds st' 1 dotDot])

theorem add_first {inUse : UInt8} {n : ℕ} {r r₁ r₂ r₃ : Option (Option Sector)}
    (h : addFirst inUse = some ([320, 1, 40, n], [r, r₁, r₂, r₃])) : ∃ st₀ st i st',
    Paths.doFormat (fun _ => zeros) 40 (fun _ => true) ⟨0, List.replicate 15 0, inUse⟩ = some st₀ ∧
    Reachable pathStep Orderly st₀ st ∧ st.openInodes 1 = some i ∧
    (st.call fun _ => true).dirAdd 1 [97] 4 false default = some (true, st') ∧
    (i.data.length = 320 ∧ st.size.toNat = 40 ∧
      (readEntry st.disk i.data default 0).2.inUse.toNat = n) ∧
    finds st 1 [97] = r ∧ finds st' 1 [97] = r₁ ∧ finds st 1 dotDot = r₂ ∧ finds st' 1 dotDot = r₃ := by
  unfold addFirst at h
  simp only [Option.bind_eq_bind, Option.bind_eq_some_iff] at h
  obtain ⟨st₀, h₀, st, hrun, i, hi, ⟨ok, st'⟩, hadd, hfacts⟩ := h
  simp only [Option.some.injEq, Prod.mk.injEq, List.cons.injEq, and_true] at hfacts
  obtain ⟨⟨hlen, hok, hsize, huse⟩, hfinds⟩ := hfacts
  cases ok with
  | false => cases hok
  | true =>
      refine ⟨st₀, st, i, st', h₀, execute_reachable (fun st c hc => ?_) .refl hrun, hi, hadd,
        ⟨hlen, hsize, huse⟩, hfinds⟩
      simp only [List.mem_cons, List.not_mem_nil, or_false] at hc
      rcases hc with rfl | rfl
      · exact ⟨trivial, by rintro _ _ _ _ ⟨⟩⟩
      · exact ⟨.inl (by decide), by rintro _ _ _ _ ⟨⟩⟩

theorem dir_add_findable_first : ∃ st₀ st st',
    Paths.doFormat (fun _ => zeros) 40 (fun _ => true) ⟨0, List.replicate 15 0, 1⟩ = some st₀ ∧
    Reachable pathStep Orderly st₀ st ∧
    (st.call fun _ => true).dirAdd 1 [97] 4 false default = some (true, st') ∧
    finds st' 1 [97] = some (some 4) ∧ finds st' 1 dotDot = finds st 1 dotDot := by
  have h : addFirst 1 = some ([320, 1, 40, 1],
      [some none, some (some 4), some (some 1), some (some 1)]) := by
    decide +kernel
  obtain ⟨st₀, st, i, st', h₀, hr, hi, hadd, ⟨hlen, hsize, huse⟩, hnew, -⟩ := add_first h
  have hs : (4 : Sector) < st.size := by
    rw [UInt32.lt_iff_toNat_lt, hsize]
    decide
  have hread := readEntry_ok (m := st.disk) (d := i.data) (e := default) (k := 0) (by omega)
  have hfind := (dir_add_findable h₀ hr hi (by decide) hs (fun h : false = true => nomatch h)
    (.inl (by rw [hlen]; decide)) (by decide) hnew hadd).mpr ⟨congrArg Prod.fst hread, fun h0 => ?_⟩
  · exact ⟨st₀, st, st', h₀, hr, hadd, hfind.1, hfind.2 dotDot (by decide)⟩
  · rw [h0] at huse
    exact absurd huse (by decide)

/-- With a zero on the stack the file is lost, and takes the place of the parent. -/
theorem dir_add_lost : ∃ st₀ st st',
    Paths.doFormat (fun _ => zeros) 40 (fun _ => true) ⟨0, List.replicate 15 0, 0⟩ = some st₀ ∧
    Reachable pathStep Orderly st₀ st ∧ finds st 1 [97] = some none ∧
    (st.call fun _ => true).dirAdd 1 [97] 4 false default = some (true, st') ∧
    finds st' 1 [97] = some none ∧ finds st 1 dotDot = some (some 1) ∧
    finds st' 1 dotDot = some (some 4) := by
  have h : addFirst 0 = some ([320, 1, 40, 0],
      [some none, some none, some (some 1), some (some 4)]) := by
    decide +kernel
  obtain ⟨st₀, st, i, st', h₀, hr, -, hadd, -, hnew, hlost, hparent, hparent'⟩ := add_first h
  exact ⟨st₀, st, st', h₀, hr, hnew, hadd, hlost, hparent, hparent'⟩

end CSE130.Lab3.Files
