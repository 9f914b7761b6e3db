import CSE130.Lab3.Names
import CSE130.Lab3.ZeroWrites

/-! # What a failed creation leaves behind

`filesys_create` allocates the sector of the inode, then its data, and looks for the name last.
When one of the steps fails it releases the sector of the inode and nothing else.  The directories
are as before in any case; the free map is only where nothing else was taken
(`create_traceless`). -/

namespace CSE130.Lab3.Files

open BlockTree Transition
open Function (update)

variable {st st' st₀ st₁ st₂ st₃ st₄ : State} {s t x dir : Sector} {i i' : Inode} {name : Name}
  {e : DirEntry} {ok isDir : Bool} {size : ℤ} {offset n k : ℕ} {cwd : Option Sector}
  {path : List UInt8} {r : Option Sector} {d d₀ : InodeDisk} {m : Sector → Block}

/-! ### Paths, with memory -/

theorem openFound_memory (hm : st.heap 0 = true)
    (h : ((st.openSector s).bind fun x => some (if x.1 = true then some s else none, x.2)) =
      some (r, st')) : r ≠ none := by
  obtain ⟨⟨ok, st₁⟩, ho, h⟩ := Option.bind_eq_some_iff.mp h
  cases openSector_memory hm ho
  cases h
  exact Option.some_ne_none s

theorem dirLookup_memory (hm : st.heap 0 = true) (h : st.dirLookup dir name = some (none, st')) :
    target st dir name = none := by
  unfold State.dirLookup at h
  obtain ⟨i, hi, h⟩ := Option.bind_eq_some_iff.mp h
  unfold target
  rw [dataOf_open hi]
  by_cases hdot : name = dot
  · rw [if_pos hdot] at h
    cases h
  rw [if_neg hdot] at h ⊢
  by_cases hdots : name = dotDot
  · rw [if_pos hdots] at h ⊢
    dsimp only at h ⊢
    split_ifs at h ⊢
    · exact absurd rfl (openFound_memory hm h)
    · rfl
  · rw [if_neg hdots] at h ⊢
    cases hl : lookup st.disk i.data name with
    | none => rfl
    | some x =>
        rw [hl] at h
        exact absurd rfl (openFound_memory hm h)

theorem walk_memory (hn : Counted st) (hm : ∀ k, st.heap k = true) : ∀ {tokens : List Name}
    {curr : Sector} {st₁ : State}, Drift (st.opened curr) st₁ →
    st₁.walk curr tokens = some (none, st') → follow st curr tokens = none
  | [], curr, st₁, _, h => by cases h
  | token :: rest, curr, st₁, hd, h => by
      unfold State.walk at h
      obtain ⟨⟨found, st₂⟩, hl, h⟩ := Option.bind_eq_some_iff.mp h
      unfold follow
      cases found with
      | none =>
          have ht := dirLookup_memory (hd.memory hm 0) hl
          rw [hd.target, target_opened] at ht
          rw [ht]
          rfl
      | some s =>
          obtain ⟨hnone, -⟩ | ⟨s', hs', ht, hd₂⟩ := dirLookup_cases hl
          · cases hnone
          cases hs'
          rw [hd.target, target_opened] at ht
          have hd₂ := (hd.opened s).trans hd₂
          obtain ⟨⟨ok, st₃⟩, ho, h⟩ := Option.bind_eq_some_iff.mp h
          obtain ⟨st₄, hc, h⟩ := Option.bind_eq_some_iff.mp h
          cases dirOpen_memory (hd₂.memory hm 0) ho
          have hopen := dirOpen_drift hn.opened hd₂ ho
          rw [ht, Option.bind_some]
          exact walk_memory hn hm (Drift.close_first hopen hn hc) h

theorem opened_removed (hi : (st.opened s).openInodes s = some i) :
    (st.openInodes s).any Inode.removed = i.removed := by
  rw [opened_self] at hi
  cases hs : st.openInodes s with
  | none =>
      rw [hs] at hi
      cases hi
      rfl
  | some j =>
      rw [hs] at hi
      cases hi
      rfl

/-- The directory of a path, when it can be opened. -/
def foundDir (st : State) (cwd : Option Sector) (path : List UInt8) : Option Sector :=
  (pathDir st cwd path).filter fun d => !(st.openInodes d).any Inode.removed

theorem dirOpenPath_memory (hn : Counted st) (hm : ∀ k, st.heap k = true)
    (h : st.dirOpenPath cwd path = some (r, st')) :
    r = none ∧ foundDir st cwd path = none ∧ Drift st st' ∨
      ∃ d, r = some d ∧ foundDir st cwd path = some d ∧ Drift (st.opened d) st' := by
  unfold State.dirOpenPath at h
  unfold foundDir pathDir
  dsimp only at h
  generalize (if path.head? = some slash then rootDirSector else cwd.getD rootDirSector) = start at h ⊢
  have hopen := inodeOpen_memory (s := start) (hm 0)
  rcases hi : st.inodeOpen start with ⟨ok, st₁⟩
  rw [hi] at h hopen
  have hd := inodeOpen_drift hi
  cases hopen
  rw [if_neg Bool.noConfusion] at h
  obtain ⟨⟨ok, st₂⟩, ho, h⟩ := Option.bind_eq_some_iff.mp h
  cases dirOpen_memory (hd.memory hm 0) ho
  have hd₂ := dirOpen_drift hn hd ho
  dsimp only at h
  rw [if_neg Bool.noConfusion] at h
  obtain ⟨⟨found, st₃⟩, hw, h⟩ := Option.bind_eq_some_iff.mp h
  cases found with
  | none =>
      cases h
      rw [walk_memory hn hm hd₂ hw]
      obtain ⟨-, hd₃⟩ | ⟨s, hs, -⟩ := walk_cases hn hd₂ hw
      · exact .inl ⟨rfl, rfl, hd₃⟩
      · cases hs
  | some s =>
      obtain ⟨hnone, -⟩ | ⟨s', hs', hf, hd₃⟩ := walk_cases hn hd₂ hw
      · cases hnone
      cases hs'
      rw [hf]
      obtain ⟨i, hi, h⟩ := Option.bind_eq_some_iff.mp h
      have hremoved : (st.openInodes s).any Inode.removed = i.removed := by
        obtain ⟨heap, f, -, rfl⟩ := hd₃
        exact opened_removed hi
      split_ifs at h with hrem
      · obtain ⟨st₄, hc, heq⟩ := Option.map_eq_some_iff.mp h
        cases heq
        rw [Option.filter_some, hremoved, hrem]
        exact .inl ⟨rfl, rfl, hd₃.close hn hc⟩
      · cases h
        rw [Option.filter_some, hremoved, Bool.eq_false_iff.mpr hrem]
        exact .inr ⟨s, rfl, rfl, hd₃⟩

/-- The file at a path, when it can be opened. -/
def pathFile (st : State) (cwd : Option Sector) (path : List UInt8) : Option Sector :=
  if path = [] then none
  else ((foundDir st cwd (splitPathFilename path).1).bind fun dir =>
    if (splitPathFilename path).2 = [] then some dir
    else target st dir (splitPathFilename path).2).filter fun s =>
      !(st.openInodes s).any Inode.removed

theorem filesysOpen_memory (hn : Counted st) (hm : ∀ k, st.heap k = true)
    (h : Paths.filesysOpen st cwd path = some (r, st')) : r = pathFile st cwd path := by
  unfold Paths.filesysOpen at h
  unfold pathFile
  by_cases hempty : path = []
  · rw [if_pos hempty] at h ⊢
    cases h
    rfl
  rw [if_neg hempty] at h ⊢
  rcases hsplit : splitPathFilename path with ⟨directory, fileName⟩
  rw [hsplit] at h
  dsimp only at h ⊢
  have hlast : ∀ {st₂ : State} {s : Sector}, Drift (st.opened s) st₂ →
      ((st₂.openInodes s).bind fun i => if i.removed then some (none, st₂) else
        (st₂.fileOpen s).bind fun x => some (if x.1 then some s else none, x.2)) = some (r, st') →
      r = (some s).filter fun s => !(st.openInodes s).any Inode.removed := by
    intro st₂ s hd hlast
    obtain ⟨i, hi, hlast⟩ := Option.bind_eq_some_iff.mp hlast
    have hremoved : (st.openInodes s).any Inode.removed = i.removed := by
      obtain ⟨heap, f, -, rfl⟩ := hd
      exact opened_removed hi
    rw [Option.filter_some, hremoved]
    split_ifs at hlast with hrem
    · cases hlast
      rw [hrem]
      rfl
    · obtain ⟨⟨ok, st₃⟩, ho, hlast⟩ := Option.bind_eq_some_iff.mp hlast
      cases dirOpen_memory (hd.memory hm 0) ho
      cases hlast
      rw [Bool.eq_false_iff.mpr hrem]
      rfl
  obtain ⟨⟨dir, st₁⟩, hp, h⟩ := Option.bind_eq_some_iff.mp h
  obtain ⟨rfl, hdir, -⟩ | ⟨d, rfl, hdir, hd⟩ := dirOpenPath_memory hn hm hp
  · cases h
    rw [hdir]
    rfl
  rw [hdir, Option.bind_some]
  dsimp only at h
  by_cases hname : fileName = []
  · rw [if_neg (not_not.mpr hname)] at h
    rw [if_pos hname]
    exact hlast hd h
  · rw [if_pos hname] at h
    rw [if_neg hname]
    obtain ⟨⟨found₁, st₃⟩, hl, h⟩ := Option.bind_eq_some_iff.mp h
    obtain ⟨st₂, hc, h⟩ := Option.bind_eq_some_iff.mp h
    cases found₁ with
    | none =>
        cases h
        have ht := dirLookup_memory (hd.memory hm 0) hl
        rw [hd.target, target_opened] at ht
        rw [ht]
        rfl
    | some s =>
        obtain ⟨hnone, -⟩ | ⟨s', hs', ht, hd₂⟩ := dirLookup_cases hl
        · cases hnone
        cases hs'
        rw [hd.target, target_opened] at ht
        rw [ht]
        exact hlast (((hd.opened s).trans hd₂).close_first hn hc) h

/-! ### Writing an entry -/

/-- The directory has its bytes, and is open as before. -/
structure Rests (dir : Sector) (st st' : State) : Prop where
  bytes : contents st'.disk (st'.dataOf dir) = contents st.disk (st.dataOf dir)
  entry : ∀ i, st.openInodes dir = some i → ∃ i', st'.openInodes dir = some i' ∧ i'.removed = i.removed

theorem Rests.refl (dir : Sector) (st : State) : Rests dir st st := ⟨rfl, fun i hi => ⟨i, hi, rfl⟩⟩

theorem Rests.trans (h : Rests dir st st₁) (h' : Rests dir st₁ st') : Rests dir st st' where
  bytes := h'.bytes.trans h.bytes
  entry i hi := by
    obtain ⟨i₁, hi₁, hr₁⟩ := h.entry i hi
    obtain ⟨i', hi', hr'⟩ := h'.entry i₁ hi₁
    exact ⟨i', hi', hr'.trans hr₁⟩

theorem Beside.rests {S : Set Sector} (h : Beside S st st') (hS : dir ∉ S) (h0 : dir ≠ 0)
    (hlive : st.live dir = true) : Rests dir st st' where
  bytes := (h.data dir hS h0 hlive).2
  entry i hi := ⟨i, (h.openInodes dir hS hlive).trans hi, rfl⟩

theorem Rests.of_open (hi : st.openInodes dir = some i) (hi' : st'.openInodes dir = some i)
    (hbytes : contents st'.disk i.data = contents st.disk i.data) : Rests dir st st' where
  bytes := by
    rw [dataOf_open hi, dataOf_open hi']
    exact hbytes
  entry j hj := by
    obtain rfl := Option.some.inj (hi.symm.trans hj)
    exact ⟨i, hi', rfl⟩

theorem covered_of_memory (hm : ∀ k, st.heap k = true) (length : ℤ) : Covered length st.heap :=
  .inr fun k hk => by
    rw [hm k] at hk
    cases hk

/-- An extension that fails has taken something, unless nothing is free. -/
theorem inodeExtend_failed (h : Inv st) (h0 : s ≠ 0) (hi : st.openInodes s = some i)
    (hm : ∀ k, st.heap k = true) (hpos : 0 ≤ offT (offset + size))
    (he : st.inodeExtend s i size offset = some (false, i', st')) :
    contents st'.disk i'.data = contents st.disk i.data ∧
      (st'.freeMap = st.freeMap ↔ st.free = 0) := by
  have hx := inodeExtend_extended h h0 hi (covered_of_memory hm _) he
  refine ⟨hx.contents_eq h h0 hi (hx.failed rfl), ?_⟩
  have hplaced := h.placed h0 (h.opened s i hi)
  rw [dataOf_open hi] at hplaced
  unfold State.inodeExtend at he
  split_ifs at he with hb
  swap
  · cases he
  obtain ⟨⟨ok, d, st₁⟩, hr, he⟩ := Option.bind_eq_some_iff.mp he
  cases ok with
  | true => cases he
  | false =>
      cases he
      obtain ⟨hsame, hneed, -⟩ := reserve_same h.ground hplaced hpos (granted_of_memory hm _) hr
      rw [room_of_memory hm] at hsame
      change st₁.freeMap = st.freeMap ↔ _
      rw [hsame]
      constructor
      · intro h
        have := h.resolve_left (hneed rfl)
        omega
      · intro h
        exact .inr (by omega)

theorem writeEntry_cases (h : Inv st) (h0 : s ≠ 0) (hi : st.openInodes s = some i)
    (hm : ∀ k, st.heap k = true) (hlt : offset + 20 < 2 ^ 31)
    (hw : st.writeEntry s e offset = some (ok, st')) :
    i.denyWriteCnt ≠ 0 ∧ ok = false ∧ st' = st ∨ i.denyWriteCnt = 0 ∧ ∃ i' st₁,
      st.inodeExtend s i 20 offset = some (ok, i', st₁) ∧ Extended st s i ok i' st₁ ∧
      st'.freeMap = st₁.freeMap ∧ st'.openInodes = st₁.openInodes ∧ (ok = false → st' = st₁) ∧
      (ok = true → 0 < i'.data.length) := by
  obtain ⟨⟨n, st₂⟩, hwrite, heq⟩ := Option.map_eq_some_iff.mp hw
  obtain ⟨hn, rfl⟩ := Prod.mk.inj heq
  rcases inodeWriteAt_cases hi hwrite with ⟨rfl, rfl, hdeny⟩ | ⟨hdeny, ok₁, i', st₁, he, hcase⟩
  · exact .inl ⟨hdeny, hn.symm, rfl⟩
  have hx := inodeExtend_extended h h0 hi (covered_of_memory hm _) he
  rcases hcase with ⟨rfl, rfl, rfl⟩ | ⟨rfl, hcount, rfl⟩
  · cases hn
    exact .inr ⟨hdeny, i', st₂, he, hx, rfl, rfl, fun _ => rfl, nofun⟩
  -- with a bounce buffer all is written
  · have hlen : offset + 20 ≤ i'.data.length := by
      rcases inodeExtend_length h hi (by decide) (show offT 20 = 20 by decide)
        (offT_of_lt (by omega) (by omega)) he with ⟨rfl, -, hl⟩ | ⟨-, hl⟩
      · exact_mod_cast hl
      · omega
    have hmem : st₁.heap 0 = true := (inodeExtend_heap he).all hm 0
    have hfull : ((writeLoop i'.data true e.toBytes 20 st₁.disk 20 offset 0).2 : ℤ) = (0 : ℕ) + 20 :=
      writeLoop_full (by decide) (by decide) (by exact_mod_cast hlen)
    rw [hmem] at hcount
    have hn20 : n = 20 := by
      rw [hcount]
      exact_mod_cast hfull
    rw [hn20] at hn
    cases hn
    exact .inr ⟨hdeny, i', st₁, he, hx, rfl, rfl, nofun, fun _ => by omega⟩

theorem writeEntry_used (h : Inv st) (h0 : s ≠ 0) (hi : st.openInodes s = some i)
    (hm : ∀ k, st.heap k = true) (hlt : offset + 20 < 2 ^ 31)
    (hw : st.writeEntry s e offset = some (ok, st')) (hx : st.Used x) : st'.Used x := by
  rcases writeEntry_cases h h0 hi hm hlt hw with ⟨-, -, rfl⟩ | ⟨-, i', st₁, -, hext, hmap, -⟩
  · exact hx
  · unfold State.Used
    rw [hmap]
    exact hext.grows.used x hx

theorem writeEntry_failed (h : Inv st) (h0 : s ≠ 0) (hi : st.openInodes s = some i)
    (hm : ∀ k, st.heap k = true) (hlt : offset + 20 < 2 ^ 31)
    (hw : st.writeEntry s e offset = some (false, st')) :
    Rests s st st' ∧ (st'.freeMap = st.freeMap ↔ i.denyWriteCnt ≠ 0 ∨ st.free = 0) := by
  rcases writeEntry_cases h h0 hi hm hlt hw with ⟨hdeny, -, rfl⟩ |
      ⟨hdeny, i', st₁, he, hx, -, -, hst, -⟩
  · exact ⟨.refl s _, iff_of_true rfl (.inl hdeny)⟩
  · obtain rfl := hst rfl
    have hoff : offT ((offset : ℤ) + 20) = offset + 20 := offT_of_lt (by omega) (by omega)
    obtain ⟨hc, hsame⟩ := inodeExtend_failed h h0 hi hm (by omega) he
    refine ⟨⟨?_, fun j hj => ?_⟩, hsame.trans (or_iff_right fun hne => hne hdeny).symm⟩
    · rw [dataOf_open hi, dataOf_open hx.openInodes]
      exact hc
    · obtain rfl := Option.some.inj (hi.symm.trans hj)
      exact ⟨i', hx.openInodes, hx.counts.2.1⟩

theorem writeEntry_first (h : Inv st) (h0 : s ≠ 0) (hi : st.openInodes s = some i)
    (hm : ∀ k, st.heap k = true) (hdeny : i.denyWriteCnt = 0)
    (hempty : ∀ x, ¬Owned st.disk i.data (filePath 0) x)
    (hw : st.writeEntry s e 0 = some (ok, st')) :
    (st'.freeMap = st.freeMap ↔ st.free = 0) ∧ (ok = true → st.free ≠ 0) := by
  cases ok with
  | false =>
      obtain ⟨-, hsame⟩ := writeEntry_failed h h0 hi hm (by decide) hw
      exact ⟨hsame.trans (or_iff_right fun hne => hne hdeny), nofun⟩
  | true =>
      rcases writeEntry_cases h h0 hi hm (by decide) hw with ⟨-, hok, -⟩ |
          ⟨-, i', st₁, -, hx, hmap, -, -, hlen⟩
      · cases hok
      · obtain ⟨x, hx', -⟩ := (hx.inv.opened_data hx.openInodes).1.sector (hlen rfl)
        obtain ⟨hn, hu, -⟩ := (hx.grows.source _ x hx').resolve_left (hempty x)
        have hfree : st.free ≠ 0 := by
          have := free_mark (hx.loc.size ▸ hx.inv.range x hu) hn
          omega
        refine ⟨iff_of_false (fun hsame => hn ?_) hfree, fun _ => hfree⟩
        rw [hmap] at hsame
        unfold State.Used at hu ⊢
        rwa [hsame] at hu

/-! ### `dir_add` -/

/-- Where sectors are only taken, the free map is the same in the end when each step leaves it. -/
theorem freeMap_between (h₁ : ∀ x, st.Used x → st₁.Used x) (h₂ : ∀ x, st₁.Used x → st'.Used x) :
    st'.freeMap = st.freeMap ↔ st₁.freeMap = st.freeMap ∧ st'.freeMap = st₁.freeMap := by
  constructor
  · intro h
    have hmid : st₁.freeMap = st.freeMap := by
      funext x
      rw [Bool.eq_iff_iff]
      refine ⟨fun hx => ?_, h₁ x⟩
      rw [← h]
      exact h₂ x hx
    exact ⟨hmid, h.trans hmid.symm⟩
  · rintro ⟨h₁, h₂⟩
    exact h₂.trans h₁

/-- The inode at `s`, as it is on the disk, has no first sector. -/
def Blank (st : State) (s : Sector) : Prop := ∀ x, ¬Owned st.disk (.ofBlock (st.disk s)) (filePath 0) x

theorem linkParent_trace {r : Option DirEntry} (h : Healthy st) (hs : st.live s = true) (h0 : s ≠ 0)
    (hm : ∀ k, st.heap k = true) (hn : st.openInodes s = none)
    (hl : st.linkParent dir s e = some (r, st')) :
    (∀ x, st.Used x → st'.Used x) ∧ (Blank st s →
      (st'.freeMap = st.freeMap ↔ st.free = 0) ∧ (r.isSome = true → st.free ≠ 0)) := by
  rcases linkParent_cases h.counted hl with ⟨-, -, hno⟩ | ⟨ok, st₁, st₂, hd, hw, hc, rfl⟩
  · exact absurd hm hno
  have hm₁ := hd.memory hm
  have hinv : Inv st₁ := ((h.opened hs h0).drift hd).inv
  obtain ⟨hi, rfl, -⟩ := linkParent_closed hn hd hw hc
  obtain ⟨heap, f, -, rfl⟩ := hd
  have hused : ∀ x, st.Used x → st₂.Used x := fun x hx =>
    writeEntry_used hinv h0 hi hm₁ (show 0 + 20 < 2 ^ 31 by decide) hw hx
  refine ⟨hused, fun hblank => ?_⟩
  obtain ⟨hmap, hfree⟩ := writeEntry_first hinv h0 hi hm₁ rfl hblank hw
  refine ⟨hmap, fun hr => hfree ?_⟩
  cases ok with
  | false => cases hr
  | true => rfl

theorem dirAdd_trace (h : Healthy st) (hi : st.openInodes dir = some i) (h0 : dir ≠ 0)
    (hm : ∀ k, st.heap k = true) (hs : st.live s = true) (hs0 : s ≠ 0)
    (hn : st.openInodes s = none) (ha : st.dirAdd dir name s isDir e = some (false, st')) :
    (∀ x, st.Used x → st'.Used x) ∧ Rests dir st st' ∧
      (Blank st s → (st'.freeMap = st.freeMap ↔ st.free = 0 ∨
        Refused (contents st.disk i.data) name ∨ isDir = false ∧ i.denyWriteCnt ≠ 0)) := by
  have hsd : s ≠ dir := by
    rintro rfl
    rw [hn] at hi
    cases hi
  have hle := freeSlot_le (contents st.disk i.data)
  rw [contents_length] at hle
  have hlt := h.slot_lt hi hle
  cases dirAdd_adds hi ha with
  | refused hr => exact ⟨fun _ hx => hx, .refl dir st, fun _ => iff_of_true rfl (.inr (.inl hr))⟩
  | unlinked hr hdir hl =>
      obtain ⟨hused, hblank⟩ := linkParent_trace h hs hs0 hm hn hl
      obtain ⟨hopen, hbytes⟩ := linkParent_beside h hi h0 hs hs0 hsd hl
      refine ⟨hused, .of_open hi hopen hbytes, fun hblank' => (hblank hblank').1.trans ?_⟩
      refine (or_iff_left ?_).symm
      rintro (h | ⟨h, -⟩)
      · exact hr h
      · rw [hdir] at h
        cases h
  | @written st₁ _ i₁ e₁ e' _ hr hl hi₁ hw =>
      by_cases hdir : isDir = true
      -- the entry of the child for its parent came first
      · rw [if_pos hdir] at hl
        obtain ⟨hused, hblank⟩ := linkParent_trace h hs hs0 hm hn hl
        obtain ⟨hopen, hbytes⟩ := linkParent_beside h hi h0 hs hs0 hsd hl
        obtain rfl := Option.some.inj (hopen.symm.trans hi₁)
        rw [hbytes] at hw
        obtain ⟨hworks, -⟩ := linkParent_works h.counted hs hs0 hl
        have h₁ := (h.works hworks).1
        have hm₁ := hworks.later.all hm
        have hused' : ∀ x, st₁.Used x → st'.Used x := fun x hx =>
          writeEntry_used h₁.inv h0 hopen hm₁ hlt hw hx
        obtain ⟨hrests, -⟩ := writeEntry_failed h₁.inv h0 hopen hm₁ hlt hw
        refine ⟨fun x hx => hused' x (hused x hx), (Rests.of_open hi hopen hbytes).trans hrests,
          fun hblank' => ?_⟩
        obtain ⟨hsame, hfree⟩ := hblank hblank'
        rw [freeMap_between hused hused']
        refine iff_of_false (fun h => hfree rfl (hsame.mp h.1)) ?_
        rintro (h | h | ⟨h, -⟩)
        · exact hfree rfl h
        · exact hr h
        · rw [hdir] at h
          cases h
      · rw [if_neg hdir] at hl
        subst hl
        obtain rfl := Option.some.inj (hi.symm.trans hi₁)
        obtain ⟨hrests, hsame⟩ := writeEntry_failed h.inv h0 hi hm hlt hw
        refine ⟨fun x hx => writeEntry_used h.inv h0 hi hm hlt hw hx, hrests, fun _ => ?_⟩
        rw [hsame]
        have hfile : isDir = false := Bool.eq_false_iff.mpr hdir
        constructor
        · rintro (h | h)
          · exact .inr (.inr ⟨hfile, h⟩)
          · exact .inl h
        · rintro (h | h | ⟨-, h⟩)
          · exact .inr h
          · exact absurd h hr
          · exact .inl h

/-! ### `inode_create` -/

theorem inodeNeeded_empty {l : ℕ} : inodeNeeded m ⟨fun _ => 0, 0, 0, isDir, l⟩ size = [] ↔ size ≤ 0 := by
  constructor
  · intro hnil
    by_contra hpos
    unfold inodeNeeded at hnil
    dsimp only at hnil
    obtain ⟨k, hk⟩ : ∃ k, min (bytesToSectors size.toNat) 123 = k + 1 :=
      ⟨min (bytesToSectors size.toNat) 123 - 1, by
        unfold bytesToSectors
        omega⟩
    rw [hk] at hnil
    cases hnil
  · intro h0
    unfold inodeNeeded
    rw [Int.toNat_of_nonpos h0]
    rfl

theorem inodeCreate_trace {K X : Set Sector} (g : Ground K X st) (hm : ∀ k, st.heap k = true)
    (hc : st.inodeCreate s size isDir = some (ok, st')) :
    (∀ x, st.Used x → st'.Used x) ∧ (st'.freeMap = st.freeMap ↔ size = 0 ∨ st.free = 0) ∧
      (ok = false → size ≠ 0) ∧ (ok = true → size ≠ 0 → st.free ≠ 0) ∧ (size = 0 → Blank st' s) := by
  unfold State.inodeCreate at hc
  split_ifs at hc with hneg
  have hmalloc : st.malloc = (true, st.malloc.2) := Prod.ext (hm 0) rfl
  rw [hmalloc] at hc
  have g₁ : Ground K X st.malloc.2 := g.still (malloc_still st) g.disjoint
  have hm₁ : ∀ k, st.malloc.2.heap k = true := fun k => hm (k + 1)
  dsimp only at hc
  rw [if_pos rfl] at hc
  obtain ⟨⟨ok₁, d, st₁⟩, hr, hc⟩ := Option.bind_eq_some_iff.mp hc
  cases hc
  obtain ⟨hres, -⟩ := inodeReserve_some g₁ placed_empty (not_lt.mp hneg)
    (unspoiled_of_granted g₁ placed_empty (granted_of_memory hm₁ _)) hr
  obtain ⟨hsame, hfailed, hfull⟩ := reserve_same g₁ placed_empty (not_lt.mp hneg)
    (granted_of_memory hm₁ _) hr
  rw [inodeNeeded_empty, room_of_memory hm₁] at hsame
  rw [Ne, inodeNeeded_empty] at hfailed hfull
  rw [room_of_memory hm₁] at hfull
  have hmap : (if ok₁ = true then st₁.write s d.toBlock else st₁).freeMap = st₁.freeMap := by
    split_ifs
    · rfl
    · rfl
  refine ⟨fun x hx => ?_, ?_, fun h => ?_, fun h hne hfree => ?_, ?_⟩
  · unfold State.Used
    rw [hmap]
    exact hres.grows.used x hx
  · rw [hmap]
    refine hsame.trans (or_congr (by omega) ?_)
    change ¬1 ≤ st.free ↔ st.free = 0
    omega
  · have := hfailed h
    omega
  · have hnone : ok₁ = false := hfull (by omega) (by
      change ¬1 ≤ st.free
      omega)
    rw [hnone] at h
    cases h
  · rintro rfl
    cases hr
    intro x hx
    rw [if_pos rfl] at hx
    unfold Owned at hx
    rw [show (st.malloc.2.write s (InodeDisk.toBlock ⟨fun _ => 0, 0, 0, isDir, _⟩)).disk s = _ from
      Function.update_self .., rootOf_ofBlock] at hx
    exact owned_empty hx

/-! ### `filesys_create` -/

/-- Giving back one sector that was taken: the rest of the free map has to be the same. -/
theorem release_same (hn : ¬st.Used s) (h₁ : st₁.freeMap = update st.freeMap s true)
    (h₂ : ∀ x, st₁.Used x → st₃.Used x) (hr : st₃.freeMapRelease s = some st₄) :
    st₄.freeMap = st.freeMap ↔ st₃.freeMap = st₁.freeMap := by
  have hs : st.freeMap s = false := Bool.eq_false_iff.mpr hn
  have hs₁ : st₁.freeMap s = true := by rw [h₁, Function.update_self]
  have hs₃ : st₃.freeMap s = true := h₂ s hs₁
  have h₄ : st₄.freeMap = update st₃.freeMap s false := by
    unfold State.freeMapRelease State.bitmapWrite at hr
    split_ifs at hr
    cases hr
    split
    · rfl
    · rfl
  rw [h₄, h₁]
  constructor
  · intro h
    rw [← h, Function.update_idem, ← hs₃, Function.update_eq_self]
  · intro h
    rw [h, Function.update_idem, ← hs, Function.update_eq_self]

theorem free_congr (hmap : st'.freeMap = st.freeMap) (hsize : st'.size = st.size) :
    st'.free = st.free := by
  unfold State.free
  rw [hmap, hsize]

theorem create_trace (h : Healthy st) (hi : st.openInodes dir = some i) (h0 : dir ≠ 0)
    (hm : ∀ k, st.heap k = true) (hsize : offT size = size)
    (ha : st.freeMapAllocate = (some s, st₁)) {created : Bool}
    (hc : st₁.inodeCreate s size isDir = some (created, st₂))
    (hadd : (if created then
        State.dirAdd { st₂ with live := update st₂.live s true } dir name s isDir e
      else some (false, st₂)) = some (false, st₃)) (hr : st₃.freeMapRelease s = some st₄) :
    Rests dir st st₄ ∧ (st₄.freeMap = st.freeMap ↔ st.free ≤ 1 ∨
      size = 0 ∧ (Refused (contents st.disk i.data) name ∨ isDir = false ∧ i.denyWriteCnt ≠ 0)) := by
  obtain ⟨hdead, hs0, hn⟩ := allocate_new h.inv ha
  have g := h.inv.ground
  rcases allocate_cases g with ⟨u, st₅, hu, hfree, hlt, hstill⟩ | ⟨st₅, hnone, -⟩
  swap
  · cases hnone.symm.trans ha
  obtain ⟨heq, rfl⟩ := Prod.mk.inj (hu.symm.trans ha)
  obtain rfl := Option.some.inj heq
  have hm₁ : ∀ k, st₅.heap k = true := by
    have honly := freeMapAllocate_only st
    rw [ha] at honly
    exact honly.heap.all hm
  have hfree₁ : st₅.free + 1 = st.free := by
    rw [hstill.free]
    exact free_mark hlt hfree
  obtain ⟨hused, hsame, hfailed, hdone, hblank⟩ :=
    inodeCreate_trace ((g.mark hlt).still hstill g.disjoint) hm₁ hc
  have hlive := h.inv.opened dir i hi
  have hcov := covered_of_memory hm
  cases created with
  | false =>
      cases hadd
      have hfiles : st.filesysCreate size isDir true = some st₄ := by
        unfold State.filesysCreate
        rw [ha]
        dsimp only
        rw [hc]
        exact hr
      have hwork : Work (∅ : Set Sector) false st st₄ := create_work hsize (hcov _) hfiles nofun
      refine ⟨(h.deed hwork.deed).2.rests (Set.notMem_empty dir) h0 hlive, ?_⟩
      rw [release_same hfree hstill.freeMap hused hr, hsame]
      have hne := hfailed rfl
      constructor
      · rintro (h | h)
        · exact absurd h hne
        · exact .inl (by omega)
      · rintro (h | ⟨h, -⟩)
        · exact .inr (by omega)
        · exact absurd h hne
  | true =>
      have hfiles : st.filesysCreate size isDir true =
          some { st₂ with live := update st₂.live u true } := by
        unfold State.filesysCreate
        rw [ha]
        dsimp only
        rw [hc]
        rfl
      have hwork : Work (∅ : Set Sector) true st { st₂ with live := update st₂.live u true } :=
        create_work hsize (hcov _) hfiles fun _ => create_saves hsize (hcov _) ha hc
      obtain ⟨h', hb⟩ := h.deed hwork.deed
      have hi' := (hb.openInodes dir (Set.notMem_empty dir) hlive).trans hi
      have hrests := hb.rests (Set.notMem_empty dir) h0 hlive
      have hm' := hwork.deed.later.all hm
      have hud : u ≠ dir := by
        rintro rfl
        rw [hn] at hi
        cases hi
      have hnew : update st₂.live u true u = true := Function.update_self ..
      have hn' : st₂.openInodes u = none := by
        rw [(inodeCreate_only hc).openInodes, hstill.passive.openInodes]
        exact hn
      obtain ⟨hused', hrests', htrace⟩ := dirAdd_trace h' hi' h0 hm' hnew hs0 hn' hadd
      obtain ⟨hadds, hclosed⟩ := dirAdd_works h' hi' h0 (fun _ => ⟨hnew, hs0, hud⟩)
        (covered_of_memory hm' _) hadd
      obtain ⟨hn₃, hl₃⟩ := hclosed hn' hud
      -- the inode is given up
      have h₃ := (h'.works hadds).1
      have hlive₃' : st₃.live u = true := by
        rw [hl₃]
        exact hnew
      have habandon : Deed {u} false st₃ { st₄ with live := update st₄.live u false } :=
        .abandon rfl rfl hlive₃' hs0 hn₃ hr
      have hlive₃ : st₃.live dir = true := by
        rw [hl₃]
        exact hb.live dir (Set.notMem_empty dir) hlive
      have hlast := (h₃.deed habandon).2.rests (fun hmem => hud hmem.symm) h0 hlive₃
      refine ⟨(hrests.trans hrests').trans ⟨hlast.bytes, hlast.entry⟩, ?_⟩
      rw [release_same hfree hstill.freeMap (fun x hx => hused' x (hused x hx)) hr,
        freeMap_between hused hused', hsame]
      by_cases hzero : size = 0
      · have hfree₂ : State.free { st₂ with live := update st₂.live u true } = st₅.free :=
          free_congr (hsame.mpr (.inl hzero)) (inodeCreate_only hc).size
        rw [htrace (hblank hzero), hfree₂]
        have hbytes := hrests.bytes
        rw [dataOf_open hi', dataOf_open hi] at hbytes
        rw [hbytes]
        simp only [hzero, true_or, true_and]
        exact or_congr_left (by omega)
      · have hne := hdone rfl hzero
        refine iff_of_false (fun h => ?_) ?_
        · rcases h.1 with h | h
          · exact hzero h
          · exact hne h
        · rintro (h | h)
          · omega
          · exact hzero h.1

theorem Older.contents_eq (h : Older d₀ d) (hc : Complete m d) : contents m d₀ = contents m d := by
  unfold contents
  rw [h.length]
  refine List.map_congr_left fun pos hpos => ?_
  have hpos := List.mem_range.mp hpos
  have hpos₀ : pos < d₀.length := by
    rw [h.length]
    exact hpos
  obtain ⟨x, hx, -⟩ := (h.complete hc).sector hpos₀
  rw [byteAt_owned (h.complete hc) hpos₀ hx, byteAt_owned hc hpos (h.owned hx)]

theorem inodeClose_rests (h : Inv st) (h0 : s ≠ 0) (hi : st.openInodes s = some i)
    (hrem : i.removed = false) (hc : st.inodeClose s = some st') :
    st'.freeMap = st.freeMap ∧ contents st'.disk (st'.dataOf s) = contents st.disk (st.dataOf s) := by
  rcases inodeClose_cases h h0 hc with ⟨j, hj, hr, -⟩ | ⟨j, hj, rfl⟩ | ⟨j, j', hj, rfl, hd⟩
  · obtain rfl := Option.some.inj (hi.symm.trans hj)
    rw [hrem] at hr
    cases hr
  · refine ⟨rfl, ?_⟩
    rw [dataOf_setInode_none, dataOf_open hi]
    exact (h.older s i hi h0).contents_eq (h.opened_data hi).1
  · refine ⟨rfl, ?_⟩
    rw [dataOf_setInode, hd, dataOf_open hj]
    rfl

/-- Nothing has been lost or changed. -/
structure Traceless (st st' : State) : Prop where
  freeMap : st'.freeMap = st.freeMap
  directories : ∀ t, st.live t = true → t ≠ 0 → (st.dataOf t).isDir = true →
    contents st'.disk (st'.dataOf t) = contents st.disk (st.dataOf t)

/-- Nothing can be written to the inode. -/
def Denied (st : State) (s : Sector) : Prop := ∃ i, st.openInodes s = some i ∧ i.denyWriteCnt ≠ 0

/-- The failures that come before anything is taken but the sector of the inode: the directory is
missing, no second sector is free, or an empty file is refused. -/
def Early (st : State) (cwd : Option Sector) (path : List UInt8) (size : ℤ) (isDir : Bool) : Prop :=
  ∀ d, foundDir st cwd (splitPathFilename path).1 = some d → st.free ≤ 1 ∨ size = 0 ∧
    (Refused (contents st.disk (st.dataOf d)) (splitPathFilename path).2 ∨
      isDir = false ∧ Denied st d)

theorem pathDir_of_found {d : Sector} (h : foundDir st cwd path = some d) : pathDir st cwd path = some d :=
  (Option.filter_eq_some_iff.mp h).1

theorem opened_denied (hi : (st.opened s).openInodes s = some i) : i.denyWriteCnt ≠ 0 ↔ Denied st s := by
  unfold Denied
  rw [opened_self] at hi
  cases hs : st.openInodes s with
  | none =>
      rw [hs] at hi
      cases hi
      exact iff_of_false (fun h => h rfl) (by simp)
  | some j =>
      rw [hs] at hi
      cases hi
      exact ⟨fun h => ⟨j, rfl, h⟩, fun ⟨j', hj', h⟩ => by cases hj'; exact h⟩

theorem dirClose_trace {b : Bool} (h : Inv st₂) (h0 : dir ≠ 0) (hi : st.openInodes dir = some i)
    (hremoved : i.removed = false) (hrests : Rests dir st st₂)
    (hc : ((st₂.dirClose (some dir)).map fun st => (b, st)) = some (false, st')) :
    st'.freeMap = st₂.freeMap ∧
      contents st'.disk (st'.dataOf dir) = contents st.disk (st.dataOf dir) := by
  obtain ⟨st₃, hc, heq⟩ := Option.map_eq_some_iff.mp hc
  cases heq
  obtain ⟨i₂, hi₂, hr₂⟩ := hrests.entry i hi
  obtain ⟨hmap, hbytes⟩ := inodeClose_rests h h0 hi₂ (hr₂.trans hremoved) hc
  exact ⟨hmap, hbytes.trans hrests.bytes⟩

/-- `filesys_create` in an open directory, when there is no sector for the inode. -/
theorem create_full_trace {b : Bool} (h : Healthy st) (hi : st.openInodes dir = some i)
    (h0 : dir ≠ 0) (hremoved : i.removed = false) (hm : ∀ k, st.heap k = true)
    (hsize : offT size = size) (ha : st.freeMapAllocate = (none, st₂))
    (hc : ((st₂.dirClose (some dir)).map fun st => (b, st)) = some (false, st')) :
    st.free = 0 ∧ st'.freeMap = st.freeMap ∧
      contents st'.disk (st'.dataOf dir) = contents st.disk (st.dataOf dir) := by
  have hfiles : st.filesysCreate size false true = some st₂ := by
    unfold State.filesysCreate
    rw [ha]
  have hwork : Work (∅ : Set Sector) false st st₂ :=
    create_work hsize (covered_of_memory hm _) hfiles fun h => by cases h
  obtain ⟨h₂, hb⟩ := h.deed hwork.deed
  obtain ⟨hmap, hbytes⟩ := dirClose_trace h₂.inv h0 hi hremoved
    (hb.rests (Set.notMem_empty dir) h0 (h.inv.opened dir i hi)) hc
  refine ⟨?_, hmap.trans ?_, hbytes⟩
  · have hno := allocate_no_room h.inv.ground ha
    rw [room_of_memory hm] at hno
    omega
  · rcases allocate_cases h.inv.ground with ⟨u, st₃, hu, -⟩ | ⟨st₃, hn, hstill, -⟩
    · cases hu.symm.trans ha
    · obtain ⟨-, rfl⟩ := Prod.mk.inj (hn.symm.trans ha)
      exact hstill.freeMap

/-- `filesys_create` in an open directory, when the inode is released and the directory closed. -/
theorem create_given_trace (h : Healthy st) (hi : st.openInodes dir = some i) (h0 : dir ≠ 0)
    (hremoved : i.removed = false) (hm : ∀ k, st.heap k = true) (hsize : offT size = size)
    (ha : st.freeMapAllocate = (some s, st₁)) {created : Bool}
    (hcreate : st₁.inodeCreate s size isDir = some (created, st₂))
    (hadd : (if created then
        State.dirAdd { st₂ with live := update st₂.live s true } dir name s isDir e
      else some (false, st₂)) = some (false, st₃))
    (hc : (((st₃.freeMapRelease s).map fun st => { st with live := update st.live s false }).bind
      fun st => (st.dirClose (some dir)).map fun st => (false, st)) = some (false, st')) :
    contents st'.disk (st'.dataOf dir) = contents st.disk (st.dataOf dir) ∧
      (st'.freeMap = st.freeMap ↔ st.free ≤ 1 ∨ size = 0 ∧
        (Refused (contents st.disk (st.dataOf dir)) name ∨ isDir = false ∧ i.denyWriteCnt ≠ 0)) := by
  obtain ⟨st₄, hrelease, hc⟩ := Option.bind_eq_some_iff.mp hc
  obtain ⟨st₅, hr, rfl⟩ := Option.map_eq_some_iff.mp hrelease
  obtain ⟨hrests, hsame⟩ := create_trace h hi h0 hm hsize ha hcreate hadd hr
  have h₅ := (h.works (create_cases name e h hi h0 hsize (covered_of_memory hm _)
    (covered_of_memory hm _) ha hcreate hadd st₅ hr)).1
  obtain ⟨hmap, hbytes⟩ := dirClose_trace h₅.inv h0 hi hremoved ⟨hrests.bytes, hrests.entry⟩ hc
  refine ⟨hbytes, ?_⟩
  rw [hmap, dataOf_open hi]
  exact hsame

/-- Every directory is as before, and what the free map has lost is known. -/
theorem filesysCreate_trace (h : Healthy st) (hm : ∀ k, st.heap k = true)
    (hd : ∀ d, pathDir st cwd (splitPathFilename path).1 = some d → IsFile st d)
    (hsize : offT size = size)
    (hc : Paths.filesysCreate st cwd path size isDir e = some (false, st')) :
    (∀ t, st.live t = true → t ≠ 0 →
      contents st'.disk (st'.dataOf t) = contents st.disk (st.dataOf t)) ∧
    (st'.freeMap = st.freeMap ↔ Early st cwd path size isDir) := by
  have hbeside := (h.works (filesysCreate_works h (fun d hp => ⟨hd d hp, covered_of_memory hm _⟩) hsize
    (covered_of_memory hm _) hc)).2
  unfold Paths.filesysCreate at hc
  unfold Early
  unfold Creates at hbeside
  rcases hsplit : splitPathFilename path with ⟨directory, fileName⟩
  rw [hsplit] at hc hd hbeside
  dsimp only at hc hd hbeside ⊢
  obtain ⟨⟨r, st₁⟩, hp, hc⟩ := Option.bind_eq_some_iff.mp hc
  rcases dirOpenPath_memory h.counted hm hp with ⟨rfl, hnone, hdrift⟩ | ⟨d, rfl, hfound, hdrift⟩
  · cases hc
    obtain ⟨heap, f, -, rfl⟩ := hdrift
    refine ⟨fun _ _ _ => rfl, iff_of_true rfl fun d hd => ?_⟩
    rw [hnone] at hd
    cases hd
  have hdir := pathDir_of_found hfound
  obtain ⟨hlive, h0⟩ := hd d hdir
  -- only the directory itself remains to be looked at
  suffices hrests : contents st'.disk (st'.dataOf d) = contents st.disk (st.dataOf d) ∧
      (st'.freeMap = st.freeMap ↔ st.free ≤ 1 ∨ size = 0 ∧
        (Refused (contents st.disk (st.dataOf d)) fileName ∨ isDir = false ∧ Denied st d)) by
    refine ⟨fun t ht ht0 => ?_, hrests.2.trans ⟨fun h d' hd' => ?_, fun h => h d hfound⟩⟩
    · by_cases htd : t = d
      · rw [htd]
        exact hrests.1
      · refine (hbeside.data t ?_ ht0 ht).2
        rintro (h | h)
        · exact htd (Option.some.inj (h.symm.trans hdir))
        · rw [ht] at h
          cases h
    · obtain rfl := Option.some.inj (hd'.symm.trans hfound)
      exact h
  have hopen : Works {d} true st st₁ := opened_works rfl ⟨hlive, h0⟩ hdrift
  have h₁ := (h.works hopen).1
  have hm₁ := hopen.later.all hm
  obtain ⟨heap, f, -, rfl⟩ := hdrift
  obtain ⟨i, hi⟩ : ∃ i, ((st.opened d).drift heap f).openInodes d = some i :=
    ⟨_, Function.update_self ..⟩
  have hremoved : i.removed = false := by
    have hkept := (Option.filter_eq_some_iff.mp hfound).2
    rw [opened_removed hi, Bool.not_eq_true'] at hkept
    exact hkept
  have hdata : ((st.opened d).drift heap f).dataOf d = st.dataOf d := by
    rw [drift_dataOf, opened_dataOf]
  rw [← hdata, ← opened_denied hi]
  dsimp only at hc
  rcases ha : ((st.opened d).drift heap f).freeMapAllocate with ⟨_ | s, st₂⟩
  · rw [ha] at hc
    obtain ⟨hfree, hmap, hbytes⟩ := create_full_trace h₁ hi h0 hremoved hm₁ hsize ha hc
    exact ⟨hbytes, iff_of_true hmap (.inl (hfree.trans_le (Nat.zero_le 1)))⟩
  · rw [ha] at hc
    obtain ⟨⟨created, st₃⟩, hcreate, hc⟩ := Option.bind_eq_some_iff.mp hc
    cases created with
    | false =>
        exact create_given_trace (e := e) h₁ hi h0 hremoved hm₁ hsize ha hcreate rfl hc
    | true =>
        obtain ⟨⟨added, st₄⟩, hadd, hc⟩ := Option.bind_eq_some_iff.mp hc
        cases added with
        | true =>
            obtain ⟨st₅, -, heq⟩ := Option.map_eq_some_iff.mp hc
            cases heq
        | false => exact create_given_trace h₁ hi h0 hremoved hm₁ hsize ha hcreate hadd hc

/-- **When a failed creation leaves no trace**: only if it fails early. -/
theorem create_traceless {disk : Sector → Block} {sectors : Sector} {heap₀ : ℕ → Bool} {e₀ : DirEntry}
    (hf : Paths.doFormat disk sectors heap₀ e₀ = some st₀) (hr : Reachable pathStep Orderly st₀ st)
    (hd : ∀ d, pathDir st cwd (splitPathFilename path).1 = some d → IsFile st d)
    (hsize : offT size = size)
    (hc : Paths.filesysCreate (st.call fun _ => true) cwd path size isDir e = some (false, st')) :
    Traceless st st' ↔ Early st cwd path size isDir := by
  have h := (healthy_reachable hf hr).1
  have hcall : Healthy (st.drift (fun _ => true) false) := ⟨h.inv.call, h.counted⟩
  obtain ⟨hbytes, hmap⟩ := filesysCreate_trace hcall (fun _ => rfl) (fun d hp => by
    rw [pathDir_drift] at hp
    exact hd d hp) hsize hc
  have hearly : Early (st.drift (fun _ => true) false) cwd path size isDir ↔
      Early st cwd path size isDir := by
    unfold Early foundDir
    rw [pathDir_drift]
    rfl
  rw [← hearly, ← hmap]
  exact ⟨fun h => h.freeMap, fun h => ⟨h, fun t ht h0 _ => hbytes t ht h0⟩⟩

/-! ### A name that is already present -/

/-- `"a"` is created, empty, and again with `size` bytes: what is to be seen of it. -/
def createTwice (size : ℤ) : Option (List Bool) := do
  let st₀ ← Paths.doFormat (fun _ => zeros) 40 (fun _ => true) ⟨0, List.replicate 15 0, 1⟩
  let st ← pathStep (.create none [97] 0 false default, fun _ => true) st₀
  let (ok, st') ← Paths.filesysCreate (st.call fun _ => true) none [97] size false default
  some [st₀.live 1, st.live 1, ok, foundDir st none [] == some 1,
    (entryOf (contents st.disk (st.dataOf 1)) [97]).isSome, st.freeMap 6, st'.freeMap 6]

theorem create_twice {b : Bool} (h : createTwice size = some [true, true, false, true, true, false, b]) :
    ∃ st₀ st st', Paths.doFormat (fun _ => zeros) 40 (fun _ => true) ⟨0, List.replicate 15 0, 1⟩ =
        some st₀ ∧
      Reachable pathStep Orderly st₀ st ∧ IsFile st 1 ∧ foundDir st none [] = some 1 ∧
      entryOf (contents st.disk (st.dataOf 1)) [97] ≠ none ∧
      Paths.filesysCreate (st.call fun _ => true) none [97] size false default = some (false, st') ∧
      st.freeMap 6 = false ∧ st'.freeMap 6 = b := by
  unfold createTwice at h
  simp only [Option.bind_eq_bind, Option.bind_eq_some_iff] at h
  obtain ⟨st₀, h₀, st, hs, ⟨ok, st'⟩, hc, hfacts⟩ := h
  simp only [Option.some.injEq, List.cons.injEq, beq_iff_eq, and_true] at hfacts
  obtain ⟨hlive₀, hlive, rfl, hfound, hentry, hfacts⟩ := hfacts
  have hgood : Orderly st₀ (.create none [97] 0 false default, fun _ => true) := by
    refine ⟨.inl (by decide), fun d hd => ?_⟩
    obtain rfl : (1 : Sector) = d := Option.some.inj hd
    exact ⟨⟨hlive₀, by decide⟩, .inr fun _ h => nomatch h⟩
  exact ⟨st₀, st, st', h₀, Reachable.refl.tail hgood hs, ⟨hlive, by decide⟩, hfound,
    Option.isSome_iff_ne_none.mp hentry, hc, hfacts⟩

/-- An empty file that is already there. -/
theorem create_traceless_empty : ∃ st₀ st st',
    Paths.doFormat (fun _ => zeros) 40 (fun _ => true) ⟨0, List.replicate 15 0, 1⟩ = some st₀ ∧
    Reachable pathStep Orderly st₀ st ∧
    Paths.filesysCreate (st.call fun _ => true) none [97] 0 false default = some (false, st') ∧
    Traceless st st' := by
  have h : createTwice 0 = some [true, true, false, true, true, false, false] := by decide +kernel
  obtain ⟨st₀, st, st', h₀, hr, hfile, hfound, hentry, hc, -⟩ := create_twice h
  refine ⟨st₀, st, st', h₀, hr, hc, (create_traceless h₀ hr (fun d hd => ?_) (by decide) hc).mpr
    fun d hd => .inr ⟨rfl, .inl (.inr (.inr ?_))⟩⟩
  · obtain rfl : (1 : Sector) = d := Option.some.inj hd
    exact hfile
  · obtain rfl := Option.some.inj (hfound.symm.trans hd)
    exact hentry

/-- One byte that is to be in it is lost with its sector. -/
theorem create_trace_left : ∃ st₀ st st',
    Paths.doFormat (fun _ => zeros) 40 (fun _ => true) ⟨0, List.replicate 15 0, 1⟩ = some st₀ ∧
    Reachable pathStep Orderly st₀ st ∧ IsFile st 1 ∧
    Paths.filesysCreate (st.call fun _ => true) none [97] 1 false default = some (false, st') ∧
    st.freeMap 6 = false ∧ st'.freeMap 6 = true ∧ ¬Traceless st st' := by
  have h : createTwice 1 = some [true, true, false, true, true, false, true] := by decide +kernel
  obtain ⟨st₀, st, st', h₀, hr, hfile, -, -, hc, hfree, hused⟩ := create_twice h
  refine ⟨st₀, st, st', h₀, hr, hfile, hc, hfree, hused, fun ht => ?_⟩
  rw [← ht.freeMap, hused] at hfree
  cases hfree

end CSE130.Lab3.Files
