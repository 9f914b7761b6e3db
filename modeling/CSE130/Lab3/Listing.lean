import CSE130.Lab3.Creation
import CSE130.Lab3.Removal

/-! # What a directory lists

`dir_readdir`, `lookup`, `dir_is_empty` and the search for a free slot all read the same slots.
They agree because no two entries in use have the same name (`WellNamed`): `dir_add` looks a name
up before it writes the entry, and nothing else writes a name.  `"."` and `".."` are not listed,
since `dir_lookup` does not look for them in the entries (`directory_views`). -/

namespace CSE130.Lab3.Files

open BlockTree Transition
open Function (update)

variable {st st' st₀ st₁ st₂ st₃ : State} {s t d dir : Sector} {i i' : Inode} {name other : Name}
  {e : DirEntry} {ok isDir isEmpty : Bool} {j k ofs : ℕ} {heap : ℕ → Bool} {bytes bytes' : List UInt8}
  {size : Sector} {m : Sector → Block} {c : InodeDisk}

/-! ### The scan -/

/-- `dir_readdir` from the position `pos` on, until it returns false. -/
def readdirLoop (m : Sector → Block) (d : InodeDisk) : ℕ → ℕ → List Name
  | 0, _ => []
  | fuel + 1, pos =>
      match dirReaddir m d (d.length / 20) pos with
      | none => []
      | some (name, pos) => name :: readdirLoop m d fuel pos

/-- What `dir_readdir` returns for a directory that `dir_open` has just opened. -/
def listing (m : Sector → Block) (d : InodeDisk) : List Name := readdirLoop m d (d.length / 20) 20

/-- The entries in use, from `k` on. -/
def slotsFrom (bytes : List UInt8) (k : ℕ) : List ℕ :=
  (List.range' k (bytes.length / 20 - k)).filter fun j => decide ((entryAt bytes j).inUse ≠ 0)

theorem slotsFrom_end (h : bytes.length / 20 ≤ k) : slotsFrom bytes k = [] := by
  unfold slotsFrom
  rw [Nat.sub_eq_zero_of_le h]
  rfl

theorem slotsFrom_succ (h : k < bytes.length / 20) : slotsFrom bytes k =
    if (entryAt bytes k).inUse ≠ 0 then k :: slotsFrom bytes (k + 1) else slotsFrom bytes (k + 1) := by
  unfold slotsFrom
  rw [show bytes.length / 20 - k = (bytes.length / 20 - (k + 1)) + 1 by omega, List.range'_succ,
    List.filter_cons]
  by_cases hu : (entryAt bytes k).inUse ≠ 0
  · rw [decide_eq_true hu, if_pos rfl, if_pos hu]
  · rw [decide_eq_false hu, if_neg Bool.false_ne_true, if_neg hu]

variable (bytes) in
theorem slotsFrom_next : ∀ n k : ℕ, bytes.length / 20 ≤ n + k → slotsFrom bytes k =
    match nextEntry bytes k with
    | none => []
    | some j => j :: slotsFrom bytes (j + 1)
  | 0, k, h => by rw [nextEntry_end (by omega), slotsFrom_end (by omega)]
  | n + 1, k, h => by
      by_cases hk : k < bytes.length / 20
      · rw [nextEntry_succ hk, slotsFrom_succ hk]
        by_cases hu : (entryAt bytes k).inUse ≠ 0
        · rw [if_pos hu, if_pos hu]
        · rw [if_neg hu, if_neg hu]
          exact slotsFrom_next n (k + 1) (by omega)
      · rw [nextEntry_end (by omega), slotsFrom_end (by omega)]

/-- The next entry is not before the place where the search starts. -/
theorem nextEntry_ge (h : nextEntry bytes k = some j) : k ≤ j := by
  obtain ⟨-, hj, -⟩ := List.find?_range'_eq_some.mp h
  exact (List.mem_range'_1.mp hj).1

theorem readdirLoop_eq (m : Sector → Block) (c : InodeDisk) : ∀ fuel k : ℕ, 1 ≤ k →
    c.length / 20 ≤ fuel + k → readdirLoop m c fuel (20 * k) =
      (slotsFrom (contents m c) k).map fun j => (entryAt (contents m c) j).string.take nameMax
  | 0, k, h1, hf => by
      rw [slotsFrom_end (by rw [contents_length]; omega)]
      rfl
  | fuel + 1, k, h1, hf => by
      unfold readdirLoop
      rw [dirReaddir_eq m c _ k (by omega), slotsFrom_next (contents m c) _ k (Nat.le_add_right _ k)]
      cases hn : nextEntry (contents m c) k with
      | none => rfl
      | some j =>
          have hj := nextEntry_ge hn
          dsimp only [Option.map_some]
          rw [readdirLoop_eq m c fuel (j + 1) (by omega) (by omega), List.map_cons]

theorem listing_eq (m : Sector → Block) (c : InodeDisk) : listing m c =
    (slotsFrom (contents m c) 1).map fun j => (entryAt (contents m c) j).string.take nameMax :=
  readdirLoop_eq m c (c.length / 20) 1 (Nat.le_refl 1) (by omega)

theorem isEmpty_iff (m : Sector → Block) (c : InodeDisk) :
    isEmptyLoop m c (c.length / 20) 20 = true ↔ listing m c = [] := by
  rw [show isEmptyLoop m c (c.length / 20) 20 = (nextEntry (contents m c) 1).isNone from
    isEmptyLoop_eq m c (c.length / 20) 1 (by omega), listing_eq, List.map_eq_nil_iff,
    slotsFrom_next (contents m c) _ 1 (Nat.le_add_right _ 1)]
  cases nextEntry (contents m c) 1 with
  | none => exact iff_of_true rfl rfl
  | some j => exact iff_of_false Bool.false_ne_true (List.cons_ne_nil _ _)

/-! ### Names in the entries -/

/-- Entry `k` is in use, and not the one for the parent. -/
def InUse (bytes : List UInt8) (k : ℕ) : Prop := 1 ≤ k ∧ (entryAt bytes k).inUse ≠ 0

/-- No two entries in use have the same name; each has a name as `dir_add` lets through, and leads
to a sector of the device that is not the directory itself. -/
structure WellNamed (size d : Sector) (bytes : List UInt8) : Prop where
  unique : ∀ j k, InUse bytes j → InUse bytes k →
    (entryAt bytes j).string = (entryAt bytes k).string → j = k
  short : ∀ k, InUse bytes k → (entryAt bytes k).string.length ≤ nameMax
  inside : ∀ k, InUse bytes k → (entryAt bytes k).inodeSector < size
  other : ∀ k, InUse bytes k → (entryAt bytes k).inodeSector ≠ d

theorem entryAt_behind (h : bytes.length / 20 ≤ k) : (entryAt bytes k).inUse = 0 := by
  have hlt : bytes.length ≤ 20 * k + 19 := by omega
  change bytes.getD (20 * k + 19) 0 = 0
  rw [List.getD_eq_getElem?_getD, List.getElem?_eq_none hlt]
  rfl

theorem entryAt_name (bytes : List UInt8) (k : ℕ) : (entryAt bytes k).name.length = 15 := by
  unfold entryAt DirEntry.ofBytes
  rw [List.length_map, List.length_range]

theorem InUse.lt (h : InUse bytes k) : k < bytes.length / 20 :=
  not_le.mp fun hle => h.2 (entryAt_behind hle)

theorem mem_slotsFrom : j ∈ slotsFrom bytes 1 ↔ InUse bytes j := by
  unfold slotsFrom
  rw [List.mem_filter, List.mem_range'_1, decide_eq_true_iff]
  refine ⟨fun h => ⟨h.1.1, h.2⟩, fun h => ⟨⟨h.1, ?_⟩, h.2⟩⟩
  have := h.lt
  omega

/-- A name is found when an entry in use has it. -/
theorem entryOf_ne_none : entryOf bytes name ≠ none ↔
    ∃ k, InUse bytes k ∧ (entryAt bytes k).string = name := by
  rw [Ne, entryOf_eq_none]
  constructor
  · intro h
    by_contra hno
    exact h fun j h1 _ hn => hno ⟨j, ⟨h1, hn.1⟩, hn.2⟩
  · rintro ⟨k, hk, hs⟩ h
    exact h k hk.1 hk.lt ⟨hk.2, hs⟩

theorem WellNamed.entryOf_eq (h : WellNamed size d bytes) :
    entryOf bytes name = some k ↔ InUse bytes k ∧ (entryAt bytes k).string = name := by
  rw [entryOf_eq_some]
  constructor
  · rintro ⟨⟨hn, h1, -⟩, -⟩
    exact ⟨⟨h1, hn.1⟩, hn.2⟩
  · rintro ⟨hk, hs⟩
    refine ⟨⟨⟨hk.2, hs⟩, hk.1, hk.lt⟩, fun j h1 hj hn => ?_⟩
    have := h.unique j k ⟨h1, hn.1⟩ hk (hn.2.trans hs.symm)
    omega

theorem wellNamed_blank (h : ∀ b ∈ bytes, b = 0) : WellNamed size d bytes := by
  have hno : ∀ k, ¬InUse bytes k := by
    rintro k ⟨-, hu⟩
    apply hu
    change bytes.getD (20 * k + 19) 0 = 0
    rw [List.getD_eq_getElem?_getD]
    cases hb : bytes[20 * k + 19]? with
    | none => rfl
    | some b => exact h b (List.mem_of_getElem? hb)
  exact ⟨fun j _ hj => absurd hj (hno j), fun k hk => absurd hk (hno k), fun k hk => absurd hk (hno k),
    fun k hk => absurd hk (hno k)⟩

theorem WellNamed.listing (h : WellNamed size d (contents m c)) : (listing m c).Nodup ∧
    ∀ name, name ∈ listing m c ↔ entryOf (contents m c) name ≠ none := by
  have hstring : ∀ k, InUse (contents m c) k →
      (entryAt (contents m c) k).string.take nameMax = (entryAt (contents m c) k).string :=
    fun k hk => List.take_of_length_le (h.short k hk)
  rw [listing_eq]
  constructor
  · refine List.Nodup.map_on (fun j hj k hk heq => ?_) ?_
    · have hj := mem_slotsFrom.mp hj
      have hk := mem_slotsFrom.mp hk
      rw [hstring j hj, hstring k hk] at heq
      exact h.unique j k hj hk heq
    · exact (List.nodup_range' ..).filter _
  · intro name
    rw [entryOf_ne_none, List.mem_map]
    constructor
    · rintro ⟨k, hk, rfl⟩
      have hk := mem_slotsFrom.mp hk
      exact ⟨k, hk, (hstring k hk).symm⟩
    · rintro ⟨k, hk, rfl⟩
      exact ⟨k, mem_slotsFrom.mpr hk, hstring k hk⟩

/-! ### An entry is written -/

/-- What may be written to the slot: the entry for the parent, an entry that is not in use, or one
with a name that no other entry has. -/
def Fits (size d : Sector) (bytes : List UInt8) (k : ℕ) (e : DirEntry) : Prop :=
  k = 0 ∨ e.inUse = 0 ∨ e.string.length ≤ nameMax ∧ e.inodeSector < size ∧ e.inodeSector ≠ d ∧
    ∀ j, j ≠ k → InUse bytes j → (entryAt bytes j).string ≠ e.string

/-- The slot holds what it held before, or the new entry; the others are as before.  Nobody looks
for a name in slot 0. -/
def Replaced (bytes : List UInt8) (k : ℕ) (e : DirEntry) (bytes' : List UInt8) : Prop :=
  (∀ j, j ≠ k → entryAt bytes' j = entryAt bytes j) ∧
    (1 ≤ k → entryAt bytes' k = entryAt bytes k ∨ entryAt bytes' k = e)

/-- An entry in use after the write was there before, or is the new one. -/
theorem Replaced.inUse (hr : Replaced bytes k e bytes') (hf : Fits size d bytes k e)
    (hj : InUse bytes' j) : InUse bytes j ∧ entryAt bytes' j = entryAt bytes j ∨
      j = k ∧ entryAt bytes' j = e ∧ e.string.length ≤ nameMax ∧ e.inodeSector < size ∧
        e.inodeSector ≠ d ∧ ∀ l, l ≠ k → InUse bytes l → (entryAt bytes l).string ≠ e.string := by
  obtain ⟨h1, hu⟩ := hj
  by_cases hjk : j = k
  · subst hjk
    obtain hold | hnew := hr.2 h1
    · rw [hold] at hu
      exact .inl ⟨⟨h1, hu⟩, hold⟩
    · rw [hnew] at hu
      obtain h0 | hzero | hf := hf
      · omega
      · exact absurd hzero hu
      · exact .inr ⟨rfl, hnew, hf⟩
  · have hold := hr.1 j hjk
    rw [hold] at hu
    exact .inl ⟨⟨h1, hu⟩, hold⟩

theorem WellNamed.replaced (h : WellNamed size d bytes) (hr : Replaced bytes k e bytes')
    (hf : Fits size d bytes k e) : WellNamed size d bytes' where
  unique j l hj hl heq := by
    obtain ⟨hj, hej⟩ | ⟨rfl, hej, -, -, -, hne⟩ := hr.inUse hf hj
    · obtain ⟨hl, hel⟩ | ⟨rfl, hel, -, -, -, hne⟩ := hr.inUse hf hl
      · rw [hej, hel] at heq
        exact h.unique j l hj hl heq
      · by_contra hjl
        rw [hej, hel] at heq
        exact hne j hjl hj heq
    · obtain ⟨hl, hel⟩ | ⟨rfl, -⟩ := hr.inUse hf hl
      · by_contra hjl
        rw [hej, hel] at heq
        exact hne l (Ne.symm hjl) hl heq.symm
      · rfl
  short j hj := by
    obtain ⟨hj, he⟩ | ⟨-, he, hshort, -⟩ := hr.inUse hf hj
    · rw [he]
      exact h.short j hj
    · rw [he]
      exact hshort
  inside j hj := by
    obtain ⟨hj, he⟩ | ⟨-, he, -, hin, -⟩ := hr.inUse hf hj
    · rw [he]
      exact h.inside j hj
    · rw [he]
      exact hin
  other j hj := by
    obtain ⟨hj, he⟩ | ⟨-, he, -, -, hne, -⟩ := hr.inUse hf hj
    · rw [he]
      exact h.other j hj
    · rw [he]
      exact hne

/-- The bytes of a file after a write, and zeros behind them. -/
theorem Written.getD {buffer : ℕ → UInt8} {offset n pos : ℕ} {m' : Sector → Block} {c' : InodeDisk}
    (hw : Written buffer offset n m c m' c') (hc : Complete m' c') :
    (contents m' c').getD pos 0 =
      if offset ≤ pos ∧ pos < offset + n then buffer (pos - offset) else (contents m c).getD pos 0 := by
  have hin := hw.inside
  have hgrown := hw.grown
  rw [contents_getD]
  by_cases hpos : pos < c'.length
  · have hsmall := hc.small
    unfold bytesToSectors at hsmall
    obtain ⟨x, hx, -⟩ := hc.sector hpos
    rw [if_pos hpos, byteAt_owned hc hpos hx,
      hw.byte _ x _ (by omega) hx (Nat.mod_lt pos (by omega)), Nat.div_add_mod]
  · rw [if_neg hpos, if_neg (by omega), contents_getD, if_neg (by omega)]

/-- Without a bounce buffer no part of a sector is written. -/
theorem writeLoop_nothing {buffer : ℕ → UInt8} {fuel done : ℕ} {sz : ℤ} (hsz : sz < 512) :
    (writeLoop c false buffer fuel m sz ofs done).2 = done := by
  cases fuel with
  | zero => rfl
  | succ fuel =>
      have hchunk : ¬(ofs % 512 = 0 ∧ chunkSize c.length sz ofs = 512) := by
        unfold chunkSize
        omega
      unfold writeLoop
      dsimp only
      rw [if_neg hchunk, if_neg Bool.false_ne_true, ite_self]

/-- An entry is written as a whole, or not at all. -/
theorem writeEntry_whole {n : ℕ} (h : Inv st) (hi : st.openInodes dir = some i)
    (hlt : ofs + 20 < 2 ^ 31) (hw : st.inodeWriteAt dir e.toBytes 20 ofs = some (n, st')) :
    n = 0 ∨ n = 20 := by
  obtain ⟨rfl, -⟩ | ⟨-, ok, i', st₁, he, hcase⟩ := inodeWriteAt_cases hi hw
  · exact .inl rfl
  obtain ⟨-, rfl, -⟩ | ⟨rfl, hn, -⟩ := hcase
  · exact .inl rfl
  cases hm : st₁.heap 0 with
  | false =>
      rw [hm] at hn
      exact .inl (hn.trans (writeLoop_nothing (by decide)))
  | true =>
      have hlen : ofs + 20 ≤ i'.data.length := by
        obtain ⟨rfl, -, hl⟩ | ⟨-, hl⟩ := inodeExtend_length h hi (by decide)
          (show offT 20 = 20 by decide) (offT_of_lt (by omega) (by omega)) he
        · exact_mod_cast hl
        · omega
      rw [hm] at hn
      have hfull : ((writeLoop i'.data true e.toBytes 20 st₁.disk 20 ofs 0).2 : ℤ) = (0 : ℕ) + 20 :=
        writeLoop_full (by decide) (by decide) (by exact_mod_cast hlen)
      right
      rw [hn]
      exact_mod_cast hfull

theorem writeEntry_replaced (h : Healthy st) (hz : Clean st) (hi : st.openInodes dir = some i)
    (h0 : dir ≠ 0) (he : 1 ≤ k → e.name.length = 15) (hlt : 20 * k + 20 < 2 ^ 31)
    (hcov : Covered ((20 * k : ℕ) + 20) st.heap)
    (hw : st.writeEntry dir e (20 * k) = some (ok, st')) :
    Replaced (contents st.disk (st.dataOf dir)) k e (contents st'.disk (st'.dataOf dir)) := by
  obtain ⟨⟨n, st₁⟩, hw, heq⟩ := Option.map_eq_some_iff.mp hw
  cases heq
  have hz := hz dir (h.inv.opened dir i hi) h0
  rw [dataOf_open hi] at hz ⊢
  have hsum : offT (((20 * k : ℕ) : ℤ) + 20) = (20 * k : ℕ) + 20 := offT_of_lt (by omega) (by omega)
  rw [← hsum] at hcov
  obtain ⟨i', hi', hwritten, -, -⟩ := inodeWriteAt_written h.inv h0 hi hz hcov (by decide)
    (by decide) (offT_of_lt (by omega) (by omega)) hw
  obtain ⟨hinv, -⟩ := inodeWriteAt_local h.inv h0 hi hcov hw
  have hbyte : ∀ pos, (contents st'.disk i'.data).getD pos 0 =
      if 20 * k ≤ pos ∧ pos < 20 * k + n then e.toBytes (pos - 20 * k)
      else (contents st.disk i.data).getD pos 0 := fun _ => hwritten.getD (hinv.opened_data hi').1
  rw [dataOf_open hi']
  refine ⟨fun j hj => ofBytes_congr fun x hx => ?_, fun h1 => ?_⟩
  · have hn := writeEntry_whole h.inv hi hlt hw
    rw [hbyte, if_neg (by omega)]
  · obtain rfl | rfl := writeEntry_whole h.inv hi hlt hw
    · refine .inl (ofBytes_congr fun x hx => ?_)
      rw [hbyte, if_neg (by omega)]
    · refine .inr ((ofBytes_congr fun x hx => ?_).trans (ofBytes_toBytes (he h1)))
      rw [hbyte, if_pos (by omega), Nat.add_sub_cancel_left]

/-! ### One operation -/

theorem Created.contents (hc : Created s st st') : ∀ b ∈ contents st'.disk (st'.dataOf s), b = 0 := by
  intro b hb
  obtain ⟨pos, hpos, rfl⟩ := List.mem_map.mp hb
  have hpos := List.mem_range.mp hpos
  have hcomplete := hc.inv.complete s (by rw [hc.live, Function.update_self])
  obtain ⟨x, hx, -⟩ := hcomplete.sector hpos
  rw [byteAt_owned hcomplete hpos hx, hc.blank x ⟨_, isLeaf_filePath _, hx⟩]
  rfl

theorem contents_recount (hi : st.openInodes s = some i) (hd : i'.data = i.data) :
    contents (st.setInode s (some i')).disk ((st.setInode s (some i')).dataOf s) =
      contents st.disk (st.dataOf s) := by
  rw [dataOf_setInode, hd, ← dataOf_open hi]
  rfl

theorem inodeClose_contents (h : Inv st) (h0 : s ≠ 0) (hc : st.inodeClose s = some st')
    (hlive : st'.live s = true) :
    contents st'.disk (st'.dataOf s) = contents st.disk (st.dataOf s) := by
  obtain ⟨i, -, -, hl, -⟩ | ⟨i, hi, rfl⟩ | ⟨i, i', hi, rfl, hd⟩ := inodeClose_cases h h0 hc
  · rw [hl, Function.update_self] at hlive
    cases hlive
  · rw [dataOf_setInode_none, dataOf_open hi]
    exact (h.older s i hi h0).contents_eq (h.opened_data hi).1
  · exact contents_recount hi hd

/-- An operation on the inode that is not a write leaves its bytes. -/
theorem act_rests {a : Action} (h : Inv st) (h0 : d ≠ 0) (ha : a.inode = some d)
    (hw : ∀ buffer size offset, a ≠ .write d buffer size offset) (hs : act a st = some st')
    (hlive : st'.live d = true) :
    contents st'.disk (st'.dataOf d) = contents st.disk (st.dataOf d) := by
  cases (act_acts ha hs).2 with
  | opened =>
      obtain ⟨i, hi, he⟩ | ⟨ho, he | he⟩ := inodeOpen_cases st d
      · rw [he]
        exact contents_recount hi rfl
      · rw [he]
        rfl
      · rw [he, dataOf_setInode, dataOf_closed ho]
        rfl
  | written => exact absurd rfl (hw _ _ _)
  | closed hc => exact inodeClose_contents h h0 hc hlive
  | recounted hi hd => exact contents_recount hi hd

/-- What holds of the directory `d` between any two operations. -/
structure Lists (d : Sector) (st : State) : Prop where
  healthy : Healthy st
  clean : Clean st
  named : st.live d = true → WellNamed st.size d (contents st.disk (st.dataOf d))

theorem Lists.drift (h : Lists d st) (hd : Drift st st') : Lists d st' := by
  have hhealthy := h.healthy.drift hd
  obtain ⟨heap, f, -, rfl⟩ := hd
  exact ⟨hhealthy, h.clean, h.named⟩

theorem Lists.opened (h : Lists d st) (hs : IsFile st s) : Lists d (st.opened s) where
  healthy := h.healthy.opened hs.1 hs.2
  clean t ht h0 := by
    rw [opened_dataOf, opened_disk]
    exact h.clean t ht h0
  named hlive := by
    rw [opened_dataOf, opened_disk]
    exact h.named hlive

theorem Lists.act {a : Action} (h : Lists d st) (h0 : d ≠ 0) (hg : Sound st (a, st.heap))
    (hp : Positive a) (hw : ∀ buffer size offset, a ≠ .write d buffer size offset)
    (hs : Files.act a st = some st') : Lists d st' where
  healthy := h.healthy.act hg hs
  clean := h.clean.act h.healthy.inv hg hp hs
  named hlive := by
    have hinv := h.healthy.inv
    obtain ⟨-, u, hloc, hu⟩ := act_local hinv hg hs
    rw [hloc.size]
    by_cases hold : st.live d = true
    · have hsame : contents st'.disk (st'.dataOf d) = contents st.disk (st.dataOf d) := by
        by_cases hdu : d = u
        · subst hdu
          refine act_rests hinv h0 (hu.resolve_right fun hn => ?_) hw hs hlive
          rw [hn.2] at hold
          cases hold
        · exact hloc.contents_eq hinv hdu h0 hold
      rw [hsame]
      exact h.named hold
    · exact wellNamed_blank (act_created hinv hg hs (Bool.not_eq_true _ ▸ hold) hlive).contents

theorem Lists.close (h : Lists d st) (h0 : d ≠ 0) (hs0 : s ≠ 0) (hc : st.inodeClose s = some st') :
    Lists d st' := by
  refine h.act (a := .close s) h0 trivial nofun (fun _ _ _ => nofun) ?_
  unfold Files.act
  dsimp only
  rw [if_pos hs0, hc]

theorem Lists.remove (h : Lists d st) (h0 : d ≠ 0) (hs0 : s ≠ 0) (hr : st.inodeRemove s = some st') :
    Lists d st' := by
  refine h.act (a := .remove s) h0 trivial nofun (fun _ _ _ => nofun) ?_
  unfold Files.act
  dsimp only
  rw [if_pos hs0, hr]

theorem writeEntry_open (hw : st.writeEntry s e ofs = some (ok, st')) :
    (∃ i, st.openInodes s = some i) ∧ st'.live = st.live := by
  obtain ⟨⟨n, st₁⟩, hw, heq⟩ := Option.map_eq_some_iff.mp hw
  cases heq
  obtain ⟨i, hi⟩ := inodeWriteAt_open hw
  exact ⟨⟨i, hi⟩, (inodeWriteAt_entry hi hw).1⟩

theorem Lists.write (h : Lists d st) (h0 : d ≠ 0) (hdir0 : dir ≠ 0) (he : 1 ≤ k → e.name.length = 15)
    (hlt : 20 * k + 20 < 2 ^ 31) (hcov : Covered ((20 * k : ℕ) + 20) st.heap)
    (hfits : dir = d → Fits st.size d (contents st.disk (st.dataOf d)) k e)
    (hw : st.writeEntry dir e (20 * k) = some (ok, st')) : Lists d st' := by
  have hdeed : Deed {dir} ok st st' := writeEntry_deed rfl hdir0 hlt hcov hw
  obtain ⟨hhealthy, hb⟩ := h.healthy.deed hdeed
  obtain ⟨⟨i, hi⟩, hl⟩ := writeEntry_open hw
  refine ⟨hhealthy, h.clean.deed h.healthy hdeed, fun hlive => ?_⟩
  rw [hl] at hlive
  have hnamed := h.named hlive
  rw [hb.size]
  by_cases hd : dir = d
  · subst hd
    exact hnamed.replaced (writeEntry_replaced h.healthy h.clean hi h0 he hlt hcov hw) (hfits rfl)
  · rw [(hb.data d (fun hmem => hd hmem.symm) h0 hlive).2]
    exact hnamed

/-! ### `dir_add` -/

theorem Lists.link {r : Option DirEntry} (h : Lists d st) (h0 : d ≠ 0) (hs : IsFile st s)
    (hl : st.linkParent dir s e = some (r, st')) : Lists d st' := by
  obtain ⟨-, hd, -⟩ | ⟨ok, st₁, st₂, hd, hw, hc, -⟩ := linkParent_cases h.healthy.counted hl
  · exact h.drift hd
  have h₁ : Lists d st₁ := (h.opened hs).drift hd
  have h₂ : Lists d st₂ := h₁.write (k := 0) h0 hs.2 (fun h1 => absurd h1 (by decide)) (by decide)
    (.inl (by decide)) (fun _ => .inl rfl) hw
  exact h₂.close h0 hs.2 hc

theorem Lists.add (h : Lists d st) (h0 : d ≠ 0) (hdir0 : dir ≠ 0) (hname : (0 : UInt8) ∉ name)
    (hs : s < st.size) (hne : s ≠ dir) (hfile : isDir = true → IsFile st s)
    (hcov : Covered ((st.dataOf dir).length + 20) st.heap)
    (ha : st.dirAdd dir name s isDir e = some (ok, st')) : Lists d st' := by
  obtain ⟨i, hi⟩ : ∃ i, st.openInodes dir = some i := by
    obtain ⟨i, hi, -⟩ := Option.bind_eq_some_iff.mp ha
    exact ⟨i, hi⟩
  rw [dataOf_open hi] at hcov
  cases dirAdd_adds hi ha with
  | refused => exact h
  | unlinked hr hdir hl => exact h.link h0 (hfile hdir) hl
  | @written st₁ _ i₁ e₁ e' _ hr hl hi₁ hw =>
      have hshort : name.length ≤ nameMax := not_lt.mp fun hlt => hr (.inr (.inl hlt))
      have hnone : entryOf (contents st.disk i.data) name = none := by
        by_contra hsome
        exact hr (.inr (.inr hsome))
      -- the directory is as before when its entry is written
      have hlinked : Lists d st₁ ∧ Later st.heap st₁.heap ∧ st₁.size = st.size ∧
          st₁.openInodes dir = some i ∧ contents st₁.disk i.data = contents st.disk i.data := by
        by_cases hdir : isDir = true
        · rw [if_pos hdir] at hl
          obtain ⟨hlive, hs0⟩ := hfile hdir
          have hworks := (linkParent_works h.healthy.counted hlive hs0 hl).1
          exact ⟨h.link h0 (hfile hdir) hl, hworks.later, (h.healthy.works hworks).2.size,
            linkParent_beside h.healthy hi hdir0 hlive hs0 hne hl⟩
        · rw [if_neg hdir] at hl
          subst hl
          exact ⟨h, .refl _, rfl, hi, rfl⟩
      obtain ⟨h₁, hlater, hsize, hopen, hbytes⟩ := hlinked
      obtain rfl := Option.some.inj (hopen.symm.trans hi₁)
      have hk := freeSlot_le (contents st₁.disk i.data)
      rw [contents_length] at hk
      refine h₁.write h0 hdir0 (fun _ => setName_length _ _) (h₁.healthy.slot_lt hi₁ hk)
        (hcov.later (by omega) hlater) (fun hd => .inr (.inr ?_)) hw
      rw [string_setName hshort hname]
      refine ⟨hshort, hsize ▸ hs, fun heq => hne (heq.trans hd.symm), fun j hj huse heq => ?_⟩
      subst hd
      rw [dataOf_open hi₁, hbytes] at huse heq
      exact entryOf_ne_none.mpr ⟨j, huse, heq⟩ hnone

/-! ### `dir_remove` -/

theorem Lists.tested (h : Lists d st) (h0 : d ≠ 0) (hs : IsFile st s) (ht : Tested st s isEmpty st₂) :
    Lists d st₂ := by
  obtain ⟨st₁, hd, ht⟩ := ht
  have h₁ : Lists d st₁ := (h.opened hs).drift hd
  split_ifs at ht
  · exact h₁.close h0 hs.2 ht.2
  · rw [ht.2]
    exact h₁

theorem Lists.removes (h : Lists d st) (h0 : d ≠ 0) (hdir0 : dir ≠ 0)
    (hs : ∀ s, entrySector st dir name = some s → IsFile st s)
    (hcov : Covered (st.dataOf dir).length st.heap) (hr : st.dirRemove dir name = some (ok, st')) :
    Lists d st' := by
  obtain ⟨i, hi⟩ : ∃ i, st.openInodes dir = some i := by
    obtain ⟨i, hi, -⟩ := Option.bind_eq_some_iff.mp hr
    exact ⟨i, hi⟩
  rw [dataOf_open hi] at hcov
  obtain ⟨-, -, rfl⟩ | ⟨k, hk, hrem⟩ := dirRemove_removes h.healthy.counted hi hr
  · exact h
  have hlt := entryOf_lt hk
  have hfile := hs (entryAt (contents st.disk i.data) k).inodeSector (by rw [entrySector_eq hi, hk]; rfl)
  have he := entryAt_name (contents st.disk i.data) k
  generalize entryAt (contents st.disk i.data) k = e at hfile he hrem
  -- erasing a slot does no harm, whatever directory it is in
  have herase : ∀ {b isEmpty : Bool} {st₂ st₃ : State}, Tested st e.inodeSector isEmpty st₂ →
      st₂.writeEntry dir { e with inUse := 0 } (20 * k) = some (b, st₃) → Lists d st₃ := by
    intro b isEmpty st₂ st₃ ht hw
    have hlater := (ht.works hfile.1 hfile.2 true).later
    have hcov₂ : Covered ((20 * k : ℕ) + 20) st₂.heap := hcov.later (by omega) hlater
    exact (h.tested h0 hfile ht).write (e := { e with inUse := 0 }) h0 hdir0 (fun _ => he)
      (h.healthy.slot_lt hi (by omega)) hcov₂ (fun _ => .inr (.inl rfl)) hw
  cases hrem with
  | unopened ho => exact h.drift (openSector_drift ho)
  | nonempty ht hc => exact (h.tested h0 hfile ht).close h0 hfile.2 hc
  | unwritten ht hw hc => exact (herase ht hw).close h0 hfile.2 hc
  | removed ht hw hremove hc => exact ((herase ht hw).remove h0 hfile.2 hremove).close h0 hfile.2 hc

/-! ### Runs of `dir_add` and `dir_remove` -/

/-- The calls on directories, and all operations on inodes. -/
inductive DirCall where
  | add (dir : Sector) (name : Name) (s : Sector) (isDir : Bool) (e : DirEntry)
  | remove (dir : Sector) (name : Name)
  | inode (a : Action)

/-- A call. -/
def dirCall (c : DirCall) (st : State) : Option State :=
  match c with
  | .add dir name s isDir e => (st.dirAdd dir name s isDir e).map Prod.snd
  | .remove dir name => (st.dirRemove dir name).map Prod.snd
  | .inode a => act a st

/-- A call with the answers that `malloc` gives to it. -/
def dirStep (c : DirCall × (ℕ → Bool)) (st : State) : Option State := dirCall c.1 (st.call c.2)

/-- A name is a string, and what is added is an inode on the device, as `filesys_create` has it;
what is removed is an inode.  Nothing else is written to the directory `d`, and `malloc` does not
succeed again in a call that needs index blocks. -/
def Proper (d : Sector) (st : State) (c : DirCall × (ℕ → Bool)) : Prop :=
  match c.1 with
  | .add dir name s isDir _ => dir ≠ 0 ∧ (0 : UInt8) ∉ name ∧ s < st.size ∧ s ≠ dir ∧
      (isDir = true → IsFile st s) ∧ Covered ((st.dataOf dir).length + 20) c.2
  | .remove dir name => dir ≠ 0 ∧ (∀ s, entrySector st dir name = some s → IsFile st s) ∧
      Covered (st.dataOf dir).length c.2
  | .inode a => Sound st (a, c.2) ∧ Positive a ∧ ∀ buffer size offset, a ≠ .write d buffer size offset

theorem Lists.call (h : Lists d st) : Lists d (st.call heap) :=
  ⟨⟨h.healthy.inv.call, h.healthy.counted⟩, h.clean, h.named⟩

theorem Lists.step {c : DirCall × (ℕ → Bool)} (h : Lists d st) (h0 : d ≠ 0) (hg : Proper d st c)
    (hs : dirStep c st = some st') : Lists d st' := by
  obtain ⟨c, heap⟩ := c
  have h : Lists d (st.call heap) := h.call
  unfold dirStep dirCall at hs
  cases c with
  | add dir name s isDir e =>
      obtain ⟨⟨ok, st₁⟩, ha, rfl⟩ := Option.map_eq_some_iff.mp hs
      obtain ⟨hdir0, hname, hlt, hne, hfile, hcov⟩ := hg
      exact h.add h0 hdir0 hname hlt hne hfile hcov ha
  | remove dir name =>
      obtain ⟨⟨ok, st₁⟩, hr, rfl⟩ := Option.map_eq_some_iff.mp hs
      obtain ⟨hdir0, hfile, hcov⟩ := hg
      exact h.removes h0 hdir0 hfile hcov hr
  | inode a => exact h.act h0 hg.1 hg.2.1 hg.2.2 hs

/-- The root directory of a new file system has no entry but the one for the parent. -/
theorem lists_doFormat {disk : Sector → Block} (hf : Paths.doFormat disk size heap e = some st)
    (h0 : d ≠ 0) : Lists d st := by
  obtain ⟨st₁, st₂, st₃, hformat, h, h1, hd, hw, hclose⟩ := doFormat_cases hf
  have h₁ : Lists d st₁ := by
    obtain ⟨st₀, c, -, hc, hlive, -⟩ := format_created hformat
    refine ⟨h, clean_format hformat, fun hd => ?_⟩
    by_cases hd1 : d = 1
    · subst hd1
      exact wellNamed_blank hc.contents
    · rw [hc.live, Function.update_of_ne hd1, hlive d h0] at hd
      cases hd
  have h₂ : Lists d st₂ := (h₁.opened h1).drift hd
  have h₃ : Lists d st₃ := h₂.write (k := 0) h0 h1.2 (fun h1 => absurd h1 (by decide)) (by decide)
    (.inl (by decide)) (fun _ => .inl rfl) hw
  exact h₃.close h0 h1.2 hclose

theorem lists_reachable {disk : Sector → Block} (hf : Paths.doFormat disk size heap e = some st₀)
    (h0 : d ≠ 0) (hr : Reachable dirStep (Proper d) st₀ st) : Lists d st :=
  hr.invariant (I := Lists d) (lists_doFormat hf h0) fun _ _ _ _ h hg hs => h.step h0 hg hs

/-! ### The views -/

/-- A name other than `"."` and `".."` is found when an entry has it. -/
theorem WellNamed.finds (h : WellNamed st.size d (contents st.disk i.data)) (hi : st.openInodes d = some i)
    (hdot : name ≠ dot) (hdots : name ≠ dotDot) :
    entryOf (contents st.disk i.data) name ≠ none ↔ ∃ s, finds st d name = some (some s) := by
  rw [finds_eq hi, if_neg hdot, if_neg hdots]
  cases hk : entryOf (contents st.disk i.data) name with
  | none => exact iff_of_false (fun h => h rfl) nofun
  | some k =>
      have hlt := h.inside k (h.entryOf_eq.mp hk).1
      dsimp only
      unfold openable
      rw [if_pos hlt]
      exact iff_of_true (Option.some_ne_none k) ⟨_, rfl⟩

/-- The name of an entry that is erased is gone, and no other. -/
theorem WellNamed.erased (h : WellNamed size d bytes) (hk : entryOf bytes name = some k)
    (he : e.name.length = 15) (hu : e.inUse = 0) (other : Name) :
    entryOf (setEntry bytes k e) other = if other = name then none else entryOf bytes other := by
  obtain ⟨hin, hname⟩ := h.entryOf_eq.mp hk
  have hr : Replaced bytes k e (setEntry bytes k e) :=
    ⟨fun j hj => entryAt_other hj, fun _ => .inr (entryAt_self he)⟩
  have h' : WellNamed size d (setEntry bytes k e) := h.replaced hr (.inr (.inl hu))
  refine Option.ext fun j => ?_
  rw [h'.entryOf_eq]
  unfold InUse
  by_cases hjk : j = k
  · subst hjk
    rw [entryAt_self he]
    refine iff_of_false (fun hj => hj.1.2 hu) ?_
    split_ifs with ho
    · nofun
    · rw [h.entryOf_eq, hname]
      exact fun hj => ho hj.2.symm
  · rw [entryAt_other hjk]
    split_ifs with ho
    · subst ho
      refine iff_of_false (fun hj => hjk ?_) nofun
      exact h.unique j k hj.1 hin (hj.2.trans hname.symm)
    · exact h.entryOf_eq.symm

theorem dirRemove_erased (h : Lists d st) (h0 : d ≠ 0) (hi : st.openInodes d = some i)
    (hfile : ∀ s, entrySector st d name = some s → IsFile st s)
    (hcov : Covered i.data.length st.heap) (hr : st.dirRemove d name = some (true, st')) :
    ∃ k e i', entryOf (contents st.disk i.data) name = some k ∧ e.name.length = 15 ∧ e.inUse = 0 ∧
      st'.openInodes d = some i' ∧ st'.size = st.size ∧
      contents st'.disk i'.data = setEntry (contents st.disk i.data) k e := by
  have hnamed := h.named (h.healthy.inv.opened d i hi)
  rw [dataOf_open hi] at hnamed
  obtain ⟨-, hok, -⟩ | ⟨k, hk, hrem⟩ := dirRemove_removes h.healthy.counted hi hr
  · cases hok
  have hlt := entryOf_lt hk
  have he := entryAt_name (contents st.disk i.data) k
  have hs := hfile (entryAt (contents st.disk i.data) k).inodeSector (by rw [entrySector_eq hi, hk]; rfl)
  have hne := hnamed.other k (hnamed.entryOf_eq.mp hk).1
  generalize entryAt (contents st.disk i.data) k = e at he hs hne hrem
  have hnot : d ∉ ({e.inodeSector} : Set Sector) := fun hmem => hne hmem.symm
  cases hrem with
  | @removed st₂ st₃ st₄ _ ht hw hremove hc =>
      -- the test leaves the directory alone
      have htest := ht.works hs.1 hs.2 true
      obtain ⟨h₂, hb₂⟩ := h.healthy.works htest
      obtain ⟨hdata₂, hc₂⟩ := hb₂.data d hnot h0 (h.healthy.inv.opened d i hi)
      have hi₂ := (hb₂.openInodes d hnot (h.healthy.inv.opened d i hi)).trans hi
      rw [dataOf_open hi₂, dataOf_open hi] at hc₂
      -- its entry is erased
      have hcov₂ : Covered ((20 * k : ℕ) + 20) st₂.heap := hcov.later (by omega) htest.later
      have hlt₂ : 20 * k + 20 < 2 ^ 31 := h.healthy.slot_lt hi (by omega)
      obtain ⟨i₃, hi₃, hc₃, hsize₃⟩ := writeEntry_entry h₂ (h.clean.deeds h.healthy htest.deeds) hi₂ h0
        (by omega) hcov₂ hw
      have hdeed : Deed {d} true st₂ st₃ := writeEntry_deed rfl h0 hlt₂ hcov₂ hw
      have h₃ := (h₂.deed hdeed).1
      -- and the removal of the other inode leaves it alone again
      have hlast : Works {e.inodeSector} true st₃ st' :=
        (Relation.ReflTransGen.single (remove_work (Set.mem_singleton _) hs.2 hremove)).tail
          (close_work (Set.mem_singleton _) hs.2 hc)
      have hb := (h₃.works hlast).2
      have hlive₃ := h₃.inv.opened d i₃ hi₃
      have hi' := (hb.openInodes d hnot hlive₃).trans hi₃
      have hc' := (hb.data d hnot h0 hlive₃).2
      rw [dataOf_open hi', dataOf_open hi₃] at hc'
      refine ⟨k, { e with inUse := 0 }, i₃, hk, he, rfl, hi', ?_, ?_⟩
      · rw [hb.size, hsize₃, hb₂.size]
      · rw [hc', hc₃, hc₂]

/-- After `dir_remove` the name is not found, and every other name as before. -/
theorem finds_erased (h : WellNamed st.size d (contents st.disk i.data)) (hi : st.openInodes d = some i)
    (hi' : st'.openInodes d = some i') (hsize : st'.size = st.size)
    (hk : entryOf (contents st.disk i.data) name = some k) (he : e.name.length = 15) (hu : e.inUse = 0)
    (hc : contents st'.disk i'.data = setEntry (contents st.disk i.data) k e) (hdot : name ≠ dot)
    (hdots : name ≠ dotDot) : finds st' d name = some none ∧
      ∀ other, other ≠ name → finds st' d other = finds st d other := by
  have hentry := h.erased hk he hu
  obtain ⟨hin, hname⟩ := h.entryOf_eq.mp hk
  have hk1 : 1 ≤ k := hin.1
  have hlt := entryOf_lt hk
  have hlen := setEntry_length_le hc
  rw [contents_length, contents_length] at hlen
  constructor
  · rw [finds_eq hi', hc, if_neg hdot, if_neg hdots, hentry, if_pos rfl]
  · intro other hne
    refine finds_congr hi hi' hsize (by omega) (by omega) ?_ ?_ fun j hj => ?_
    · rw [hc, entryAt_other (by omega)]
    · rw [hc, hentry, if_neg hne]
    · have hjk : j ≠ k := by
        rintro rfl
        exact hne ((h.entryOf_eq.mp hj).2.symm.trans hname)
      rw [hc, entryAt_other hjk]

/-- **The views of a directory agree**: in every run of `dir_add` and `dir_remove`, no two entries
in use have the same name; `dir_readdir` lists each name once, and other than `"."` and `".."`
exactly those that `dir_lookup` finds; `dir_is_empty` is true when nothing is listed; and a name
that is removed is not found, while the others lead where they led. -/
theorem directory_views {disk : Sector → Block} (hf : Paths.doFormat disk size heap e = some st₀)
    (h0 : d ≠ 0) (hr : Reachable dirStep (Proper d) st₀ st) (hi : st.openInodes d = some i) :
    (∀ j k, InUse (contents st.disk i.data) j → InUse (contents st.disk i.data) k →
      (entryAt (contents st.disk i.data) j).string = (entryAt (contents st.disk i.data) k).string →
      j = k) ∧
    (listing st.disk i.data).Nodup ∧
    (∀ name, name ≠ dot → name ≠ dotDot →
      (name ∈ listing st.disk i.data ↔ ∃ s, finds st d name = some (some s))) ∧
    (isEmptyLoop st.disk i.data (i.data.length / 20) 20 = true ↔ listing st.disk i.data = []) ∧
    ∀ name answers st', name ≠ dot → name ≠ dotDot → Proper d st (.remove d name, answers) →
      (st.call answers).dirRemove d name = some (true, st') →
      finds st' d name = some none ∧ ∀ other, other ≠ name → finds st' d other = finds st d other := by
  have h := lists_reachable hf h0 hr
  have hnamed := h.named (h.healthy.inv.opened d i hi)
  rw [dataOf_open hi] at hnamed
  obtain ⟨honce, hlisted⟩ := hnamed.listing
  refine ⟨hnamed.unique, honce, fun name hdot hdots => ?_, isEmpty_iff _ _,
    fun name answers st' hdot hdots hg hrem => ?_⟩
  · rw [hlisted, hnamed.finds hi hdot hdots]
  · obtain ⟨-, hfile, hcov⟩ := hg
    rw [dataOf_open hi] at hcov
    obtain ⟨k, e, i', hk, he, hu, hi', hsize, hc⟩ := dirRemove_erased h.call h0 hi hfile hcov hrem
    exact finds_erased hnamed hi hi' hsize hk he hu hc hdot hdots

/-- `"a"` is added to the root directory of a new file system: what is to be seen of it, and of its
removal. -/
def listRun : Option (List Bool) := do
  let st₀ ← Paths.doFormat (fun _ => zeros) 40 (fun _ => true) ⟨0, List.replicate 15 0, 1⟩
  let st₁ ← dirStep (.inode (.create 0 false true), fun _ => true) st₀
  let st₂ ← dirStep (.inode (.open 1), fun _ => true) st₁
  let i₂ ← st₂.openInodes 1
  let st ← dirStep (.add 1 [97] 4 false default, fun _ => true) st₂
  let i ← st.openInodes 1
  let (ok, _) ← (st.call fun _ => true).dirRemove 1 [97]
  some [st₂.size == 40, listing st₂.disk i₂.data == [], finds st₂ 1 dot == some (some 1),
    listing st.disk i.data == [[97]], entrySector st 1 [97] == some 4, st.live 4, ok]

theorem list_run : ∃ st₀ st₂ i₂ st i st',
    Paths.doFormat (fun _ => zeros) 40 (fun _ => true) ⟨0, List.replicate 15 0, 1⟩ = some st₀ ∧
    Reachable dirStep (Proper 1) st₀ st₂ ∧ st₂.openInodes 1 = some i₂ ∧
    listing st₂.disk i₂.data = [] ∧ finds st₂ 1 dot = some (some 1) ∧
    Reachable dirStep (Proper 1) st₀ st ∧ st.openInodes 1 = some i ∧ listing st.disk i.data = [[97]] ∧
    Proper 1 st (.remove 1 [97], fun _ => true) ∧
    (st.call fun _ => true).dirRemove 1 [97] = some (true, st') := by
  have h : listRun = some [true, true, true, true, true, true, true] := by decide +kernel
  unfold listRun at h
  simp only [Option.bind_eq_bind, Option.bind_eq_some_iff] at h
  obtain ⟨st₀, h₀, st₁, h₁, st₂, h₂, i₂, hi₂, st, hadd, i, hi, ⟨ok, st'⟩, hrem, hfacts⟩ := h
  simp only [Option.some.injEq, List.cons.injEq, beq_iff_eq, and_true] at hfacts
  obtain ⟨hsize, hempty, hdot, hlist, hentry, hlive, rfl⟩ := hfacts
  have hsteady : ∀ length : ℤ, Covered length fun _ => true := fun _ => .inr fun _ h => nomatch h
  have hcreate : Proper 1 st₀ (.inode (.create 0 false true), fun _ => true) :=
    ⟨hsteady _, nofun, nofun⟩
  have hopen : Proper 1 st₁ (.inode (.open 1), fun _ => true) := ⟨trivial, nofun, nofun⟩
  have hr₂ : Reachable dirStep (Proper 1) st₀ st₂ := (Reachable.refl.tail hcreate h₁).tail hopen h₂
  have hgood : Proper 1 st₂ (.add 1 [97] 4 false default, fun _ => true) := by
    refine ⟨by decide, by decide, ?_, by decide, nofun, hsteady _⟩
    rw [hsize]
    decide
  refine ⟨st₀, st₂, i₂, st, i, st', h₀, hr₂, hi₂, hempty, hdot, hr₂.tail hgood hadd, hi, hlist,
    ⟨by decide, fun s hs => ?_, hsteady _⟩, hrem⟩
  obtain rfl := Option.some.inj (hentry.symm.trans hs)
  exact ⟨hlive, by decide⟩

theorem directory_views_added : ∃ st₀ st i st',
    Paths.doFormat (fun _ => zeros) 40 (fun _ => true) ⟨0, List.replicate 15 0, 1⟩ = some st₀ ∧
    Reachable dirStep (Proper 1) st₀ st ∧ st.openInodes 1 = some i ∧ listing st.disk i.data = [[97]] ∧
    (∃ s, finds st 1 [97] = some (some s)) ∧
    (st.call fun _ => true).dirRemove 1 [97] = some (true, st') ∧ finds st' 1 [97] = some none := by
  obtain ⟨st₀, -, -, st, i, st', h₀, -, -, -, -, hr, hi, hlist, hgood, hrem⟩ := list_run
  obtain ⟨-, -, hfound, -, hremoved⟩ := directory_views h₀ (by decide) hr hi
  have ha := (hfound [97] (by decide) (by decide)).mp (by rw [hlist]; exact List.mem_singleton_self _)
  exact ⟨st₀, st, i, st', h₀, hr, hi, hlist, ha, hrem,
    (hremoved [97] _ st' (by decide) (by decide) hgood hrem).1⟩

/-- In a new root directory nothing is listed, but `"."` is found. -/
theorem directory_views_dot : ∃ st₀ st i,
    Paths.doFormat (fun _ => zeros) 40 (fun _ => true) ⟨0, List.replicate 15 0, 1⟩ = some st₀ ∧
    Reachable dirStep (Proper 1) st₀ st ∧ st.openInodes 1 = some i ∧
    ¬∀ name, name ∈ listing st.disk i.data ↔ ∃ s, finds st 1 name = some (some s) := by
  obtain ⟨st₀, st, i, -, -, -, h₀, hr, hi, hempty, hdot, -⟩ := list_run
  refine ⟨st₀, st, i, h₀, hr, hi, fun hall => ?_⟩
  have hmem := (hall dot).mpr ⟨1, hdot⟩
  rw [hempty] at hmem
  cases hmem

end CSE130.Lab3.Files
