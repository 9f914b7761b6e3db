import CSE130.Lab3.Contents
import CSE130.Lab3.Resolution

/-! # The entries of a directory

A directory is read as a list of bytes, twenty to an entry.  `lookup` finds the first entry in use
with a name, from entry 1 on; the search for a free slot in `dir_add` starts at entry 0. -/

namespace CSE130.Lab3.Files

open BlockTree Transition
open Function (update)

variable {st st' st₁ st₂ : State} {s t x dir : Sector} {i i' : Inode} {m : Sector → Block}
  {d : InodeDisk} {bytes : List UInt8} {name other : Name} {e e' : DirEntry} {j k : ℕ}

/-- Entry `k`. -/
def entryAt (bytes : List UInt8) (k : ℕ) : DirEntry :=
  .ofBytes fun x => bytes.getD (20 * k + x) 0

/-- Entry `k` is in use for this name. -/
def Names (bytes : List UInt8) (name : Name) (k : ℕ) : Prop :=
  (entryAt bytes k).inUse ≠ 0 ∧ (entryAt bytes k).string = name

instance : Decidable (Names bytes name k) := inferInstanceAs (Decidable (_ ∧ _))

/-- The entry that `lookup` finds. -/
def entryOf (bytes : List UInt8) (name : Name) : Option ℕ :=
  (List.range' 1 (bytes.length / 20 - 1)).find? fun k => decide (Names bytes name k)

/-- The slot that `dir_add` takes: the first one that is free, or the end of file. -/
def freeSlot (bytes : List UInt8) : ℕ :=
  ((List.range' 0 (bytes.length / 20)).find? fun k =>
    decide ((entryAt bytes k).inUse = 0)).getD (bytes.length / 20)

/-! ### Reading -/

theorem ofBytes_congr {b b' : ℕ → UInt8} (h : ∀ x, x < 20 → b x = b' x) :
    DirEntry.ofBytes b = DirEntry.ofBytes b' := by
  unfold DirEntry.ofBytes word
  rw [h (4 * 0) (by decide), h (4 * 0 + 1) (by decide), h (4 * 0 + 2) (by decide),
    h (4 * 0 + 3) (by decide), h 19 (by decide)]
  congr 1
  refine List.map_congr_left fun x hx => ?_
  have hx := List.mem_range.mp hx
  exact h (4 + x) (by omega)

theorem readEntry_bytes (m : Sector → Block) (d : InodeDisk) (ofs : ℕ) :
    readLoop m d true 20 20 ofs =
      (List.range (min 20 (d.length - ofs))).map fun x => byteAt m d (ofs + x) :=
  readLoop_eq 20 20 ofs (by decide)

theorem readEntry_ok (h : 20 * k + 20 ≤ d.length) :
    readEntry m d e (20 * k) = (true, entryAt (contents m d) k) := by
  unfold readEntry
  dsimp only
  rw [readEntry_bytes, List.length_map, List.length_range,
    show min 20 (d.length - 20 * k) = 20 by omega]
  refine Prod.ext rfl (ofBytes_congr fun x hx => ?_)
  rw [if_pos hx, contents_getD, if_pos (by omega), List.getD_eq_getElem?_getD,
    List.getElem?_map, List.getElem?_range hx]
  rfl

theorem readEntry_short (h : d.length < 20 * k + 20) : (readEntry m d e (20 * k)).1 = false := by
  unfold readEntry
  dsimp only
  rw [readEntry_bytes, List.length_map, List.length_range, beq_eq_false_iff_ne]
  omega

theorem lookupLoop_eq (m : Sector → Block) (d : InodeDisk) (name : Name) : ∀ fuel k : ℕ,
    d.length / 20 ≤ fuel + k → lookupLoop m d name fuel (20 * k) =
      ((List.range' k (d.length / 20 - k)).find? fun j => decide (Names (contents m d) name j)).map
        fun j => (entryAt (contents m d) j, 20 * j)
  | 0, k, hf => by
      rw [show d.length / 20 - k = 0 by omega]
      rfl
  | fuel + 1, k, hf => by
      unfold lookupLoop
      by_cases hk : 20 * k + 20 ≤ d.length
      · rw [readEntry_ok hk, show d.length / 20 - k = (d.length / 20 - (k + 1)) + 1 by omega,
          List.range'_succ, List.find?_cons]
        by_cases hn : Names (contents m d) name k
        · rw [decide_eq_true hn]
          exact if_pos hn
        · rw [decide_eq_false hn]
          refine (if_neg hn).trans ?_
          exact lookupLoop_eq m d name fuel (k + 1) (by omega)
      · have hread := readEntry_short (m := m) (e := default) (not_le.mp hk)
        rcases hr : readEntry m d default (20 * k) with ⟨ok, e⟩
        rw [hr] at hread
        subst hread
        rw [show d.length / 20 - k = 0 by omega]
        rfl

theorem lookup_eq (m : Sector → Block) (d : InodeDisk) (name : Name) :
    lookup m d name = (entryOf (contents m d) name).map fun k =>
      (entryAt (contents m d) k, 20 * k) := by
  have h := lookupLoop_eq m d name (d.length / 20) 1 (by omega)
  unfold lookup entryOf
  rw [contents_length]
  exact h

/-- Where a name leads depends on the bytes of the directory. -/
theorem target_eq (st : State) (dir : Sector) (name : Name) : target st dir name =
    if name = dot then some dir
    else if name = dotDot then
      if 20 ≤ (contents st.disk (st.dataOf dir)).length then
        some (entryAt (contents st.disk (st.dataOf dir)) 0).inodeSector else none
    else (entryOf (contents st.disk (st.dataOf dir)) name).map fun k =>
      (entryAt (contents st.disk (st.dataOf dir)) k).inodeSector := by
  unfold target
  by_cases hdot : name = dot
  · rw [if_pos hdot, if_pos hdot]
  rw [if_neg hdot, if_neg hdot]
  by_cases hdots : name = dotDot
  · rw [if_pos hdots, if_pos hdots, contents_length]
    by_cases hlen : 20 ≤ (st.dataOf dir).length
    · have hread := readEntry_ok (m := st.disk) (d := st.dataOf dir) (e := default) (k := 0) (by omega)
      rw [Nat.mul_zero] at hread
      rw [if_pos hlen, hread]
      rfl
    · have hread := readEntry_short (m := st.disk) (d := st.dataOf dir) (e := default) (k := 0) (by omega)
      rw [Nat.mul_zero] at hread
      rw [if_neg hlen]
      dsimp only
      rw [if_neg (by rw [hread]; exact Bool.false_ne_true)]
  · rw [if_neg hdots, if_neg hdots, lookup_eq, Option.map_map]
    rfl

theorem target_congr (h : contents st'.disk (st'.dataOf dir) = contents st.disk (st.dataOf dir)) :
    target st' dir name = target st dir name := by
  rw [target_eq, target_eq, h]

theorem freeSlotLoop_eq (m : Sector → Block) (d : InodeDisk) : ∀ (fuel k : ℕ) (e : DirEntry),
    d.length / 20 < fuel + k → k ≤ d.length / 20 → (freeSlotLoop m d fuel (20 * k) e).1 =
      20 * ((List.range' k (d.length / 20 - k)).find? fun j =>
        decide ((entryAt (contents m d) j).inUse = 0)).getD (d.length / 20)
  | 0, k, e, hf, hk => by omega
  | fuel + 1, k, e, hf, hk => by
      unfold freeSlotLoop
      by_cases hlast : 20 * k + 20 ≤ d.length
      · rw [readEntry_ok hlast, show d.length / 20 - k = (d.length / 20 - (k + 1)) + 1 by omega,
          List.range'_succ, List.find?_cons]
        by_cases hu : (entryAt (contents m d) k).inUse = 0
        · rw [decide_eq_true hu]
          simp [hu]
        · rw [decide_eq_false hu]
          simp only [true_and, ne_eq, hu, not_false_eq_true, if_true]
          exact freeSlotLoop_eq m d fuel (k + 1) _ (by omega) (by omega)
      · have hread := readEntry_short (m := m) (e := e) (not_le.mp hlast)
        rcases hr : readEntry m d e (20 * k) with ⟨ok, e₁⟩
        rw [hr] at hread
        subst hread
        rw [show d.length / 20 - k = 0 by omega]
        simp only [Bool.false_eq_true, false_and, if_false]
        change 20 * k = 20 * (d.length / 20)
        omega

/-- The slot that `dir_add` takes. -/
theorem freeSlotLoop_start (m : Sector → Block) (d : InodeDisk) (e : DirEntry) :
    (freeSlotLoop m d (d.length / 20 + 1) 0 e).1 = 20 * freeSlot (contents m d) := by
  have h := freeSlotLoop_eq m d (d.length / 20 + 1) 0 e (by omega) (by omega)
  unfold freeSlot
  rw [contents_length]
  exact h

/-- The first entry in use, from `k` on. -/
def nextEntry (bytes : List UInt8) (k : ℕ) : Option ℕ :=
  (List.range' k (bytes.length / 20 - k)).find? fun j => decide ((entryAt bytes j).inUse ≠ 0)

theorem nextEntry_end (h : bytes.length / 20 ≤ k) : nextEntry bytes k = none := by
  unfold nextEntry
  rw [Nat.sub_eq_zero_of_le h]
  rfl

theorem nextEntry_succ (h : k < bytes.length / 20) : nextEntry bytes k =
    if (entryAt bytes k).inUse ≠ 0 then some k else nextEntry bytes (k + 1) := by
  unfold nextEntry
  rw [show bytes.length / 20 - k = (bytes.length / 20 - (k + 1)) + 1 by omega, List.range'_succ,
    List.find?_cons]
  by_cases hu : (entryAt bytes k).inUse ≠ 0
  · rw [decide_eq_true hu, if_pos hu]
  · rw [decide_eq_false hu, if_neg hu]

theorem isEmptyLoop_eq (m : Sector → Block) (d : InodeDisk) : ∀ fuel k : ℕ,
    d.length / 20 ≤ fuel + k → isEmptyLoop m d fuel (20 * k) = (nextEntry (contents m d) k).isNone
  | 0, k, hf => by
      rw [nextEntry_end (by rw [contents_length]; omega)]
      rfl
  | fuel + 1, k, hf => by
      unfold isEmptyLoop
      by_cases hk : 20 * k + 20 ≤ d.length
      · rw [readEntry_ok hk, nextEntry_succ (by rw [contents_length]; omega)]
        by_cases hu : (entryAt (contents m d) k).inUse ≠ 0
        · simp [hu]
        · rw [if_neg hu]
          simp only [if_true, if_neg hu]
          exact isEmptyLoop_eq m d fuel (k + 1) (by omega)
      · have hread := readEntry_short (m := m) (e := default) (not_le.mp hk)
        rcases hr : readEntry m d default (20 * k) with ⟨ok, e⟩
        rw [hr] at hread
        subst hread
        rw [nextEntry_end (by rw [contents_length]; omega)]
        rfl

theorem dirReaddir_eq (m : Sector → Block) (d : InodeDisk) : ∀ fuel k : ℕ,
    d.length / 20 ≤ fuel + k → dirReaddir m d fuel (20 * k) = (nextEntry (contents m d) k).map
      fun j => ((entryAt (contents m d) j).string.take nameMax, 20 * (j + 1))
  | 0, k, hf => by
      rw [nextEntry_end (by rw [contents_length]; omega)]
      rfl
  | fuel + 1, k, hf => by
      unfold dirReaddir
      by_cases hk : 20 * k + 20 ≤ d.length
      · rw [readEntry_ok hk, nextEntry_succ (by rw [contents_length]; omega)]
        by_cases hu : (entryAt (contents m d) k).inUse ≠ 0
        · simp only [if_true, if_pos hu, Option.map_some]
          rfl
        · simp only [if_true, if_neg hu]
          exact dirReaddir_eq m d fuel (k + 1) (by omega)
      · have hread := readEntry_short (m := m) (e := default) (not_le.mp hk)
        rcases hr : readEntry m d default (20 * k) with ⟨ok, e⟩
        rw [hr] at hread
        subst hread
        rw [nextEntry_end (by rw [contents_length]; omega)]
        rfl

/-! ### Writing -/

theorem ofBytes_toBytes (h : e.name.length = 15) : DirEntry.ofBytes e.toBytes = e := by
  obtain ⟨inodeSector, name, inUse⟩ := e
  unfold DirEntry.ofBytes
  rw [DirEntry.mk.injEq]
  refine ⟨?_, ?_, rfl⟩
  · have hword := word_ofWords (fun _ => inodeSector) 0
    exact hword
  · apply List.ext_getElem
    · rw [List.length_map, List.length_range, h]
    · intro x hx hx'
      rw [List.length_map, List.length_range] at hx
      rw [List.getElem_map, List.getElem_range]
      unfold DirEntry.toBytes
      rw [if_neg (by omega), if_pos (by omega), Nat.add_sub_cancel_left, List.getD_eq_getElem?_getD, List.getElem?_eq_getElem hx',
        Option.getD_some]

theorem setName_length (e : DirEntry) (name : Name) : (e.setName name).name.length = 15 := by
  unfold DirEntry.setName
  rw [List.length_map, List.length_range]

/-- A name that fits is read back. -/
theorem string_setName (hl : name.length ≤ nameMax) (h0 : (0 : UInt8) ∉ name) :
    (e.setName name).string = name := by
  unfold nameMax at hl
  unfold DirEntry.string DirEntry.setName
  dsimp only
  rw [show 15 = name.length + (1 + (14 - name.length)) by omega, List.range_add, List.range_add,
    List.map_append, List.map_append, List.map_append, List.append_assoc]
  have hhead : (List.range name.length).map
      (fun x => if x ≤ name.length then name.getD x 0 else e.name.getD x 0) = name := by
    apply List.ext_getElem
    · rw [List.length_map, List.length_range]
    · intro x hx hx'
      rw [List.getElem_map, List.getElem_range, if_pos hx'.le, List.getD_eq_getElem?_getD, List.getElem?_eq_getElem hx',
        Option.getD_some]
  rw [hhead, List.takeWhile_append_of_pos]
  · simp
  · intro b hb
    have hne : b ≠ 0 := fun h => h0 (h ▸ hb)
    exact bne_iff_ne.mpr hne

theorem laidOver_getD {old : List UInt8} {buffer : ℕ → UInt8} {offset size pos : ℕ} :
    (laidOver old buffer offset size).getD pos 0 =
      if offset ≤ pos ∧ pos < offset + size then buffer (pos - offset) else old.getD pos 0 := by
  unfold laidOver
  rw [List.getD_eq_getElem?_getD, List.getElem?_map]
  by_cases h : pos < max old.length (offset + size)
  · rw [List.getElem?_range h]
    rfl
  · rw [List.getElem?_eq_none (by rw [List.length_range]; omega), if_neg (by omega),
      List.getD_eq_getElem?_getD, List.getElem?_eq_none (by omega)]
    rfl

theorem laidOver_length {old : List UInt8} {buffer : ℕ → UInt8} {offset size : ℕ} :
    (laidOver old buffer offset size).length = max old.length (offset + size) := by
  unfold laidOver
  rw [List.length_map, List.length_range]

/-- The directory with entry `k` overwritten. -/
def setEntry (bytes : List UInt8) (k : ℕ) (e : DirEntry) : List UInt8 :=
  laidOver bytes e.toBytes (20 * k) 20

theorem setEntry_slots (bytes : List UInt8) (k : ℕ) (e : DirEntry) :
    (setEntry bytes k e).length / 20 = max (bytes.length / 20) (k + 1) := by
  unfold setEntry
  rw [laidOver_length]
  omega

theorem entryAt_self (h : e.name.length = 15) : entryAt (setEntry bytes k e) k = e := by
  unfold entryAt setEntry
  refine (ofBytes_congr fun x hx => ?_).trans (ofBytes_toBytes h)
  rw [laidOver_getD, if_pos (by omega), Nat.add_sub_cancel_left]

theorem entryAt_other (h : j ≠ k) : entryAt (setEntry bytes k e) j = entryAt bytes j := by
  unfold entryAt setEntry
  refine ofBytes_congr fun x hx => ?_
  rw [laidOver_getD, if_neg (by omega)]

/-! ### What a new entry does to the names -/

theorem freeSlot_le (bytes : List UInt8) : freeSlot bytes ≤ bytes.length / 20 := by
  unfold freeSlot
  cases hf : (List.range' 0 (bytes.length / 20)).find? fun k =>
      decide ((entryAt bytes k).inUse = 0) with
  | none => exact Nat.le_refl _
  | some k =>
      obtain ⟨-, hk, -⟩ := List.find?_range'_eq_some.mp hf
      have hk := List.mem_range'_1.mp hk
      rw [Option.getD_some]
      omega

variable (bytes) in
theorem freeSlot_free (h : freeSlot bytes < bytes.length / 20) :
    (entryAt bytes (freeSlot bytes)).inUse = 0 := by
  unfold freeSlot at h ⊢
  cases hf : (List.range' 0 (bytes.length / 20)).find? fun k =>
      decide ((entryAt bytes k).inUse = 0) with
  | none =>
      rw [hf] at h
      exact absurd h (Nat.lt_irrefl _)
  | some k =>
      obtain ⟨hk, -⟩ := List.find?_range'_eq_some.mp hf
      exact of_decide_eq_true hk

/-- Entry 0 is taken unless it is in use. -/
theorem freeSlot_zero :
    freeSlot bytes = 0 ↔ ¬(20 ≤ bytes.length ∧ (entryAt bytes 0).inUse ≠ 0) := by
  by_cases hlen : 20 ≤ bytes.length
  · have hrange : bytes.length / 20 = (bytes.length / 20 - 1) + 1 := by omega
    by_cases hu : (entryAt bytes 0).inUse = 0
    · refine ⟨fun _ h => h.2 hu, fun _ => ?_⟩
      unfold freeSlot
      rw [hrange, List.range'_succ, List.find?_cons, decide_eq_true hu]
      rfl
    · refine ⟨fun h0 _ => hu ?_, fun h => absurd ⟨hlen, hu⟩ h⟩
      have hfree := freeSlot_free bytes (by omega)
      rwa [h0] at hfree
  · have hle := freeSlot_le bytes
    exact ⟨fun _ h => hlen h.1, fun _ => by omega⟩

theorem entryOf_eq_some : entryOf bytes name = some k ↔
    (Names bytes name k ∧ 1 ≤ k ∧ k < bytes.length / 20) ∧ ∀ j, 1 ≤ j → j < k → ¬Names bytes name j := by
  unfold entryOf
  rw [List.find?_range'_eq_some, List.mem_range'_1, decide_eq_true_iff]
  constructor
  · rintro ⟨hn, hk, hj⟩
    refine ⟨⟨hn, hk.1, by omega⟩, fun j h1 h2 hj' => ?_⟩
    have := hj j h1 h2
    rw [decide_eq_true hj'] at this
    cases this
  · rintro ⟨⟨hn, h1, hk⟩, hj⟩
    refine ⟨hn, ⟨h1, by omega⟩, fun j h1 h2 => ?_⟩
    rw [decide_eq_false (hj j h1 h2)]
    rfl

/-- The slot lies inside the directory. -/
theorem entryOf_lt (hk : entryOf (contents m d) name = some k) : 20 * k + 20 ≤ d.length := by
  obtain ⟨⟨-, -, hlt⟩, -⟩ := entryOf_eq_some.mp hk
  rw [contents_length] at hlt
  omega

theorem entryOf_eq_none : entryOf bytes name = none ↔
    ∀ j, 1 ≤ j → j < bytes.length / 20 → ¬Names bytes name j := by
  unfold entryOf
  rw [List.find?_eq_none]
  constructor
  · intro h j h1 h2 hn
    exact h j (List.mem_range'_1.mpr ⟨h1, by omega⟩) (decide_eq_true hn)
  · intro h j hj hn
    have hj := List.mem_range'_1.mp hj
    exact h j hj.1 (by omega) (of_decide_eq_true hn)

variable (bytes j) in
/-- The new entry is in the free slot of the directory. -/
theorem names_setEntry (he : e.name.length = 15) (hne : e.string ≠ other) :
    (Names (setEntry bytes (freeSlot bytes) e) other j ∧
      j < (setEntry bytes (freeSlot bytes) e).length / 20) ↔
      Names bytes other j ∧ j < bytes.length / 20 := by
  rw [setEntry_slots]
  have hle := freeSlot_le bytes
  unfold Names
  by_cases hj : j = freeSlot bytes
  · subst hj
    rw [entryAt_self he]
    refine ⟨fun h => absurd h.1.2 hne, fun h => ?_⟩
    exact absurd (freeSlot_free bytes h.2) h.1.1
  · rw [entryAt_other hj]
    refine and_congr_right fun _ => ?_
    omega

theorem entryOf_other (he : e.name.length = 15) (hne : e.string ≠ other) :
    entryOf (setEntry bytes (freeSlot bytes) e) other = entryOf bytes other := by
  refine Option.ext fun k => ?_
  rw [entryOf_eq_some, entryOf_eq_some]
  have hiff : ∀ j, _ := fun j => names_setEntry bytes j he hne
  constructor
  · rintro ⟨⟨hn, h1, hk⟩, hj⟩
    obtain ⟨hn', hk'⟩ := (hiff k).mp ⟨hn, hk⟩
    exact ⟨⟨hn', h1, hk'⟩, fun j h1 h2 hj' =>
      hj j h1 h2 ((hiff j).mpr ⟨hj', h2.trans hk'⟩).1⟩
  · rintro ⟨⟨hn, h1, hk⟩, hj⟩
    obtain ⟨hn', hk'⟩ := (hiff k).mpr ⟨hn, hk⟩
    exact ⟨⟨hn', h1, hk'⟩, fun j h1 h2 hj' => hj j h1 h2 ((hiff j).mp ⟨hj', h2.trans hk'⟩).1⟩

/-- The name is found, except in slot 0. -/
theorem entryOf_self (he : e.name.length = 15) (hu : e.inUse ≠ 0)
    (hnone : entryOf bytes e.string = none) :
    entryOf (setEntry bytes (freeSlot bytes) e) e.string =
      if freeSlot bytes = 0 then none else some (freeSlot bytes) := by
  have hother : ∀ j, j ≠ freeSlot bytes → 1 ≤ j →
      j < (setEntry bytes (freeSlot bytes) e).length / 20 →
      ¬Names (setEntry bytes (freeSlot bytes) e) e.string j := by
    intro j hj h1 hlt
    rw [setEntry_slots] at hlt
    have hle := freeSlot_le bytes
    unfold Names
    rw [entryAt_other hj]
    exact entryOf_eq_none.mp hnone j h1 (by omega)
  by_cases h0 : freeSlot bytes = 0
  · rw [if_pos h0, entryOf_eq_none]
    intro j h1 hlt
    exact hother j (by omega) h1 hlt
  · rw [if_neg h0, entryOf_eq_some, setEntry_slots]
    refine ⟨⟨?_, by omega, by omega⟩, fun j h1 h2 => ?_⟩
    · unfold Names
      rw [entryAt_self he]
      exact ⟨hu, rfl⟩
    · exact hother j (by omega) h1 (by rw [setEntry_slots]; omega)

end CSE130.Lab3.Files
