import CSE130.Lab3.Copies

/-! # The list of open inodes

`open_inodes` links the inodes in memory; a caller has the address of one, from `inode_open` or
`inode_reopen`, until it closes it.  The list refines the function from sectors to inodes of
`State` (`Table.view`): there is one entry for a sector, with as many openings as there are
addresses to be closed, and it is freed at the last closing (`open_inodes`). -/

namespace CSE130.Lab3.Files

open BlockTree Transition
open Function (update)

/-- The memory of `inode.c`, with two records: how many addresses have been handed out and not been
closed, and the bytes of the files as the writes have left them. -/
structure Table where
  /-- The disk and the free map; its `openInodes` is not used. -/
  files : State
  /-- `open_inodes`, from its head. -/
  openInodes : List ℕ
  /-- The inode at an address, with its sector. -/
  inodes : ℕ → Option (Sector × Inode)
  refs : ℕ → ℕ
  bytes : Sector → List UInt8

namespace Table

variable (k : Table)

/-- The search of `inode_open`. -/
def find (s : Sector) : Option ℕ := k.openInodes.find? fun a => (k.inodes a).map Prod.fst = some s

/-- What the functions that are given a sector see. -/
def view : State :=
  { k.files with openInodes := fun s => (k.find s).bind fun a => (k.inodes a).map Prod.snd }

/-- Change the inode at an address, or free it. -/
def store (a : ℕ) (i : Option (Sector × Inode)) : Table := { k with inodes := update k.inodes a i }

/-- `inode_reopen`. -/
def inodeReopen (a : ℕ) : Option Table :=
  (k.inodes a).map fun (s, i) => k.store a (some (s, { i with openCnt := i.openCnt + 1 }))

/-- `inode_open`; `a` is the address that `malloc` returns. -/
def inodeOpen (s : Sector) (a : ℕ) : Option (Option ℕ × Table) :=
  match k.find s with
  | some e => (k.inodeReopen e).map fun k => (some e, k)
  | none =>
      let (ok, st) := k.files.malloc
      let k := { k with files := st }
      if ok then
        some (some a,
          { k with openInodes := a :: k.openInodes }.store a
            (some (s, ⟨1, false, 0, .ofBlock (st.disk s)⟩)))
      else some (none, k)

/-- `inode_close`. -/
def inodeClose (a : ℕ) : Option Table := do
  let (s, i) ← k.inodes a
  if i.openCnt - 1 = 0 then
    let k := { k with openInodes := k.openInodes.erase a }
    if i.removed then do
      let st ← k.view.freeMapRelease s
      let st ← st.inodeDeallocate i.data
      some ({ k with files := { st with live := update st.live s false } }.store a none)
    else some (k.store a none)
  else some (k.store a (some (s, { i with openCnt := i.openCnt - 1 })))

/-- `inode_remove`. -/
def inodeRemove (a : ℕ) : Option Table :=
  (k.inodes a).map fun (s, i) => k.store a (some (s, { i with removed := true }))

/-- `inode_write_at`. -/
def inodeWriteAt (a : ℕ) (buffer : ℕ → UInt8) (size : ℤ) (offset : ℕ) : Option (ℕ × Table) := do
  let (s, i) ← k.inodes a
  let (n, st) ← (k.view.setInode s (some i)).inodeWriteAt s buffer size offset
  some (n, { k with files := st }.store a ((st.openInodes s).map fun i => (s, i)))

/-- `inode_read_at`. -/
def inodeReadAt (a : ℕ) (size : ℤ) (offset : ℕ) : Option (List UInt8) :=
  (k.inodes a).map fun (_, i) => k.files.inodeReadAt i size offset

/-- `free_map_allocate` and `inode_create`, as in `filesys_create`. -/
def inodeCreate (length : ℤ) (isDir added : Bool) : Option Table :=
  (k.view.filesysCreate length isDir added).map fun st => { k with files := st }

end Table

/-- The calls. -/
inductive Call where
  | create (length : ℤ) (isDir added : Bool)
  | open (s : Sector) (a : ℕ)
  | reopen (a : ℕ)
  | write (a : ℕ) (buffer : ℕ → UInt8) (size : ℤ) (offset : ℕ)
  | remove (a : ℕ)
  | close (a : ℕ)

namespace Table

variable (k : Table)

/-- An address has been handed out. -/
def acquire (a : ℕ) : Table := { k with refs := update k.refs a (k.refs a + 1) }

/-- An address has been closed. -/
def release (a : ℕ) : Table := { k with refs := update k.refs a (k.refs a - 1) }

/-- The bytes of the file at an address after a write of `n` bytes. -/
def wrote (a : ℕ) (buffer : ℕ → UInt8) (offset n : ℕ) : Sector → List UInt8 :=
  match k.inodes a with
  | none => k.bytes
  | some (s, _) =>
      if n = 0 then k.bytes else update k.bytes s (laidOver (k.bytes s) buffer offset n)

/-- One call. -/
def act : Call → Option Table
  | .create length isDir added =>
      (k.inodeCreate length isDir added).map fun k' =>
        { k' with
          bytes := fun s =>
            if k'.files.live s && !k.files.live s then List.replicate length.toNat 0
            else k.bytes s }
  | .open s a => (k.inodeOpen s a).map fun (r, k) => r.elim k k.acquire
  | .reopen a => (k.inodeReopen a).map fun k => k.acquire a
  | .write a buffer size offset =>
      (k.inodeWriteAt a buffer size offset).map fun (n, k') =>
        { k' with bytes := k.wrote a buffer offset n }
  | .remove a => k.inodeRemove a
  | .close a => (k.inodeClose a).map fun k => k.release a

/-- A caller has the address, which is not that of the free map's inode. -/
def Held (a : ℕ) : Prop := 0 < k.refs a ∧ ∀ i, k.inodes a ≠ some (0, i)

/-- What the callers do: only files are opened, an address is used until it is closed, and sizes
and offsets are of type `off_t`. -/
def Proper : Call → Prop
  | .create length _ _ => offT length = length
  | .open s a => k.files.live s = true ∧ s ≠ 0 ∧ k.inodes a = none
  | .reopen a => k.Held a
  | .write a _ size offset => k.Held a ∧ 1 ≤ size ∧ offT size = size ∧ offT offset = offset
  | .remove a => k.Held a
  | .close a => k.Held a

instance (a : ℕ) : Decidable (k.Held a) :=
  decidable_of_iff (0 < k.refs a ∧ (k.inodes a).map Prod.fst ≠ some 0)
    (and_congr_right fun _ => by cases k.inodes a <;> simp [Prod.ext_iff])

instance : ∀ c, Decidable (k.Proper c)
  | .create length _ _ => inferInstanceAs (Decidable (offT length = length))
  | .open s a =>
      decidable_of_iff (k.files.live s = true ∧ s ≠ 0 ∧ (k.inodes a).isNone)
        (by rw [Option.isNone_iff_eq_none]; rfl)
  | .reopen a => inferInstanceAs (Decidable (k.Held a))
  | .write a _ size offset =>
      inferInstanceAs (Decidable (k.Held a ∧ 1 ≤ size ∧ offT size = size ∧ offT offset = offset))
  | .remove a => inferInstanceAs (Decidable (k.Held a))
  | .close a => inferInstanceAs (Decidable (k.Held a))

/-- A call in which no allocation fails. -/
def step (c : Call) (k : Table) : Option Table :=
  ({ k with files := k.files.call fun _ => true }.act c).filter fun k => !k.files.allocFailed

/-- A new file system: the inode of the free map is open, at the address 0. -/
def format (disk : Sector → Block) (size : Sector) (heap : ℕ → Bool) : Option Table :=
  (State.format disk size heap).map fun st =>
    { files := st
      openInodes := [0]
      inodes := update (fun _ => none) 0 ((st.openInodes 0).map fun i => (0, i))
      refs := update (fun _ => 0) 0 1
      bytes := fun s => contents st.disk (st.dataOf s) }

end Table

/-! ### The list and the function -/

variable {k k' : Table} {st st' : State} {s t : Sector} {a b : ℕ} {i j : Inode}

/-- An entry of the list for every inode in memory, and as many openings as addresses. -/
structure Linked (k : Table) : Prop where
  nodup : k.openInodes.Nodup
  mem : ∀ a, a ∈ k.openInodes ↔ (k.inodes a).isSome
  sole : ∀ a b s i j, k.inodes a = some (s, i) → k.inodes b = some (s, j) → a = b
  refs : ∀ a s i, k.inodes a = some (s, i) → i.openCnt = k.refs a ∧ 0 < k.refs a
  freed : ∀ a, k.inodes a = none → k.refs a = 0

namespace Table

theorem find_some (h : k.find s = some a) : a ∈ k.openInodes ∧ ∃ i, k.inodes a = some (s, i) := by
  have hs := List.find?_some (p := fun a => decide ((k.inodes a).map Prod.fst = some s)) h
  obtain ⟨⟨u, i⟩, hi, hu⟩ := Option.map_eq_some_iff.mp (of_decide_eq_true hs)
  obtain rfl : u = s := hu
  exact ⟨List.mem_of_find?_eq_some h, i, hi⟩

/-- There is at most one entry for a sector. -/
def Sole (k : Table) : Prop :=
  ∀ a ∈ k.openInodes, ∀ b ∈ k.openInodes, ∀ s i j, k.inodes a = some (s, i) →
    k.inodes b = some (s, j) → a = b

theorem view_iff (h : k.Sole) :
    k.view.openInodes s = some i ↔ ∃ a ∈ k.openInodes, k.inodes a = some (s, i) := by
  constructor
  · intro hi
    obtain ⟨a, ha, hi⟩ := Option.bind_eq_some_iff.mp hi
    obtain ⟨hmem, j, hj⟩ := find_some ha
    rw [hj] at hi
    cases hi
    exact ⟨a, hmem, hj⟩
  · rintro ⟨a, ha, hi⟩
    have hsome : k.find s = some a := by
      cases hf : k.find s with
      | none =>
          have hno := List.find?_eq_none.mp hf a ha
          simp [hi] at hno
      | some b =>
          obtain ⟨hb, j, hj⟩ := find_some hf
          rw [h a ha b hb s i j hi hj]
    change (k.find s).bind _ = _
    rw [hsome, Option.bind_some, hi, Option.map_some]

theorem view_eq (st : State) (h : k.Sole) (hf : { k.files with openInodes := st.openInodes } = st)
    (ho : ∀ t i, st.openInodes t = some i ↔ ∃ a ∈ k.openInodes, k.inodes a = some (t, i)) :
    k.view = st := by
  have hopen : k.view.openInodes = st.openInodes := by
    funext t
    apply Option.ext
    intro i
    rw [view_iff h, ho]
  rw [← hf, ← hopen]
  rfl

end Table

theorem Local.openInodes_eq (hl : Local s st st') :
    st'.openInodes = update st.openInodes s (st'.openInodes s) := by
  funext t
  by_cases hts : t = s
  · rw [hts, Function.update_self]
  · rw [Function.update_of_ne hts, hl.openInodes t hts]

namespace Linked

theorem sole' (h : Linked k) : k.Sole := fun a _ b _ s i j => h.sole a b s i j

theorem open_iff (h : Linked k) : k.view.openInodes s = some i ↔ ∃ a, k.inodes a = some (s, i) := by
  rw [Table.view_iff h.sole']
  constructor
  · rintro ⟨a, -, hi⟩
    exact ⟨a, hi⟩
  · rintro ⟨a, hi⟩
    exact ⟨a, (h.mem a).mpr (by rw [hi]; rfl), hi⟩

theorem view_open (h : Linked k) (hi : k.inodes a = some (s, i)) : k.view.openInodes s = some i :=
  h.open_iff.mpr ⟨a, hi⟩

theorem other (h : Linked k) (hi : k.inodes a = some (s, i)) (hb : b ≠ a)
    (hj : k.inodes b = some (t, j)) : t ≠ s := by
  rintro rfl
  exact hb (h.sole b a t j i hj hi)

/-- What is at one address changes, for one sector. -/
theorem change (h : Linked k) (s : Sector) {o : Option Inode}
    (hinodes : k'.inodes = update k.inodes a (o.map fun j => (s, j)))
    (hnodup : k'.openInodes.Nodup) (hmem : ∀ b, b ∈ k'.openInodes ↔ (k'.inodes b).isSome)
    (hapart : ∀ b t u, b ≠ a → k.inodes b = some (t, u) → t ≠ s)
    (hold : ∀ t u, k.inodes a = some (t, u) → t = s) (hrefs : ∀ b, b ≠ a → k'.refs b = k.refs b)
    (hcnt : ∀ j, o = some j → j.openCnt = k'.refs a ∧ 0 < k'.refs a)
    (hfree : o = none → k'.refs a = 0) :
    Linked k' ∧ ∀ t u, update k.view.openInodes s o t = some u ↔
      ∃ b ∈ k'.openInodes, k'.inodes b = some (t, u) := by
  have hself : k'.inodes a = o.map fun j => (s, j) := by rw [hinodes, Function.update_self]
  have hother : ∀ b, b ≠ a → k'.inodes b = k.inodes b := fun b hb => by
    rw [hinodes, Function.update_of_ne hb]
  -- the address of a sector, in the new memory
  have hat : ∀ b t u, k'.inodes b = some (t, u) → (b = a ↔ t = s) := by
    intro b t u hu
    by_cases hb : b = a
    · rw [hb, hself] at hu
      obtain ⟨j, -, hj⟩ := Option.map_eq_some_iff.mp hu
      exact iff_of_true hb (congrArg Prod.fst hj).symm
    · rw [hother b hb] at hu
      exact iff_of_false hb (hapart b t u hb hu)
  refine ⟨⟨hnodup, hmem, fun b c t u v hu hv => ?_, fun b t u hu => ?_, fun b hb => ?_⟩, fun t u => ?_⟩
  · by_cases hb : b = a
    · rw [hb, (hat c t v hv).mpr ((hat b t u hu).mp hb)]
    · have hc : c ≠ a := fun hc => hb ((hat b t u hu).mpr ((hat c t v hv).mp hc))
      rw [hother b hb] at hu
      rw [hother c hc] at hv
      exact h.sole b c t u v hu hv
  · by_cases hb : b = a
    · rw [hb, hself] at hu
      obtain ⟨j, hj, hju⟩ := Option.map_eq_some_iff.mp hu
      obtain ⟨-, rfl⟩ := Prod.mk.inj hju
      rw [hb]
      exact hcnt j hj
    · rw [hother b hb] at hu
      rw [hrefs b hb]
      exact h.refs b t u hu
  · by_cases hba : b = a
    · rw [hba, hself] at hb
      rw [hba]
      exact hfree (Option.map_eq_none_iff.mp hb)
    · rw [hother b hba] at hb
      rw [hrefs b hba]
      exact h.freed b hb
  · have hlist : ∀ b, k'.inodes b = some (t, u) → b ∈ k'.openInodes := fun b hb =>
      (hmem b).mpr (by rw [hb]; rfl)
    by_cases hts : t = s
    · subst hts
      rw [Function.update_self]
      constructor
      · intro ho
        have hb : k'.inodes a = some (t, u) := by rw [hself, ho, Option.map_some]
        exact ⟨a, hlist a hb, hb⟩
      · rintro ⟨b, -, hu⟩
        rw [(hat b t u hu).mpr rfl, hself] at hu
        obtain ⟨j, hj, hju⟩ := Option.map_eq_some_iff.mp hu
        obtain ⟨-, rfl⟩ := Prod.mk.inj hju
        exact hj
    · rw [Function.update_of_ne hts, h.open_iff]
      constructor
      · rintro ⟨b, hu⟩
        have hb : b ≠ a := fun hb => hts (hold t u (hb ▸ hu))
        have hu' := (hother b hb).trans hu
        exact ⟨b, hlist b hu', hu'⟩
      · rintro ⟨b, -, hu⟩
        have hb : b ≠ a := fun hb => hts ((hat b t u hu).mp hb)
        exact ⟨b, (hother b hb).symm.trans hu⟩

/-- One entry changes, with the number of its addresses. -/
theorem update_entry (h : Linked k) (hi : k.inodes a = some (s, i))
    (hlist : k'.openInodes = k.openInodes) (hinodes : k'.inodes = update k.inodes a (some (s, j)))
    (hrefs : ∀ b, b ≠ a → k'.refs b = k.refs b) (hcnt : j.openCnt = k'.refs a)
    (hpos : 0 < k'.refs a) :
    Linked k' ∧ ∀ t u, update k.view.openInodes s (some j) t = some u ↔
      ∃ b ∈ k'.openInodes, k'.inodes b = some (t, u) := by
  refine h.change s (o := some j) hinodes (hlist ▸ h.nodup) (fun b => ?_)
    (fun b t u hb hu => h.other hi hb hu) (fun t u hu => ?_) hrefs (fun u hu => ?_) nofun
  · rw [hlist, h.mem, hinodes]
    by_cases hb : b = a
    · rw [hb, Function.update_self, hi]
      rfl
    · rw [Function.update_of_ne hb]
  · rw [hi] at hu
    cases hu
    rfl
  · cases hu
    exact ⟨hcnt, hpos⟩

/-- A new entry, at the head of the list. -/
theorem push_entry (h : Linked k) (hn : k.inodes a = none) (hs : k.view.openInodes s = none)
    (hlist : k'.openInodes = a :: k.openInodes)
    (hinodes : k'.inodes = update k.inodes a (some (s, j)))
    (hrefs : ∀ b, b ≠ a → k'.refs b = k.refs b) (hcnt : j.openCnt = 1) (hone : k'.refs a = 1) :
    Linked k' ∧ ∀ t u, update k.view.openInodes s (some j) t = some u ↔
      ∃ b ∈ k'.openInodes, k'.inodes b = some (t, u) := by
  have hnot : a ∉ k.openInodes := by
    rw [h.mem, hn]
    exact Bool.false_ne_true
  refine h.change s (o := some j) hinodes (hlist ▸ List.nodup_cons.mpr ⟨hnot, h.nodup⟩) (fun b => ?_)
    (fun b t u _ hu hts => ?_) (fun t u hu => ?_) hrefs (fun u hu => ?_) nofun
  · rw [hlist, List.mem_cons, h.mem, hinodes]
    by_cases hb : b = a
    · rw [hb, Function.update_self]
      exact iff_of_true (.inl rfl) rfl
    · rw [Function.update_of_ne hb, or_iff_right hb]
  · subst hts
    rw [h.view_open hu] at hs
    cases hs
  · rw [hn] at hu
    cases hu
  · cases hu
    rw [hcnt, hone]
    exact ⟨rfl, Nat.one_pos⟩

theorem erase_entry (k' : Table) (h : Linked k) (hi : k.inodes a = some (s, i))
    (hlist : k'.openInodes = k.openInodes.erase a) (hinodes : k'.inodes = update k.inodes a none)
    (hrefs : ∀ b, b ≠ a → k'.refs b = k.refs b) (hzero : k'.refs a = 0) :
    Linked k' ∧ ∀ t u, update k.view.openInodes s none t = some u ↔
      ∃ b ∈ k'.openInodes, k'.inodes b = some (t, u) := by
  refine h.change s (o := none) hinodes (hlist ▸ h.nodup.erase a) (fun b => ?_)
    (fun b t u hb hu => h.other hi hb hu) (fun t u hu => ?_) hrefs nofun fun _ => hzero
  · rw [hlist, h.nodup.mem_erase_iff, h.mem, hinodes]
    by_cases hb : b = a
    · rw [hb, Function.update_self]
      exact iff_of_false (fun hc => hc.1 rfl) Bool.false_ne_true
    · rw [Function.update_of_ne hb, and_iff_right hb]
  · rw [hi] at hu
    cases hu
    rfl

end Linked

/-! ### Every call -/

/-- The list is linked, and what it refines is kept. -/
structure Good (k : Table) : Prop where
  linked : Linked k
  kept : Kept k.view k.bytes

/-- A write does not open or close the inode. -/
theorem inodeWriteAt_count {buffer : ℕ → UInt8} {size : ℤ} {offset n : ℕ} (h : Inv st) (h0 : s ≠ 0)
    (hi : st.openInodes s = some i) (hcov : Covered (offT (offset + size)) st.heap)
    (hw : st.inodeWriteAt s buffer size offset = some (n, st')) :
    ∃ i', st'.openInodes s = some i' ∧ i'.openCnt = i.openCnt := by
  rcases inodeWriteAt_cases hi hw with ⟨-, rfl, -⟩ | ⟨-, ok, i', st₁, he, hcase⟩
  · exact ⟨i, hi, rfl⟩
  · have hx := inodeExtend_extended h h0 hi hcov he
    rcases hcase with ⟨-, -, rfl⟩ | ⟨-, -, rfl⟩
    · exact ⟨i', hx.openInodes, hx.counts.1⟩
    · exact ⟨i', hx.openInodes, hx.counts.1⟩

namespace Good

theorem call (h : Good k) : Good { k with files := k.files.call fun _ => true } :=
  ⟨⟨h.linked.nodup, h.linked.mem, h.linked.sole, h.linked.refs, h.linked.freed⟩, h.kept.call⟩

theorem malloc_true (h : st.heap 0 = true) :
    st.malloc = (true, { st with heap := fun j => st.heap (j + 1) }) := by
  unfold State.malloc
  rw [h, Bool.not_true, Bool.or_false]

/-- The new entries are those of the state that the call leads to. -/
theorem of_view {o : Option Inode} (hl : Linked k' ∧ ∀ t u,
      update k.view.openInodes s o t = some u ↔ ∃ b ∈ k'.openInodes, k'.inodes b = some (t, u))
    (ho : st.openInodes = update k.view.openInodes s o)
    (hf : { k'.files with openInodes := st.openInodes } = st) (hk : Kept st k'.bytes) : Good k' := by
  refine ⟨hl.1, ?_⟩
  rw [Table.view_eq st hl.1.sole' hf fun t u => by rw [ho, hl.2]]
  exact hk

theorem inode_ne (h : Good k) (ha : k.Held a) : ∃ s i, k.inodes a = some (s, i) ∧ s ≠ 0 := by
  cases hi : k.inodes a with
  | none =>
      have h0 := h.linked.freed a hi
      exact absurd ha.1 (by omega)
  | some p =>
      obtain ⟨s, i⟩ := p
      refine ⟨s, i, rfl, ?_⟩
      rintro rfl
      exact ha.2 i hi

theorem reopen (h : Good k) (hi : k.inodes a = some (s, i)) (h0 : s ≠ 0)
    (hr : k.inodeReopen a = some k') : Good (k'.acquire a) := by
  obtain ⟨p, hp, rfl⟩ := Option.map_eq_some_iff.mp hr
  rw [hi] at hp
  cases hp
  have hopen := h.linked.view_open hi
  obtain ⟨hcnt, hpos⟩ := h.linked.refs a s i hi
  have hact : act (.open s) k.view =
      some (k.view.setInode s (some { i with openCnt := i.openCnt + 1 })) := by
    unfold Files.act State.inodeOpen
    dsimp only
    rw [if_pos ⟨h.kept.inv.opened s i hopen, h0⟩, hopen]
  refine of_view (h.linked.update_entry hi rfl rfl (fun b hb => Function.update_of_ne hb ..) ?_ ?_)
    rfl rfl (h.kept.same rfl (fun _ _ _ => by nofun) hact)
  · change i.openCnt + 1 = update k.refs a (k.refs a + 1) a
    rw [Function.update_self, hcnt]
  · change 0 < update k.refs a (k.refs a + 1) a
    rw [Function.update_self]
    omega

/-- `inode_open`. -/
theorem «open» (h : Good k) (hheap : k.files.heap 0 = true) (hlive : k.files.live s = true)
    (h0 : s ≠ 0) (hn : k.inodes a = none) {r : Option ℕ} (ho : k.inodeOpen s a = some (r, k')) :
    Good (r.elim k' k'.acquire) := by
  unfold Table.inodeOpen at ho
  cases hf : k.find s with
  | some e =>
      rw [hf] at ho
      obtain ⟨k₁, hk₁, heq⟩ := Option.map_eq_some_iff.mp ho
      cases heq
      obtain ⟨-, i, hi⟩ := Table.find_some hf
      exact h.reopen hi h0 hk₁
  | none =>
      rw [hf] at ho
      simp only [malloc_true hheap, if_true] at ho
      cases ho
      have hopen : k.view.openInodes s = none := by
        change (k.find s).bind _ = none
        rw [hf, Option.bind_none]
      have hact : act (.open s) k.view =
          some ({ k.view with heap := fun j => k.files.heap (j + 1) }.setInode s
            (some ⟨1, false, 0, .ofBlock (k.files.disk s)⟩)) := by
        unfold Files.act State.inodeOpen
        dsimp only
        rw [if_pos ⟨hlive, h0⟩, hopen, malloc_true (show k.view.heap 0 = true from hheap)]
        rfl
      refine of_view (h.linked.push_entry hn hopen rfl rfl (fun b hb => Function.update_of_ne hb ..)
        rfl ?_) rfl rfl (h.kept.same rfl (fun _ _ _ => by nofun) hact)
      change update k.refs a (k.refs a + 1) a = 1
      rw [Function.update_self, h.linked.freed a hn]

theorem remove (h : Good k) (ha : k.Held a) (hr : k.inodeRemove a = some k') : Good k' := by
  obtain ⟨s, i, hi, h0⟩ := h.inode_ne ha
  obtain ⟨p, hp, rfl⟩ := Option.map_eq_some_iff.mp hr
  rw [hi] at hp
  cases hp
  have hact : act (.remove s) k.view = some (k.view.setInode s (some { i with removed := true })) := by
    unfold Files.act State.inodeRemove
    dsimp only
    rw [if_pos h0, h.linked.view_open hi, Option.map_some]
  obtain ⟨hcnt, hpos⟩ := h.linked.refs a s i hi
  exact of_view (h.linked.update_entry hi rfl rfl (fun _ _ => rfl) hcnt hpos) rfl rfl
    (h.kept.same rfl (fun _ _ _ => by nofun) hact)

/-- The list without an entry that is not freed yet. -/
theorem view_erase (h : Good k) (hi : k.inodes a = some (s, i)) :
    ({ k with openInodes := k.openInodes.erase a } : Table).view = k.view.setInode s none := by
  obtain ⟨-, hiff⟩ := h.linked.erase_entry { k with
    openInodes := k.openInodes.erase a
    inodes := update k.inodes a none
    refs := update k.refs a 0 } hi rfl rfl (fun b hb => Function.update_of_ne hb ..)
    (Function.update_self ..)
  have hsole : Table.Sole { k with openInodes := k.openInodes.erase a } :=
    fun b _ c _ t u v => h.linked.sole b c t u v
  refine Table.view_eq _ hsole rfl fun t u => (hiff t u).trans ?_
  refine exists_congr fun b => and_congr_right fun hb => ?_
  have hba : b ≠ a := (h.linked.nodup.mem_erase_iff.mp hb).1
  change update k.inodes a none b = some (t, u) ↔ k.inodes b = some (t, u)
  rw [Function.update_of_ne hba]

theorem close (h : Good k) (ha : k.Held a) (hc : k.inodeClose a = some k') :
    Good (k'.release a) := by
  obtain ⟨s, i, hi, h0⟩ := h.inode_ne ha
  obtain ⟨hcnt, hpos⟩ := h.linked.refs a s i hi
  have hopen := h.linked.view_open hi
  unfold Table.inodeClose at hc
  rw [hi] at hc
  simp only [Option.bind_eq_bind, Option.bind_some] at hc
  by_cases hlast : i.openCnt - 1 = 0
  · rw [if_pos hlast, h.view_erase hi] at hc
    have hzero : update k.refs a (k.refs a - 1) a = 0 := by
      rw [Function.update_self, ← hcnt, hlast]
    cases hrem : i.removed with
    | false =>
        rw [if_neg (by rw [hrem]; exact Bool.false_ne_true)] at hc
        cases hc
        have hact : act (.close s) k.view = some (k.view.setInode s none) := by
          unfold Files.act State.inodeClose
          dsimp only
          rw [if_pos h0, hopen]
          simp only [hlast, hrem, if_true]
          rfl
        exact of_view (h.linked.erase_entry _ hi rfl rfl (fun b hb => Function.update_of_ne hb ..) hzero)
          rfl rfl (h.kept.same rfl (fun _ _ _ => by nofun) hact)
    | true =>
        rw [if_pos hrem] at hc
        obtain ⟨st', hclose, hloc, hinv, hlive, -⟩ :=
          inodeClose_removed h.kept.inv h0 hopen hlast hrem
        have hact : act (.close s) k.view = some st' := by
          unfold Files.act
          dsimp only
          rw [if_pos h0, hclose]
        have hnone : st'.openInodes s = none := by
          refine hinv.not_open ?_
          rw [hlive, Function.update_self]
        unfold State.inodeClose at hclose
        rw [hopen] at hclose
        simp only [hlast, hrem, if_true, Option.bind_eq_bind] at hclose
        obtain ⟨st₁, h₁, hc⟩ := Option.bind_eq_some_iff.mp hc
        obtain ⟨st₂, h₂, hc⟩ := Option.bind_eq_some_iff.mp hc
        rw [h₁, Option.bind_some, h₂, Option.bind_some] at hclose
        cases hclose
        cases hc
        exact of_view (h.linked.erase_entry _ hi rfl rfl (fun b hb => Function.update_of_ne hb ..) hzero)
          (by rw [hloc.openInodes_eq, hnone]) rfl (h.kept.same rfl (fun _ _ _ => by nofun) hact)
  · rw [if_neg hlast] at hc
    cases hc
    have hact : act (.close s) k.view =
        some (k.view.setInode s (some { i with openCnt := i.openCnt - 1 })) := by
      unfold Files.act State.inodeClose
      dsimp only
      rw [if_pos h0, hopen]
      simp only [hlast, if_false]
    refine of_view (h.linked.update_entry hi rfl rfl (fun b hb => Function.update_of_ne hb ..) ?_ ?_)
      rfl rfl (h.kept.same rfl (fun _ _ _ => by nofun) hact)
    · change i.openCnt - 1 = update k.refs a (k.refs a - 1) a
      rw [Function.update_self, hcnt]
    · change 0 < update k.refs a (k.refs a - 1) a
      rw [Function.update_self, ← hcnt]
      omega

theorem write (h : Good k) (hheap : k.files.heap = fun _ => true) {buffer : ℕ → UInt8} {size : ℤ}
    {offset n : ℕ} (hp : k.Proper (.write a buffer size offset))
    (hw : k.inodeWriteAt a buffer size offset = some (n, k')) (hf : k'.files.allocFailed = false) :
    Good { k' with bytes := k.wrote a buffer offset n } := by
  obtain ⟨ha, hpos, hsize, hoffset⟩ := hp
  obtain ⟨s, i, hi, h0⟩ := h.inode_ne ha
  have hopen := h.linked.view_open hi
  have hcov : Covered (offT (offset + size)) k.view.heap := .inr fun j hj => by
    rw [show k.view.heap = fun _ => true from hheap] at hj
    cases hj
  have hsame : k.view.setInode s (some i) = k.view := by
    unfold State.setInode
    rw [← hopen, Function.update_eq_self]
  unfold Table.inodeWriteAt at hw
  rw [hi] at hw
  simp only [Option.bind_eq_bind, Option.bind_some] at hw
  rw [hsame] at hw
  obtain ⟨⟨n', st⟩, hst, hw⟩ := Option.bind_eq_some_iff.mp hw
  cases hw
  obtain ⟨hinv, hloc⟩ := inodeWriteAt_local h.kept.inv h0 hopen hcov hst
  obtain ⟨i', hi', hcnt'⟩ := inodeWriteAt_count h.kept.inv h0 hopen hcov hst
  obtain ⟨hcnt, hrefs⟩ := h.linked.refs a s i hi
  have hkept := h.kept.write h0 hopen hcov hpos hsize hoffset hst (.inr hf)
  have hbytes : k.wrote a buffer offset n' =
      if n' = 0 then k.bytes else update k.bytes s (laidOver (k.bytes s) buffer offset n') := by
    unfold Table.wrote
    rw [hi]
  rw [← hbytes] at hkept
  exact of_view (h.linked.update_entry hi rfl (by simp only [hi']; rfl) (fun _ _ => rfl)
    (hcnt'.trans hcnt) hrefs) (by rw [hloc.openInodes_eq, hi']) rfl hkept

theorem create (h : Good k) (hheap : k.files.heap = fun _ => true) {length : ℤ} {isDir added : Bool}
    (hp : offT length = length) (hc : k.inodeCreate length isDir added = some k') :
    Good { k' with
      bytes := fun s =>
        if k'.files.live s && !k.files.live s then List.replicate length.toNat 0 else k.bytes s } := by
  have hcov : Covered length k.view.heap := .inr fun j hj => by
    rw [show k.view.heap = fun _ => true from hheap] at hj
    cases hj
  obtain ⟨st, hst, rfl⟩ := Option.map_eq_some_iff.mp hc
  have hopen : st.openInodes = k.view.openInodes := by
    rcases filesysCreate_cases h.kept.inv hcov hst with ⟨ht, -⟩ | ⟨s, hs⟩
    · exact ht.openInodes
    · exact hs.takes.openInodes
  have hact : act (.create length isDir added) k.view = some st := by
    unfold Files.act
    dsimp only
    rw [if_pos hp, hst]
  have hkept := h.kept.create hcov hact
  have hview : ({ k with files := st } : Table).view = st := by
    rw [← show { st with openInodes := k.view.openInodes } = st by rw [← hopen]]
    rfl
  refine ⟨⟨h.linked.nodup, h.linked.mem, h.linked.sole, h.linked.refs, h.linked.freed⟩, ?_⟩
  change Kept ({ k with files := st } : Table).view _
  rw [hview]
  exact hkept

end Good

theorem Good.act {c : Call} (h : Good k) (hheap : k.files.heap = fun _ => true) (hp : k.Proper c)
    (hc : k.act c = some k') (hf : k'.files.allocFailed = false) : Good k' := by
  cases c with
  | create length isDir added =>
      obtain ⟨k₁, hk₁, rfl⟩ := Option.map_eq_some_iff.mp hc
      exact h.create hheap hp hk₁
  | «open» s a =>
      obtain ⟨hlive, h0, hn⟩ := hp
      obtain ⟨⟨r, k₁⟩, hk₁, rfl⟩ := Option.map_eq_some_iff.mp hc
      exact h.open (by rw [hheap]) hlive h0 hn hk₁
  | reopen a =>
      obtain ⟨s, i, hi, h0⟩ := h.inode_ne hp
      obtain ⟨k₁, hk₁, rfl⟩ := Option.map_eq_some_iff.mp hc
      exact h.reopen hi h0 hk₁
  | write a buffer size offset =>
      obtain ⟨⟨n, k₁⟩, hk₁, rfl⟩ := Option.map_eq_some_iff.mp hc
      exact h.write hheap hp hk₁ hf
  | remove a => exact h.remove hp hc
  | close a =>
      obtain ⟨k₁, hk₁, rfl⟩ := Option.map_eq_some_iff.mp hc
      exact h.close hp hk₁

theorem Good.step {c : Call} (h : Good k) (hp : k.Proper c) (hs : Table.step c k = some k') :
    Good k' := by
  obtain ⟨hc, hf⟩ := Option.filter_eq_some_iff.mp hs
  exact h.call.act rfl hp hc (by simpa using hf)

theorem good_format {disk : Sector → Block} {size : Sector} {heap : ℕ → Bool}
    (hf : Table.format disk size heap = some k) : Good k := by
  obtain ⟨st, hst, rfl⟩ := Option.map_eq_some_iff.mp hf
  obtain ⟨st₁, d, -, hc, -, hopen⟩ := format_created hst
  rw [← hc.takes.openInodes] at hopen
  have hi : st.openInodes 0 = some ⟨1, false, 0, d⟩ := by rw [hopen, Function.update_self]
  rw [hi, Option.map_some]
  have hin : ∀ a s i, update (fun _ => none : ℕ → Option (Sector × Inode)) 0
      (some (0, ⟨1, false, 0, d⟩)) a = some (s, i) ↔ a = 0 ∧ s = 0 ∧ i = ⟨1, false, 0, d⟩ := by
    intro a s i
    by_cases ha : a = 0
    · subst ha
      rw [Function.update_self]
      simp [eq_comm]
    · rw [Function.update_of_ne ha]
      simp [ha]
  have hlinked : Linked
      { files := st
        openInodes := [0]
        inodes := update (fun _ => none) 0 (some (0, ⟨1, false, 0, d⟩))
        refs := update (fun _ => 0) 0 1
        bytes := fun s => contents st.disk (st.dataOf s) } := by
    refine ⟨List.nodup_singleton 0, fun a => ?_, fun a b s i j ha hb => ?_, fun a s i ha => ?_,
      fun a ha => ?_⟩
    · by_cases ha : a = 0 <;> simp [ha]
    · rw [((hin a s i).mp ha).1, ((hin b s j).mp hb).1]
    · obtain ⟨rfl, -, rfl⟩ := (hin a s i).mp ha
      exact ⟨rfl, Nat.one_pos⟩
    · by_cases h0 : a = 0
      · have hsome := (hin a 0 ⟨1, false, 0, d⟩).mpr ⟨h0, rfl, rfl⟩
        exact nomatch hsome.symm.trans ha
      · exact Function.update_of_ne h0 1 fun _ => 0
  refine ⟨hlinked, ?_⟩
  rw [Table.view_eq st hlinked.sole' rfl fun t i => ?_]
  · exact kept_format hst
  · rw [hopen]
    constructor
    · intro ht
      have h0 : t = 0 := by
        by_contra h0
        rw [Function.update_of_ne h0] at ht
        cases ht
      subst h0
      rw [Function.update_self] at ht
      exact ⟨0, List.mem_singleton_self 0, (hin 0 0 i).mpr ⟨rfl, rfl, (Option.some.inj ht).symm⟩⟩
    · rintro ⟨a, -, ha⟩
      obtain ⟨-, rfl, rfl⟩ := (hin a t i).mp ha
      exact Function.update_self ..

/-- **Openers of one file share one inode.**  In every run of calls in which each address is used
until it is closed and no allocation fails, `open_inodes` has at most one entry for a sector; the
inode at an address is in the list, and in memory, exactly as long as some address of it has not
been closed, and counts these; it is the same in its sector; and a read through any address gives
the bytes that all the writes to the file have put there. -/
theorem open_inodes {disk : Sector → Block} {size : Sector} {heap : ℕ → Bool} {k₀ : Table}
    (hf : Table.format disk size heap = some k₀)
    (hr : Reachable Table.step Table.Proper k₀ k) :
    (k.openInodes.map fun a => (k.inodes a).map Prod.fst).Nodup ∧
    (∀ a, (a ∈ k.openInodes ↔ 0 < k.refs a) ∧ ((k.inodes a).isSome ↔ 0 < k.refs a)) ∧
    ∀ a s i, k.inodes a = some (s, i) → i.openCnt = k.refs a ∧ (s ≠ 0 →
      k.files.disk s = i.data.toBlock ∧
      ∀ size offset, { k with files := k.files.call fun _ => true }.inodeReadAt a size offset =
        some (((k.bytes s).drop offset).take size.toNat)) := by
  have h : Good k := hr.invariant (good_format hf) fun _ _ _ _ h hp hs => h.step hp hs
  have hiff : ∀ a, (k.inodes a).isSome ↔ 0 < k.refs a := by
    intro a
    cases hi : k.inodes a with
    | none => simp [h.linked.freed a hi]
    | some p => simp [(h.linked.refs a p.1 p.2 hi).2]
  refine ⟨?_, fun a => ⟨(h.linked.mem a).trans (hiff a), hiff a⟩, fun a s i hi => ?_⟩
  · refine h.linked.nodup.map_on fun a ha b hb heq => ?_
    obtain ⟨⟨s, i⟩, hi⟩ := Option.isSome_iff_exists.mp ((h.linked.mem a).mp ha)
    obtain ⟨⟨t, j⟩, hj⟩ := Option.isSome_iff_exists.mp ((h.linked.mem b).mp hb)
    rw [hi, hj] at heq
    obtain rfl : s = t := Option.some.inj heq
    exact h.linked.sole a b s i j hi hj
  · have hopen := h.linked.view_open hi
    have hlive := h.kept.inv.opened s i hopen
    refine ⟨(h.linked.refs a s i hi).1, fun h0 => ⟨?_, fun size offset => ?_⟩⟩
    · have hs := h.kept.stored s hlive h0
      rw [dataOf_open hopen] at hs
      exact hs
    · have hb := h.kept.contents s hlive h0
      rw [dataOf_open hopen] at hb
      rw [← hb]
      unfold Table.inodeReadAt
      rw [hi]
      exact congrArg some (inodeReadAt_eq k.files i size offset)

/-- A file is opened twice and written; after both are closed it is opened again. -/
def reopening : List Call :=
  [.create 0 false true, .open 4 1, .open 4 2, .write 1 (fun _ => 7) 2 1, .close 1, .close 1, .open 4 3]

theorem open_inodes_reopened : ∃ k₀ k, Table.format (fun _ => zeros) 40 (fun _ => true) = some k₀ ∧
    Reachable Table.step Table.Proper k₀ k ∧ k.openInodes = [3, 0] ∧ k.refs 3 = 1 ∧
    { k with files := k.files.call fun _ => true }.inodeReadAt 3 8 0 = some [0, 7, 7] := by
  have h : ((Table.format (fun _ => zeros) 40 fun _ => true).bind fun k₀ =>
      (execute (checked (fun k c => decide (k.Proper c)) Table.step) reopening k₀).map fun k =>
        (k.openInodes, k.refs 3, (k.inodes 3).map Prod.fst, k.bytes 4)) =
      some ([3, 0], 1, some 4, [0, 7, 7]) := by
    decide +kernel
  obtain ⟨k₀, h₀, h⟩ := Option.bind_eq_some_iff.mp h
  obtain ⟨k, h, hfacts⟩ := Option.map_eq_some_iff.mp h
  simp only [Prod.mk.injEq] at hfacts
  obtain ⟨hlist, hrefs, hsector, hbytes⟩ := hfacts
  obtain ⟨⟨s, i⟩, hi, hs⟩ := Option.map_eq_some_iff.mp hsector
  obtain rfl : s = 4 := hs
  obtain ⟨hist, hrun⟩ := execute_reachable (G := fun _ _ => True) (fun _ _ _ => trivial) .refl h
  have hr : Reachable Table.step Table.Proper k₀ k :=
    ⟨hist, hrun.of_checked.mono fun _ _ hg => of_decide_eq_true hg.1⟩
  obtain ⟨-, -, hin⟩ := open_inodes h₀ hr
  refine ⟨k₀, k, h₀, hr, hlist, hrefs, ?_⟩
  rw [((hin 3 4 i hi).2 (by decide)).2 8 0, hbytes]
  rfl

end CSE130.Lab3.Files
