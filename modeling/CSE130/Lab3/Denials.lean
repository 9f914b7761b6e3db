import CSE130.Lab3.FileLifetimes

/-! # The functions of `file.c` in any order

A file object has a flag `deny_write`, and its inode has a counter `deny_write_cnt`.  Here the
functions of `file.c` are called any number of times and in any order, on any number of file
objects.  Every reference to an inode is in a file object or with whoever has called `inode_open`
and not yet passed it on to `file_open` or `inode_close`.

The counter is the number of flags that are set (`denials_counted`), so the assertions in
`inode_deny_write` and `inode_allow_write` hold. -/

namespace CSE130.Lab3.OpenFiles

open Files
open Transition
open Function (update)

namespace Kernel

variable (k : Kernel)

/-- `file_reopen`, with `inode_reopen`. -/
def fileReopen (a b : ℕ) : Option (Option ℕ × Kernel) := do
  let s := (k.file a).inode
  let i ← k.fs.openInodes s
  fileOpen { k with fs := k.fs.setInode s (some { i with openCnt := i.openCnt + 1 }) } none s b

/-- `file_write_at`. -/
def fileWriteAt (a : ℕ) (buffer : ℕ → UInt8) (size : ℤ) (ofs : ℕ) : Option Kernel :=
  (k.fs.inodeWriteAt (k.file a).inode buffer size ofs).map fun (_, st) => { k with fs := st }

end Kernel

/-- The kernel, and the references that `inode_open` has returned and that nobody has passed on;
the latter are only recorded. -/
structure Users where
  kernel : Kernel
  held : Sector → ℕ

/-- The calls.  `file_open` gets an inode or a null pointer. -/
inductive FileCall where
  | inodeOpen (s : Sector)
  | inodeClose (s : Sector)
  | inodeRemove (s : Sector)
  | fileOpen (inode : Option Sector) (a : ℕ)
  | fileReopen (a b : ℕ)
  | fileDenyWrite (a : ℕ)
  | fileAllowWrite (a : ℕ)
  | fileWrite (a : ℕ) (buffer : ℕ → UInt8) (size : ℤ)
  | fileWriteAt (a : ℕ) (buffer : ℕ → UInt8) (size : ℤ) (ofs : ℕ)
  | fileClose (a : ℕ)

namespace Users

variable (u : Users)

/-- A call that leaves the references with their holders. -/
def onKernel (k : Option Kernel) : Option Users := k.map fun k => ⟨k, u.held⟩

/-- One call.  A file object is used while it is allocated, and a reference by who holds it. -/
def call : FileCall → Option Users
  | .inodeOpen s =>
      let (ok, st) := u.kernel.fs.inodeOpen s
      some ⟨{ u.kernel with fs := st }, if ok then update u.held s (u.held s + 1) else u.held⟩
  | .inodeClose s =>
      if 0 < u.held s then
        (u.kernel.fs.inodeClose s).map fun st =>
          ⟨{ u.kernel with fs := st }, update u.held s (u.held s - 1)⟩
      else none
  | .inodeRemove s => (u.kernel.fs.inodeRemove s).map fun st => ⟨{ u.kernel with fs := st }, u.held⟩
  | .fileOpen none _ => some ⟨{ u.kernel with fs := u.kernel.fs.malloc.2 }, u.held⟩
  | .fileOpen (some s) a =>
      if 0 < u.held s ∧ a ∉ u.kernel.files then
        (u.kernel.fileOpen none s a).map fun (_, k) => ⟨k, update u.held s (u.held s - 1)⟩
      else none
  | .fileReopen a b =>
      if a ∈ u.kernel.files ∧ b ∉ u.kernel.files then
        u.onKernel ((u.kernel.fileReopen a b).map Prod.snd)
      else none
  | .fileDenyWrite a =>
      if a ∈ u.kernel.files then u.onKernel (u.kernel.fileDenyWrite a) else none
  | .fileAllowWrite a =>
      if a ∈ u.kernel.files then u.onKernel (u.kernel.fileAllowWrite a) else none
  | .fileWrite a buffer size =>
      if a ∈ u.kernel.files then u.onKernel (u.kernel.fileWrite a buffer size) else none
  | .fileWriteAt a buffer size ofs =>
      if a ∈ u.kernel.files then u.onKernel (u.kernel.fileWriteAt a buffer size ofs) else none
  | .fileClose a =>
      if a ∈ u.kernel.files then u.onKernel (u.kernel.fileClose a) else none

/-- One call, with the answers of `malloc`. -/
def step (x : FileCall × (ℕ → Bool)) (u : Users) : Option Users :=
  call ⟨u.kernel.answer x.2, u.held⟩ x.1

/-- After `inode_init`. -/
def start (st : Files.State) : Users where
  kernel := { boot st with fs := { st with openInodes := fun _ => none } }
  held _ := 0

end Users

/-- What `inode_write_at` does behind its test of `deny_write_cnt`. -/
def writeOpen (st : Files.State) (s : Sector) (i : Inode) (buffer : ℕ → UInt8) (size : ℤ)
    (offset : ℕ) : Option (ℕ × Files.State) := do
  let (ok, i, st) ← st.inodeExtend s i size offset
  if ok then
    let (m, n) := writeLoop i.data (st.heap 0) buffer size.toNat st.disk size offset 0
    some (n, { st with
      disk := m
      heap := fun k => st.heap (k + 1)
      allocFailed := st.allocFailed || needsBounce i.data size.toNat size offset && !st.heap 0 })
  else some (0, st)

/-- The counters and the flags agree, and no assertion about them fails. -/
structure DenialsCounted (k : Kernel) : Prop where
  /-- `deny_write_cnt` is the number of the flags that are set. -/
  counted : ∀ s i, k.fs.openInodes s = some i → i.denyWriteCnt = k.denying s
  bounded : ∀ s i, k.fs.openInodes s = some i → i.denyWriteCnt ≤ i.openCnt
  /-- The inode of a file object is open. -/
  live : ∀ a ∈ k.files, ∃ i, k.fs.openInodes (k.file a).inode = some i
  deny : ∀ a ∈ k.files, (k.fileDenyWrite a).isSome = true
  allow : ∀ a ∈ k.files, (k.fileAllowWrite a).isSome = true
  /-- A write is refused if one of the flags is set, and goes on otherwise. -/
  refused : ∀ s i buffer size offset, k.fs.openInodes s = some i →
    k.fs.inodeWriteAt s buffer size offset =
      if 0 < k.denying s then some (0, k.fs) else writeOpen k.fs s i buffer size offset

variable {k k' : Kernel} {held : Sector → ℕ} {u u' : Users} {s t : Sector} {a b : ℕ}
  {st st' : Files.State}

/-! ### The books -/

/-- Every reference is accounted for, and so is every denial. -/
structure Books (k : Kernel) (held : Sector → ℕ) : Prop where
  nodup : k.files.Nodup
  denials : ∀ s, k.fs.denials s = k.denying s
  opens : ∀ s, k.fs.opens s = k.refs s + held s

theorem denying_le_refs (k : Kernel) (s : Sector) : k.denying s ≤ k.refs s :=
  List.countP_mono_left fun a _ h => by
    simp only [decide_eq_true_eq] at h ⊢
    exact h.1

theorem refs_pos (ha : a ∈ k.files) : 0 < k.refs (k.file a).inode :=
  List.countP_pos_iff.mpr ⟨a, ha, by simp⟩

/-- A flag that is not set leaves room for one more denial. -/
theorem denying_lt_refs (ha : a ∈ k.files) (hd : (k.file a).denyWrite = false) :
    k.denying (k.file a).inode < k.refs (k.file a).inode := by
  have hrest : (k.files.erase a).countP
      (fun b => (k.file b).inode = (k.file a).inode ∧ (k.file b).denyWrite = true) ≤
        (k.files.erase a).countP fun b => (k.file b).inode = (k.file a).inode :=
    List.countP_mono_left fun b _ h => by
      simp only [decide_eq_true_eq] at h ⊢
      exact h.1
  unfold Kernel.denying Kernel.refs
  rw [← countP_erase_add ha, ← countP_erase_add (B := fun b => decide ((k.file b).inode = _)) ha]
  simp only [hd, Bool.false_eq_true, and_false, decide_false, if_false, decide_true, if_true]
  omega

theorem denying_pos (ha : a ∈ k.files) (hd : (k.file a).denyWrite = true) :
    0 < k.denying (k.file a).inode :=
  List.countP_pos_iff.mpr ⟨a, ha, by simp [hd]⟩

namespace Books

theorem bounded (h : Books k held) (s : Sector) : k.fs.denials s ≤ k.fs.opens s := by
  have := denying_le_refs k s
  rw [h.denials, h.opens]
  omega

theorem spare (h : Books k held) (hs : 0 < held s) :
    k.fs.opens s ≠ 0 ∧ (k.fs.opens s = 1 → k.fs.denials s = 0) := by
  have hle := denying_le_refs k s
  have hopens := h.opens s
  rw [h.denials]
  exact ⟨by omega, by omega⟩

theorem same (h : Books k held) (hb : SameBooks k k') : Books k' held where
  nodup := hb.files ▸ h.nodup
  denials s := by rw [hb.counts.denials, h.denials, hb.denying]
  opens s := by rw [hb.counts.opens, h.opens, hb.refs]

/-- The references change hands, or their number changes with what is held. -/
theorem shifted {held' : Sector → ℕ} (h : Books k held) (hfiles : k'.files = k.files)
    (hfile : k'.file = k.file) (hd : ∀ t, k'.fs.denials t = k.fs.denials t)
    (ho : ∀ t, k'.fs.opens t + held t = k.fs.opens t + held' t) : Books k' held' where
  nodup := hfiles ▸ h.nodup
  denials t := by
    unfold Kernel.denying
    rw [hd, h.denials, hfiles, hfile]
    rfl
  opens t := by
    have hrefs : k'.refs t = k.refs t := by
      unfold Kernel.refs
      rw [hfiles, hfile]
    have := ho t
    have := h.opens t
    omega

end Books

/-! ### The calls -/

theorem held_update (t : Sector) (n : ℕ) :
    update held s n t = if t = s then n else held t := Function.update_apply ..

theorem inodeOpen_books {ok : Bool} (h : Books k held) (ho : k.fs.inodeOpen s = (ok, st)) :
    Books { k with fs := st } (if ok then update held s (held s + 1) else held) := by
  obtain ⟨hopens, hdenials⟩ := inodeOpen_counts ho
  refine h.shifted rfl rfl hdenials fun t => ?_
  dsimp only
  rw [hopens]
  cases ok with
  | false => simp
  | true =>
      rw [if_pos rfl, held_update]
      by_cases ht : t = s
      · subst ht
        simp only [true_and, if_true]
        omega
      · simp [ht]

theorem inodeClose_books (h : Books k held) (hs : 0 < held s) (hc : k.fs.inodeClose s = some st) :
    Books { k with fs := st } (update held s (held s - 1)) := by
  obtain ⟨hne, hlast⟩ := h.spare hs
  obtain ⟨hopens, hdenials⟩ := inodeClose_counts hc hne hlast
  refine h.shifted rfl rfl hdenials fun t => ?_
  have ht := hopens t
  rw [held_update]
  dsimp only
  split_ifs at ht ⊢ with hts
  · subst hts
    omega
  · omega

/-- `file_open` takes a reference over, or closes it. -/
theorem fileOpen_books {f : Option ℕ} (h : Books k held) (hs : 0 < held s) (hfresh : a ∉ k.files)
    (ho : k.fileOpen none s a = some (f, k')) : Books k' (update held s (held s - 1)) := by
  have hm : SameCounts k.fs k.fs.malloc.2 := .of_eq (malloc_only k.fs).openInodes
  unfold Kernel.fileOpen at ho
  dsimp only at ho
  split_ifs at ho with hmem
  · cases ho
    refine ⟨List.nodup_cons.mpr ⟨hfresh, h.nodup⟩, fun t => ?_, fun t => ?_⟩
    · rw [denying_cons hfresh rfl rfl]
      exact (hm.denials t).trans (h.denials t)
    · rw [refs_cons hfresh rfl rfl, held_update]
      refine (hm.opens t).trans ((h.opens t).trans ?_)
      split_ifs with hts
      · subst hts
        omega
      · rfl
  · obtain ⟨st, hc, he⟩ := Option.map_eq_some_iff.mp ho
    cases he
    have hsame : Books { k with fs := k.fs.malloc.2 } held := h.same (.of_counts hm)
    have hdone := inodeClose_books hsame hs hc
    exact hdone

theorem fileReopen_books {f : Option ℕ} (h : Books k held) (hfresh : b ∉ k.files)
    (ho : k.fileReopen a b = some (f, k')) : Books k' held := by
  obtain ⟨i, hi, ho⟩ := Option.bind_eq_some_iff.mp ho
  have hopen : k.fs.inodeOpen (k.file a).inode =
      (true, k.fs.setInode (k.file a).inode (some { i with openCnt := i.openCnt + 1 })) := by
    unfold State.inodeOpen
    rw [hi]
  have hbooks := inodeOpen_books h hopen
  rw [if_pos rfl] at hbooks
  have hdone := fileOpen_books hbooks (by rw [Function.update_self]; omega) hfresh ho
  rwa [Function.update_self, Nat.add_sub_cancel, Function.update_idem,
    Function.update_eq_self] at hdone

/-- A flag is set or cleared, and the counter moves with it. -/
theorem flag_books {v : Bool} (h : Books k held) (ha : a ∈ k.files)
    (hv : (k.file a).denyWrite = !v) (hopens : ∀ t, st.opens t = k.fs.opens t)
    (hdenials : ∀ t, st.denials t + (if t = (k.file a).inode ∧ v = false then 1 else 0) =
      k.fs.denials t + if t = (k.file a).inode ∧ v = true then 1 else 0) :
    Books { k with fs := st, file := update k.file a { k.file a with denyWrite := v } } held := by
  have hinode : ∀ c, (update k.file a { k.file a with denyWrite := v } c).inode =
      (k.file c).inode := fun c => by
    rw [Function.update_apply]
    split_ifs with hc
    · rw [hc]
    · rfl
  refine ⟨h.nodup, fun t => ?_, fun t => ?_⟩
  · have hother : ∀ c, c ≠ a →
        decide ((update k.file a { k.file a with denyWrite := v } c).inode = t ∧
          (update k.file a { k.file a with denyWrite := v } c).denyWrite = true) =
        decide ((k.file c).inode = t ∧ (k.file c).denyWrite = true) := fun c hc => by
      rw [Function.update_of_ne hc]
    have hchange := countP_change h.nodup ha hother
    have ht := hdenials t
    have hbefore := h.denials t
    unfold Kernel.denying at hbefore ⊢
    simp only [Function.update_self, hv, @eq_comm _ t, decide_eq_true_eq] at hchange ht ⊢
    cases v with
    | false =>
        simp only [Bool.not_false, and_true, Bool.false_eq_true, and_false, if_false] at hchange ht
        omega
    | true =>
        simp only [Bool.not_true, and_true, Bool.true_eq_false, Bool.false_eq_true, and_false,
          if_false] at hchange ht
        omega
  · unfold Kernel.refs
    simp only [hinode]
    rw [hopens]
    exact h.opens t

theorem fileDenyWrite_books (h : Books k held) (ha : a ∈ k.files)
    (hd : k.fileDenyWrite a = some k') : Books k' held := by
  unfold Kernel.fileDenyWrite at hd
  split_ifs at hd with hflag
  · cases hd
    exact h
  · obtain ⟨st, hst, rfl⟩ := Option.map_eq_some_iff.mp hd
    obtain ⟨hopens, hdenials⟩ := inodeDenyWrite_counts hst
    refine flag_books h ha (by simpa using hflag) hopens fun t => ?_
    simp [hdenials]

theorem fileAllowWrite_books (h : Books k held) (ha : a ∈ k.files)
    (hd : k.fileAllowWrite a = some k') : Books k' held := by
  unfold Kernel.fileAllowWrite at hd
  split_ifs at hd with hflag
  · obtain ⟨st, hst, rfl⟩ := Option.map_eq_some_iff.mp hd
    obtain ⟨hopens, hdenials⟩ := inodeAllowWrite_counts hst
    refine flag_books h ha (by simpa using hflag) hopens fun t => ?_
    simpa using hdenials t
  · cases hd
    exact h

theorem fileAllowWrite_files (hd : k.fileAllowWrite a = some k') :
    k'.files = k.files ∧ (k'.file a).inode = (k.file a).inode ∧ (k'.file a).denyWrite = false := by
  unfold Kernel.fileAllowWrite at hd
  split_ifs at hd with hflag
  · obtain ⟨st, hst, rfl⟩ := Option.map_eq_some_iff.mp hd
    dsimp only
    rw [Function.update_self]
    exact ⟨rfl, rfl, rfl⟩
  · cases hd
    exact ⟨rfl, rfl, by simpa using hflag⟩

theorem fileClose_books (h : Books k held) (ha : a ∈ k.files) (hc : k.fileClose a = some k') :
    Books k' held := by
  obtain ⟨k₁, hallow, hc⟩ := Option.bind_eq_some_iff.mp hc
  have h₁ := fileAllowWrite_books h ha hallow
  obtain ⟨hfiles, -, hflag⟩ := fileAllowWrite_files hallow
  have ha₁ : a ∈ k₁.files := hfiles ▸ ha
  obtain ⟨st, hst, he⟩ := Option.bind_eq_some_iff.mp hc
  cases he
  have hlt := denying_lt_refs ha₁ hflag
  have hopens := h₁.opens (k₁.file a).inode
  obtain ⟨ho, hd⟩ := inodeClose_counts hst (by omega) fun hone => by
    rw [h₁.denials]
    omega
  let k₂ : Kernel := { k₁ with fs := st, files := k₁.files.erase a }
  have herase : k₂.files = k₁.files.erase a := rfl
  have hfile : k₂.file = k₁.file := rfl
  refine ⟨h₁.nodup.erase a, fun t => ?_, fun t => ?_⟩
  · exact (hd t).trans ((h₁.denials t).trans (denying_erase ha₁ herase hfile hflag t).symm)
  · have hrefs := refs_erase ha₁ herase hfile t
    have hbefore := h₁.opens t
    have ht := ho t
    change st.opens t = k₂.refs t + held t
    omega

theorem onKernel_eq {o : Option Kernel} {c : Prop} [Decidable c]
    (h : (if c then u.onKernel o else none) = some u') :
    c ∧ o = some u'.kernel ∧ u'.held = u.held := by
  split_ifs at h with hc
  obtain ⟨k, ho, rfl⟩ := Option.map_eq_some_iff.mp h
  exact ⟨hc, ho, rfl⟩

theorem call_books {x : FileCall} (h : Books u.kernel u.held) (hc : u.call x = some u') :
    Books u'.kernel u'.held := by
  cases x with
  | inodeOpen s =>
      cases hc
      exact inodeOpen_books h rfl
  | inodeClose s =>
      unfold Users.call at hc
      dsimp only at hc
      split_ifs at hc with hs
      obtain ⟨st, hst, rfl⟩ := Option.map_eq_some_iff.mp hc
      exact inodeClose_books h hs hst
  | inodeRemove s =>
      obtain ⟨st, hst, rfl⟩ := Option.map_eq_some_iff.mp hc
      exact h.same (.of_counts (inodeRemove_counts hst))
  | fileOpen inode a =>
      cases inode with
      | none =>
          cases hc
          exact h.same (.of_counts (.of_eq (malloc_only u.kernel.fs).openInodes))
      | some s =>
          unfold Users.call at hc
          dsimp only at hc
          split_ifs at hc with hs
          obtain ⟨⟨f, k⟩, ho, rfl⟩ := Option.map_eq_some_iff.mp hc
          exact fileOpen_books h hs.1 hs.2 ho
  | fileReopen a b =>
      obtain ⟨⟨-, hb⟩, ho, hheld⟩ := onKernel_eq hc
      obtain ⟨⟨f, k⟩, ho, he⟩ := Option.map_eq_some_iff.mp ho
      rw [hheld, ← he]
      exact fileReopen_books h hb ho
  | fileDenyWrite a =>
      obtain ⟨ha, hd, hheld⟩ := onKernel_eq hc
      rw [hheld]
      exact fileDenyWrite_books h ha hd
  | fileAllowWrite a =>
      obtain ⟨ha, hd, hheld⟩ := onKernel_eq hc
      rw [hheld]
      exact fileAllowWrite_books h ha hd
  | fileWrite a buffer size =>
      obtain ⟨-, hw, hheld⟩ := onKernel_eq hc
      rw [hheld]
      exact h.same (fileWrite_same hw).2
  | fileWriteAt a buffer size ofs =>
      obtain ⟨-, hw, hheld⟩ := onKernel_eq hc
      obtain ⟨⟨n, st⟩, hw, he⟩ := Option.map_eq_some_iff.mp hw
      rw [hheld, ← he]
      exact h.same (.of_counts (inodeWriteAt_counts hw))
  | fileClose a =>
      obtain ⟨ha, hd, hheld⟩ := onKernel_eq hc
      rw [hheld]
      exact fileClose_books h ha hd

theorem start_books (st : Files.State) : Books (Users.start st).kernel (Users.start st).held where
  nodup := List.nodup_nil
  denials _ := rfl
  opens _ := rfl

theorem Books.counted (h : Books k held) : DenialsCounted k where
  counted s i hi := by rw [← denials_of_open hi, h.denials]
  bounded s i hi := by
    have := h.bounded s
    rwa [denials_of_open hi, opens_of_open hi] at this
  live a ha := by
    refine open_of_opens ?_
    have := refs_pos ha
    rw [h.opens]
    omega
  deny a ha := by
    unfold Kernel.fileDenyWrite
    split_ifs with hflag
    · rfl
    · have hlt := denying_lt_refs ha (by simpa using hflag)
      rw [Option.isSome_map]
      refine inodeDenyWrite_isSome ?_
      rw [h.denials, h.opens]
      omega
  allow a ha := by
    unfold Kernel.fileAllowWrite
    split_ifs with hflag
    · have hpos := denying_pos ha hflag
      have hle := h.bounded (k.file a).inode
      rw [← h.denials] at hpos
      obtain ⟨i, hi⟩ := open_of_denials hpos.ne'
      rw [denials_of_open hi] at hpos hle
      rw [opens_of_open hi] at hle
      rw [Option.isSome_map]
      unfold State.inodeAllowWrite
      rw [hi]
      dsimp only
      rw [if_pos ⟨hpos, hle⟩]
      rfl
    · rfl
  refused s i buffer size offset hi := by
    unfold State.inodeWriteAt writeOpen
    rw [hi, ← h.denials, denials_of_open hi]
    simp only [Nat.pos_iff_ne_zero]

/-- The counter of denials is the number of file objects that deny writes, whatever is called in
whatever order. -/
theorem denials_counted (hr : Reachable Users.step (fun _ _ => True) (Users.start st) u) :
    DenialsCounted u.kernel := by
  have hbooks : Books u.kernel u.held := by
    refine hr.invariant (I := fun u => Books u.kernel u.held) (start_books st) ?_
    intro u x u' _ hi _ hs
    have hanswer : Books (u.kernel.answer x.2) u.held := hi.same (sameBooks_answer _ _)
    exact call_books hanswer hs
  exact hbooks.counted

/-- A file is opened twice, both file objects deny writes, one of them twice, and it is closed. -/
theorem denials_counted_twice : ∃ u,
    execute Users.step ([.inodeOpen 2, .fileOpen (some 2) 100, .fileReopen 100 101,
      .fileDenyWrite 100, .fileDenyWrite 100, .fileDenyWrite 101, .fileClose 100].map
        fun x => (x, plenty)) (Users.start emptyDisk) = some u ∧
    u.kernel.files = [101] ∧ u.kernel.denying 2 = 1 ∧ DenialsCounted u.kernel := by
  have hex : (execute Users.step ([.inodeOpen 2, .fileOpen (some 2) 100, .fileReopen 100 101,
      .fileDenyWrite 100, .fileDenyWrite 100, .fileDenyWrite 101, .fileClose 100].map
        fun x => (x, plenty)) (Users.start emptyDisk)).map
        (fun u => (u.kernel.files, u.kernel.denying 2)) = some ([101], 1) := by rfl
  obtain ⟨u, hu, hv⟩ := Option.map_eq_some_iff.mp hex
  simp only [Prod.mk.injEq] at hv
  exact ⟨u, hu, hv.1, hv.2, denials_counted (execute_reachable (fun _ _ _ => trivial) .refl hu)⟩

end CSE130.Lab3.OpenFiles
