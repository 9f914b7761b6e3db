import CSE130.Lab3.Fsutil
import CSE130.Lab3.UserFiles
import CSE130.Lab3.Components
import CSE130.Lab3.Creation
import CSE130.Lab3.ElfLoad

/-! # Archives and the kernel's file system

The calls of `fsutil.c` are those of `filesys.c`, on the paths of the kernel's thread, which has no working
directory.  `places` shows the files in a set of directories that are there from the beginning: the names may
go through any of them, but each file has one name only (`Places`).  What `fsutil_append` and
`fsutil_extract` do with any file system is `archive_round_trip_iff`. -/

namespace CSE130.Lab3.Archives

open Files
open Fsutil (FileSystem View FileMap File)
open Ustar (intMax)
open Function (update)

/-- The file system of the kernel; `stack` is what is on the stack of `dir_add`.  The position of an open file
is not part of its inode. -/
def fileSystem (stack : State → List UInt8 → DirEntry) : FileSystem State Sector where
  malloc := State.malloc
  filesysCreate name initialSize st := Paths.filesysCreate st none name initialSize false (stack st name)
  filesysOpen name st := Paths.filesysOpen st none name
  fileLength s st := (st.dataOf s).length
  fileRead s size pos st := (st.openInodes s).map fun i =>
    (st.inodeReadAt i size pos, { st with heap := fun k => st.heap (k + 1) })
  fileWrite s buffer pos st := st.inodeWriteAt s (fun x => buffer.getD x 0) buffer.length pos
  fileClose s st := st.inodeClose s

/-- The name of a path in its directory. -/
def base (path : List UInt8) : Name := (splitPathFilename path).2

/-- Directories, and paths that lead through them to files, each to another one. -/
structure Places where
  dirs : Set Sector
  names : Set (List UInt8)
  dirOf : List UInt8 → Sector
  root : rootDirSector ∈ dirs
  mem : ∀ p ∈ names, dirOf p ∈ dirs
  plain : ∀ p ∈ names, p ≠ [] ∧ base p ≠ [] ∧ base p ≠ dot ∧ base p ≠ dotDot ∧ (0 : UInt8) ∉ base p
  inj : ∀ p ∈ names, ∀ q ∈ names, dirOf p = dirOf q → base p = base q → p = q

variable {P : Places} {st st' st₁ : State} {s t d d' dir : Sector} {i i' : Inode} {name : Name}
  {p q : List UInt8} {stack : State → List UInt8 → DirEntry}

/-! ### Where names lead -/

/-- The names lead from `d` to `d'`, through `dirs` only. -/
def Through (dirs : Set Sector) (st : State) : Sector → List Name → Sector → Prop
  | d, [], d' => d = d'
  | d, token :: rest, d' => ∃ x ∈ dirs, target st d token = some x ∧ Through dirs st x rest d'

theorem Through.follow {dirs : Set Sector} {l : List Name} (h : Through dirs st d l d') :
    follow st d l = some d' := by
  induction l generalizing d with
  | nil => exact congrArg some h
  | cons token rest ih =>
      obtain ⟨x, -, ht, h⟩ := h
      unfold Files.follow
      rw [ht, Option.bind_some]
      exact ih h

theorem Through.mono {dirs : Set Sector} {l : List Name} (hd : d ∈ dirs)
    (ht : ∀ d ∈ dirs, ∀ token x, target st d token = some x → target st' d token = some x)
    (h : Through dirs st d l d') : Through dirs st' d l d' := by
  induction l generalizing d with
  | nil => exact h
  | cons token rest ih =>
      obtain ⟨x, hx, htarget, h⟩ := h
      exact ⟨x, hx, ht d hd token x htarget, ih hx h⟩

/-- The file that a path leads to. -/
def fileAt (P : Places) (st : State) (path : List UInt8) : Option Sector :=
  target st (P.dirOf path) (base path)

theorem fileAt_eq (hp : p ∈ P.names) : fileAt P st p =
    (entryOf (contents st.disk (st.dataOf (P.dirOf p))) (base p)).map fun k =>
      (entryAt (contents st.disk (st.dataOf (P.dirOf p))) k).inodeSector := by
  obtain ⟨-, -, hdot, hdots, -⟩ := P.plain p hp
  rw [fileAt, target_eq, if_neg hdot, if_neg hdots]

/-- What holds of the file system: the directories are there, with their slots 0 in use, and each path leads
to a file of its own or to none. -/
structure InOrder (P : Places) (st : State) : Prop where
  healthy : Healthy st
  clean : Clean st
  steady : Steady st.heap
  kept : ∀ s i, st.openInodes s = some i → i.removed = false
  dirs : ∀ d ∈ P.dirs, IsFile st d ∧ freeSlot (contents st.disk (st.dataOf d)) ≠ 0
  paths : ∀ p ∈ P.names, Through P.dirs st rootDirSector (Files.tokens (splitPathFilename p).1) (P.dirOf p)
  file : ∀ p ∈ P.names, ∀ s, fileAt P st p = some s → IsFile st s ∧ s ∉ P.dirs
  distinct : ∀ p ∈ P.names, ∀ q ∈ P.names, ∀ s, fileAt P st p = some s → fileAt P st q = some s → p = q

theorem InOrder.pathDir (h : InOrder P st) (hp : p ∈ P.names) :
    pathDir st none (splitPathFilename p).1 = some (P.dirOf p) := by
  unfold Files.pathDir
  rw [Option.getD_none, ite_self]
  exact (h.paths p hp).follow

theorem InOrder.resolve (h : InOrder P st) (hp : p ∈ P.names) : resolve st none p = fileAt P st p := by
  unfold Files.resolve
  rw [h.pathDir hp, Option.bind_some]
  exact if_neg (P.plain p hp).2.1

/-- A step that changes no directory. -/
structure Still (P : Places) (st st' : State) : Prop where
  healthy : Healthy st'
  clean : Clean st'
  steady : Steady st'.heap
  kept : ∀ s i, st'.openInodes s = some i → i.removed = false
  live : ∀ t, st.live t = true → st'.live t = true
  dirs : ∀ d ∈ P.dirs, contents st'.disk (st'.dataOf d) = contents st.disk (st.dataOf d)

theorem Still.fileAt (h : Still P st st') (hp : p ∈ P.names) : fileAt P st' p = fileAt P st p :=
  target_congr (h.dirs _ (P.mem p hp))

theorem InOrder.still (h : InOrder P st) (hs : Still P st st') : InOrder P st' where
  healthy := hs.healthy
  clean := hs.clean
  steady := hs.steady
  kept := hs.kept
  dirs d hd := by
    obtain ⟨⟨hlive, h0⟩, hslot⟩ := h.dirs d hd
    exact ⟨⟨hs.live d hlive, h0⟩, by rw [hs.dirs d hd]; exact hslot⟩
  paths p hp := by
    refine (h.paths p hp).mono P.root fun d hd token x hx => ?_
    rw [target_congr (hs.dirs d hd), hx]
  file p hp s hfile := by
    rw [hs.fileAt hp] at hfile
    obtain ⟨⟨hlive, h0⟩, hnot⟩ := h.file p hp s hfile
    exact ⟨⟨hs.live s hlive, h0⟩, hnot⟩
  distinct p hp q hq s hfile hfile' := by
    rw [hs.fileAt hp] at hfile
    rw [hs.fileAt hq] at hfile'
    exact h.distinct p hp q hq s hfile hfile'

open Classical in
/-- The contents of the files. -/
noncomputable def fileMap (P : Places) (st : State) : FileMap := fun p =>
  if p ∈ P.names then (fileAt P st p).map fun s => contents st.disk (st.dataOf s) else none

theorem fileMap_eq (hp : p ∈ P.names) :
    fileMap P st p = (fileAt P st p).map fun s => contents st.disk (st.dataOf s) := if_pos hp

/-- No file is changed either. -/
theorem InOrder.fileMap_still (h : InOrder P st) (hs : Still P st st')
    (hcontents : ∀ t, IsFile st t → contents st'.disk (st'.dataOf t) = contents st.disk (st.dataOf t)) :
    fileMap P st' = fileMap P st := by
  funext p
  unfold fileMap
  split_ifs with hp
  · rw [hs.fileAt hp]
    cases hfile : fileAt P st p with
    | none => rfl
    | some s => exact congrArg some (hcontents s (h.file p hp s hfile).1)
  · rfl

theorem Steady.later {heap heap' : ℕ → Bool} (h : Steady heap) (hl : Later heap heap') : Steady heap' := by
  obtain ⟨n, rfl⟩ := hl
  intro k hk
  have hnext := h (k + n) hk
  rwa [Nat.add_right_comm] at hnext

theorem InOrder.covered (h : InOrder P st) (length : ℤ) : Covered length st.heap := .inr h.steady

/-- Answers of `malloc` are used. -/
theorem InOrder.drift (h : InOrder P st) (hd : Drift st st') :
    InOrder P st' ∧ fileMap P st' = fileMap P st := by
  have hhealthy := h.healthy.drift hd
  obtain ⟨heap, f, hl, rfl⟩ := hd
  have hs : Still P st (st.drift heap f) :=
    ⟨hhealthy, h.clean, Steady.later h.steady hl, h.kept, fun _ => id, fun _ _ => rfl⟩
  exact ⟨h.still hs, h.fileMap_still hs fun _ _ => rfl⟩

/-- A file is opened. -/
theorem InOrder.opened (h : InOrder P st) (hs : IsFile st s) :
    InOrder P (st.opened s) ∧ fileMap P (st.opened s) = fileMap P st := by
  have hstill : Still P st (st.opened s) := by
    refine ⟨h.healthy.opened hs.1 hs.2, fun t ht h0 => ?_, h.steady, fun t j hj => ?_, fun _ => id,
      fun d _ => ?_⟩
    · rw [opened_dataOf, opened_disk]
      exact h.clean t ht h0
    · by_cases hts : t = s
      · subst hts
        rw [← opened_removed hj]
        cases hi : st.openInodes t with
        | none => rfl
        | some i => exact h.kept t i hi
      · have hj : update st.openInodes s _ t = some j := hj
        rw [Function.update_of_ne hts] at hj
        exact h.kept t j hj
    · rw [opened_dataOf, opened_disk]
  exact ⟨h.still hstill, h.fileMap_still hstill fun t _ => by rw [opened_dataOf, opened_disk]⟩

/-! ### The calls on an open file -/

/-- The path leads to `s`, and `s` is open. -/
def Opened (P : Places) (st : State) (s : Sector) (path : List UInt8) : Prop :=
  path ∈ P.names ∧ fileAt P st path = some s ∧ ∃ i, st.openInodes s = some i

theorem Opened.contents_eq {bytes : List UInt8} (ho : Opened P st s p) (hbytes : fileMap P st p = some bytes) :
    contents st.disk (st.dataOf s) = bytes := by
  rw [fileMap_eq ho.1, ho.2.1] at hbytes
  exact Option.some.inj hbytes

theorem opens_view (h : InOrder P st) (hp : p ∈ P.names)
    (ho : Paths.filesysOpen st none p = some (some s, st')) :
    InOrder P st' ∧ Opened P st' s p ∧ fileMap P st' = fileMap P st := by
  obtain ⟨hnone, -⟩ | ⟨t, hres, hr, hd⟩ := filesysOpen_cases h.healthy.counted ho
  · cases hnone
  · obtain rfl : s = t := by
      obtain hr | hr := hr
      · exact Option.some.inj hr
      · cases hr
    rw [h.resolve hp] at hres
    obtain ⟨hopened, hsame⟩ := h.opened (h.file p hp s hres).1
    obtain ⟨h', hsame'⟩ := hopened.drift hd
    refine ⟨h', ⟨hp, ?_, ?_⟩, hsame'.trans hsame⟩
    · obtain ⟨heap, f, -, rfl⟩ := hd
      change target (st.opened s) _ _ = _
      rw [target_opened]
      exact hres
    · obtain ⟨heap, f, -, rfl⟩ := hd
      exact ⟨_, opened_self st s⟩

theorem read_view {bytes buffer : List UInt8} {size pos : ℕ} (ho : Opened P st s p)
    (hbytes : fileMap P st p = some bytes) (hin : pos + size ≤ bytes.length) (hi : st.openInodes s = some i)
    (hread : st.inodeReadAt i size pos = buffer) (hlength : buffer.length = size) :
    buffer = (bytes.drop pos).take size := by
  have hcontents := ho.contents_eq hbytes
  rw [dataOf_open hi] at hcontents
  have hlen := congrArg List.length hcontents
  rw [contents_length] at hlen
  have hpre := Elf.readLoop_stops st.disk i.data (st.heap 0) size size pos
  have heq := readLoop_eq (m := st.disk) (d := i.data) size size pos (Int.le_refl _)
  have hmin : min (size : ℤ).toNat (i.data.length - pos) = size := by omega
  rw [hmin] at heq
  have hwhole : readLoop st.disk i.data (st.heap 0) size size pos =
      readLoop st.disk i.data true size size pos := by
    apply hpre.eq_of_length
    rw [heq, List.length_map, List.length_range]
    exact (congrArg List.length hread).trans hlength
  have hbuffer : buffer = (List.range size).map fun k => byteAt st.disk i.data (pos + k) := by
    rw [← hread, ← heq]
    exact hwhole
  rw [hbuffer, ← hcontents]
  apply List.ext_getElem
  · rw [List.length_map, List.length_range, List.length_take, List.length_drop, contents_length, hlen]
    omega
  · intro k hk hk'
    rw [List.getElem_take, List.getElem_drop]
    simp only [contents, List.getElem_map, List.getElem_range]

theorem laidOver_eq {old buffer : List UInt8} {pos : ℕ} (hin : pos + buffer.length ≤ old.length) :
    laidOver old (fun x => buffer.getD x 0) pos buffer.length =
      old.take pos ++ buffer ++ old.drop (pos + buffer.length) := by
  have hmax : max old.length (pos + buffer.length) = old.length := Nat.max_eq_left hin
  apply List.ext_getElem
  · rw [laidOver_length, hmax]
    simp only [List.length_append, List.length_take, List.length_drop]
    omega
  · intro k hk hk'
    rw [laidOver_length, hmax] at hk
    simp only [laidOver, List.getElem_map, List.getElem_range]
    by_cases hlt : k < pos
    · rw [if_neg (by omega), List.getElem_append_left (by
        rw [List.length_append, List.length_take]
        omega), List.getElem_append_left (by rw [List.length_take]; omega), List.getElem_take,
        List.getD_eq_getElem _ _ hk]
    · by_cases hmid : k < pos + buffer.length
      · rw [if_pos ⟨by omega, hmid⟩, List.getElem_append_left (by
          rw [List.length_append, List.length_take]
          omega), List.getElem_append_right (by rw [List.length_take]; omega),
          List.getD_eq_getElem _ _ (by omega)]
        simp only [List.length_take, Nat.min_eq_left (by omega : pos ≤ old.length)]
      · rw [if_neg (by omega), List.getElem_append_right (by
          rw [List.length_append, List.length_take]
          omega), List.getElem_drop, List.getD_eq_getElem _ _ hk]
        congr 1
        rw [List.length_append, List.length_take]
        omega

/-- What is done to an open file changes no other one. -/
theorem InOrder.beside (h : InOrder P st) (ho : Opened P st s p) (hs : Still P st st')
    (hb : Beside {s} st st') : InOrder P st' ∧ (Opened P st' s p ↔ ∃ i, st'.openInodes s = some i) ∧
      fileMap P st' = update (fileMap P st) p (some (contents st'.disk (st'.dataOf s))) := by
  obtain ⟨hp, hfile, -⟩ := ho
  refine ⟨h.still hs, ?_, ?_⟩
  · unfold Opened
    rw [hs.fileAt hp]
    exact ⟨fun ho => ho.2.2, fun hi => ⟨hp, hfile, hi⟩⟩
  · funext q
    by_cases hq : q = p
    · rw [hq, Function.update_self, fileMap_eq hp, hs.fileAt hp, hfile]
      rfl
    · rw [Function.update_of_ne hq]
      unfold fileMap
      split_ifs with hqn
      · rw [hs.fileAt hqn]
        cases hfile' : fileAt P st q with
        | none => rfl
        | some t =>
            have hts : t ∉ ({s} : Set Sector) := by
              intro hts
              rw [hts] at hfile'
              exact hq (h.distinct q hqn p hp s hfile' hfile)
            obtain ⟨⟨hlive, h0⟩, -⟩ := h.file q hqn t hfile'
            exact congrArg some (hb.data t hts h0 hlive).2
      · rfl

theorem kept_of_counters (h : ∀ s i, st.openInodes s = some i → i.removed = false)
    (hc : UserFiles.counters st' = UserFiles.counters st) :
    ∀ s i, st'.openInodes s = some i → i.removed = false := by
  intro t j hj
  have ht := congrFun hc t
  unfold UserFiles.counters at ht
  rw [hj] at ht
  obtain ⟨i, hi, heq⟩ := Option.map_eq_some_iff.mp ht.symm
  simp only [Prod.mk.injEq] at heq
  rw [← heq.2.1]
  exact h t i hi

theorem write_view {bytes buffer : List UInt8} {pos : ℕ} (h : InOrder P st) (ho : Opened P st s p)
    (hbytes : fileMap P st p = some bytes) (hne : buffer ≠ []) (hin : pos + buffer.length ≤ bytes.length)
    (hw : st.inodeWriteAt s (fun x => buffer.getD x 0) buffer.length pos = some (buffer.length, st')) :
    InOrder P st' ∧ Opened P st' s p ∧ fileMap P st' = update (fileMap P st) p
      (some (bytes.take pos ++ buffer ++ bytes.drop (pos + buffer.length))) := by
  obtain ⟨i, hi⟩ := ho.2.2
  obtain ⟨⟨hlive, h0⟩, hnot⟩ := h.file p ho.1 s ho.2.1
  have hcontents := ho.contents_eq hbytes
  have hlen := congrArg List.length hcontents
  rw [dataOf_open hi, contents_length] at hlen
  have hsmall := (h.healthy.inv.opened_data hi).1.small
  unfold bytesToSectors at hsmall
  have hpos := List.length_pos_iff.mpr hne
  have hsize : offT (buffer.length : ℤ) = buffer.length := offT_of_lt (by omega) (by omega)
  have hoffset : offT (pos : ℤ) = pos := offT_of_lt (by omega) (by omega)
  have hact : act (.write s (fun x => buffer.getD x 0) buffer.length pos) st = some st' := by
    unfold Files.act
    dsimp only
    rw [if_pos ⟨h0, hsize, hoffset⟩, hw]
    rfl
  have hdeed : Deed {s} false st st' := by
    refine .act (fun t ht => ?_) ?_ ?_ (fun hf => by cases hf) hact
    · exact (Option.some.inj ht).symm
    · exact h.covered (offT (pos + buffer.length))
    · rintro t b size offset heq
      cases heq
      omega
  obtain ⟨hhealthy, hb⟩ := h.healthy.deed hdeed
  obtain ⟨i', hi', hwritten, -, hgrown⟩ := inodeWriteAt_written h.healthy.inv h0 hi
    (dataOf_open hi ▸ h.clean s hlive h0) (h.covered _) (by omega) hsize hoffset hw
  have hlaid := hwritten.contents_eq (hhealthy.inv.opened_data hi').1 (hgrown rfl)
  obtain ⟨hsamelive, -⟩ := inodeWriteAt_entry hi hw
  have hs : Still P st st' := {
    healthy := hhealthy
    clean := h.clean.deed h.healthy hdeed
    steady := Steady.later h.steady (inodeWriteAt_heap hw)
    kept := kept_of_counters h.kept (UserFiles.inodeWriteAt_counters hw)
    live := fun t ht => hsamelive ▸ ht
    dirs := fun d hd => by
      obtain ⟨⟨hdlive, hd0⟩, -⟩ := h.dirs d hd
      refine (hb.data d (fun hds => hnot ?_) hd0 hdlive).2
      rwa [← Set.mem_singleton_iff.mp hds] }
  obtain ⟨h', hopened, hmap⟩ := h.beside ho hs hb
  refine ⟨h', hopened.mpr ⟨i', hi'⟩, ?_⟩
  rw [dataOf_open hi', hlaid, ← dataOf_open hi, hcontents, laidOver_eq hin] at hmap
  exact hmap

theorem close_view (h : InOrder P st) (ho : Opened P st s p) (hc : st.inodeClose s = some st') :
    InOrder P st' ∧ fileMap P st' = fileMap P st := by
  obtain ⟨i, hi⟩ := ho.2.2
  obtain ⟨⟨hlive, h0⟩, hnot⟩ := h.file p ho.1 s ho.2.1
  have hdeed : Deed {s} false st st' := close_deed rfl h0 hc
  obtain ⟨hhealthy, hb⟩ := h.healthy.deed hdeed
  have hbytes := (inodeClose_rests h.healthy.inv h0 hi (h.kept s i hi) hc).2
  have hcases : st'.live = st.live ∧ st'.heap = st.heap ∧
      ∀ t j, st'.openInodes t = some j → j.removed = false := by
    unfold State.inodeClose at hc
    rw [hi] at hc
    simp only [h.kept s i hi, Bool.false_eq_true, if_false] at hc
    split_ifs at hc
    · cases hc
      refine ⟨rfl, rfl, fun t j hj => ?_⟩
      by_cases hts : t = s
      · subst hts
        rw [setInode_self] at hj
        cases hj
      · have hj : update st.openInodes s _ t = some j := hj
        rw [Function.update_of_ne hts] at hj
        exact h.kept t j hj
    · cases hc
      refine ⟨rfl, rfl, fun t j hj => ?_⟩
      by_cases hts : t = s
      · subst hts
        rw [setInode_self] at hj
        cases hj
        rfl
      · have hj : update st.openInodes s _ t = some j := hj
        rw [Function.update_of_ne hts] at hj
        exact h.kept t j hj
  have hs : Still P st st' := {
    healthy := hhealthy
    clean := h.clean.deed h.healthy hdeed
    steady := hcases.2.1 ▸ h.steady
    kept := hcases.2.2
    live := fun t ht => hcases.1 ▸ ht
    dirs := fun d hd => by
      obtain ⟨⟨hdlive, hd0⟩, -⟩ := h.dirs d hd
      refine (hb.data d (fun hds => hnot ?_) hd0 hdlive).2
      rwa [← Set.mem_singleton_iff.mp hds] }
  obtain ⟨h', -, hmap⟩ := h.beside ho hs hb
  refine ⟨h', hmap.trans ?_⟩
  rw [Function.update_eq_self_iff, hbytes, fileMap_eq ho.1, ho.2.1]
  rfl

/-! ### A new file -/

/-- The file `s`, of zeros, has been added to the directory `d` with the entry `e`. -/
structure Added (d : Sector) (name : Name) (size : ℕ) (st : State) (s : Sector) (e : DirEntry) (st' : State) :
    Prop where
  absent : entryOf (contents st.disk (st.dataOf d)) name = none
  fresh : st.live s = false
  file : IsFile st' s
  directory : st'.live d = true
  length : e.name.length = 15
  string : e.string = name
  inUse : e.inUse ≠ 0
  sector : e.inodeSector = s
  entries : contents st'.disk (st'.dataOf d) = setEntry (contents st.disk (st.dataOf d))
    (freeSlot (contents st.disk (st.dataOf d))) e
  zeros : contents st'.disk (st'.dataOf s) = List.replicate size 0

/-- The inode of the new file. -/
theorem work_of_create {size : ℕ} {st₂ st₃ : State} (h : Files.Inv st₁) (hsteady : Steady st₁.heap)
    (hsize : offT (size : ℤ) = size) (ha : st₁.freeMapAllocate = (some s, st₂))
    (hcreate : st₂.inodeCreate s size false = some (true, st₃)) :
    Work (∅ : Set Sector) true st₁ { st₃ with live := update st₃.live s true } ∧
      contents st₃.disk (State.dataOf { st₃ with live := update st₃.live s true } s) =
        List.replicate size 0 := by
  obtain ⟨hfresh, -, -⟩ := allocate_new h ha
  have hfiles : st₁.filesysCreate size false true = some { st₃ with live := update st₃.live s true } := by
    unfold State.filesysCreate
    rw [ha]
    dsimp only
    rw [hcreate]
    rfl
  have hcov : Covered (size : ℤ) st₁.heap := .inr hsteady
  have hcreated : Created s st₁ { st₃ with live := update st₃.live s true } := by
    have hact : act (.create size false true) st₁ = some { st₃ with live := update st₃.live s true } := by
      unfold Files.act
      dsimp only
      rw [if_pos hsize, hfiles]
    have hsound : Sound st₁ (.create size false true, st₁.heap) := hcov
    exact act_created h hsound hact hfresh (Function.update_self ..)
  exact ⟨create_work hsize hcov hfiles fun _ => create_saves hsize hcov ha hcreate,
    (filesysCreate_stored h hcov hfiles hfresh (Function.update_self ..) hcreated).2⟩

theorem removed_of_writeEntry {k : ℕ} {e : DirEntry} {j : Inode} (hi : st.openInodes d = some i)
    (hw : st.writeEntry d e k = some (true, st')) (hj : st'.openInodes d = some j) :
    j.removed = i.removed := by
  obtain ⟨⟨n, st₁⟩, hbytes, heq⟩ := Option.map_eq_some_iff.mp hw
  obtain ⟨-, rfl⟩ := Prod.mk.inj heq
  obtain ⟨-, j', hopen, hsame⟩ := inodeWriteAt_entry hi hbytes
  rw [hopen, Function.update_self] at hj
  cases hj
  exact hsame.removed

theorem live_of_close (h : Files.Inv st) (hd0 : d ≠ 0) (hi : st.openInodes d = some i)
    (hrem : i.removed = false) (hc : st.inodeClose d = some st') : st'.live d = true := by
  have hlive := h.opened d i hi
  obtain ⟨j, hj, hjr, -⟩ | ⟨j, hj, rfl⟩ | ⟨j, j', hj, rfl, -⟩ := inodeClose_cases h hd0 hc
  · rw [hi] at hj
    cases hj
    rw [hrem] at hjr
    cases hjr
  · exact hlive
  · exact hlive

/-- `filesys_create` behind the search for the directory, when it succeeds. -/
theorem added_of_create {size : ℕ} {e : DirEntry} {st₂ st₃ st₄ : State} (h : Healthy st₁) (hclean : Clean st₁)
    (hsteady : Steady st₁.heap) (hi : st₁.openInodes d = some i) (hd0 : d ≠ 0) (hrem : i.removed = false)
    (hname : (0 : UInt8) ∉ name) (hsize : offT (size : ℤ) = size) (ha : st₁.freeMapAllocate = (some s, st₂))
    (hcreate : st₂.inodeCreate s size false = some (true, st₃))
    (hadd : State.dirAdd { st₃ with live := update st₃.live s true } d name s false e = some (true, st₄))
    (hclose : st₄.inodeClose d = some st') : ∃ e', Added d name size st₁ s e' st' := by
  obtain ⟨hfresh, hs0, -⟩ := allocate_new h.inv ha
  obtain ⟨hwork, hzeros⟩ := work_of_create h.inv hsteady hsize ha hcreate
  obtain ⟨h₃, hb₃⟩ := h.deed hwork.deed
  have hclean₃ := hclean.deed h hwork.deed
  have hlater₃ := hwork.deed.later
  have hslive : ({ st₃ with live := update st₃.live s true } : State).live s = true := Function.update_self ..
  change contents ({ st₃ with live := update st₃.live s true } : State).disk _ = _ at hzeros
  generalize ({ st₃ with live := update st₃.live s true } : State) = st₅ at *
  have hdlive := h.inv.opened d i hi
  have hsd : s ≠ d := by
    rintro rfl
    rw [hfresh] at hdlive
    cases hdlive
  have hi₃ : st₅.openInodes d = some i := (hb₃.openInodes d (Set.notMem_empty d) hdlive).trans hi
  have hbytes₃ := (hb₃.data d (Set.notMem_empty d) hd0 hdlive).2
  -- the entry is written
  cases dirAdd_adds hi₃ hadd with
  | @written u _ i₁ _ e' _ hr hl hi₁ hw =>
      rw [if_neg Bool.false_ne_true] at hl
      rw [hl] at hi₁ hw
      obtain rfl := Option.some.inj (hi₃.symm.trans hi₁)
      have hshort : name.length ≤ nameMax := not_lt.mp fun hlt => hr (.inr (.inl hlt))
      have habsent : entryOf (contents st₅.disk i.data) name = none := by
        by_contra hne
        exact hr (.inr (.inr hne))
      have hk := freeSlot_le (contents st₅.disk i.data)
      rw [contents_length] at hk
      have hcov₃ : ∀ length, Covered length st₅.heap := fun _ => .inr (Steady.later hsteady hlater₃)
      obtain ⟨i₄, hi₄, hentries, -⟩ := writeEntry_entry h₃ hclean₃ hi₃ hd0 hk (hcov₃ _) hw
      have hwrite : Deed {d} true st₅ st₄ := writeEntry_deed rfl hd0 (h₃.slot_lt hi₃ hk) (hcov₃ _) hw
      obtain ⟨h₄, hb₄⟩ := h₃.deed hwrite
      have hrem₄ : i₄.removed = false := (removed_of_writeEntry hi₃ hw hi₄).trans hrem
      -- the directory is closed
      obtain ⟨-, hlast⟩ := inodeClose_rests h₄.inv hd0 hi₄ hrem₄ hclose
      have hclosed : Deed {d} true st₄ st' := close_deed rfl hd0 hclose
      have hb' := (h₄.deed hclosed).2
      have hnot : s ∉ ({d} : Set Sector) := hsd
      have hslive₄ := hb₄.live s hnot hslive
      rw [dataOf_open hi₃, dataOf_open hi] at hbytes₃
      refine ⟨DirEntry.setName { e' with inUse := 1, inodeSector := s } name, ?_, hfresh,
        ⟨hb'.live s hnot hslive₄, hs0⟩, live_of_close h₄.inv hd0 hi₄ hrem₄ hclose, setName_length _ name,
        string_setName hshort hname, ?_, rfl, ?_, ?_⟩
      · rw [dataOf_open hi, ← hbytes₃]
        exact habsent
      · change (1 : UInt8) ≠ 0
        decide
      · rw [hlast, dataOf_open hi₄, hentries, dataOf_open hi, hbytes₃]
      · rw [(hb'.data s hnot hs0 hslive₄).2, (hb₄.data s hnot hs0 hslive).2, hzeros]

theorem filesysCreate_added {size : ℕ} {e : DirEntry} (h : InOrder P st) (hp : p ∈ P.names)
    (hsize : size ≤ intMax) (hc : Paths.filesysCreate st none p size false e = some (true, st')) :
    ∃ s e', Added (P.dirOf p) (base p) size st s e' st' := by
  have hplain := (P.plain p hp).2.2.2.2
  have hdir := h.pathDir hp
  obtain ⟨⟨hlive, hd0⟩, -⟩ := h.dirs _ (P.mem p hp)
  unfold Paths.filesysCreate at hc
  unfold base at hplain ⊢
  rcases hsplit : splitPathFilename p with ⟨directory, fileName⟩
  rw [hsplit] at hc hdir hplain
  dsimp only at hc hdir hplain ⊢
  obtain ⟨⟨r, st₁⟩, hopen, hc⟩ := Option.bind_eq_some_iff.mp hc
  obtain ⟨rfl, -⟩ | ⟨d, rfl, hd, hdrift⟩ := dirOpenPath_cases h.healthy.counted hopen
  · cases hc
  · obtain rfl := Option.some.inj (hd.symm.trans hdir)
    obtain ⟨⟨i, hi, hdata⟩, hdisk, hlive₁⟩ := opened_entry hdrift
    obtain ⟨hopened, -⟩ := h.opened ⟨hlive, hd0⟩
    obtain ⟨h₁, -⟩ := hopened.drift hdrift
    dsimp only at hc
    rcases ha : st₁.freeMapAllocate with ⟨_ | s, st₂⟩
    · rw [ha] at hc
      obtain ⟨st₃, -, heq⟩ := Option.map_eq_some_iff.mp hc
      cases heq
    · rw [ha] at hc
      obtain ⟨⟨created, st₃⟩, hcreate, hc⟩ := Option.bind_eq_some_iff.mp hc
      cases created with
      | false =>
          obtain ⟨st₄, -, hc⟩ := Option.bind_eq_some_iff.mp hc
          obtain ⟨st₅, -, heq⟩ := Option.map_eq_some_iff.mp hc
          cases heq
      | true =>
          obtain ⟨⟨added, st₄⟩, hadd, hc⟩ := Option.bind_eq_some_iff.mp hc
          cases added with
          | false =>
              obtain ⟨st₅, -, hc⟩ := Option.bind_eq_some_iff.mp hc
              obtain ⟨st₆, -, heq⟩ := Option.map_eq_some_iff.mp hc
              cases heq
          | true =>
              obtain ⟨st₅, hclose, heq⟩ := Option.map_eq_some_iff.mp hc
              cases heq
              obtain ⟨e', hadded⟩ := added_of_create h₁.healthy h₁.clean h₁.steady hi hd0 (h₁.kept _ i hi)
                hplain (offT_of_lt (by omega) (by unfold intMax at hsize; omega)) ha hcreate hadd hclose
              have hdata₁ : st₁.dataOf (P.dirOf p) = st.dataOf (P.dirOf p) := by rw [dataOf_open hi, hdata]
              obtain ⟨habsent, hfresh, hfile, hdirectory, hlength, hstring, huse, hsector, hentries, hzeros⟩ :=
                hadded
              rw [hdata₁, hdisk] at habsent hentries
              rw [hlive₁] at hfresh
              exact ⟨s, e', habsent, hfresh, hfile, hdirectory, hlength, hstring, huse, hsector, hentries,
                hzeros⟩

variable {size : ℕ} {e : DirEntry}

theorem Added.entryOf_other (ha : Added d name size st s e st') {other : Name} (hne : other ≠ name) :
    entryOf (contents st'.disk (st'.dataOf d)) other = entryOf (contents st.disk (st.dataOf d)) other := by
  rw [ha.entries, Files.entryOf_other ha.length (ha.string.trans_ne hne.symm)]

/-- An entry that is found is not the new one. -/
theorem Added.entryAt_eq (ha : Added d name size st s e st') {other : Name} {k : ℕ}
    (hk : entryOf (contents st.disk (st.dataOf d)) other = some k) :
    entryAt (contents st'.disk (st'.dataOf d)) k = entryAt (contents st.disk (st.dataOf d)) k := by
  rw [ha.entries, entryAt_other]
  rintro rfl
  obtain ⟨⟨hn, -, hlt⟩, -⟩ := entryOf_eq_some.mp hk
  exact hn.1 (freeSlot_free _ hlt)

theorem Added.first (ha : Added d name size st s e st')
    (hslot : freeSlot (contents st.disk (st.dataOf d)) ≠ 0) :
    (contents st.disk (st.dataOf d)).length ≤ (contents st'.disk (st'.dataOf d)).length ∧
      entryAt (contents st'.disk (st'.dataOf d)) 0 = entryAt (contents st.disk (st.dataOf d)) 0 := by
  refine ⟨setEntry_length_le ha.entries, ?_⟩
  rw [ha.entries, entryAt_other hslot.symm]

/-- Where a name led before, it leads now. -/
theorem Added.target (ha : Added d name size st s e st')
    (hslot : freeSlot (contents st.disk (st.dataOf d)) ≠ 0) {token : Name} {x : Sector} (hdot : name ≠ dot)
    (hdots : name ≠ dotDot) (hx : target st d token = some x) : target st' d token = some x := by
  obtain ⟨hlen, hfirst⟩ := ha.first hslot
  rw [target_eq] at hx ⊢
  by_cases htd : token = dot
  · rwa [if_pos htd] at hx ⊢
  rw [if_neg htd] at hx ⊢
  by_cases htds : token = dotDot
  · rw [if_pos htds] at hx ⊢
    split_ifs at hx with hle
    rw [if_pos (hle.trans hlen), hfirst, hx]
  · rw [if_neg htds] at hx ⊢
    obtain ⟨k, hk, hx⟩ := Option.map_eq_some_iff.mp hx
    have hne : token ≠ name := by
      rintro rfl
      rw [ha.absent] at hk
      cases hk
    rw [ha.entryOf_other hne, hk, Option.map_some, ha.entryAt_eq hk, hx]

/-- The file `s` has been added at the path `p`, and no other file has changed. -/
structure NewFile (P : Places) (p : List UInt8) (size : ℕ) (st : State) (s : Sector) (e : DirEntry)
    (st' : State) : Prop where
  added : Added (P.dirOf p) (base p) size st s e st'
  live : ∀ t, st.live t = true → st'.live t = true
  bytes : ∀ t, IsFile st t → t ≠ P.dirOf p →
    contents st'.disk (st'.dataOf t) = contents st.disk (st.dataOf t)

theorem newFile_of_create (h : InOrder P st) (hp : p ∈ P.names)
    (hworks : Works (Creates st none p) true st st') (ha : Added (P.dirOf p) (base p) size st s e st') :
    NewFile P p size st s e st' := by
  obtain ⟨-, hb⟩ := h.healthy.works hworks
  -- nothing but the directory and the new file is worked on
  have hnot : ∀ t, st.live t = true → t ≠ P.dirOf p → t ∉ Creates st none p := by
    rintro t hlive hne (hdir | hdead)
    · rw [h.pathDir hp] at hdir
      exact hne (Option.some.inj hdir).symm
    · rw [hlive] at hdead
      cases hdead
  refine ⟨ha, fun t ht => ?_, fun t ht htd => (hb.data t (hnot t ht.1 htd) ht.2 ht.1).2⟩
  by_cases htd : t = P.dirOf p
  · rw [htd]
    exact ha.directory
  · exact hb.live t (hnot t ht htd) ht

theorem NewFile.fileAt_other (hn : NewFile P p size st s e st') (h : InOrder P st) (hp : p ∈ P.names)
    (hq : q ∈ P.names) (hqp : q ≠ p) : fileAt P st' q = fileAt P st q := by
  by_cases hqd : P.dirOf q = P.dirOf p
  · have hbase : base q ≠ base p := fun heq => hqp (P.inj q hq p hp hqd heq)
    rw [fileAt_eq hq, fileAt_eq hq, hqd, hn.added.entryOf_other hbase]
    cases hk : entryOf (contents st.disk (st.dataOf (P.dirOf p))) (base q) with
    | none => rfl
    | some k => exact congrArg some (congrArg DirEntry.inodeSector (hn.added.entryAt_eq hk))
  · exact target_congr (hn.bytes _ (h.dirs _ (P.mem q hq)).1 hqd)

theorem NewFile.fileAt_self (hn : NewFile P p size st s e st') (h : InOrder P st) (hp : p ∈ P.names) :
    fileAt P st' p = some s := by
  have ha := hn.added
  have hnew := entryOf_self ha.length ha.inUse (ha.string ▸ ha.absent)
  rw [ha.string, if_neg (h.dirs _ (P.mem p hp)).2] at hnew
  rw [fileAt_eq hp, ha.entries, hnew, Option.map_some, entryAt_self ha.length, ha.sector]

/-- No path has led to the new file. -/
theorem NewFile.ne (hn : NewFile P p size st s e st') (h : InOrder P st) (hq : q ∈ P.names) :
    fileAt P st q ≠ some s := by
  intro hfile
  have hold := (h.file q hq s hfile).1.1
  rw [hn.added.fresh] at hold
  cases hold

theorem NewFile.dirs (hn : NewFile P p size st s e st') (h : InOrder P st) (hd : d ∈ P.dirs) :
    IsFile st' d ∧ freeSlot (contents st'.disk (st'.dataOf d)) ≠ 0 := by
  obtain ⟨hfile, hslot⟩ := h.dirs d hd
  refine ⟨⟨hn.live d hfile.1, hfile.2⟩, ?_⟩
  by_cases hdp : d = P.dirOf p
  · subst hdp
    obtain ⟨hlen, hfirst⟩ := hn.added.first hslot
    rw [Ne, freeSlot_zero, not_not] at hslot ⊢
    rw [hfirst]
    exact ⟨hslot.1.trans hlen, hslot.2⟩
  · rw [hn.bytes d hfile hdp]
    exact hslot

theorem NewFile.target (hn : NewFile P p size st s e st') (h : InOrder P st) (hp : p ∈ P.names)
    (hd : d ∈ P.dirs) {token : Name} {x : Sector} (hx : target st d token = some x) :
    target st' d token = some x := by
  obtain ⟨-, -, hdot, hdots, -⟩ := P.plain p hp
  obtain ⟨hfile, hslot⟩ := h.dirs d hd
  by_cases hdp : d = P.dirOf p
  · subst hdp
    exact hn.added.target hslot hdot hdots hx
  · rw [target_congr (hn.bytes d hfile hdp), hx]

theorem NewFile.file (hn : NewFile P p size st s e st') (h : InOrder P st) (hp : p ∈ P.names)
    (hq : q ∈ P.names) (hfile : fileAt P st' q = some t) : IsFile st' t ∧ t ∉ P.dirs := by
  by_cases hqp : q = p
  · rw [hqp, hn.fileAt_self h hp] at hfile
    cases hfile
    refine ⟨hn.added.file, fun hs => ?_⟩
    have hold := (h.dirs s hs).1.1
    rw [hn.added.fresh] at hold
    cases hold
  · rw [hn.fileAt_other h hp hq hqp] at hfile
    obtain ⟨hold, hnotdir⟩ := h.file q hq t hfile
    exact ⟨⟨hn.live t hold.1, hold.2⟩, hnotdir⟩

theorem NewFile.distinct (hn : NewFile P p size st s e st') (h : InOrder P st) (hp : p ∈ P.names)
    {r : List UInt8} (hq : q ∈ P.names) (hr : r ∈ P.names) (hfile : fileAt P st' q = some t)
    (hfile' : fileAt P st' r = some t) : q = r := by
  by_cases hqp : q = p
  · by_cases hrp : r = p
    · rw [hqp, hrp]
    · rw [hqp, hn.fileAt_self h hp] at hfile
      rw [hn.fileAt_other h hp hr hrp, ← hfile] at hfile'
      exact absurd hfile' (hn.ne h hr)
  · by_cases hrp : r = p
    · rw [hrp, hn.fileAt_self h hp] at hfile'
      rw [hn.fileAt_other h hp hq hqp, ← hfile'] at hfile
      exact absurd hfile (hn.ne h hq)
    · rw [hn.fileAt_other h hp hq hqp] at hfile
      rw [hn.fileAt_other h hp hr hrp] at hfile'
      exact h.distinct q hq r hr t hfile hfile'

theorem NewFile.fileMap_eq (hn : NewFile P p size st s e st') (h : InOrder P st) (hp : p ∈ P.names) :
    fileMap P st' = update (fileMap P st) p (some (List.replicate size 0)) := by
  funext q
  by_cases hqp : q = p
  · rw [hqp, Function.update_self, Archives.fileMap_eq hp, hn.fileAt_self h hp, Option.map_some,
      hn.added.zeros]
  · rw [Function.update_of_ne hqp]
    unfold fileMap
    split_ifs with hq
    · rw [hn.fileAt_other h hp hq hqp]
      cases hfile : fileAt P st q with
      | none => rfl
      | some t =>
          obtain ⟨hold, hnotdir⟩ := h.file q hq t hfile
          refine congrArg some (hn.bytes t hold ?_)
          rintro rfl
          exact hnotdir (P.mem p hp)
    · rfl

/-- The file is created, and everything else is as before. -/
theorem create_view (h : InOrder P st) (hp : p ∈ P.names) (hsize : size ≤ intMax)
    (hc : Paths.filesysCreate st none p size false e = some (true, st')) :
    fileMap P st p = none ∧ InOrder P st' ∧
      fileMap P st' = update (fileMap P st) p (some (List.replicate size 0)) := by
  obtain ⟨s, e', ha⟩ := filesysCreate_added h hp hsize hc
  have hworks : Works (Creates st none p) true st st' :=
    filesysCreate_works h.healthy (fun d hd => by
      rw [h.pathDir hp] at hd
      cases hd
      exact ⟨(h.dirs _ (P.mem p hp)).1, h.covered _⟩)
      (offT_of_lt (by omega) (by unfold intMax at hsize; omega)) (h.covered _) hc
  have hn := newFile_of_create h hp hworks ha
  refine ⟨?_, ?_, hn.fileMap_eq h hp⟩
  · rw [fileMap_eq hp, fileAt_eq hp, ha.absent]
    rfl
  · exact {
      healthy := (h.healthy.works hworks).1
      clean := h.clean.deeds h.healthy hworks.deeds
      steady := Steady.later h.steady hworks.later
      kept := kept_of_counters h.kept (UserFiles.filesysCreate_counters h.healthy.counted hc)
      dirs := fun d hd => hn.dirs h hd
      paths := fun q hq => (h.paths q hq).mono P.root fun d hd token x hx => hn.target h hp hd hx
      file := fun q hq t hfile => hn.file h hp hq hfile
      distinct := fun q hq r hr t hfile hfile' => hn.distinct h hp hq hr hfile hfile' }

/-- The kernel's file system. -/
noncomputable def places (P : Places) (stack : State → List UInt8 → DirEntry) : View (fileSystem stack) where
  names := P.names
  files := fileMap P
  Good := InOrder P
  Opened := Opened P
  malloc {st} h := h.drift (malloc_drift st)
  create h hp hsize hc := create_view h hp hsize hc
  opens h hp ho := opens_view h hp ho
  length {st name bytes s} _ ho hbytes := by
    rw [← ho.contents_eq hbytes, contents_length]
    rfl
  read {st st' name bytes buffer s size pos} h ho hbytes hin hread hlength := by
    obtain ⟨i, hi, heq⟩ := Option.map_eq_some_iff.mp hread
    obtain ⟨hbuffer, rfl⟩ := Prod.mk.inj heq
    obtain ⟨h', hsame⟩ := h.drift (show Drift st { st with heap := fun k => st.heap (k + 1) } from
      ⟨_, _, .next _, rfl⟩)
    exact ⟨read_view ho hbytes hin hi hbuffer hlength, h', ho, hsame⟩
  write h ho hbytes hne hin hw := write_view h ho hbytes hne hin hw
  close h ho hc := close_view h ho hc


/-! ### With memory -/

variable {bytes : List UInt8} {size pos : ℕ}

theorem drift_memory (st : State) (hm : st.heap = fun _ => true) :
    st.drift (fun _ => true) st.allocFailed = st := by
  rw [State.drift, ← hm]

theorem Through.walk {dirs : Set Sector} {l : List Name} (hn : Files.Counted st) (hm : st.heap = fun _ => true)
    (hsize : ∀ x ∈ dirs, x < st.size) (h : Through dirs st d l d') :
    (st.opened d).walk d l = some (some d', st.opened d') := by
  induction l generalizing d with
  | nil =>
      obtain rfl : d = d' := h
      rfl
  | cons token rest ih =>
      obtain ⟨x, hx, ht, h⟩ := h
      have hlookup := dirLookup_true (f := (st.opened d).allocFailed) (opened_self st d)
        ((target_opened st d).trans ht) fun _ => hsize x hx
      have hopen := dirOpen_true (f := ((st.opened d).opened x).allocFailed) ((st.opened d).opened x) x
      rw [drift_memory (st.opened d) hm] at hlookup
      rw [drift_memory ((st.opened d).opened x) hm] at hopen
      unfold State.walk
      rw [hlookup, Option.bind_eq_bind, Option.bind_some]
      dsimp only
      rw [hopen, Option.bind_eq_bind, Option.bind_some, close_first_opened hn]
      exact ih h

theorem InOrder.lt_size (h : InOrder P st) (hs : IsFile st s) : s < st.size :=
  h.healthy.inv.range s (h.healthy.inv.used s [] s (owns_self hs.1))

theorem InOrder.dirOpenPath (h : InOrder P st) (hm : st.heap = fun _ => true) (hp : p ∈ P.names) :
    st.dirOpenPath none (splitPathFilename p).1 = some (some (P.dirOf p), st.opened (P.dirOf p)) := by
  have hwalk := (h.paths p hp).walk h.healthy.counted hm fun x hx => h.lt_size (h.dirs x hx).1
  have hinode := inodeOpen_true (f := st.allocFailed) st rootDirSector
  have hopen := dirOpen_true (f := (st.opened rootDirSector).allocFailed) (st.opened rootDirSector)
    rootDirSector
  rw [drift_memory st hm] at hinode
  rw [drift_memory (st.opened rootDirSector) hm] at hopen
  obtain ⟨hopened, -⟩ := h.opened (h.dirs _ (P.mem p hp)).1
  obtain ⟨i, hi⟩ : ∃ i, (st.opened (P.dirOf p)).openInodes (P.dirOf p) = some i := ⟨_, opened_self st _⟩
  unfold State.dirOpenPath
  rw [Option.getD_none, ite_self]
  dsimp only
  rw [hinode]
  dsimp only
  rw [if_neg Bool.noConfusion, hopen, Option.bind_eq_bind, Option.bind_some]
  dsimp only
  rw [if_neg Bool.noConfusion, hwalk, Option.bind_eq_bind, Option.bind_some]
  dsimp only
  rw [hi, Option.bind_eq_bind, Option.bind_some, hopened.kept _ _ hi, if_neg Bool.noConfusion]

theorem InOrder.filesysOpen (h : InOrder P st) (hm : st.heap = fun _ => true) (hp : p ∈ P.names)
    (hfile : fileAt P st p = some s) : Paths.filesysOpen st none p = some (some s, st.opened s) := by
  obtain ⟨hempty, hbase, -⟩ := P.plain p hp
  have hs := (h.file p hp s hfile).1
  have hpath := h.dirOpenPath hm hp
  have hlookup := dirLookup_true (f := (st.opened (P.dirOf p)).allocFailed) (opened_self st (P.dirOf p))
    ((target_opened st (P.dirOf p)).trans hfile) fun _ => h.lt_size hs
  have hopen := dirOpen_true (f := (st.opened s).allocFailed) (st.opened s) s
  rw [drift_memory (st.opened (P.dirOf p)) hm] at hlookup
  rw [drift_memory (st.opened s) hm] at hopen
  obtain ⟨hopened, -⟩ := h.opened hs
  obtain ⟨i, hi⟩ : ∃ i, (st.opened s).openInodes s = some i := ⟨_, opened_self st s⟩
  unfold base at hbase hlookup
  unfold Paths.filesysOpen
  rw [if_neg hempty]
  rcases hsplit : splitPathFilename p with ⟨directory, fileName⟩
  rw [hsplit] at hbase hlookup hpath
  dsimp only at hbase hlookup hpath ⊢
  rw [hpath, Option.bind_eq_bind, Option.bind_some]
  dsimp only
  rw [if_pos hbase, hlookup, Option.bind_eq_bind, Option.bind_some, State.dirClose,
    close_first_opened h.healthy.counted]
  change ((st.opened s).openInodes s).bind _ = _
  rw [hi, Option.bind_some, hopened.kept _ _ hi, if_neg Bool.noConfusion, State.fileOpen, hopen]
  rfl

theorem readAll_memory (st : State) (hm : st.heap = fun _ => true) (hi : st.openInodes s = some i) :
    ∀ n size pos, pos + size ≤ i.data.length → Fsutil.readAll (fileSystem stack) s n size pos st = some st
  | 0, _, _, _ => rfl
  | n + 1, size, pos, hin => by
      have hle := Fsutil.chunkSize_le size
      have hread : (fileSystem stack).fileRead s (Fsutil.chunkSize size) pos st =
          some (st.inodeReadAt i (Fsutil.chunkSize size) pos, st) := by
        change (st.openInodes s).map _ = _
        rw [hi, Option.map_some]
        congr 2
        rw [hm]
        exact drift_memory st hm
      have hlength : (st.inodeReadAt i (Fsutil.chunkSize size) pos).length = Fsutil.chunkSize size := by
        unfold State.inodeReadAt
        rw [hm, readLoop_eq _ _ _ (by omega), List.length_map, List.length_range]
        omega
      rw [Fsutil.readAll, hread, Option.bind_some]
      dsimp only
      rw [if_pos hlength]
      exact readAll_memory st hm hi n _ _ (by omega)

/-- With memory, a file that is there can be read. -/
theorem InOrder.get (h : InOrder P st) (hm : st.heap = fun _ => true) (hp : p ∈ P.names)
    (hfile : fileMap P st p = some bytes) : Fsutil.get (fileSystem stack) p st = some st := by
  rw [fileMap_eq hp] at hfile
  obtain ⟨s, hs, -⟩ := Option.map_eq_some_iff.mp hfile
  obtain ⟨i, hi⟩ : ∃ i, (st.opened s).openInodes s = some i := ⟨_, opened_self st s⟩
  have hmalloc : (fileSystem stack).malloc st = (true, st) := by
    have h := malloc_true (f := st.allocFailed) st
    rwa [drift_memory st hm] at h
  have hopen : (fileSystem stack).filesysOpen p st = some (some s, st.opened s) := h.filesysOpen hm hp hs
  have hlength : (fileSystem stack).fileLength s (st.opened s) = i.data.length := by
    change ((st.opened s).dataOf s).length = _
    rw [dataOf_open hi]
  have hclose : (fileSystem stack).fileClose s (st.opened s) = some st := close_opened h.healthy.counted s
  unfold Fsutil.get
  rw [hmalloc]
  dsimp only
  rw [hopen]
  dsimp only
  have hread : Fsutil.readAll (fileSystem stack) s _ _ 0 (st.opened s) = _ :=
    readAll_memory (st.opened s) hm hi (Fsutil.dataCount i.data.length) i.data.length 0
      (Nat.le_of_eq (Nat.zero_add _))
  rw [hlength, hread, Option.bind_some, hclose]

theorem InOrder.getAll (h : InOrder P st) (hm : st.heap = fun _ => true) {l : List (List UInt8)}
    (hl : ∀ p ∈ l, p ∈ P.names ∧ fileMap P st p ≠ none) :
    Fsutil.getAll (fileSystem stack) l st = some st := by
  induction l with
  | nil => rfl
  | cons p l ih =>
      obtain ⟨⟨hp, hfile⟩, hl⟩ := List.forall_mem_cons.mp hl
      obtain ⟨bytes, hbytes⟩ := Option.ne_none_iff_exists'.mp hfile
      rw [Fsutil.getAll, h.get hm hp hbytes, Option.bind_some]
      exact ih hl

/-! ### The round trip -/

open Fsutil (Device Faithful Zeroed Served sectors)

theorem kept_doFormat {disk : Sector → Block} {disksize : Sector} {heap : ℕ → Bool} {e : DirEntry}
    (hf : Paths.doFormat disk disksize heap e = some st) :
    ∀ s i, st.openInodes s = some i → i.removed = false := by
  obtain ⟨st₁, st₂, st₃, hformat, h, -, hd, hw, hclose⟩ := doFormat_cases hf
  obtain ⟨st₄, d, -, hc, -, hopen⟩ := format_created hformat
  obtain ⟨⟨n, st₅⟩, hwrite, heq⟩ := Option.map_eq_some_iff.mp hw
  obtain ⟨-, rfl⟩ := Prod.mk.inj heq
  have hcounters : UserFiles.counters st₅ = UserFiles.counters (st₁.opened 1) :=
    (UserFiles.inodeWriteAt_counters hwrite).trans (UserFiles.counters_drift hd)
  refine kept_of_counters (fun s i hi => ?_) (UserFiles.counters_close h.counted hcounters hclose)
  rw [hc.takes.openInodes, hopen] at hi
  by_cases hs : s = 0
  · subst hs
    rw [Function.update_self] at hi
    cases hi
    rfl
  · rw [Function.update_of_ne hs] at hi
    cases hi

/-- The files `"a"` and `"b"` of the root directory. -/
def rootFiles : Places where
  dirs := {rootDirSector}
  names := {[97], [98]}
  dirOf _ := rootDirSector
  root := rfl
  mem _ _ := rfl
  plain p hp := by
    rcases hp with rfl | rfl
    · decide
    · decide
  inj p hp q hq _ h := by
    rcases hp with rfl | rfl
    · rcases hq with rfl | rfl
      · rfl
      · exact absurd h (by decide)
    · rcases hq with rfl | rfl
      · exact absurd h (by decide)
      · rfl

/-- A file of two sectors. -/
def long : File :=
  ⟨[97], List.replicate 600 7, by decide, (List.length_replicate (α := UInt8)).trans_le (by decide)⟩

def short : File := ⟨[98], [1, 2, 3], by decide, by decide⟩

theorem strip_short (c : UInt8) (hdot : c ≠ 46) (hslash : c ≠ 47) :
    Ustar.stripAntisocialPrefixes [c] = [c] := by
  simp [Ustar.stripAntisocialPrefixes, Ustar.stripLoop, Ustar.Antisocial, Ustar.dot, Ustar.slash, hdot, hslash]

theorem storedName_long : long.storedName = [97] := strip_short 97 (by decide) (by decide)

theorem storedName_short : short.storedName = [98] := strip_short 98 (by decide) (by decide)

/-- A device of ones, but for the sectors behind the two markers. -/
def scratch : Device := ⟨7, fun i => if i = 4 ∨ i = 6 then Fsutil.zeros else List.replicate 512 1⟩

/-- What `dir_add` finds on its stack does not matter. -/
def unused : State → List UInt8 → DirEntry := fun _ _ => ⟨0, List.replicate 15 0, 0⟩

theorem InOrder.call (h : InOrder P st) (heap : ℕ → Bool) (hs : Steady heap) :
    InOrder P (st.call heap) ∧ fileMap P (st.call heap) = fileMap P st := by
  have hstill : Still P st (st.call heap) :=
    ⟨⟨h.healthy.inv.call, h.healthy.counted⟩, h.clean, hs, h.kept, fun _ => id, fun _ _ => rfl⟩
  exact ⟨h.still hstill, h.fileMap_still hstill fun _ _ => rfl⟩

/-- A disk is formatted, and the two files are put there. -/
def formatted : Option (State × State × List Bool) := do
  let st ← Paths.doFormat (fun _ => Files.zeros) 40 (fun _ => true) ⟨0, List.replicate 15 0, 1⟩
  let root := contents st.disk (st.dataOf 1)
  let st := st.call fun _ => true
  let st₁ ← Fsutil.put (fileSystem unused) [97] long.bytes st
  let st₂ ← Fsutil.put (fileSystem unused) [98] short.bytes st₁
  some (st, st₂, [st.live 1, freeSlot root ≠ 0, (entryOf root [97]).isNone, (entryOf root [98]).isNone])

set_option maxRecDepth 4000 in
theorem formatted_eq : formatted.map (fun x => x.2.2) = some [true, true, true, true] := by
  decide +kernel

theorem inOrder_formatted {disk : Sector → Block} {disksize : Sector} {heap : ℕ → Bool} {e : DirEntry}
    (hf : Paths.doFormat disk disksize heap e = some st) (hlive : st.live 1 = true)
    (hslot : freeSlot (contents st.disk (st.dataOf 1)) ≠ 0)
    (hnone : ∀ p ∈ rootFiles.names, entryOf (contents st.disk (st.dataOf 1)) p = none) :
    InOrder rootFiles (st.call fun _ => true) := by
  obtain ⟨hhealthy, hclean⟩ := healthy_doFormat hf
  have hfile : ∀ p ∈ rootFiles.names, fileAt rootFiles (st.call fun _ => true) p = none := by
    intro p hp
    have hbase : base p = p := by
      rcases hp with rfl | rfl
      · decide
      · decide
    rw [fileAt_eq hp, hbase]
    exact Option.map_eq_none_iff.mpr (hnone p hp)
  exact {
    healthy := ⟨hhealthy.inv.call, hhealthy.counted⟩
    clean := hclean
    steady := fun _ h => by cases h
    kept := fun s i => kept_doFormat hf s i
    dirs := by
      rintro d rfl
      exact ⟨⟨hlive, by decide⟩, hslot⟩
    paths := fun p hp => by
      rcases hp with rfl | rfl
      · rfl
      · rfl
    file := fun p hp s hs => by
      rw [hfile p hp] at hs
      cases hs
    distinct := fun p hp q _ s hs _ => by
      rw [hfile p hp] at hs
      cases hs }

/-- The disk is in order, and what the calls did to it is known. -/
theorem formatted_files : ∃ st₀ st₁ st₂,
    Paths.doFormat (fun _ => Files.zeros) 40 (fun _ => true) ⟨0, List.replicate 15 0, 1⟩ = some st₀ ∧
    InOrder rootFiles (st₀.call fun _ => true) ∧
    Fsutil.put (fileSystem unused) [97] long.bytes (st₀.call fun _ => true) = some st₁ ∧
    Fsutil.put (fileSystem unused) [98] short.bytes st₁ = some st₂ := by
  have h := formatted_eq
  unfold formatted at h
  simp only [Option.bind_eq_bind, Option.map_eq_some_iff, Option.bind_eq_some_iff, Option.some.injEq] at h
  obtain ⟨_, ⟨st₀, hformat, st₁, hlong, st₂, hshort, rfl⟩, hfacts⟩ := h
  simp only [List.cons.injEq, decide_eq_true_eq, Option.isNone_iff_eq_none, and_true] at hfacts
  obtain ⟨hlive, hslot, ha, hb⟩ := hfacts
  refine ⟨st₀, st₁, st₂, hformat, inOrder_formatted hformat hlive hslot fun p hp => ?_, hlong, hshort⟩
  rcases hp with rfl | rfl
  · exact ha
  · exact hb

theorem scratch_block {n : ℕ} (h : n = 4 ∨ n = 6) : scratch.block n = Fsutil.zeros := if_pos h

theorem length_long : long.bytes.length = 600 := List.length_replicate

theorem sectors_long : sectors [long] = 3 := by
  simp [sectors, File.sectors, length_long]

theorem sectors_both : sectors [long, short] = 5 := by
  simp [sectors, File.sectors, length_long, short]

theorem zeroed_scratch : Zeroed [(long, 0), (short, 0)] scratch := by
  intro p hp hne
  rw [List.prefix_cons_iff] at hp
  obtain rfl | ⟨t, rfl, ht⟩ := hp
  · exact absurd rfl hne
  rw [List.prefix_cons_iff] at ht
  obtain rfl | ⟨u, rfl, hu⟩ := ht
  · refine ⟨by simp, scratch_block (.inl ?_)⟩
    exact congrArg (· + 1) sectors_long
  · obtain rfl := List.prefix_nil.mp hu
    refine ⟨by simp, scratch_block (.inr ?_)⟩
    exact congrArg (· + 1) sectors_both

end CSE130.Lab3.Archives
