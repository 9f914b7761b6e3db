import CSE130.Lib.Outline
import Mathlib.Data.List.Lex
import Mathlib.Data.List.Sort
import Mathlib.Logic.Relation

/-! # The directory views of Assignment 6 (`fileman.c`)

`fileman_dir` and `fileman_tree` print the names in a directory and, below each subdirectory, the
names in it.  Both put the path of the subdirectory together in a buffer of 60 bytes, and
`fileman_tree` also puts together what comes before the names in such a buffer.  What does not fit is
cut off, and the path that is left may name another directory, or nothing.

The file system says what a path names.  Directories are values of a type `ι`. -/

namespace CSE130.Assignment6

open Outline Relation

/-- `PATH_LEN`. -/
def pathLen : ℕ := 60

/-- `PATH_MAX`. -/
def pathMax : ℕ := 4096

/-- `'/'`, `'.'`, `' '`. -/
def slash : UInt8 := 47
def dot : UInt8 := 46
def space : UInt8 := 32

/-- `TEE`, `HOR`, `VER`, `ELB`. -/
def tee : List UInt8 := [0xe2, 0x94, 0x9c]
def hor : List UInt8 := [0xe2, 0x94, 0x80]
def ver : List UInt8 := [0xe2, 0x94, 0x82]
def elb : List UInt8 := [0xe2, 0x94, 0x94]

/-- `struct dirent`; `dir` is the directory if `d_type` is `DT_DIR`. -/
structure Dirent (ι : Type) where
  name : List UInt8
  dir : Option ι
  deriving DecidableEq

/-- `one`. -/
def one {ι : Type} (e : Dirent ι) : Bool := e.name.head? ≠ some dot

/-- A file system whose visible directories are a finite tree.  `resolve` is the directory that a path
names, if it can be read. -/
structure FileSystem (ι : Type) where
  entries : ι → List (Dirent ι)
  resolve : List UInt8 → Option ι
  resolve_entry : ∀ path d e c, resolve path = some d → e ∈ entries d → one e = true →
    e.dir = some c → (path ++ slash :: e.name).length < pathMax →
    resolve (path ++ slash :: e.name) = some c
  /-- How many levels there are below a directory at most. -/
  depth : ι → ℕ
  depth_lt : ∀ d e c, e ∈ entries d → one e = true → e.dir = some c → depth c < depth d

/-- A line that is printed: what comes before the name, and the name. -/
structure Line where
  front : List UInt8
  name : List UInt8
  deriving DecidableEq

/-- There is no output, as the function has not returned, or has called `free` for a pointer that was
not set. -/
inductive Stop where
  | running
  | undefined
  deriving DecidableEq

/-- `snprintf` into a buffer of `PATH_LEN` bytes. -/
def cut (s : List UInt8) : List UInt8 := s.take (pathLen - 1)

namespace FileSystem

variable {ι σ : Type} (fs : FileSystem ι)

/-- The entries that are not hidden, in the order of their names (`alphasort`). -/
def visible (d : ι) : List (Dirent ι) :=
  ((fs.entries d).filter one).insertionSort fun a b => a.name ≤ b.name

/-- `scandir`. -/
def scandir (dirname : List UInt8) : Option (List (Dirent ι)) :=
  (fs.resolve dirname).map fs.visible

/-- What `getdir` and `gettree` have in common: `front` is printed before a name, and `next` is passed
on to the level below. -/
def walk (front : σ → Bool → List UInt8) (next : σ → Bool → σ) :
    ℕ → List UInt8 → σ → Except Stop (List Line)
  | 0, _, _ => .error .running
  | fuel + 1, dirname, s =>
      match fs.scandir dirname with
      -- `scandir` has not set `dirlist`, which is freed nevertheless.
      | none => .error .undefined
      | some dirlist =>
          visit (fun (last, e) => do
            let below ←
              if e.dir.isSome then
                walk front next fuel (cut (dirname ++ slash :: e.name)) (next s last)
              else .ok []
            return ⟨front s last, e.name⟩ :: below) (withLast dirlist)

/-- `getdir`. -/
def getdir (fuel : ℕ) (dirname : List UInt8) (level : ℕ) : Except Stop (List Line) :=
  fs.walk (fun level _ => List.replicate (level * 4) space) (fun level _ => level + 1) fuel dirname
    level

def filemanDir (fuel : ℕ) (dname : List UInt8) : Except Stop (List Line) := do
  let lines ← fs.getdir fuel dname 1
  return ⟨[], dname⟩ :: lines

/-- What comes before a name and before the names below it, behind the `spacer`. -/
def connector (last : Bool) : List UInt8 := (if last then elb else tee) ++ hor ++ hor ++ [space]

def segment (last : Bool) : List UInt8 :=
  if last then List.replicate 4 space else ver ++ List.replicate 3 space

/-- `gettree`. -/
def gettree (fuel : ℕ) (dirname : List UInt8) (spacer : List UInt8) : Except Stop (List Line) :=
  fs.walk (fun spacer last => spacer ++ connector last)
    (fun spacer last => cut (spacer ++ segment last)) fuel dirname spacer

def filemanTree (fuel : ℕ) (dname : List UInt8) : Except Stop (List Line) := do
  let lines ← fs.gettree fuel dname []
  return ⟨[], dname⟩ :: lines

/-! ### What should be printed -/

variable {fs} {d c : ι} {e : Dirent ι} {last : Bool} {anc : List Bool}

theorem mem_visible : e ∈ fs.visible d ↔ e ∈ fs.entries d ∧ one e = true := by
  rw [visible, List.mem_insertionSort, List.mem_filter]

theorem depth_lt_of_visible (he : e ∈ fs.visible d) (hdir : e.dir = some c) :
    fs.depth c < fs.depth d :=
  fs.depth_lt d e c (mem_visible.mp he).1 (mem_visible.mp he).2 hdir

/-- The entries of a directory in pre-order; `front` is what should come before a name, if it is known
which of the directories above it are the last among their siblings. -/
def rendering (fs : FileSystem ι) (front : List Bool → Bool → List UInt8) (d : ι)
    (anc : List Bool) : List Line :=
  (withLast (fs.visible d)).attach.flatMap fun p =>
    ⟨front anc p.1.1, p.1.2.name⟩ ::
      match _h : p.1.2.dir with
      | none => []
      | some c => rendering fs front c (anc ++ [p.1.1])
termination_by fs.depth d
decreasing_by exact depth_lt_of_visible (mem_of_mem_withLast p.2) _h

/-- Four spaces for each level. -/
def dirFront (anc : List Bool) (_ : Bool) : List UInt8 :=
  List.replicate ((anc.length + 1) * 4) space

/-- A bar or blanks for each directory above, and the connector. -/
def treeFront (anc : List Bool) (last : Bool) : List UInt8 := anc.flatMap segment ++ connector last

/-! ### When the paths and the spacers fit -/

/-- A directory, its path, and which of the directories above it are the last among their siblings. -/
structure Place (ι : Type) where
  path : List UInt8
  dir : ι
  anc : List Bool

/-- `y` is a subdirectory. -/
def Enters (fs : FileSystem ι) (x y : Place ι) : Prop :=
  ∃ last e, (last, e) ∈ withLast (fs.visible x.dir) ∧ e.dir = some y.dir ∧
    y.path = x.path ++ slash :: e.name ∧ y.anc = x.anc ++ [last]

/-- `y` is a subdirectory with a path that is not cut. -/
def EntersUncut (fs : FileSystem ι) (x y : Place ι) : Prop :=
  fs.Enters x y ∧ y.path.length < pathLen

/-- What is left of the path names a directory with the same names, and none of them is that of a
directory; where one should be, it has nothing in it. -/
def Lookalike (fs : FileSystem ι) (y : Place ι) : Prop :=
  ∃ d, fs.resolve (cut y.path) = some d ∧ (∀ e ∈ fs.visible d, e.dir = none) ∧
    (fs.visible d).map Dirent.name = (fs.visible y.dir).map Dirent.name ∧
    ∀ e ∈ fs.visible y.dir, ∀ c, e.dir = some c → fs.visible c = []

/-- Below `x` no path of a directory is cut, or else it does not matter. -/
def PathsFit (fs : FileSystem ι) (x : Place ι) : Prop :=
  ∀ y, ReflTransGen fs.EntersUncut x y → ∀ z, fs.Enters y z → pathLen ≤ z.path.length →
    fs.Lookalike z

/-- Nor is what comes before the names. -/
def SpacersFit (fs : FileSystem ι) (x : Place ι) : Prop :=
  ∀ y, ReflTransGen fs.Enters x y → fs.visible y.dir ≠ [] →
    (y.anc.flatMap segment).length < pathLen

/-! ### Blocks of lines -/

variable {front : σ → Bool → List UInt8} {next : σ → Bool → σ} {start s : σ}
  {drawn : List Bool → Bool → List UInt8} {fuel fuel' : ℕ} {path dirname : List UInt8}
  {out block : List Line} {x y : Place ι} {dirlist : List (Dirent ι)}

/-- The lines of an entry. -/
def entryLines (fs : FileSystem ι) (drawn : List Bool → Bool → List UInt8) (anc : List Bool)
    (p : Bool × Dirent ι) : List Line :=
  ⟨drawn anc p.1, p.2.name⟩ ::
    match p.2.dir with
    | none => []
    | some c => fs.rendering drawn c (anc ++ [p.1])

theorem rendering_eq (fs : FileSystem ι) (drawn : List Bool → Bool → List UInt8) (d : ι)
    (anc : List Bool) : fs.rendering drawn d anc =
      (withLast (fs.visible d)).flatMap (fs.entryLines drawn anc) := by
  conv_rhs => rw [← List.attach_map_subtype_val (withLast (fs.visible d)), List.flatMap_map]
  rw [rendering]
  congr 1
  funext p
  unfold entryLines
  congr 1
  split <;> rename_i hdir <;> rw [hdir]

theorem rendering_eq_nil_iff (drawn : List Bool → Bool → List UInt8) (anc : List Bool) :
    fs.rendering drawn d anc = [] ↔ fs.visible d = [] := by
  rw [rendering_eq]
  cases hd : fs.visible d with
  | nil => exact iff_of_true rfl rfl
  | cons e l => simp [withLast_cons, entryLines]

/-- The lines that the source prints for an entry. -/
def entryWalk (fs : FileSystem ι) (front : σ → Bool → List UInt8) (next : σ → Bool → σ) (fuel : ℕ)
    (dirname : List UInt8) (s : σ) (p : Bool × Dirent ι) : Except Stop (List Line) := do
  let below ←
    if p.2.dir.isSome then
      fs.walk front next fuel (cut (dirname ++ slash :: p.2.name)) (next s p.1)
    else .ok []
  return ⟨front s p.1, p.2.name⟩ :: below

theorem walk_succ (h : fs.scandir dirname = some dirlist) :
    fs.walk front next (fuel + 1) dirname s =
      visit (fs.entryWalk front next fuel dirname s) (withLast dirlist) := by
  rw [walk, h]
  rfl

theorem entryWalk_none (h : e.dir = none) :
    fs.entryWalk front next fuel dirname s (last, e) = .ok [⟨front s last, e.name⟩] := by
  unfold entryWalk
  rw [h]
  rfl

theorem entryWalk_some (h : e.dir = some c) :
    fs.entryWalk front next fuel dirname s (last, e) = .ok block ↔
      ∃ below, fs.walk front next fuel (cut (dirname ++ slash :: e.name)) (next s last) = .ok below ∧
        block = ⟨front s last, e.name⟩ :: below := by
  unfold entryWalk
  dsimp only
  rw [h, if_pos Option.isSome_some]
  apply bind_eq_ok_iff.trans
  constructor
  · rintro ⟨below, hbelow, hblock⟩
    exact ⟨below, hbelow, (Except.ok.inj hblock).symm⟩
  · rintro ⟨below, hbelow, rfl⟩
    exact ⟨below, hbelow, rfl⟩

/-- Every block begins with the line of its entry. -/
theorem entryWalk_head {p : Bool × Dirent ι}
    (h : fs.entryWalk front next fuel dirname s p = .ok block) :
    ∃ below, block = ⟨front s p.1, p.2.name⟩ :: below := by
  obtain ⟨last, e⟩ := p
  cases hdir : e.dir with
  | none =>
      rw [entryWalk_none hdir] at h
      exact ⟨[], (Except.ok.inj h).symm⟩
  | some c =>
      obtain ⟨below, -, rfl⟩ := (entryWalk_some hdir).mp h
      exact ⟨below, rfl⟩

/-- More fuel does not matter. -/
theorem walk_mono (h : fs.walk front next fuel dirname s = .ok out) (hle : fuel ≤ fuel') :
    fs.walk front next fuel' dirname s = .ok out := by
  induction fuel generalizing fuel' dirname s out with
  | zero => cases h
  | succ fuel ih =>
      obtain ⟨fuel', rfl⟩ := Nat.exists_eq_add_of_lt hle
      cases hscan : fs.scandir dirname with
      | none =>
          rw [walk, hscan] at h
          cases h
      | some dirlist =>
          rw [walk_succ hscan] at h ⊢
          apply visit_mono _ h
          rintro ⟨last, e⟩ - block hblock
          cases hdir : e.dir with
          | none => rwa [entryWalk_none hdir] at hblock ⊢
          | some c =>
              obtain ⟨below, hbelow, rfl⟩ := (entryWalk_some hdir).mp hblock
              exact (entryWalk_some hdir).mpr ⟨below, ih hbelow (Nat.le_add_right _ _), rfl⟩

/-! ### What comes before the names -/

/-- What is passed on to the level below the directories `anc`. -/
def state (next : σ → Bool → σ) (start : σ) (anc : List Bool) : σ := anc.foldl next start

theorem state_append (next : σ → Bool → σ) (start : σ) (anc : List Bool) (last : Bool) :
    state next start (anc ++ [last]) = next (state next start anc) last :=
  List.foldl_append

/-- At this level the source prints what it should before the names. -/
def Right (front : σ → Bool → List UInt8) (next : σ → Bool → σ) (start : σ)
    (drawn : List Bool → Bool → List UInt8) (anc : List Bool) : Prop :=
  ∀ last, front (state next start anc) last = drawn anc last

/-- The levels can be told by what comes before the names, also where the source prints it, as long as
it is right. -/
structure Draws (front : σ → Bool → List UInt8) (next : σ → Bool → σ) (start : σ)
    (drawn : List Bool → Bool → List UInt8) : Prop where
  right : ∀ anc last last', front (state next start anc) last = drawn anc last' →
    Right front next start drawn anc
  length_eq : ∀ anc last, (drawn anc last).length = (drawn anc true).length
  lt_drawn : ∀ anc b more last, (drawn anc true).length < (drawn (anc ++ b :: more) last).length
  lt_front : ∀ anc b more last, Right front next start drawn anc →
    (drawn anc true).length < (front (state next start (anc ++ b :: more)) last).length

/-- The lines of one level. -/
def AtLevel (drawn : List Bool → Bool → List UInt8) (anc : List Bool) (x : Line) : Prop :=
  x.front.length = (drawn anc true).length

theorem front_of_mem_walk {x : Line}
    (h : fs.walk front next fuel dirname (state next start anc) = .ok out) (hx : x ∈ out) :
    ∃ more last, x.front = front (state next start (anc ++ more)) last := by
  induction fuel generalizing dirname anc out with
  | zero => cases h
  | succ fuel ih =>
      cases hscan : fs.scandir dirname with
      | none =>
          rw [walk, hscan] at h
          cases h
      | some dirlist =>
          rw [walk_succ hscan] at h
          obtain ⟨⟨last, e⟩, -, block, hblock, hx⟩ := exists_of_mem_visit h hx
          cases hdir : e.dir with
          | none =>
              rw [entryWalk_none hdir] at hblock
              obtain rfl := Except.ok.inj hblock
              obtain rfl := List.mem_singleton.mp hx
              exact ⟨[], last, by rw [List.append_nil]⟩
          | some c =>
              obtain ⟨below, hbelow, rfl⟩ := (entryWalk_some hdir).mp hblock
              obtain rfl | hx := List.mem_cons.mp hx
              · exact ⟨[], last, by rw [List.append_nil]⟩
              · rw [← state_append next start anc last] at hbelow
                obtain ⟨more, last', hfront⟩ := ih hbelow hx
                exact ⟨last :: more, last', by rw [hfront, List.append_assoc, List.singleton_append]⟩

theorem front_of_mem_rendering {x : Line} (hx : x ∈ fs.rendering drawn d anc) :
    ∃ more last, x.front = drawn (anc ++ more) last := by
  induction hdepth : fs.depth d using Nat.strongRecOn generalizing d anc with
  | _ n ih =>
      rw [rendering_eq] at hx
      obtain ⟨⟨last, e⟩, hmem, hx⟩ := List.mem_flatMap.mp hx
      have he := mem_of_mem_withLast hmem
      unfold entryLines at hx
      obtain rfl | hx := List.mem_cons.mp hx
      · exact ⟨[], last, by rw [List.append_nil]⟩
      · cases hdir : e.dir with
        | none => simp [hdir] at hx
        | some c =>
            have hlt := depth_lt_of_visible he hdir
            rw [hdepth] at hlt
            simp only [hdir] at hx
            obtain ⟨more, last', hfront⟩ := ih _ hlt hx rfl
            exact ⟨last :: more, last', by rw [hfront, List.append_assoc, List.singleton_append]⟩

theorem isBlock_entryLines (fs : FileSystem ι) (anc : List Bool)
    (hdraws : Draws front next start drawn) (p : Bool × Dirent ι) :
    IsBlock (AtLevel drawn anc) (fs.entryLines drawn anc p) := by
  refine ⟨_, _, rfl, hdraws.length_eq anc p.1, ?_⟩
  intro x hx hlevel
  cases hdir : p.2.dir with
  | none => simp [hdir] at hx
  | some c =>
      simp only [hdir] at hx
      obtain ⟨more, last, hfront⟩ := front_of_mem_rendering hx
      have hlt := hdraws.lt_drawn anc p.1 more last
      rw [AtLevel, hfront, List.append_assoc, List.singleton_append] at hlevel
      omega

theorem isBlock_entryWalk (hdraws : Draws front next start drawn)
    (hright : Right front next start drawn anc) {p : Bool × Dirent ι}
    (h : fs.entryWalk front next fuel dirname (state next start anc) p = .ok block) :
    IsBlock (AtLevel drawn anc) block := by
  obtain ⟨last, e⟩ := p
  have hhead : AtLevel drawn anc ⟨front (state next start anc) last, e.name⟩ := by
    rw [AtLevel, hright last]
    exact hdraws.length_eq anc last
  cases hdir : e.dir with
  | none =>
      rw [entryWalk_none hdir] at h
      obtain rfl := Except.ok.inj h
      exact ⟨_, _, rfl, hhead, by simp⟩
  | some c =>
      obtain ⟨below, hbelow, rfl⟩ := (entryWalk_some hdir).mp h
      refine ⟨_, _, rfl, hhead, ?_⟩
      intro x hx hlevel
      rw [← state_append next start anc last] at hbelow
      obtain ⟨more, last', hfront⟩ := front_of_mem_walk hbelow hx
      have hlt := hdraws.lt_front anc last more last' hright
      rw [AtLevel, hfront, List.append_assoc, List.singleton_append] at hlevel
      omega

/-! ### One level -/

/-- The source prints what it should below a directory, and returns. -/
def Renders (fs : FileSystem ι) (front : σ → Bool → List UInt8) (next : σ → Bool → σ) (start : σ)
    (drawn : List Bool → Bool → List UInt8) (x : Place ι) : Prop :=
  ∃ fuel, fs.walk front next fuel (cut x.path) (state next start x.anc) =
    .ok (fs.rendering drawn x.dir x.anc)

theorem entryWalk_mono {p : Bool × Dirent ι}
    (h : fs.entryWalk front next fuel dirname s p = .ok block) (hle : fuel ≤ fuel') :
    fs.entryWalk front next fuel' dirname s p = .ok block := by
  obtain ⟨last, e⟩ := p
  cases hdir : e.dir with
  | none => rwa [entryWalk_none hdir] at h ⊢
  | some c =>
      obtain ⟨below, hbelow, rfl⟩ := (entryWalk_some hdir).mp h
      exact (entryWalk_some hdir).mpr ⟨below, walk_mono hbelow hle, rfl⟩

theorem scandir_eq (h : fs.resolve path = some d) : fs.scandir path = some (fs.visible d) := by
  rw [scandir, h, Option.map_some]

/-- The first line shows whether the level is right. -/
theorem right_of_visit (hdraws : Draws front next start drawn) (hne : fs.visible d ≠ [])
    (h : visit (fs.entryWalk front next fuel path (state next start anc)) (withLast dirlist) =
      .ok (fs.rendering drawn d anc)) :
    Right front next start drawn anc := by
  cases dirlist with
  | nil => exact absurd ((rendering_eq_nil_iff _ _).mp (Except.ok.inj h).symm) hne
  | cons e l =>
      obtain ⟨block, rest, hblock, -, hout⟩ := visit_cons_iff.mp h
      obtain ⟨below, rfl⟩ := entryWalk_head hblock
      rw [rendering_eq] at hout
      cases hd : fs.visible d with
      | nil => exact absurd hd hne
      | cons e' l' =>
          rw [hd, withLast, List.flatMap_cons, entryLines, List.cons_append, List.cons_append]
            at hout
          have hfront := congrArg Line.front (List.cons.inj hout).1
          exact hdraws.right anc _ _ hfront.symm

/-- A directory that its path names is printed as it should be just if its level and all of its
subdirectories are. -/
theorem walk_iff (hdraws : Draws front next start drawn) (h : fs.resolve path = some d) :
    (∃ fuel, fs.walk front next fuel path (state next start anc) =
      .ok (fs.rendering drawn d anc)) ↔
    (fs.visible d ≠ [] → Right front next start drawn anc) ∧
      ∀ y, fs.Enters ⟨path, d, anc⟩ y → fs.Renders front next start drawn y := by
  constructor
  · rintro ⟨fuel, hok⟩
    cases fuel with
    | zero => cases hok
    | succ fuel =>
        rw [walk_succ (scandir_eq h)] at hok
        refine ⟨fun hne => right_of_visit hdraws hne hok, ?_⟩
        rintro ⟨path', c, anc'⟩ ⟨last, e, hmem, hdir, rfl, rfl⟩
        have hne : fs.visible d ≠ [] := List.ne_nil_of_mem (mem_of_mem_withLast hmem)
        have hright := right_of_visit hdraws hne hok
        rw [rendering_eq] at hok
        have hblocks := (visit_eq_iff (P := AtLevel drawn anc)
          (fun p _ block => isBlock_entryWalk hdraws hright)
          (fun p _ => isBlock_entryLines fs anc hdraws p)).mp hok (last, e) hmem
        obtain ⟨below, hbelow, hlines⟩ := (entryWalk_some hdir).mp hblocks
        dsimp only at hdir
        rw [entryLines, hdir] at hlines
        obtain rfl := (List.cons.inj hlines).2
        exact ⟨fuel, by rwa [state_append]⟩
  · rintro ⟨hright, hbelow⟩
    have hbound : ∃ n, ∀ p ∈ withLast (fs.visible d),
        fs.entryWalk front next n path (state next start anc) p =
          .ok (fs.entryLines drawn anc p) := by
      apply exists_bound
      · exact fun p m n hle hok => entryWalk_mono hok hle
      · rintro ⟨last, e⟩ hmem
        have hne : fs.visible d ≠ [] := List.ne_nil_of_mem (mem_of_mem_withLast hmem)
        cases hdir : e.dir with
        | none =>
            refine ⟨0, ?_⟩
            rw [entryWalk_none hdir, hright hne last, entryLines, hdir]
        | some c =>
            obtain ⟨fuel, hok⟩ := hbelow ⟨path ++ slash :: e.name, c, anc ++ [last]⟩
              ⟨last, e, hmem, hdir, rfl, rfl⟩
            rw [state_append] at hok
            refine ⟨fuel, (entryWalk_some hdir).mpr ⟨_, hok, ?_⟩⟩
            rw [entryLines, hdir, hright hne last]
    obtain ⟨fuel, hfuel⟩ := hbound
    refine ⟨fuel + 1, ?_⟩
    rw [walk_succ (scandir_eq h), rendering_eq]
    exact visit_congr hfuel

/-! ### Paths that are cut -/

theorem cut_of_lt (h : path.length < pathLen) : cut path = path :=
  List.take_of_length_le (by omega)

theorem length_cut (h : pathLen ≤ path.length) : (cut path).length = pathLen - 1 := by
  rw [cut, List.length_take]
  omega

/-- Behind a path that has been cut nothing is added. -/
theorem cut_append (h : pathLen ≤ path.length) (t : List UInt8) : cut (cut path ++ t) = cut path := by
  rw [cut, List.take_append_of_le_length (by rw [length_cut h]), List.take_of_length_le]
  exact Nat.le_of_eq (length_cut h)

/-- So where a path has been cut and there is a subdirectory, the source lists the same directory for
ever. -/
theorem not_walk_of_cut (hlong : pathLen ≤ path.length) (hscan : fs.scandir (cut path) = some dirlist)
    (he : e ∈ dirlist) (hdir : e.dir = some c) :
    fs.walk front next fuel (cut path) s ≠ .ok out := by
  induction fuel generalizing s out with
  | zero =>
      intro hok
      cases hok
  | succ fuel ih =>
      intro hok
      rw [walk_succ hscan] at hok
      obtain ⟨last, hmem⟩ := exists_mem_withLast he
      obtain ⟨block, hblock⟩ := exists_block hok hmem
      obtain ⟨below, hbelow, -⟩ := (entryWalk_some hdir).mp hblock
      rw [cut_append hlong] at hbelow
      exact ih hbelow

/-- The lines of a directory without subdirectories. -/
def heads (front : Bool → List UInt8) (names : List (List UInt8)) : List Line :=
  (withLast names).map fun p => ⟨front p.1, p.2⟩

theorem map_name_heads (front : Bool → List UInt8) (names : List (List UInt8)) :
    (heads front names).map Line.name = names := by
  rw [heads, List.map_map]
  exact map_snd_withLast names

theorem heads_map (front : Bool → List UInt8) (dirlist : List (Dirent ι)) :
    heads front (dirlist.map Dirent.name) =
      (withLast dirlist).flatMap fun p => [⟨front p.1, p.2.name⟩] := by
  rw [heads, withLast_map, List.map_map, List.map_eq_flatMap]
  rfl

theorem visit_leaves (h : ∀ e ∈ dirlist, e.dir = none) :
    visit (fs.entryWalk front next fuel path s) (withLast dirlist) =
      .ok (heads (front s) (dirlist.map Dirent.name)) := by
  rw [heads_map]
  apply visit_congr
  rintro ⟨last, e⟩ hmem
  exact entryWalk_none (h e (mem_of_mem_withLast hmem))

theorem rendering_leaves (h : ∀ e ∈ fs.visible d, ∀ c, e.dir = some c → fs.visible c = []) :
    fs.rendering drawn d anc = heads (drawn anc) ((fs.visible d).map Dirent.name) := by
  rw [heads_map, rendering_eq]
  apply List.flatMap_congr
  rintro ⟨last, e⟩ hmem
  unfold entryLines
  cases hdir : e.dir with
  | none => rfl
  | some c =>
      have hc := h e (mem_of_mem_withLast hmem) c hdir
      dsimp only
      rw [(rendering_eq_nil_iff _ _).mpr hc]

/-- If all lines are at the level of the directory, none of its subdirectories has anything in it. -/
theorem leaves_of_atLevel (anc : List Bool) (hdraws : Draws front next start drawn)
    (h : ∀ x ∈ fs.rendering drawn d anc, AtLevel drawn anc x) :
    ∀ e ∈ fs.visible d, ∀ c, e.dir = some c → fs.visible c = [] := by
  intro e he c hdir
  obtain ⟨last, hmem⟩ := exists_mem_withLast he
  obtain ⟨x, t, hblock, -, ht⟩ := isBlock_entryLines fs anc hdraws (last, e)
  apply (rendering_eq_nil_iff drawn (anc ++ [last])).mp
  rw [List.eq_nil_iff_forall_not_mem]
  intro y hy
  have htail : y ∈ t := by
    rw [entryLines] at hblock
    simp only [hdir] at hblock
    rwa [← (List.cons.inj hblock).2]
  apply ht y htail
  apply h
  rw [rendering_eq, List.mem_flatMap]
  exact ⟨(last, e), hmem, by rw [hblock]; exact List.mem_cons_of_mem x htail⟩

/-- A directory whose path is cut. -/
theorem renders_cut_iff (hdraws : Draws front next start drawn) (hlong : pathLen ≤ y.path.length) :
    fs.Renders front next start drawn y ↔
      fs.Lookalike y ∧ (fs.visible y.dir ≠ [] → Right front next start drawn y.anc) := by
  constructor
  · rintro ⟨fuel, hok⟩
    cases fuel with
    | zero => cases hok
    | succ fuel =>
        cases hresolve : fs.resolve (cut y.path) with
        | none =>
            rw [walk, scandir, hresolve] at hok
            cases hok
        | some d =>
            have hscan := scandir_eq hresolve
            have hleaves : ∀ e ∈ fs.visible d, e.dir = none := by
              intro e he
              cases hdir : e.dir with
              | none => rfl
              | some c => exact absurd hok (not_walk_of_cut hlong hscan he hdir)
            rw [walk_succ hscan] at hok
            have hright := fun hne => right_of_visit hdraws hne hok
            rw [visit_leaves hleaves] at hok
            have hlines := Except.ok.inj hok
            refine ⟨⟨d, hresolve, hleaves, ?_⟩, hright⟩
            have hempty : ∀ e ∈ fs.visible y.dir, ∀ c, e.dir = some c → fs.visible c = [] := by
              intro e he
              have hne : fs.visible y.dir ≠ [] := List.ne_nil_of_mem he
              refine leaves_of_atLevel y.anc hdraws ?_ e he
              intro x hx
              rw [← hlines] at hx
              obtain ⟨p, -, rfl⟩ := List.mem_map.mp hx
              rw [AtLevel, hright hne p.1]
              exact hdraws.length_eq _ _
            rw [rendering_leaves hempty] at hlines
            have hnames := congrArg (List.map Line.name) hlines
            rw [map_name_heads, map_name_heads] at hnames
            exact ⟨hnames, hempty⟩
  · rintro ⟨⟨d, hresolve, hleaves, hnames, hempty⟩, hright⟩
    refine ⟨1, ?_⟩
    rw [walk_succ (scandir_eq hresolve), visit_leaves hleaves, rendering_leaves hempty, hnames]
    by_cases hne : fs.visible y.dir = []
    · rw [hne]
      rfl
    · have hfront : front (state next start y.anc) = drawn y.anc := funext (hright hne)
      rw [hfront]

/-! ### All levels -/

/-- At every level with names the source prints what it should before them. -/
def FrontsFit (fs : FileSystem ι) (R : List Bool → Prop) (x : Place ι) : Prop :=
  ∀ y, ReflTransGen fs.Enters x y → fs.visible y.dir ≠ [] → R y.anc

variable {R : List Bool → Prop}

theorem frontsFit_iff : fs.FrontsFit R x ↔
    (fs.visible x.dir ≠ [] → R x.anc) ∧ ∀ y, fs.Enters x y → fs.FrontsFit R y := by
  constructor
  · intro h
    exact ⟨h x .refl, fun y hy z hz => h z (.head hy hz)⟩
  · rintro ⟨hx, hbelow⟩ z hz
    obtain rfl | ⟨y, hy, hz⟩ := hz.cases_head
    · exact hx
    · exact hbelow y hy z hz

theorem pathsFit_iff : fs.PathsFit x ↔ ∀ y, fs.Enters x y →
    (pathLen ≤ y.path.length → fs.Lookalike y) ∧ (y.path.length < pathLen → fs.PathsFit y) := by
  constructor
  · intro h y hy
    exact ⟨h x .refl y hy, fun hshort z hz => h z (.head ⟨hy, hshort⟩ hz)⟩
  · intro h y hy z hz hlong
    obtain rfl | ⟨y', hy', hy⟩ := hy.cases_head
    · exact (h z hz).1 hlong
    · exact (h y' hy'.1).2 hy'.2 y hy z hz hlong

theorem frontsFit_of_visible_nil (h : fs.visible x.dir = []) : fs.FrontsFit R x := by
  rw [frontsFit_iff]
  refine ⟨absurd h, ?_⟩
  rintro y ⟨last, e, hmem, -⟩
  have he := mem_of_mem_withLast hmem
  rw [h] at he
  cases he

theorem Lookalike.frontsFit_iff (h : fs.Lookalike x) :
    fs.FrontsFit R x ↔ (fs.visible x.dir ≠ [] → R x.anc) := by
  obtain ⟨d, -, -, -, hempty⟩ := h
  rw [FileSystem.frontsFit_iff, and_iff_left]
  rintro y ⟨last, e, hmem, hdir, -⟩
  exact frontsFit_of_visible_nil (hempty e (mem_of_mem_withLast hmem) y.dir hdir)

theorem Enters.depth_lt (h : fs.Enters x y) : fs.depth y.dir < fs.depth x.dir := by
  obtain ⟨last, e, hmem, hdir, -⟩ := h
  exact depth_lt_of_visible (mem_of_mem_withLast hmem) hdir

theorem Enters.resolve (h : fs.Enters x y) (hx : fs.resolve x.path = some x.dir)
    (hshort : y.path.length < pathLen) : fs.resolve y.path = some y.dir := by
  obtain ⟨last, e, hmem, hdir, hpath, -⟩ := h
  have he := mem_visible.mp (mem_of_mem_withLast hmem)
  rw [hpath] at hshort ⊢
  apply fs.resolve_entry x.path x.dir e y.dir hx he.1 he.2 hdir
  exact Nat.lt_trans hshort (by decide)

/-- **Views.**  What is printed below a directory is right just if the paths and what comes before the
names fit. -/
theorem walk_iff_fit (hdraws : Draws front next start drawn) (hx : fs.resolve x.path = some x.dir) :
    (∃ fuel, fs.walk front next fuel x.path (state next start x.anc) =
      .ok (fs.rendering drawn x.dir x.anc)) ↔
    fs.PathsFit x ∧ fs.FrontsFit (Right front next start drawn) x := by
  induction hdepth : fs.depth x.dir using Nat.strongRecOn generalizing x with
  | _ n ih =>
      have hbelow : ∀ y, fs.Enters x y → (fs.Renders front next start drawn y ↔
          ((pathLen ≤ y.path.length → fs.Lookalike y) ∧
            (y.path.length < pathLen → fs.PathsFit y)) ∧
              fs.FrontsFit (Right front next start drawn) y) := by
        intro y hy
        obtain hshort | hlong := Nat.lt_or_ge y.path.length pathLen
        · have hnot := Nat.not_le.mpr hshort
          have hlt := hy.depth_lt
          rw [hdepth] at hlt
          rw [Renders, cut_of_lt hshort, ih _ hlt (hy.resolve hx hshort) rfl]
          constructor
          · rintro ⟨hpaths, hfronts⟩
            exact ⟨⟨fun hlong => absurd hlong hnot, fun _ => hpaths⟩, hfronts⟩
          · rintro ⟨⟨-, hpaths⟩, hfronts⟩
            exact ⟨hpaths hshort, hfronts⟩
        · have hnot := Nat.not_lt.mpr hlong
          rw [renders_cut_iff hdraws hlong]
          constructor
          · rintro ⟨hlook, hright⟩
            exact ⟨⟨fun _ => hlook, fun hshort => absurd hshort hnot⟩,
              hlook.frontsFit_iff.mpr hright⟩
          · rintro ⟨⟨hlook, -⟩, hfronts⟩
            exact ⟨hlook hlong, (hlook hlong).frontsFit_iff.mp hfronts⟩
      rw [walk_iff hdraws hx, pathsFit_iff, frontsFit_iff]
      constructor
      · rintro ⟨hright, hrenders⟩
        exact ⟨fun y hy => ((hbelow y hy).mp (hrenders y hy)).1, hright,
          fun y hy => ((hbelow y hy).mp (hrenders y hy)).2⟩
      · rintro ⟨hpaths, hright, hfronts⟩
        exact ⟨hright, fun y hy => (hbelow y hy).mpr ⟨hpaths y hy, hfronts y hy⟩⟩

/-! ### The two views -/

theorem state_dir (level : ℕ) (anc : List Bool) :
    state (fun level _ => level + 1) level anc = level + anc.length := by
  induction anc generalizing level with
  | nil => rfl
  | cons last anc ih =>
      rw [state, List.foldl_cons, ← state, ih, List.length_cons]
      omega

theorem right_dir (anc : List Bool) : Right (fun level _ => List.replicate (level * 4) space)
    (fun level _ => level + 1) 1 dirFront anc := by
  intro last
  rw [state_dir, dirFront, Nat.add_comm]

theorem draws_dir : Draws (fun level _ => List.replicate (level * 4) space)
    (fun level _ => level + 1) 1 dirFront where
  right anc _ _ _ := right_dir anc
  length_eq _ _ := rfl
  lt_drawn anc b more last := by
    simp only [dirFront, List.length_replicate, List.length_append, List.length_cons]
    omega
  lt_front anc b more last _ := by
    rw [state_dir]
    simp only [dirFront, List.length_replicate, List.length_append, List.length_cons]
    omega

theorem length_connector (last : Bool) : (connector last).length = 10 := by
  cases last <;> rfl

theorem length_segment (last : Bool) :
    4 ≤ (segment last).length ∧ (segment last).length % 2 = 0 := by
  cases last <;> decide

theorem length_spacer (anc : List Bool) : (anc.flatMap segment).length % 2 = 0 := by
  induction anc with
  | nil => rfl
  | cons last anc ih =>
      have heven := (length_segment last).2
      rw [List.flatMap_cons, List.length_append]
      omega

/-- Cutting what is added to a spacer that has been cut is cutting it once. -/
theorem cut_cut_append (t u : List UInt8) : cut (cut t ++ u) = cut (t ++ u) := by
  unfold cut
  rw [List.take_append, List.take_append, List.take_take, Nat.min_self, List.length_take]
  congr 2
  omega

theorem state_cut (t : List UInt8) (anc : List Bool) :
    state (fun spacer last => cut (spacer ++ segment last)) (cut t) anc =
      cut (t ++ anc.flatMap segment) := by
  induction anc generalizing t with
  | nil => rw [List.flatMap_nil, List.append_nil, state, List.foldl_nil]
  | cons last anc ih =>
      rw [state, List.foldl_cons, ← state, cut_cut_append, ih, List.flatMap_cons, List.append_assoc]

theorem state_tree (anc : List Bool) :
    state (fun spacer last => cut (spacer ++ segment last)) [] anc = cut (anc.flatMap segment) :=
  state_cut [] anc

theorem right_tree_iff : Right (fun spacer last => spacer ++ connector last)
    (fun spacer last => cut (spacer ++ segment last)) [] treeFront anc ↔
      (anc.flatMap segment).length < pathLen := by
  constructor
  · intro hright
    have hlength := congrArg List.length (hright true)
    rw [state_tree, treeFront, List.length_append, List.length_append, cut, List.length_take]
      at hlength
    rw [pathLen] at *
    omega
  · intro hlt last
    rw [state_tree, cut_of_lt hlt, treeFront]

theorem draws_tree : Draws (fun spacer last => spacer ++ connector last)
    (fun spacer last => cut (spacer ++ segment last)) [] treeFront where
  right anc last last' h := by
    have hlength := congrArg List.length h
    rw [state_tree, treeFront, List.length_append, List.length_append, cut, List.length_take,
      length_connector, length_connector] at hlength
    rw [right_tree_iff, pathLen]
    rw [pathLen] at hlength
    omega
  length_eq anc last := by
    rw [treeFront, treeFront, List.length_append, List.length_append, length_connector,
      length_connector]
  lt_drawn anc b more last := by
    have hsegment := (length_segment b).1
    simp only [treeFront, List.flatMap_append, List.flatMap_cons, List.length_append,
      length_connector]
    omega
  lt_front anc b more last hright := by
    have hsegment := (length_segment b).1
    have hspacer := length_spacer anc
    have hlt := right_tree_iff.mp hright
    rw [state_tree]
    simp only [treeFront, cut, List.flatMap_append, List.flatMap_cons, List.length_append,
      List.length_take, length_connector]
    rw [pathLen] at *
    omega

theorem cons_eq_ok_iff {m : Except Stop (List Line)} (x : Line) :
    (do let lines ← m; return x :: lines : Except Stop (List Line)) = .ok (x :: out) ↔
      m = .ok out := by
  rw [bind_eq_ok_iff]
  constructor
  · rintro ⟨lines, hlines, hout⟩
    rwa [← (List.cons.inj (Except.ok.inj hout)).2]
  · intro h
    exact ⟨out, h, rfl⟩

variable {root : ι}

theorem filemanDir_iff (h : fs.resolve dirname = some root) :
    (∃ fuel, fs.filemanDir fuel dirname =
      .ok (⟨[], dirname⟩ :: fs.rendering dirFront root [])) ↔
    fs.PathsFit ⟨dirname, root, []⟩ := by
  have hfronts : fs.FrontsFit (Right (fun level _ => List.replicate (level * 4) space)
      (fun level _ => level + 1) 1 dirFront) ⟨dirname, root, []⟩ := fun y _ _ => right_dir y.anc
  have hwalk := walk_iff_fit (x := ⟨dirname, root, []⟩) draws_dir h
  rw [and_iff_left hfronts] at hwalk
  exact (exists_congr fun _ => cons_eq_ok_iff _).trans hwalk

theorem filemanTree_iff (h : fs.resolve dirname = some root) :
    (∃ fuel, fs.filemanTree fuel dirname =
      .ok (⟨[], dirname⟩ :: fs.rendering treeFront root [])) ↔
    fs.PathsFit ⟨dirname, root, []⟩ ∧ fs.SpacersFit ⟨dirname, root, []⟩ := by
  have hfronts : fs.FrontsFit (Right (fun spacer last => spacer ++ connector last)
      (fun spacer last => cut (spacer ++ segment last)) [] treeFront) ⟨dirname, root, []⟩ ↔
      fs.SpacersFit ⟨dirname, root, []⟩ :=
    forall_congr' fun _ => forall_congr' fun _ => forall_congr' fun _ => right_tree_iff
  have hwalk := walk_iff_fit (x := ⟨dirname, root, []⟩) draws_tree h
  rw [hfronts] at hwalk
  exact (exists_congr fun _ => cons_eq_ok_iff _).trans hwalk

/-- **The directory views.**  Both return and print what they should exactly when every path of a
directory fits into its buffer, or what is left of it names a directory that looks the same; and, for
the tree, what comes before the names fits too. -/
theorem views_iff (fs : FileSystem ι) (dname : List UInt8) (root : ι)
    (h : fs.resolve dname = some root) :
    ((∃ fuel, fs.filemanDir fuel dname =
        .ok (⟨[], dname⟩ :: fs.rendering dirFront root [])) ↔
      fs.PathsFit ⟨dname, root, []⟩) ∧
    ((∃ fuel, fs.filemanTree fuel dname =
        .ok (⟨[], dname⟩ :: fs.rendering treeFront root [])) ↔
      fs.PathsFit ⟨dname, root, []⟩ ∧ fs.SpacersFit ⟨dname, root, []⟩) :=
  ⟨filemanDir_iff h, filemanTree_iff h⟩

/-- The entry `"s"`, a directory. -/
def subdirectory : Dirent Bool := ⟨[115], some false⟩

/-- A directory that has the path `dname`, and nothing in it but an empty directory `"s"`. -/
def nested (dname : List UInt8) : FileSystem Bool where
  entries d := if d then [subdirectory] else []
  resolve path :=
    if path ∈ [dname, dname ++ [slash]] then some true
    else if path ∈ [dname ++ [slash, 115], dname ++ [slash, slash, 115]] then some false
    else none
  resolve_entry path d e c hpath he _ hdir _ := by
    cases d with
    | false => cases he
    | true =>
        obtain rfl := List.mem_singleton.mp he
        obtain rfl : false = c := Option.some.inj hdir
        have hmem : path ∈ [dname, dname ++ [slash]] := by
          by_contra hnot
          rw [if_neg hnot] at hpath
          split at hpath <;> cases hpath
        simp only [List.mem_cons, List.not_mem_nil, or_false] at hmem
        obtain rfl | rfl := hmem
        · simp [subdirectory]
        · simp [subdirectory, slash]
  depth d := if d then 1 else 0
  depth_lt d e c he _ hdir := by
    cases d with
    | false => cases he
    | true =>
        obtain rfl := List.mem_singleton.mp he
        obtain rfl : false = c := Option.some.inj hdir
        decide

theorem visible_nested (dname : List UInt8) : (nested dname).visible true = [subdirectory] := rfl

theorem resolve_nested {dname : List UInt8} (h : path ∈ [dname, dname ++ [slash]]) :
    (nested dname).resolve path = some true := if_pos h

theorem pathsFit_nested : (nested [100]).PathsFit ⟨[100], true, []⟩ := by
  rw [pathsFit_iff]
  rintro y ⟨last, e, hmem, hdir, hpath, -⟩
  have he := mem_of_mem_withLast hmem
  rw [visible_nested, List.mem_singleton] at he
  subst he
  have hlt : y.path.length < pathLen := by
    rw [hpath]
    decide
  refine ⟨fun hlong => absurd hlt (Nat.not_lt.mpr hlong), fun _ => ?_⟩
  rw [pathsFit_iff]
  rintro z ⟨last', e', hmem', -⟩
  have hempty : (nested [100]).visible y.dir = [] := by
    rw [← Option.some.inj hdir]
    rfl
  rw [hempty] at hmem'
  cases hmem'

/-- In the directory `"d"` both directories are printed. -/
theorem views_nested : ∃ fuel, (nested [100]).filemanDir fuel [100] =
    .ok (⟨[], [100]⟩ :: (nested [100]).rendering dirFront true []) :=
  (views_iff (nested [100]) [100] true rfl).1.mpr pathsFit_nested

/-- A path of 58 bytes. -/
def longName : List UInt8 := List.replicate 58 100

/-- What is left of the path of the subdirectory is the path of the directory, and a slash. -/
theorem not_pathsFit_nested : ¬ (nested longName).PathsFit ⟨longName, true, []⟩ := by
  intro hfit
  obtain ⟨d, hresolve, hleaves, -⟩ := hfit _ .refl ⟨longName ++ slash :: [115], false, [true]⟩
    ⟨true, subdirectory, List.mem_singleton.mpr rfl, rfl, rfl, rfl⟩ (by decide)
  have hcut : cut (longName ++ slash :: [115]) = longName ++ [slash] := by decide
  have hroot : (nested longName).resolve (longName ++ [slash]) = some true :=
    resolve_nested (by simp)
  rw [hcut, hroot] at hresolve
  obtain rfl := Option.some.inj hresolve
  exact absurd (hleaves subdirectory (List.mem_singleton.mpr rfl)) (by decide)

/-- There the source does not come to an end. -/
theorem views_endless : (nested longName).resolve longName = some true ∧
    (¬ ∃ fuel, (nested longName).filemanDir fuel longName =
      .ok (⟨[], longName⟩ :: (nested longName).rendering dirFront true [])) ∧
    ¬ ∃ fuel, (nested longName).filemanTree fuel longName =
      .ok (⟨[], longName⟩ :: (nested longName).rendering treeFront true []) := by
  have hroot : (nested longName).resolve longName = some true := resolve_nested (by simp)
  refine ⟨hroot, ?_, ?_⟩
  · rw [filemanDir_iff hroot]
    exact not_pathsFit_nested
  · rw [filemanTree_iff hroot]
    exact fun hfit => not_pathsFit_nested hfit.1

end FileSystem

end CSE130.Assignment6
