import CSE130.Lab3.Components

/-! # `split_path_filename` byte by byte

`split_path_filename` cuts a copy of the path with `strtok_r` and writes each component to the
buffer `directory` once it knows that another one follows; the last component goes to `filename`.
The callers declare the two buffers.  Here the bytes that are written to each of them are kept,
and compared with the parts of the path (`split_preserves_path`) and with the sizes that the
callers declare (`split_inside_buffers`). -/

namespace CSE130.Lab3.Files

open Traced

/-- What `split_path_filename` writes to its two buffers, with the terminators. -/
structure SplitPath where
  directory : List UInt8
  filename : List UInt8
deriving DecidableEq

namespace Buffers

/-- `strlen (last_token)`.  At first `last_token` is the constant `""`; later it is in the copy. -/
def lastLength (size : ℕ) (m : Mem) : Option ℕ → Option ℕ
  | none => some 0
  | some p => strlen m size p

/-- The first `n` bytes at `last_token`. -/
def lastRead (m : Mem) : Option ℕ → ℕ → List UInt8
  | none, n => [0].take n
  | some p, n => m.read p n

/-- The loop of `split_path_filename`: what it writes from `dir` on, and the bytes of the last
token.  The copy has `size` bytes, and the next call of `strtok_r` starts at `s`. -/
def splitLoop (size : ℕ) : ℕ → Mem → ℕ → Option ℕ → Option (List UInt8 × List UInt8)
  | 0, _, _, _ => none
  | fuel + 1, m, s, last => do
      let (token, m, s) ← strtok size m s [slash]
      let tl ← lastLength size m last
      match token with
      | none => some ([], lastRead m last (tl + 1))
      | some t => do
          let (dir, file) ← splitLoop size fuel m s (some t)
          some ((if 0 < tl then lastRead m last tl ++ [slash] else []) ++ dir, file)

/-- `split_path_filename`; `malloc` puts the copy at `s`. -/
def splitPathFilename (m : Mem) (s : ℕ) (path : List UInt8) : Option SplitPath := do
  let l := path.length
  let m := m.write s (path ++ [0])
  let lead := if 0 < l ∧ path.head? = some slash then [slash] else []
  let (dir, file) ← splitLoop (l + 1) (l + 1) m s none
  some ⟨lead ++ dir ++ [0], file⟩

/-- The loop of `dir_open_path` over the tokens: the names for `dir_lookup`, in order. -/
def tokenLoop (size : ℕ) : ℕ → Mem → ℕ → Option (List Name)
  | 0, _, _ => none
  | fuel + 1, m, s => do
      let (token, m, s) ← strtok size m s [slash]
      match token with
      | none => some []
      | some t => do
          let n ← strlen m size t
          let names ← tokenLoop size fuel m s
          some (m.read t n :: names)

/-- The names that `dir_open_path` gets from `path`, with its copy at `s`. -/
def dirOpenPathTokens (m : Mem) (s : ℕ) (path : List UInt8) : Option (List Name) :=
  tokenLoop (path.length + 1) (path.length + 1) (m.write s (path ++ [0])) s

end Buffers

/-- The functions with buffers for `split_path_filename`. -/
inductive SplitCaller where
  | filesysCreate
  | filesysOpen
  | filesysRemove
deriving DecidableEq

/-- The size of `directory` and of `file_name`; `filesys_open` returns at once for `""`. -/
def SplitCaller.declared (path : List UInt8) : SplitCaller → Option ℕ
  | .filesysCreate => some path.length
  | .filesysOpen => if path.length = 0 then none else some (path.length + 1)
  | .filesysRemove => some path.length

/-- Both outputs fit in the buffers of the caller. -/
def StaysInside (c : SplitCaller) (m : Mem) (s : ℕ) (path : List UInt8) : Prop :=
  ∀ n, c.declared path = some n → ∃ w, Buffers.splitPathFilename m s path = some w ∧
    w.directory.length ≤ n ∧ w.filename.length ≤ n

namespace State

/-- `dirLookup`, with a note of the directory and the name. -/
def lookupNamed (st : State) (dir : Sector) (name : Name) :
    Traced Unit (Sector × Name) (Option Sector × State) := do
  access (dir, name)
  ofOption () (st.dirLookup dir name)

/-- `walk`, with its lookups. -/
def walkNamed (st : State) (curr : Sector) :
    List Name → Traced Unit (Sector × Name) (Option Sector × State)
  | [] => pure (some curr, st)
  | token :: rest => do
      let (inode, st) ← st.lookupNamed curr token
      match inode with
      | none => do
          let st ← ofOption () (st.inodeClose curr)
          pure (none, st)
      | some s => do
          let (ok, st) ← ofOption () (st.dirOpen s)
          let st ← ofOption () (st.inodeClose curr)
          if ok then walkNamed st s rest else pure (none, st)

/-- The first part of `dir_open_path`: the directory to start from. -/
def openStart (st : State) (cwd : Option Sector) (path : List UInt8) :
    Traced Unit (Sector × Name) (Sector × State) := do
  let start := if path.head? = some slash then rootDirSector else cwd.getD rootDirSector
  let (ok, st) := st.inodeOpen start
  if ok = false then exit ()
  else do
    let (ok, st) ← ofOption () (st.dirOpen start)
    if ok = false then exit () else pure (start, st)

/-- The last part: a removed directory is not opened. -/
def refuseRemoved (curr : Option Sector) (st : State) :
    Traced Unit (Sector × Name) (Option Sector × State) :=
  match curr with
  | none => pure (none, st)
  | some s => do
      let i ← ofOption () (st.openInodes s)
      if i.removed then do
        let st ← ofOption () (st.inodeClose s)
        pure (none, st)
      else pure (some s, st)

/-- Walk a path: `dirOpenPath`, with its lookups, up to the end of the loop. -/
def walkPathNamed (st : State) (cwd : Option Sector) (path : List UInt8) :
    Traced Unit (Sector × Name) (Option Sector × State) := do
  let (start, st) ← st.openStart cwd path
  st.walkNamed start (tokens path)

/-- `dirOpenPath`, with its lookups. -/
def dirOpenPathNamed (st : State) (cwd : Option Sector) (path : List UInt8) :
    Traced Unit (Sector × Name) (Option Sector × State) := do
  let (curr, st) ← st.walkPathNamed cwd path
  refuseRemoved curr st

end State

/-- The two outputs are the path: the same components, from the same directory on, and the same
lookups as on a walk over the whole path. -/
structure SplitsPath (m : Mem) (s : ℕ) (path directory filename : List UInt8) : Prop where
  written : Buffers.splitPathFilename m s path = some ⟨directory ++ [0], filename ++ [0]⟩
  strings : 0 ∉ directory ∧ 0 ∉ filename
  components : ∀ m' s', ∃ names, Buffers.dirOpenPathTokens m' s' directory = some names ∧
    names ++ (if filename = [] then [] else [filename]) =
      (path.splitOn slash).filter (· ≠ [])
  empty : filename = [] ↔ (path.splitOn slash).filter (· ≠ []) = []
  absolute : directory.head? = some slash ↔ path.head? = some slash
  component : slash ∉ filename
  /-- `dir_open_path (directory)` arrives at a directory, where `filename` is looked up. -/
  found : ∀ (st : State) cwd d st', (st.dirOpenPathNamed cwd directory).result = .ok (some d, st') →
    (st.walkPathNamed cwd path).log = (st.dirOpenPathNamed cwd directory).log ++
      (if filename = [] then [] else [(d, filename)])
  /-- The walk over `directory` ends early, and so does the one over the whole path. -/
  lost : ∀ (st : State) cwd, (∀ d st', (st.walkPathNamed cwd directory).result ≠ .ok (some d, st')) →
    (st.walkPathNamed cwd path).log = (st.dirOpenPathNamed cwd directory).log

variable {m : Mem} {s size fuel : ℕ} {path cmd : List UInt8} {last : Option ℕ} {t : Name}
  {ts : List Name}

/-! ### The loops -/

/-- `last_token` is the string `t`, which ends before the position `s` saved. -/
def LastToken (size : ℕ) (m : Mem) (s : ℕ) : Option ℕ → Name → Prop
  | none, t => t = []
  | some p, t => m.IsString p t ∧ p + t.length ≤ s ∧ t.length < size

theorem LastToken.length (h : LastToken size m s last t) :
    Buffers.lastLength size m last = some t.length := by
  cases last with
  | none =>
      cases h
      rfl
  | some p => exact strlen_spec h.1 h.2.2

theorem LastToken.read_all (h : LastToken size m s last t) :
    Buffers.lastRead m last (t.length + 1) = t ++ [0] := by
  cases last with
  | none =>
      cases h
      rfl
  | some p => exact h.1.read

theorem LastToken.read (h : LastToken size m s last t) :
    Buffers.lastRead m last t.length = t := by
  cases last with
  | none =>
      cases h
      rfl
  | some p =>
      have hall := h.1.read
      rw [Mem.read_add] at hall
      exact (List.append_inj hall (by simp)).1

theorem LastToken.before {m' : Mem} (h : LastToken size m s last t)
    (hm : ∀ x, m' x ≠ m x → s ≤ x ∧ m' x = 0) : LastToken size m' s last t := by
  cases last with
  | none => exact h
  | some p => exact ⟨h.1.before h.2.1 hm, h.2⟩

/-- The loop writes the tokens but the last one, each with a slash behind it.  At first the last
token is empty, and an empty one is not written. -/
theorem splitLoop_spec : ∀ {fuel : ℕ} {m : Mem} {s : ℕ} {cmd : List UInt8} {last : Option ℕ}
    {t : Name} {ts : List Name}, m.IsString s cmd → cmd.length < size → cmd.length < fuel →
    tokens cmd = ts → LastToken size m s last t →
    Buffers.splitLoop size fuel m s last =
      some (joined ((t :: ts).dropLast.filter (· ≠ [])), ts.getLastD t ++ [0])
  | fuel + 1, m, s, cmd, last, t, [], hs, hl, _, htok, hlast => by
      obtain ⟨s', hcall⟩ := strtok_none (by decide) hs hl htok
      unfold Buffers.splitLoop
      rw [hcall, Option.bind_eq_bind, Option.bind_some]
      dsimp only
      rw [hlast.length, Option.bind_eq_bind, Option.bind_some, hlast.read_all]
      rfl
  | fuel + 1, m, s, cmd, last, t, u :: us, hs, hl, hfuel, htok, hlast => by
      obtain ⟨p, m', s', cmd', hcall, hcut⟩ := strtok_some (by decide) hs hl htok
      have := hcut.start
      have := hcut.save
      have := hcut.stop
      have hshorter := hcut.shorter
      have hlast' := hlast.before hcut.others
      have hnext : LastToken size m' s' (some p) u := ⟨hcut.token, hcut.save, by omega⟩
      have ih := splitLoop_spec hcut.rest (by omega) (show cmd'.length < fuel by omega)
        hcut.pieces hnext
      unfold Buffers.splitLoop
      rw [hcall, Option.bind_eq_bind, Option.bind_some]
      dsimp only
      rw [hlast'.length, Option.bind_eq_bind, Option.bind_some, hlast'.read, ih, Option.bind_eq_bind, Option.bind_some, List.getLastD_cons]
      dsimp only
      rw [List.dropLast_cons_cons, List.filter_cons]
      by_cases ht : t = []
      · rw [ht]
        rfl
      · rw [if_pos (List.length_pos_iff.mpr ht), if_pos (by simpa using ht)]
        rfl

theorem tokenLoop_spec : ∀ {fuel : ℕ} {m : Mem} {s : ℕ} {cmd : List UInt8} {ts : List Name},
    m.IsString s cmd → cmd.length < size → cmd.length < fuel → tokens cmd = ts →
    Buffers.tokenLoop size fuel m s = some ts
  | fuel + 1, m, s, cmd, [], hs, hl, _, htok => by
      obtain ⟨s', hcall⟩ := strtok_none (by decide) hs hl htok
      unfold Buffers.tokenLoop
      rw [hcall]
      rfl
  | fuel + 1, m, s, cmd, u :: us, hs, hl, hfuel, htok => by
      obtain ⟨p, m', s', cmd', hcall, hcut⟩ := strtok_some (by decide) hs hl htok
      have := hcut.start
      have := hcut.save
      have := hcut.stop
      have hshorter := hcut.shorter
      have hread : LastToken size m' s' (some p) u := ⟨hcut.token, hcut.save, by omega⟩
      have ih := tokenLoop_spec hcut.rest (by omega) (show cmd'.length < fuel by omega)
        hcut.pieces
      unfold Buffers.tokenLoop
      rw [hcall, Option.bind_eq_bind, Option.bind_some]
      dsimp only
      rw [strlen_spec hcut.token (by omega), Option.bind_eq_bind, Option.bind_some, ih,
        Option.bind_eq_bind, Option.bind_some]
      exact congrArg (fun t => some (t :: us)) hread.read

theorem copy_isString (hp : 0 ∉ path) : (m.write s (path ++ [0])).IsString s path := by
  have hread := @Mem.read_write_self m s (path ++ [0])
  rw [List.length_append, List.length_singleton] at hread
  exact ⟨hread, hp⟩

theorem dirOpenPathTokens_eq (hp : 0 ∉ path) :
    Buffers.dirOpenPathTokens m s path = some (tokens path) :=
  tokenLoop_spec (copy_isString hp) (Nat.lt_succ_self _) (Nat.lt_succ_self _) rfl

theorem split_eq (hp : 0 ∉ path) : Buffers.splitPathFilename m s path =
    some ⟨(splitPathFilename path).1 ++ [0], (splitPathFilename path).2 ++ [0]⟩ := by
  have hloop : Buffers.splitLoop (path.length + 1) (path.length + 1) (m.write s (path ++ [0])) s
      none = some (joined ((([] : Name) :: tokens path).dropLast.filter (· ≠ [])),
        (tokens path).getLastD [] ++ [0]) :=
    splitLoop_spec (copy_isString hp) (Nat.lt_succ_self _) (Nat.lt_succ_self _) rfl rfl
  have hlead : (0 < path.length ∧ path.head? = some slash) ↔ path.head? = some slash := by
    refine and_iff_right_of_imp fun h => ?_
    cases path with
    | nil => cases h
    | cons c path => exact Nat.succ_pos _
  have hdir : (([] : Name) :: tokens path).dropLast.filter (· ≠ []) = (tokens path).dropLast := by
    cases hts : tokens path with
    | nil => rfl
    | cons u us =>
        rw [List.dropLast_cons_cons, List.filter_cons_of_neg (by simp), List.filter_eq_self]
        intro t ht
        have hmem : t ∈ tokens path := hts ▸ List.mem_of_mem_dropLast ht
        exact decide_eq_true (component_of_mem hmem).1
  unfold Buffers.splitPathFilename splitPathFilename
  dsimp only
  rw [hloop, hdir, Option.bind_eq_bind, Option.bind_some]
  simp only [hlead]
  rfl

/-! ### The outputs and the path -/

theorem head_split : (splitPathFilename path).1.head? = some slash ↔
    path.head? = some slash := by
  unfold splitPathFilename
  dsimp only
  split_ifs with h
  · exact ⟨fun _ => h, fun _ => rfl⟩
  · refine ⟨fun hd => ?_, fun hp => absurd hp h⟩
    rw [List.nil_append] at hd
    cases hts : (tokens path).dropLast with
    | nil =>
        rw [hts] at hd
        cases hd
    | cons t ts =>
        have hmem : t ∈ (tokens path).dropLast := hts ▸ List.mem_cons_self
        rw [hts] at hd
        exact absurd hd (joined_head (component_of_mem (List.mem_of_mem_dropLast hmem)))

theorem tokens_split : tokens (splitPathFilename path).1 = (tokens path).dropLast := by
  have hjoined : tokens (joined (tokens path).dropLast) = (tokens path).dropLast :=
    tokens_joined fun t ht => component_of_mem (List.mem_of_mem_dropLast ht)
  unfold splitPathFilename
  dsimp only
  split_ifs
  · rw [List.singleton_append, tokens_slash]
    exact hjoined
  · exact hjoined

theorem filename_cases (path : List UInt8) :
    (tokens path = [] ∧ (splitPathFilename path).2 = []) ∨
      ∃ ts t, tokens path = ts ++ [t] ∧ Component t ∧ (splitPathFilename path).2 = t := by
  unfold splitPathFilename
  dsimp only
  obtain hts | ⟨ts, t, hts⟩ := List.eq_nil_or_concat' (tokens path)
  · exact .inl ⟨hts, by rw [hts]; rfl⟩
  · have hmem : t ∈ tokens path := hts ▸ List.mem_concat_self
    exact .inr ⟨ts, t, hts, component_of_mem hmem, by rw [hts, List.getLastD_concat]⟩

theorem tokens_split_append (path : List UInt8) : tokens (splitPathFilename path).1 ++
    (if (splitPathFilename path).2 = [] then [] else [(splitPathFilename path).2]) =
      tokens path := by
  rw [tokens_split]
  obtain ⟨hts, hf⟩ | ⟨ts, t, hts, ht, hf⟩ := filename_cases path
  · rw [hts, if_pos hf]
    rfl
  · rw [hf, if_neg ht.1, hts, List.dropLast_concat]

theorem filename_empty : (splitPathFilename path).2 = [] ↔ tokens path = [] := by
  obtain ⟨hts, hf⟩ | ⟨ts, t, hts, ht, hf⟩ := filename_cases path
  · exact ⟨fun _ => hts, fun _ => hf⟩
  · rw [hf, hts]
    exact ⟨fun h => absurd h ht.1, fun h => absurd h (List.append_ne_nil_of_right_ne_nil ts (List.cons_ne_nil t []))⟩

theorem slash_notMem_filename : slash ∉ (splitPathFilename path).2 := by
  obtain ⟨-, hf⟩ | ⟨ts, t, -, ht, hf⟩ := filename_cases path
  · rw [hf]
    exact List.not_mem_nil
  · rw [hf]
    exact ht.2

theorem mem_split {c : UInt8} (h : c ∈ (splitPathFilename path).1 ∨ c ∈ (splitPathFilename path).2)
    (hc : c ≠ slash) : c ∈ path := by
  have htoken : ∀ t ∈ tokens path, c ∈ t → c ∈ path := fun t ht hct =>
    (mem_pieces ht).2.2.mem hct
  obtain h | h := h
  · unfold splitPathFilename at h
    dsimp only at h
    obtain h | h := List.mem_append.mp h
    · split_ifs at h
      · exact absurd (List.mem_singleton.mp h) hc
      · cases h
    · obtain ⟨t, ht, hct⟩ := List.mem_flatMap.mp h
      obtain hct | hct := List.mem_append.mp hct
      · exact htoken t (List.mem_of_mem_dropLast ht) hct
      · exact absurd (List.mem_singleton.mp hct) hc
  · obtain ⟨-, hf⟩ | ⟨ts, t, hts, -, hf⟩ := filename_cases path
    · rw [hf] at h
      cases h
    · rw [hf] at h
      exact htoken t (hts ▸ List.mem_concat_self) h

/-! ### The walk -/

theorem walkNamed_value : ∀ (tokens : List Name) (st : State) (curr : Sector),
    (st.walkNamed curr tokens).value = st.walk curr tokens
  | [], _, _ => rfl
  | token :: rest, st, curr => by
      unfold State.walkNamed State.walk State.lookupNamed
      simp only [value_bind, value_access, value_ofOption, Option.bind_some]
      congr 1
      funext x
      obtain ⟨inode, st₁⟩ := x
      cases inode with
      | none =>
          dsimp only
          rw [value_bind_pure, value_ofOption]
      | some s =>
          simp only [value_bind, value_ofOption]
          congr 1
          funext y
          congr 1
          funext st₂
          split_ifs
          · exact walkNamed_value rest st₂ s
          · rfl

theorem dirOpenPathNamed_value (st : State) (cwd : Option Sector) (path : List UInt8) :
    (st.dirOpenPathNamed cwd path).value = st.dirOpenPath cwd path := by
  unfold State.dirOpenPathNamed State.walkPathNamed State.openStart State.dirOpenPath
  dsimp only
  generalize (if path.head? = some slash then rootDirSector else cwd.getD rootDirSector) = start
  split_ifs
  · rfl
  · simp only [value_bind, value_ofOption, Option.bind_assoc]
    congr 1
    funext x
    split_ifs
    · rfl
    · simp only [value_pure, Option.bind_some, walkNamed_value]
      congr 1
      funext y
      obtain ⟨found, st₁⟩ := y
      cases found with
      | none => rfl
      | some s =>
          unfold State.refuseRemoved
          simp only [value_bind, value_ofOption]
          congr 1
          funext i
          split_ifs
          · rw [value_bind_pure, value_ofOption]
          · rfl

/-- A walk over two lists of names is a walk over the first one, then over the second. -/
theorem walkNamed_append : ∀ (ts us : List Name) (st : State) (curr : Sector),
    st.walkNamed curr (ts ++ us) = (st.walkNamed curr ts >>= fun (r, st) =>
      match r with
      | none => pure (none, st)
      | some d => st.walkNamed d us)
  | [], us, st, curr => (Traced.pure_bind _ _).symm
  | token :: ts, us, st, curr => by
      rw [List.cons_append, State.walkNamed, State.walkNamed, Traced.bind_assoc]
      congr 1
      funext x
      obtain ⟨inode, st₁⟩ := x
      cases inode with
      | none =>
          dsimp only
          rw [Traced.bind_assoc]
          rfl
      | some s =>
          dsimp only
          rw [Traced.bind_assoc]
          congr 1
          funext y
          rw [Traced.bind_assoc]
          congr 1
          funext st₂
          split_ifs
          · exact walkNamed_append ts us st₂ s
          · rfl

theorem ofOption_log {α : Type} (o : Option α) :
    (ofOption () o : Traced Unit (Sector × Name) α).log = [] := by
  cases o with
  | none => rfl
  | some a => rfl

theorem bind_log_right {α β : Type} {x : Traced Unit (Sector × Name) α}
    {f : α → Traced Unit (Sector × Name) β} (hf : ∀ a, (f a).log = []) : (x >>= f).log = x.log := by
  cases h : x.result with
  | error c => rw [bind_of_error h]
  | ok a => rw [bind_of_ok h, hf, List.append_nil]

theorem refuseRemoved_log (curr : Option Sector) (st : State) :
    (State.refuseRemoved curr st).log = [] := by
  cases curr with
  | none => rfl
  | some s =>
      unfold State.refuseRemoved
      rw [bind_log_right fun i => ?_, ofOption_log]
      split_ifs
      · rw [bind_log_right fun _ => rfl, ofOption_log]
      · rfl

theorem dirOpenPathNamed_log (st : State) (cwd : Option Sector) (path : List UInt8) :
    (st.dirOpenPathNamed cwd path).log = (st.walkPathNamed cwd path).log :=
  bind_log_right fun x => refuseRemoved_log x.1 x.2

theorem walkNamed_one_log (st : State) (d : Sector) (name : Name) :
    (st.walkNamed d [name]).log = [(d, name)] := by
  rw [State.walkNamed, bind_log_right fun x => ?_]
  · unfold State.lookupNamed
    rw [bind_log_right fun _ => ofOption_log _]
    rfl
  · obtain ⟨inode, st₁⟩ := x
    cases inode with
    | none =>
        dsimp only
        rw [bind_log_right fun _ => rfl, ofOption_log]
    | some s =>
        dsimp only
        rw [bind_log_right fun y => ?_, ofOption_log]
        rw [bind_log_right fun st₂ => ?_, ofOption_log]
        split_ifs
        · rfl
        · rfl

/-- The walk over the path is the walk over the directory, then one step. -/
theorem walkPathNamed_split (st : State) (cwd : Option Sector) (path : List UInt8) :
    st.walkPathNamed cwd path =
      (st.walkPathNamed cwd (splitPathFilename path).1 >>= fun (r, st) =>
        match r with
        | none => pure (none, st)
        | some d => st.walkNamed d
            (if (splitPathFilename path).2 = [] then [] else [(splitPathFilename path).2])) := by
  have hstart : st.openStart cwd (splitPathFilename path).1 = st.openStart cwd path := by
    unfold State.openStart
    simp only [head_split]
  unfold State.walkPathNamed
  rw [hstart, Traced.bind_assoc, ← tokens_split_append path]
  congr 1
  funext x
  exact walkNamed_append _ _ x.2 x.1

/-- Splitting a path keeps it. -/
theorem split_preserves_path (m : Mem) (s : ℕ) (path : List UInt8) (hp : 0 ∉ path) :
    ∃ directory filename, SplitsPath m s path directory filename := by
  have hdir : 0 ∉ (splitPathFilename path).1 := fun h => hp (mem_split (.inl h) (by decide))
  refine ⟨(splitPathFilename path).1, (splitPathFilename path).2, {
    written := split_eq hp
    strings := ⟨hdir, fun h => hp (mem_split (.inr h) (by decide))⟩
    components := fun m' s' => ⟨_, dirOpenPathTokens_eq hdir, tokens_split_append path⟩
    empty := filename_empty
    absolute := head_split
    component := slash_notMem_filename
    found := fun st cwd d st' h => ?_
    lost := fun st cwd h => ?_ }⟩
  · obtain ⟨⟨r, st₁⟩, hwalk, hend⟩ := result_bind_eq_ok.mp h
    obtain rfl : r = some d := by
      cases r with
      | none => cases hend
      | some c =>
          obtain ⟨i, -, hend⟩ := result_bind_eq_ok.mp hend
          split_ifs at hend
          · obtain ⟨st₂, -, hend⟩ := result_bind_eq_ok.mp hend
            cases hend
          · cases hend
            rfl
    rw [dirOpenPathNamed_log, walkPathNamed_split, bind_of_ok hwalk]
    dsimp only
    split_ifs
    · rfl
    · rw [walkNamed_one_log]
  · rw [dirOpenPathNamed_log, walkPathNamed_split]
    cases hwalk : (st.walkPathNamed cwd (splitPathFilename path).1).result with
    | error c => rw [bind_of_error hwalk]
    | ok x =>
        obtain ⟨r, st₁⟩ := x
        cases r with
        | none =>
            rw [bind_of_ok hwalk]
            exact List.append_nil _
        | some d => exact absurd hwalk (h d st₁)

/-- `"/home//notes.txt"`. -/
theorem split_preserves_path_notes : ∃ directory filename, SplitsPath (fun _ => 0) 100
    [47, 104, 111, 109, 101, 47, 47, 110, 111, 116, 101, 115, 46, 116, 120, 116]
    directory filename :=
  split_preserves_path _ _ _ (by decide)

/-! ### The buffers of the callers -/

theorem length_joined : ∀ ts : List Name, (joined ts).length = stringsSize ts
  | [] => rfl
  | t :: ts => by
      rw [stringsSize_cons, ← length_joined ts]
      unfold joined
      rw [List.flatMap_cons, List.length_append, List.length_append, List.length_singleton]

theorem stringsSize_append (ts us : List Name) :
    stringsSize (ts ++ us) = stringsSize ts + stringsSize us := by
  unfold stringsSize
  rw [List.map_append, List.sum_append]

theorem stringsSize_count : ∀ ts : List Name,
    stringsSize (ts.filter (· ≠ [])) + ts.count [] = stringsSize ts
  | [] => rfl
  | t :: ts => by
      have ih := stringsSize_count ts
      rw [stringsSize_cons, List.count_cons, ← ih]
      by_cases ht : t = []
      · rw [List.filter_cons_of_neg (by simpa using ht), ht]
        simp only [beq_self_eq_true, if_true, List.length_nil]
        omega
      · rw [List.filter_cons_of_pos (by simpa using ht), stringsSize_cons,
          if_neg (by simpa using ht)]
        omega

theorem length_count : ∀ ts : List Name,
    (ts.filter (· ≠ [])).length + ts.count [] = ts.length
  | [] => rfl
  | t :: ts => by
      have ih := length_count ts
      rw [List.count_cons, List.length_cons, ← ih]
      by_cases ht : t = []
      · rw [List.filter_cons_of_neg (by simpa using ht), ht]
        simp only [beq_self_eq_true, if_true]
        omega
      · rw [List.filter_cons_of_pos (by simpa using ht), List.length_cons,
          if_neg (by simpa using ht)]
        omega

theorem slash_mem_iff (path : List UInt8) : slash ∈ path ↔ 1 < (path.splitOn slash).length := by
  constructor
  · intro h
    obtain ⟨a, b, rfl⟩ := List.append_of_mem h
    rw [List.splitOn_append_cons_self, List.length_append]
    have ha := List.length_pos_iff.mpr (List.splitOn_ne_nil slash a)
    have hb := List.length_pos_iff.mpr (List.splitOn_ne_nil slash b)
    omega
  · intro h
    by_contra hs
    rw [List.splitOn_eq_singleton hs] at h
    exact Nat.lt_irrefl 1 h

/-- The two strings are never longer than the path, and both are shorter if there is a slash in
it, unless this is all. -/
theorem split_sizes (path : List UInt8) :
    ((splitPathFilename path).1.length ≤ path.length ∧
      (splitPathFilename path).2.length ≤ path.length) ∧
    ((splitPathFilename path).1.length < path.length ∧
      (splitPathFilename path).2.length < path.length ↔ slash ∈ path ∧ path ≠ [slash]) := by
  have hsum : stringsSize (tokens path) + (path.splitOn slash).count [] = path.length + 1 :=
    (stringsSize_count _).trans (stringsSize_splitOn path)
  have hparts : (tokens path).length + (path.splitOn slash).count [] =
      (path.splitOn slash).length := length_count _
  have hslash := slash_mem_iff path
  -- a leading slash is one byte, and an empty part of the path
  obtain ⟨lead, hdir, hone, hlead, hempty⟩ : ∃ lead, (splitPathFilename path).1.length =
      lead + stringsSize (tokens path).dropLast ∧ lead ≤ 1 ∧ lead ≤ path.length ∧
      lead ≤ (path.splitOn slash).count [] := by
    unfold splitPathFilename
    dsimp only
    split_ifs with h
    · obtain ⟨rest, rfl⟩ := List.head?_eq_some_iff.mp h
      refine ⟨1, ?_, Nat.le_refl 1, Nat.succ_pos _, List.count_pos_iff.mpr ?_⟩
      · rw [List.length_append, ← length_joined]
        rfl
      · rw [List.splitOn_cons_eq_if_modifyHead, if_pos (beq_self_eq_true slash)]
        exact List.mem_cons_self
    · exact ⟨0, by rw [List.nil_append, ← length_joined, Nat.zero_add]; rfl, Nat.zero_le 1,
        Nat.zero_le _, Nat.zero_le _⟩
  obtain ⟨hts, hf⟩ | ⟨ts, t, hts, ht, hf⟩ := filename_cases path
  · -- only slashes
    have hzero : stringsSize ([] : List Name) = 0 := rfl
    rw [hts, hzero] at hsum
    rw [hts, List.length_nil] at hparts
    rw [hts, List.dropLast_nil, hzero] at hdir
    have hshort : path = [slash] ↔ path.length = 1 := by
      refine ⟨fun h => by rw [h]; rfl, fun h => ?_⟩
      obtain ⟨c, rfl⟩ := List.length_eq_one_iff.mp h
      have hmem : slash ∈ [c] := hslash.mpr (by omega)
      rw [List.mem_singleton.mp hmem]
    have hlone : path = [slash] → lead = 1 := by
      rintro rfl
      have hone : (splitPathFilename [slash]).1.length = 1 := rfl
      omega
    rw [hf, hdir, List.length_nil, hslash, ne_eq, hshort]
    rw [hshort] at hlone
    omega
  · have htpos := List.length_pos_iff.mpr ht.1
    have hlast : stringsSize [t] = t.length + 1 := rfl
    have hle := length_le_stringsSize ts
    have hnone : ts.length = 0 → stringsSize ts = 0 := fun h => by
      rw [List.length_eq_zero_iff.mp h]
      rfl
    have hne : path ≠ [slash] := by
      rintro rfl
      exact absurd hts (List.append_ne_nil_of_right_ne_nil ts (List.cons_ne_nil t [])).symm
    rw [hts, stringsSize_append, hlast] at hsum
    rw [hts, List.length_append, List.length_singleton] at hparts
    rw [hts, List.dropLast_concat] at hdir
    rw [hf, hdir, hslash, and_iff_left hne]
    omega

/-- `split_path_filename` stays inside the buffers of `filesys_open`; those of the other two are
one byte too short for a path without a slash and for `"/"`. -/
theorem split_inside_buffers (c : SplitCaller) (m : Mem) (s : ℕ) (path : List UInt8)
    (hp : 0 ∉ path) :
    StaysInside c m s path ↔ c = .filesysOpen ∨ (slash ∈ path ∧ path ≠ [slash]) := by
  obtain ⟨⟨hdir, hfile⟩, hshort⟩ := split_sizes path
  have hfits : ∀ n, (∃ w, Buffers.splitPathFilename m s path = some w ∧ w.directory.length ≤ n ∧
      w.filename.length ≤ n) ↔ (splitPathFilename path).1.length < n ∧
        (splitPathFilename path).2.length < n := by
    intro n
    rw [split_eq hp]
    constructor
    · rintro ⟨w, hw, hd, hf⟩
      cases hw
      rw [List.length_append] at hd hf
      exact ⟨hd, hf⟩
    · rintro ⟨hd, hf⟩
      exact ⟨_, rfl, by rw [List.length_append]; exact hd, by rw [List.length_append]; exact hf⟩
  unfold StaysInside
  simp only [hfits]
  cases c with
  | filesysOpen =>
      refine iff_of_true (fun n hn => ?_) (.inl rfl)
      unfold SplitCaller.declared at hn
      split_ifs at hn
      cases hn
      omega
  | filesysCreate =>
      simp only [SplitCaller.declared, Option.some.injEq, forall_eq', hshort, reduceCtorEq,
        false_or]
  | filesysRemove =>
      simp only [SplitCaller.declared, Option.some.injEq, forall_eq', hshort, reduceCtorEq,
        false_or]

/-- `"a/b"` in `filesys_create`. -/
theorem split_inside_buffers_nested :
    StaysInside .filesysCreate (fun _ => 0) 100 [97, 47, 98] :=
  (split_inside_buffers _ _ _ _ (by decide)).mpr (by decide)

/-- `"a"` in `filesys_create`: `file_name` is an array of one byte, and two are written. -/
theorem split_inside_buffers_name : ¬ ∀ (c : SplitCaller) (m : Mem) (s : ℕ) (path : List UInt8),
    0 ∉ path → StaysInside c m s path := by
  intro h
  have hrun : Buffers.splitPathFilename (fun _ => 0) 100 [97] = some ⟨[0], [97, 0]⟩ := by decide
  obtain ⟨w, hw, -, hfile⟩ := h .filesysCreate (fun _ => 0) 100 [97] (by decide) 1 rfl
  rw [hrun] at hw
  cases hw
  exact absurd hfile (by decide)

end CSE130.Lab3.Files
