import CSE130.Lab3.Names
import CSE130.Lab3.Strtok
import CSE130.Lib.Traced
import Mathlib.Logic.Relation

/-! # What a path goes through

The loop of `dir_open_path` looks up one component after the other and takes the inode that it
finds for the next directory.  Nothing there looks at `is_dir`.  Here the loop logs the inodes
whose bytes it reads as entries and those that it descends into: these are directories on every
path exactly when no name leads to anything else (`paths_through_directories`). -/

namespace CSE130.Lab3.Files

open BlockTree Transition Traced
open Function (update)

/-- What the loop does with an inode: `dir_lookup` reads its bytes as entries, or `dir_open` takes
it for a directory. -/
inductive Visit where
  | scan (s : Sector)
  | enter (s : Sector)
  deriving DecidableEq

/-- The inode. -/
def Visit.sector : Visit → Sector
  | .scan s => s
  | .enter s => s

namespace State

/-- `dirLookup`, with its visit.  The name `"."` is answered without a look at the entries. -/
def dirLookupLog (st : State) (dir : Sector) (name : Name) :
    Traced Unit Visit (Option Sector × State) := do
  (if name = dot then pure () else access (.scan dir))
  ofOption () (st.dirLookup dir name)

/-- `walk`, with its visits. -/
def walkLog (st : State) (curr : Sector) :
    List Name → Traced Unit Visit (Option Sector × State)
  | [] => pure (some curr, st)
  | token :: rest => do
      let (inode, st) ← st.dirLookupLog curr token
      match inode with
      | none => do
          let st ← ofOption () (st.inodeClose curr)
          pure (none, st)
      | some s => do
          access (.enter s)
          let (ok, st) ← ofOption () (st.dirOpen s)
          let st ← ofOption () (st.inodeClose curr)
          if ok then walkLog st s rest else pure (none, st)

/-- `dirOpenPath`, with the visits of its loop. -/
def dirOpenPathLog (st : State) (cwd : Option Sector) (path : List UInt8) :
    Traced Unit Visit (Option Sector × State) := do
  let start := if path.head? = some slash then rootDirSector else cwd.getD rootDirSector
  let (ok, st) := st.inodeOpen start
  if ok = false then exit ()
  else do
    let (ok, st) ← ofOption () (st.dirOpen start)
    if ok = false then exit ()
    else do
      let (curr, st) ← st.walkLog start (tokens path)
      match curr with
      | none => pure (none, st)
      | some s => do
          let i ← ofOption () (st.openInodes s)
          if i.removed then do
            let st ← ofOption () (st.inodeClose s)
            pure (none, st)
          else pure (some s, st)

end State

/-- `dir_open_path` reads the entries of directories only, and where it succeeds, each component
is a directory. -/
structure WalksDirectories (st : State) (cwd : Option Sector) (path : List UInt8) : Prop where
  scans : (st.dirOpenPathLog cwd path).Only fun v => ∀ s, v = .scan s → (st.dataOf s).isDir = true
  enters : ∀ r st', (st.dirOpenPathLog cwd path).result = .ok (some r, st') →
    (st.dirOpenPathLog cwd path).Only fun v => ∀ s, v = .enter s → (st.dataOf s).isDir = true

/-- A component of a path. -/
def Component (name : Name) : Prop := name ≠ [] ∧ slash ∉ name

/-- A name in `dir` that leads to `s`, as far as the device reaches. -/
def Entry (st : State) (dir s : Sector) : Prop :=
  ∃ name, Component name ∧ target st dir name = some s ∧ (name ≠ dot → s < st.size)

/-- The names lead from one directory to the other. -/
abbrev Leads (st : State) : Sector → Sector → Prop := Relation.ReflTransGen (Entry st)

variable {st st' st₁ : State} {s t dir curr start : Sector} {name : Name} {r : Option Sector}
  {heap : ℕ → Bool} {f : Bool} {cwd : Option Sector} {path : List UInt8} {i : Inode}

/-! ### The log leaves the results alone -/

theorem dirLookupLog_value : (st.dirLookupLog dir name).value = st.dirLookup dir name := by
  unfold State.dirLookupLog
  rw [value_bind]
  split_ifs
  · rw [value_pure, Option.bind_some, value_ofOption]
  · rw [value_access, Option.bind_some, value_ofOption]

theorem walkLog_value : ∀ (tokens : List Name) (st : State) (curr : Sector),
    (st.walkLog curr tokens).value = st.walk curr tokens
  | [], _, _ => rfl
  | token :: rest, st, curr => by
      unfold State.walkLog State.walk
      rw [value_bind, dirLookupLog_value]
      congr 1
      funext x
      obtain ⟨inode, st₁⟩ := x
      cases inode with
      | none =>
          dsimp only
          rw [value_bind_pure, value_ofOption]
      | some s =>
          simp only [value_bind, value_ofOption, value_access, Option.bind_some]
          congr 1
          funext y
          congr 1
          funext st₂
          split_ifs
          · exact walkLog_value rest st₂ s
          · rfl

theorem dirOpenPathLog_value :
    (st.dirOpenPathLog cwd path).value = st.dirOpenPath cwd path := by
  unfold State.dirOpenPathLog State.dirOpenPath
  dsimp only
  generalize (if path.head? = some slash then rootDirSector else cwd.getD rootDirSector) = start
  split_ifs
  · rfl
  · simp only [value_bind, value_ofOption]
    congr 1
    funext x
    split_ifs
    · rfl
    · simp only [value_bind, walkLog_value]
      congr 1
      funext y
      obtain ⟨found, st₁⟩ := y
      cases found with
      | none => rfl
      | some s =>
          simp only [value_bind, value_ofOption]
          congr 1
          funext i
          split_ifs
          · rw [value_bind_pure, value_ofOption]
          · rfl

/-! ### With memory -/

theorem malloc_true (st : State) :
    (st.drift (fun _ => true) f).malloc = (true, st.drift (fun _ => true) f) := by
  unfold State.malloc State.drift
  simp

theorem inodeOpen_true (st : State) (s : Sector) :
    (st.drift (fun _ => true) f).inodeOpen s = (true, (st.drift (fun _ => true) f).opened s) := by
  unfold State.inodeOpen State.opened
  cases hi : (st.drift (fun _ => true) f).openInodes s with
  | some i => rfl
  | none =>
      dsimp only
      rw [malloc_true]
      rfl

theorem dirOpen_true (st : State) (s : Sector) :
    (st.drift (fun _ => true) f).dirOpen s = some (true, st.drift (fun _ => true) f) := by
  unfold State.dirOpen
  rw [malloc_true]
  rfl

theorem close_opened (h : Counted st) (s : Sector) : (st.opened s).inodeClose s = some st := by
  have hclose : ((st.opened s).inodeClose s).isSome := by
    unfold State.inodeClose
    rw [opened_self]
    cases hi : st.openInodes s with
    | none => rfl
    | some i =>
        dsimp only
        rw [Nat.add_sub_cancel, if_neg (h s i hi)]
        rfl
  obtain ⟨st', hst'⟩ := Option.isSome_iff_exists.mp hclose
  rw [hst', opened_close h hst']

theorem close_first_opened (h : Counted st) (s t : Sector) :
    ((st.opened s).opened t).inodeClose s = some (st.opened t) := by
  rw [opened_comm]
  exact close_opened h.opened s

theorem openSector_true (st : State) {s : Sector} (hs : s < st.size) :
    (st.drift (fun _ => true) f).openSector s =
      some (true, (st.drift (fun _ => true) f).opened s) := by
  unfold State.openSector
  rw [inodeOpen_true]
  exact if_neg fun h => UInt32.not_lt.mpr h.2 hs

theorem dirLookup_true (hi : st.openInodes dir = some i) (ht : target st dir name = some s)
    (hs : name ≠ dot → s < st.size) :
    (st.drift (fun _ => true) f).dirLookup dir name =
      some (some s, (st.drift (fun _ => true) f).opened s) := by
  unfold State.dirLookup
  rw [show (st.drift (fun _ => true) f).openInodes dir = some i from hi, Option.bind_eq_bind,
    Option.bind_some]
  unfold target at ht
  rw [dataOf_open hi] at ht
  by_cases hdot : name = dot
  · rw [if_pos hdot] at ht ⊢
    cases ht
    rw [inodeOpen_true]
  rw [if_neg hdot] at ht ⊢
  have hopen := openSector_true (f := f) st (hs hdot)
  by_cases hdots : name = dotDot
  · rw [if_pos hdots] at ht ⊢
    rw [drift_disk]
    dsimp only at ht ⊢
    split_ifs at ht ⊢ with hread
    cases ht
    simp only [Option.bind_eq_bind, Option.bind_some]
    rw [hopen]
    rfl
  · rw [if_neg hdots] at ht ⊢
    obtain ⟨x, hx, rfl⟩ := Option.map_eq_some_iff.mp ht
    rw [drift_disk, hx]
    simp only [Option.bind_eq_bind, Option.bind_some, Option.map_some]
    rw [hopen]
    rfl

/-! ### Path strings -/

theorem component_of_mem {t : Name} (h : t ∈ tokens path) : Component t :=
  let ⟨hne, hs, _⟩ := mem_pieces h
  ⟨hne, hs⟩

theorem tokens_slash (path : List UInt8) : tokens (slash :: path) = tokens path :=
  pieces_delim path

theorem tokens_cons {t : Name} (h : Component t) (path : List UInt8) :
    tokens (t ++ slash :: path) = t :: tokens path := pieces_token h.1 h.2 path

/-- The path with the components `ts`. -/
def joined (ts : List Name) : List UInt8 := ts.flatMap fun t => t ++ [slash]

theorem tokens_joined : ∀ {ts : List Name}, (∀ t ∈ ts, Component t) → tokens (joined ts) = ts
  | [], _ => rfl
  | t :: ts, h => by
      have hstep : joined (t :: ts) = t ++ slash :: joined ts := by
        unfold joined
        rw [List.flatMap_cons, List.append_assoc, List.singleton_append]
      rw [hstep, tokens_cons (h t List.mem_cons_self),
        tokens_joined fun u hu => h u (List.mem_cons_of_mem t hu)]

/-- A path that starts with a component is relative. -/
theorem joined_head {t : Name} {ts : List Name} (h : Component t) :
    (joined (t :: ts)).head? ≠ some slash := by
  obtain ⟨c, t, rfl⟩ := List.exists_cons_of_ne_nil h.1
  intro hc
  cases hc
  exact h.2 List.mem_cons_self

/-! ### The visits -/

theorem dirLookup_within (h : st.dirLookup dir name = some (some s, st')) (hdot : name ≠ dot) :
    s < st.size := by
  have hfound : ∀ {e : DirEntry}, ((st.openSector e.inodeSector).bind fun x =>
      some (if x.1 = true then some e.inodeSector else none, x.2)) = some (some s, st') →
      s < st.size := by
    intro e hf
    obtain ⟨⟨ok, st₁⟩, ho, hf⟩ := Option.bind_eq_some_iff.mp hf
    have hopen := openSector_drift ho
    cases ok with
    | false => cases hf
    | true =>
        cases hf
        exact hopen.2
  unfold State.dirLookup at h
  obtain ⟨i, hi, h⟩ := Option.bind_eq_some_iff.mp h
  rw [if_neg hdot] at h
  split_ifs at h
  · dsimp only at h
    split_ifs at h
    · exact hfound h
    · cases h
  · cases hl : lookup st.disk i.data name with
    | none =>
        rw [hl] at h
        cases h
    | some x =>
        rw [hl] at h
        exact hfound h

theorem entry_of_lookup (hd : Drift (st.opened curr) st₁) (hc : Component name)
    (h : st₁.dirLookup curr name = some (some s, st')) :
    Entry st curr s ∧ Drift (st₁.opened s) st' := by
  rcases dirLookup_cases h with ⟨hnone, -⟩ | ⟨t, hsome, ht, hd'⟩
  · cases hnone
  cases hsome
  rw [hd.target, target_opened] at ht
  refine ⟨⟨name, hc, ht, fun hdot => ?_⟩, hd'⟩
  obtain ⟨heap, f, -, rfl⟩ := hd
  have hlt : s < ((st.opened curr).drift heap f).size := dirLookup_within h hdot
  exact hlt

/-- Only inodes are visited that names lead to. -/
theorem walkLog_only (hn : Counted st) : ∀ {tokens : List Name} {curr : Sector} {st₁ : State},
    (∀ t ∈ tokens, Component t) → Drift (st.opened curr) st₁ → Leads st start curr →
    (st₁.walkLog curr tokens).Only fun v => Leads st start v.sector
  | [], _, _, _, _, _ => only_pure _
  | token :: rest, curr, st₁, hc, hd, hl => by
      unfold State.walkLog State.dirLookupLog
      rw [only_bind, only_bind]
      refine ⟨⟨?_, fun _ _ => ?_⟩, ?_⟩
      · split_ifs
        · exact only_pure _
        · exact only_access.mpr hl
      · cases st₁.dirLookup curr token with
        | none => exact only_exit _
        | some x => exact only_pure _
      rintro ⟨inode, st₂⟩ hlookup
      rw [← value_eq_some, value_bind] at hlookup
      obtain ⟨-, -, hlookup⟩ := Option.bind_eq_some_iff.mp hlookup
      rw [value_ofOption] at hlookup
      cases inode with
      | none =>
          dsimp only
          cases st₂.inodeClose curr with
          | none => exact only_exit _
          | some st₃ => exact only_pure _
      | some s =>
          obtain ⟨hentry, hd₂⟩ := entry_of_lookup hd (hc token List.mem_cons_self) hlookup
          have hl₂ := hl.tail hentry
          dsimp only
          rw [only_bind_of_ok (access_result _)]
          refine ⟨only_access.mpr hl₂, ?_⟩
          cases ho : st₂.dirOpen s with
          | none => exact only_exit _
          | some x =>
              obtain ⟨ok, st₃⟩ := x
              rw [ofOption_some, Traced.pure_bind]
              have hopen := dirOpen_drift hn.opened ((hd.opened s).trans hd₂) ho
              cases hclose : st₃.inodeClose curr with
              | none => exact only_exit _
              | some st₄ =>
                  rw [ofOption_some, Traced.pure_bind]
                  cases ok with
                  | false => exact only_pure _
                  | true =>
                      exact walkLog_only hn (fun t ht => hc t (List.mem_cons_of_mem token ht))
                        (Drift.close_first hopen hn hclose) hl₂

theorem walkLog_cons {st₂ st₃ : State} {rest : List Name}
    (hl : (st.dirLookupLog curr name).result = .ok (some t, st₁))
    (ho : st₁.dirOpen t = some (true, st₂)) (hc : st₂.inodeClose curr = some st₃) :
    (st.walkLog curr (name :: rest)).log =
      (st.dirLookupLog curr name).log ++ ([.enter t] ++ (st₃.walkLog t rest).log) := by
  rw [State.walkLog.eq_2, bind_of_ok hl]
  dsimp only
  rw [ho, ofOption_some, Traced.pure_bind, hc, ofOption_some, Traced.pure_bind, if_pos rfl,
    bind_of_ok (access_result _)]
  rfl

/-- With memory, the names are followed to the end. -/
theorem walkLog_leads (hn : Counted st) (hl : Leads st curr s) :
    ∃ ts : List Name, (∀ t ∈ ts, Component t) ∧ ∀ rest, ∃ before,
      (((st.drift (fun _ => true) f).opened curr).walkLog curr (ts ++ rest)).log =
        before ++ (((st.drift (fun _ => true) f).opened s).walkLog s rest).log := by
  induction hl using Relation.ReflTransGen.head_induction_on with
  | refl => exact ⟨[], nofun, fun rest => ⟨[], rfl⟩⟩
  | @head curr t hentry _ ih =>
      obtain ⟨name, hc, ht, hsize⟩ := hentry
      obtain ⟨ts, hts, hlog⟩ := ih
      refine ⟨name :: ts, ?_, fun rest => ?_⟩
      · rw [List.forall_mem_cons]
        exact ⟨hc, hts⟩
      obtain ⟨before, hlog⟩ := hlog rest
      obtain ⟨i, hi⟩ : ∃ i, (st.opened curr).openInodes curr = some i :=
        ⟨_, Function.update_self ..⟩
      have hlookup := dirLookup_true (f := f) hi ((target_opened st curr).trans ht) hsize
      have hfound : (((st.drift (fun _ => true) f).opened curr).dirLookupLog curr name).result =
          .ok (some t, ((st.drift (fun _ => true) f).opened curr).opened t) := by
        rw [← value_eq_some, dirLookupLog_value]
        exact hlookup
      have hopen : ((((st.drift (fun _ => true) f).opened curr).opened t).dirOpen t) =
          some (true, ((st.drift (fun _ => true) f).opened curr).opened t) :=
        dirOpen_true ((st.opened curr).opened t) t
      rw [List.cons_append, walkLog_cons hfound hopen (close_first_opened hn.drift curr t), hlog,
        ← List.append_assoc, ← List.append_assoc]
      exact ⟨_, rfl⟩

/-- Where a path starts. -/
def pathStart (cwd : Option Sector) (path : List UInt8) : Sector :=
  if path.head? = some slash then rootDirSector else cwd.getD rootDirSector

theorem dirOpenPathLog_only (hn : Counted st) :
    (st.dirOpenPathLog cwd path).Only fun v => Leads st (pathStart cwd path) v.sector := by
  unfold State.dirOpenPathLog
  dsimp only
  rw [show (if path.head? = some slash then rootDirSector else cwd.getD rootDirSector) =
    pathStart cwd path from rfl]
  rcases ho : st.inodeOpen (pathStart cwd path) with ⟨ok, st₁⟩
  have hd := inodeOpen_drift ho
  cases ok with
  | false => exact only_exit _
  | true =>
      rw [if_neg Bool.noConfusion]
      cases ho : st₁.dirOpen (pathStart cwd path) with
      | none => exact only_exit _
      | some x =>
          obtain ⟨ok, st₂⟩ := x
          have hd₂ := dirOpen_drift hn hd ho
          rw [ofOption_some, Traced.pure_bind]
          cases ok with
          | false => exact only_exit _
          | true =>
              dsimp only
              rw [if_neg Bool.noConfusion, only_bind]
              refine ⟨walkLog_only hn (fun t => component_of_mem) hd₂ .refl, ?_⟩
              rintro ⟨found, st₃⟩ -
              cases found with
              | none => exact only_pure _
              | some s =>
                  dsimp only
                  cases st₃.openInodes s with
                  | none => exact only_exit _
                  | some i =>
                      rw [ofOption_some, Traced.pure_bind]
                      split_ifs
                      · cases st₃.inodeClose s with
                        | none => exact only_exit _
                        | some st₄ => exact only_pure _
                      · exact only_pure _

/-- With memory, the loop runs from the start. -/
theorem mem_dirOpenPathLog {v : Visit}
    (hv : v ∈ (((st.drift (fun _ => true) f).opened (pathStart cwd path)).walkLog
      (pathStart cwd path) (tokens path)).log) :
    v ∈ ((st.drift (fun _ => true) f).dirOpenPathLog cwd path).log := by
  unfold State.dirOpenPathLog
  dsimp only
  rw [show (if path.head? = some slash then rootDirSector else cwd.getD rootDirSector) =
    pathStart cwd path from rfl, inodeOpen_true, if_neg Bool.noConfusion]
  have hopen : ((st.drift (fun _ => true) f).opened (pathStart cwd path)).dirOpen
      (pathStart cwd path) = some (true, (st.drift (fun _ => true) f).opened (pathStart cwd path)) :=
    dirOpen_true (st.opened (pathStart cwd path)) (pathStart cwd path)
  dsimp only
  rw [hopen, ofOption_some, Traced.pure_bind]
  dsimp only
  rw [if_neg Bool.noConfusion]
  exact mem_log_bind hv _

/-- What names lead to is read as a directory on some path. -/
theorem exists_scan (hn : Counted st) (hstart : start = rootDirSector ∨ cwd = some start)
    (hl : Leads st start s) : ∃ path,
      Visit.scan s ∈ ((st.drift (fun _ => true) f).dirOpenPathLog cwd path).log := by
  obtain ⟨ts, hts, hlog⟩ := walkLog_leads (f := f) hn hl
  -- one more name is looked up in the bytes of `s`
  have hx : Component [120] := ⟨by decide, by decide⟩
  have hall : ∀ t ∈ ts ++ [[120]], Component t := by
    intro t ht
    rcases List.mem_append.mp ht with ht | ht
    · exact hts t ht
    · rw [List.mem_singleton.mp ht]
      exact hx
  obtain ⟨before, hlog⟩ := hlog [[120]]
  have hscan : Visit.scan s ∈ (((st.drift (fun _ => true) f).opened start).walkLog start
      (ts ++ [[120]])).log := by
    rw [hlog]
    refine List.mem_append_right _ ?_
    rw [State.walkLog.eq_2]
    refine mem_log_bind ?_ _
    unfold State.dirLookupLog
    rw [if_neg (by decide)]
    exact mem_log_bind List.mem_cons_self _
  rcases hstart with rfl | rfl
  · refine ⟨slash :: joined (ts ++ [[120]]), mem_dirOpenPathLog ?_⟩
    rw [tokens_slash, tokens_joined hall]
    exact hscan
  · have hpath : pathStart (some start) (joined (ts ++ [[120]])) = start := by
      unfold pathStart
      refine if_neg ?_
      cases ts with
      | nil => exact joined_head hx
      | cons t ts => exact joined_head (hts t List.mem_cons_self)
    refine ⟨joined (ts ++ [[120]]), mem_dirOpenPathLog ?_⟩
    rw [hpath, tokens_joined hall]
    exact hscan

/-- **Paths go through directories** exactly in the states where the names lead to directories
only, from the root and from the working directory: then no path, whatever `malloc` answers,
reads another inode's bytes as entries or descends into it. -/
theorem paths_through_directories (hn : Counted st) :
    (∀ heap path, WalksDirectories (st.call heap) cwd path) ↔
      ∀ start s, start = rootDirSector ∨ cwd = some start → Leads st start s →
        (st.dataOf s).isDir = true := by
  constructor
  · intro hall start s hstart hl
    obtain ⟨path, hscan⟩ := exists_scan (f := false) hn hstart hl
    exact (hall (fun _ => true) path).scans _ hscan s rfl
  · intro hdirs heap path
    have honly : ((st.call heap).dirOpenPathLog cwd path).Only fun v =>
        (st.dataOf v.sector).isDir = true := by
      intro v hv
      have hcall : Counted (st.call heap) := hn
      have hl : Leads st (pathStart cwd path) v.sector := dirOpenPathLog_only hcall v hv
      refine hdirs _ _ ?_ hl
      unfold pathStart
      split_ifs
      · exact .inl rfl
      · cases cwd with
        | none => exact .inl rfl
        | some c => exact .inr rfl
    refine ⟨fun v hv s hs => ?_, fun _ _ _ v hv s hs => ?_⟩
    · have := honly v hv
      rwa [hs] at this
    · have := honly v hv
      rwa [hs] at this

/-- Of a formatted disk: the root directory is one and its own parent, and it is empty. -/
def rootAlone : Option (List Bool) := do
  let st ← Paths.doFormat (fun _ => zeros) 40 (fun _ => true) ⟨0, List.replicate 15 0, 1⟩
  let root := contents st.disk (st.dataOf 1)
  some [(st.dataOf 1).isDir, root.length = 320, (entryAt root 0).inodeSector = 1,
    (List.range' 1 (root.length / 20 - 1)).all fun k => (entryAt root k).inUse = 0]

theorem paths_through_directories_formatted : ∃ st₀,
    Paths.doFormat (fun _ => zeros) 40 (fun _ => true) ⟨0, List.replicate 15 0, 1⟩ = some st₀ ∧
    ∀ heap path, WalksDirectories (st₀.call heap) none path := by
  have h : rootAlone = some [true, true, true, true] := by
    decide +kernel
  unfold rootAlone at h
  simp only [Option.bind_eq_bind, Option.bind_eq_some_iff, Option.some.injEq, List.cons.injEq, and_true,
    decide_eq_true_eq, List.all_eq_true] at h
  obtain ⟨st₀, h₀, hdir, hlength, hparent, hfree⟩ := h
  have hnone : ∀ name, entryOf (contents st₀.disk (st₀.dataOf 1)) name = none := fun name =>
    List.find?_eq_none.mpr fun k hk hnames => (of_decide_eq_true hnames).1 (hfree k hk)
  -- every name that leads anywhere leads to the root directory
  have hroot : ∀ s, Leads st₀ rootDirSector s → s = rootDirSector := by
    intro s hl
    induction hl with
    | refl => rfl
    | @tail b c _ hentry ih =>
        subst ih
        obtain ⟨name, -, ht, -⟩ := hentry
        rw [target_eq] at ht
        split_ifs at ht
        · exact (Option.some.inj ht).symm
        · exact (Option.some.inj ht).symm.trans hparent
        · rw [show rootDirSector = 1 from rfl, hnone] at ht
          cases ht
  refine ⟨st₀, h₀, (paths_through_directories (healthy_doFormat h₀).1.counted).mpr fun start s hstart hl => ?_⟩
  rcases hstart with rfl | hcwd
  · rw [hroot s hl]
    exact hdir
  · cases hcwd

/-- What a user writes to a file: an entry `"b"` for the root directory. -/
def forged : DirEntry := ⟨1, 98 :: List.replicate 14 0, 1⟩

/-- `"/a"` is a regular file with the bytes of `forged`; `dir_open_path ("/a/b")`. -/
def throughFile : Option (Bool × Option Sector × Bool × Bool) := do
  let st₀ ← Paths.doFormat (fun _ => zeros) 40 (fun _ => true) ⟨0, List.replicate 15 0, 1⟩
  let st₁ ← pathStep (.create none [97] 0 false default, fun _ => true) st₀
  let st ← execute pathStep [(.inode (.open 4), fun _ => true),
    (.inode (.write 4 forged.toBytes 20 20), fun _ => true)] st₁
  let (r, _) ← (st.call fun _ => true).dirOpenPath none [47, 97, 47, 98]
  some (st₀.live 1, r, (st.dataOf 4).isDir,
    decide (.scan 4 ∈ ((st.call fun _ => true).dirOpenPathLog none [47, 97, 47, 98]).log))

/-- The path goes through the file, back to the root directory. -/
theorem path_through_file : ∃ st₀ st st',
    Paths.doFormat (fun _ => zeros) 40 (fun _ => true) ⟨0, List.replicate 15 0, 1⟩ = some st₀ ∧
    Reachable pathStep Orderly st₀ st ∧
    (st.call fun _ => true).dirOpenPath none [47, 97, 47, 98] = some (some 1, st') ∧
    ¬ WalksDirectories (st.call fun _ => true) none [47, 97, 47, 98] := by
  have h : throughFile = some (true, some 1, false, true) := by
    decide +kernel
  unfold throughFile at h
  simp only [Option.bind_eq_bind, Option.bind_eq_some_iff, Option.some.injEq, Prod.mk.injEq] at h
  obtain ⟨st₀, h₀, st₁, h₁, st, h₂, ⟨r, st'⟩, hopen, hlive, rfl, hfile, hscan⟩ := h
  have hcreate : Orderly st₀ (.create none [97] 0 false default, fun _ => true) := by
    refine ⟨.inl (by decide), fun d hd => ?_⟩
    cases hd
    exact ⟨⟨hlive, by decide⟩, .inr fun _ h => by cases h⟩
  refine ⟨st₀, st, st', h₀, execute_reachable (fun s a ha => ?_) (Reachable.refl.tail hcreate h₁) h₂,
    hopen, fun hwalk => ?_⟩
  · simp only [List.mem_cons, List.not_mem_nil, or_false] at ha
    rcases ha with rfl | rfl
    · exact ⟨trivial, by rintro _ _ _ _ ⟨⟩⟩
    · refine ⟨.inl (by decide), fun _ _ _ _ heq => ?_⟩
      cases heq
      decide
  · have hdir := hwalk.scans _ (of_decide_eq_true hscan) 4 rfl
    have hdir : (st.dataOf 4).isDir = true := hdir
    rw [hfile] at hdir
    cases hdir

end CSE130.Lab3.Files
