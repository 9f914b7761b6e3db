import CSE130.Lab3.Nesting
import CSE130.Lab3.StackPage

/-! # What `process_execute` does with a command line

`process_execute` copies the command line twice: to a page for `start_process`, and to an array on
its stack, of which `strtok_r` cuts the name of the thread.  The effects of a call are logged.
The `semaphore_down` at its end returns when the child has ended; without a child it is that of
whatever `child_lock` was before, which may be null or never upped.
The array has no room for the null byte, and a command line without a token has no name
(`process_execute_safe`); when there is no page for the thread, the page of the copy is kept and
`child_lock` is downed all the same (`failed_execution_clean`). -/

namespace CSE130.Lab3.Execute

open Traced

/-- Why `process_execute` stops. -/
inductive Halt
  /-- A loop does not find the end of the string. -/
  | unterminated
  | assertion
  /-- It waits for a semaphore that nobody ups. -/
  | blocked
deriving DecidableEq

/-- What a call does. -/
inductive Effect
  | getPage (p : Page)
  | freePage (p : Page)
  /-- `size` bytes of `s` are written. -/
  | writeName (offset size : ℕ)
  /-- `thread_create` is called with a name, or with a null pointer. -/
  | create (name : Option ℕ)
  /-- A thread will run `start_process (copy)`. -/
  | start (thread copy : Page)
  /-- `semaphore_down (thread_current ()->child_lock)`. -/
  | downChildLock
deriving DecidableEq

/-- What becomes of `semaphore_down (thread_current ()->child_lock)`. -/
inductive Down
  | returns
  | blocks
  /-- The pointer is null. -/
  | panics
deriving DecidableEq

abbrev Exec := Traced Halt Effect

def assert (b : Bool) : Exec Unit := if b then pure () else exit .assertion

/-- `strtok_r (s, " ", &save_ptr)`, with its write. -/
def strtokName (size : ℕ) (s : Mem) : Exec (Option ℕ) := do
  let token ← ofOption .unterminated (skipDelimiters s [32] size 0)
  if s token = 0 then pure none
  else do
    let e ← ofOption .unterminated (skipToken s [32] size token)
    if s e ≠ 0 then do
      access (.writeName e 1)
      pure (some token)
    else pure (some token)

/-- `thread_create (name, PRI_DEFAULT, start_process, copy)`, when `palloc_get_page` answers
`thread` and `allocate_tid` answers `tid`. -/
def threadCreate (name : Option ℕ) (copy : Page) (thread : Option Page) (tid : ℤ) : Exec ℤ := do
  access (.create name)
  match thread with
  | none => pure tidError
  | some t =>
      access (.getPage t)
      -- `init_thread`
      assert name.isSome
      access (.start t copy)
      pure tid

/-- `semaphore_down (thread_current ()->child_lock)`. -/
def downChildLock (lock : Down) : Exec Unit := do
  access .downChildLock
  match lock with
  | .returns => pure ()
  | .blocks => exit .blocked
  | .panics => exit .assertion

/-- `process_execute`, when the calls of `palloc_get_page` answer `copy` and `thread`; `s` is the
array on the stack.  `lock` is for the semaphore of the new thread, or for that of an earlier one. -/
def processExecute (s : Mem) (cmdline : List UInt8) (copy thread : Option Page) (tid : ℤ)
    (lock : Down) : Exec ℤ :=
  match copy with
  | none => pure tidError
  | some p => do
      access (.getPage p)
      access (.writeName 0 (cmdline.length + 1))
      let name ← strtokName (cmdline.length + 1) (strlcpy s 0 cmdline (cmdline.length + 1))
      let tid ← threadCreate name p thread tid
      downChildLock lock
      pure tid

/-- The address of a page. -/
def pageAddr (p : Page) : ℕ := physBase + pgsize * p

/-- The write is inside an array of `length` bytes. -/
def Effect.Inside (length : ℕ) : Effect → Prop
  | .writeName offset size => offset + size ≤ length
  | _ => True

/-- `start_process` sets `argv[0]`, when the command line is copied to the page. -/
def ArgvSet (m : Mem) (copy : Page) (cmdline : List UInt8) : Prop :=
  ∃ file argv m', tokenise pgsize (strlcpy m (pageAddr copy) cmdline pgsize) (pageAddr copy) =
    some (file :: argv, m')

/-- A call that is safe on a command line. -/
structure Safe (x : Exec ℤ) (m : Mem) (cmdline : List UInt8) : Prop where
  inside : x.Only (Effect.Inside cmdline.length)
  named : ∀ name, .create name ∈ x.log → name ≠ none
  argv : ∀ t p, .start t p ∈ x.log → ArgvSet m p cmdline
  refused : tokens cmdline = [] → x.result = .ok tidError

/-- The pages that a call got and did not free. -/
def held (l : List Effect) : List Page :=
  l.foldl (fun pages e =>
    match e with
    | .getPage p => p :: pages
    | .freePage p => pages.erase p
    | _ => pages) []

/-- A call that fails as if it had not been made. -/
structure CleanFailure (x : Exec ℤ) : Prop where
  returned : x.result = .ok tidError
  freed : held x.log = []
  notDowned : .downChildLock ∉ x.log

variable {cmd : List UInt8} {s m : Mem} {copy thread : Option Page} {p t : Page} {tid : ℤ}
  {lock : Down}

/-! ### The name of the thread -/

theorem copy_isString (hcmd : 0 ∉ cmd) (s : Mem) :
    (strlcpy s 0 cmd (cmd.length + 1)).IsString 0 cmd := by
  have hread := @Mem.read_write_self s 0 (cmd ++ [0])
  rw [List.length_append, List.length_singleton] at hread
  unfold strlcpy
  rw [Nat.add_sub_cancel, List.take_length]
  exact ⟨hread, hcmd⟩

theorem strtokName_spec (hs : s.IsString 0 cmd) : ∃ name,
    (strtokName (cmd.length + 1) s).result = .ok name ∧ (name = none ↔ tokens cmd = []) ∧
    (strtokName (cmd.length + 1) s).Only fun e => ∃ i, e = .writeName i 1 ∧ i < cmd.length := by
  obtain ⟨k, w, hskip, hlen, hw, htok, hhead⟩ :=
    skipDelimiters_spec (d := 32) (by decide) hs (Nat.lt_succ_self cmd.length)
  rw [Nat.zero_add] at hskip hw
  obtain ⟨u, r, hstop, hsplit, hmem, hr⟩ :=
    skipToken_spec (d := 32) hw (show w.length < cmd.length + 1 by omega)
  change pieces 32 w = tokens cmd at htok
  unfold strtokName
  rw [hskip, ofOption_some, Traced.pure_bind]
  by_cases hend : s k = 0
  · have hnil : w = [] := by
      cases w with
      | nil => rfl
      | cons c w => exact absurd ((Mem.isString_cons.mp hw).1.symm.trans hend) (Mem.isString_cons.mp hw).2.1
    rw [if_pos hend]
    refine ⟨none, rfl, ?_, only_pure _⟩
    rw [← htok, hnil]
    exact iff_of_true rfl rfl
  · have hu : u ≠ [] := by
      rintro rfl
      obtain rfl | ⟨r', rfl⟩ := hr
      · exact hend (Mem.isString_nil.mp (by rw [hsplit] at hw; exact hw))
      · exact hhead r' hsplit
    have hne : tokens cmd ≠ [] := by
      rw [← htok, hsplit]
      obtain rfl | ⟨r', rfl⟩ := hr
      · rw [List.append_nil, pieces_last hu hmem]
        exact List.cons_ne_nil _ _
      · rw [pieces_token hu hmem]
        exact List.cons_ne_nil _ _
    rw [if_neg hend, hstop, ofOption_some, Traced.pure_bind]
    by_cases hlast : s (k + u.length) = 0
    · rw [if_neg (not_not_intro hlast)]
      exact ⟨some k, rfl, iff_of_false (Option.some_ne_none k) hne, only_pure _⟩
    · rw [if_pos hlast]
      refine ⟨some k, rfl, iff_of_false (Option.some_ne_none k) hne, ?_⟩
      rw [only_bind_of_ok (access_result _), only_access]
      refine ⟨⟨_, rfl, ?_⟩, only_pure _⟩
      -- behind the last token is the end of the string
      obtain rfl | ⟨r', rfl⟩ := hr
      · rw [hsplit] at hw
        exact absurd (Mem.isString_nil.mp hw.suffix) hlast
      · rw [hsplit, List.length_append, List.length_cons] at hlen
        omega

/-! ### One call -/

/-- The result of a call that gets to the semaphore. -/
def Down.result (lock : Down) (v : ℤ) : Except Halt ℤ :=
  match lock with
  | .returns => .ok v
  | .blocks => .error .blocked
  | .panics => .error .assertion

theorem downChildLock_bind (lock : Down) (v : ℤ) :
    (downChildLock lock >>= fun _ => pure v) = ⟨[.downChildLock], lock.result v⟩ := by
  cases lock
  · rfl
  · rfl
  · rfl

theorem Down.result_eq_ok {v w : ℤ} : lock.result v = .ok w ↔ lock = .returns ∧ v = w := by
  unfold Down.result
  cases lock with
  | returns => simp
  | blocks => simp
  | panics => simp

/-- What a call does after the copies are made: `thread_create`, and the wait for the child. -/
structure Ends (cmd : List UInt8) (p : Page) (thread : Option Page) (tid : ℤ) (lock : Down)
    (name : Option ℕ) (l : List Effect) (r : Except Halt ℤ) : Prop where
  named : name = none ↔ tokens cmd = []
  noThread : thread = none → l = [.create name, .downChildLock] ∧ r = lock.result tidError
  noName : ∀ t, thread = some t → tokens cmd = [] →
    l = [.create name, .getPage t] ∧ r = .error .assertion
  started : ∀ t, thread = some t → tokens cmd ≠ [] →
    l = [.create name, .getPage t, .start t p, .downChildLock] ∧ r = lock.result tid

theorem processExecute_spec (hcmd : 0 ∉ cmd) (s : Mem) (p : Page) (thread : Option Page) (tid : ℤ)
    (lock : Down) :
    ∃ cut name l r, (∀ e ∈ cut, ∃ i, e = Effect.writeName i 1 ∧ i < cmd.length) ∧
      Ends cmd p thread tid lock name l r ∧ processExecute s cmd (some p) thread tid lock =
        ⟨[.getPage p, .writeName 0 (cmd.length + 1)] ++ (cut ++ l), r⟩ := by
  obtain ⟨name, hr, hname, hcut⟩ := strtokName_spec (copy_isString hcmd s)
  have hrun : processExecute s cmd (some p) thread tid lock =
      ⟨[.getPage p, .writeName 0 (cmd.length + 1)] ++
        ((strtokName (cmd.length + 1) (strlcpy s 0 cmd (cmd.length + 1))).log ++
          (threadCreate name p thread tid >>= fun tid =>
            downChildLock lock >>= fun _ => pure tid).log),
        (threadCreate name p thread tid >>= fun tid =>
            downChildLock lock >>= fun _ => pure tid).result⟩ := by
    unfold processExecute
    dsimp only
    rw [bind_of_ok (access_result _), bind_of_ok (access_result _), bind_of_ok hr]
    rfl
  simp only [downChildLock_bind] at hrun
  refine ⟨_, name, _, _, hcut, ⟨hname, ?_, ?_, ?_⟩, hrun⟩
  · rintro rfl
    exact ⟨rfl, rfl⟩
  · rintro t rfl hnil
    rw [hname.mpr hnil]
    exact ⟨rfl, rfl⟩
  · rintro t rfl hne
    cases name with
    | none => exact absurd (hname.mp rfl) hne
    | some n => exact ⟨rfl, rfl⟩

theorem argvSet_iff (hcmd : 0 ∉ cmd) (m : Mem) (p : Page) :
    ArgvSet m p cmd ↔ tokens (cmd.take (pgsize - 1)) ≠ [] := by
  have hlen := take_pgsize_length cmd
  obtain ⟨argv, m₁, htok, hall, -⟩ :=
    tokenise_spec (strlcpy_isString hcmd m (pageAddr p)) hlen hlen rfl
  unfold ArgvSet
  rw [htok]
  cases argv with
  | nil =>
      refine iff_of_false ?_ (not_not_intro (List.forall₂_nil_left_iff.mp hall))
      rintro ⟨file, argv, m', h⟩
      cases h
  | cons file argv =>
      refine iff_of_true ⟨file, argv, m₁, rfl⟩ fun hnil => ?_
      rw [hnil] at hall
      cases hall

theorem Ends.create_iff {name n : Option ℕ} {l : List Effect} {r : Except Halt ℤ}
    (h : Ends cmd p thread tid lock name l r) : .create n ∈ l ↔ n = name := by
  cases thread with
  | none => simp [(h.noThread rfl).1]
  | some t =>
      by_cases hnil : tokens cmd = []
      · simp [(h.noName t rfl hnil).1]
      · simp [(h.started t rfl hnil).1]

theorem Ends.start_iff {name : Option ℕ} {l : List Effect} {r : Except Halt ℤ} {q : Page}
    (h : Ends cmd p thread tid lock name l r) :
    .start t q ∈ l ↔ thread = some t ∧ q = p ∧ tokens cmd ≠ [] := by
  cases thread with
  | none => simp [(h.noThread rfl).1]
  | some u =>
      by_cases hnil : tokens cmd = []
      · simp [(h.noName u rfl hnil).1, hnil]
      · simp [(h.started u rfl hnil).1, hnil, eq_comm]

theorem processExecute_mem (hcmd : 0 ∉ cmd) (s : Mem) (p : Page) (thread : Option Page) (tid : ℤ)
    (lock : Down) :
    (∃ name, (name = none ↔ tokens cmd = []) ∧ ∀ n,
      .create n ∈ (processExecute s cmd (some p) thread tid lock).log ↔ n = name) ∧
    ∀ t q, .start t q ∈ (processExecute s cmd (some p) thread tid lock).log ↔
      thread = some t ∧ q = p ∧ tokens cmd ≠ [] := by
  obtain ⟨cut, name, l, r, hcut, hends, hrun⟩ := processExecute_spec hcmd s p thread tid lock
  have hcreate : ∀ n, .create n ∉ cut := fun n h => by
    obtain ⟨i, hi, -⟩ := hcut _ h
    cases hi
  have hstart : ∀ t q, .start t q ∉ cut := fun t q h => by
    obtain ⟨i, hi, -⟩ := hcut _ h
    cases hi
  refine ⟨⟨name, hends.named, fun n => ?_⟩, fun t q => ?_⟩
  · simp [hrun, hcreate, hends.create_iff]
  · simp [hrun, hstart, hends.start_iff]

theorem processExecute_result (hcmd : 0 ∉ cmd) (s : Mem) (p : Page) (thread : Option Page) (tid : ℤ)
    (lock : Down) :
    (thread = none → (processExecute s cmd (some p) thread tid lock).result = lock.result tidError) ∧
    (thread ≠ none → tokens cmd = [] →
      (processExecute s cmd (some p) thread tid lock).result = .error .assertion) ∧
    (thread ≠ none → tokens cmd ≠ [] →
      (processExecute s cmd (some p) thread tid lock).result = lock.result tid) := by
  obtain ⟨cut, name, l, r, -, hends, hrun⟩ := processExecute_spec hcmd s p thread tid lock
  rw [hrun]
  refine ⟨fun h => (hends.noThread h).2, fun h hnil => ?_, fun h hne => ?_⟩
  · obtain ⟨t, ht⟩ := Option.ne_none_iff_exists'.mp h
    exact (hends.noName t ht hnil).2
  · obtain ⟨t, ht⟩ := Option.ne_none_iff_exists'.mp h
    exact (hends.started t ht hne).2

theorem inside_iff (hcmd : 0 ∉ cmd) (s : Mem) (copy thread : Option Page) (tid : ℤ) (lock : Down) :
    (processExecute s cmd copy thread tid lock).Only (Effect.Inside cmd.length) ↔ copy = none := by
  cases copy with
  | none => exact iff_of_true (only_pure _) rfl
  | some p =>
      obtain ⟨cut, name, l, r, -, -, hrun⟩ := processExecute_spec hcmd s p thread tid lock
      refine iff_of_false (fun h => ?_) (Option.some_ne_none p)
      rw [hrun] at h
      have hin : 0 + (cmd.length + 1) ≤ cmd.length :=
        h (.writeName 0 (cmd.length + 1)) (List.mem_append_left _ (.tail _ (.head _)))
      omega

theorem named_iff (hcmd : 0 ∉ cmd) (s : Mem) (copy thread : Option Page) (tid : ℤ) (lock : Down) :
    (∀ name, .create name ∈ (processExecute s cmd copy thread tid lock).log → name ≠ none) ↔
      copy = none ∨ tokens cmd ≠ [] := by
  cases copy with
  | none => exact iff_of_true (fun _ h => by cases h) (.inl rfl)
  | some p =>
      obtain ⟨⟨name, hname, hmem⟩, -⟩ := processExecute_mem hcmd s p thread tid lock
      rw [or_iff_right (Option.some_ne_none p), ne_eq, ← hname]
      refine ⟨fun h => h name ((hmem name).mpr rfl), fun h n hn => ?_⟩
      rw [(hmem n).mp hn]
      exact h

theorem argv_iff (hcmd : 0 ∉ cmd) (s m : Mem) (copy thread : Option Page) (tid : ℤ) (lock : Down) :
    (∀ t p, .start t p ∈ (processExecute s cmd copy thread tid lock).log → ArgvSet m p cmd) ↔
      copy = none ∨ thread = none ∨ tokens cmd = [] ∨ tokens (cmd.take (pgsize - 1)) ≠ [] := by
  cases copy with
  | none => exact iff_of_true (fun _ _ h => by cases h) (.inl rfl)
  | some p =>
      obtain ⟨-, hstart⟩ := processExecute_mem hcmd s p thread tid lock
      simp only [hstart, ← argvSet_iff hcmd m p]
      constructor
      · intro h
        by_cases ht : thread = none
        · exact .inr (.inl ht)
        by_cases hnil : tokens cmd = []
        · exact .inr (.inr (.inl hnil))
        obtain ⟨t, ht⟩ := Option.ne_none_iff_exists'.mp ht
        exact .inr (.inr (.inr (h t p ⟨ht, rfl, hnil⟩)))
      · rintro (h | h | h | h) t q ⟨ht, rfl, hne⟩
        · cases h
        · rw [h] at ht
          cases ht
        · exact absurd h hne
        · exact h

theorem refused_iff (hcmd : 0 ∉ cmd) (s : Mem) (copy thread : Option Page) (tid : ℤ) (lock : Down) :
    (tokens cmd = [] → (processExecute s cmd copy thread tid lock).result = .ok tidError) ↔
      copy = none ∨ thread = none ∧ lock = .returns ∨ tokens cmd ≠ [] := by
  cases copy with
  | none => exact iff_of_true (fun _ => rfl) (.inl rfl)
  | some p =>
      obtain ⟨hno, hpanic, -⟩ := processExecute_result hcmd s p thread tid lock
      rw [or_iff_right (Option.some_ne_none p), imp_iff_not_or, or_comm]
      by_cases hnil : tokens cmd = []
      · rw [or_iff_left (not_not_intro hnil), or_iff_left (not_not_intro hnil)]
        by_cases ht : thread = none
        · rw [hno ht, Down.result_eq_ok, and_iff_left rfl, and_iff_right ht]
        · rw [hpanic ht hnil]
          exact iff_of_false (fun h => by cases h) fun h => ht h.1
      · exact iff_of_true (.inr hnil) (.inr hnil)

/-- **The calls that are safe**: those that find no page for the copy.  Then what each part of it
needs: room for the null byte, a name, a token in what is left of the copy, and, where there is no
name, no page for the thread and a semaphore that can be downed all the same. -/
theorem process_execute_safe (hcmd : 0 ∉ cmd) (s m : Mem) (copy thread : Option Page) (tid : ℤ)
    (lock : Down) :
    (Safe (processExecute s cmd copy thread tid lock) m cmd ↔ copy = none) ∧
    ((processExecute s cmd copy thread tid lock).Only (Effect.Inside cmd.length) ↔ copy = none) ∧
    ((∀ name, .create name ∈ (processExecute s cmd copy thread tid lock).log → name ≠ none) ↔
      copy = none ∨ tokens cmd ≠ []) ∧
    ((∀ t p, .start t p ∈ (processExecute s cmd copy thread tid lock).log → ArgvSet m p cmd) ↔
      copy = none ∨ thread = none ∨ tokens cmd = [] ∨ tokens (cmd.take (pgsize - 1)) ≠ []) ∧
    ((tokens cmd = [] → (processExecute s cmd copy thread tid lock).result = .ok tidError) ↔
      copy = none ∨ thread = none ∧ lock = .returns ∨ tokens cmd ≠ []) := by
  have hin := inside_iff hcmd s copy thread tid lock
  have hname := named_iff hcmd s copy thread tid lock
  have hargv := argv_iff hcmd s m copy thread tid lock
  have hrefused := refused_iff hcmd s copy thread tid lock
  refine ⟨⟨fun h => hin.mp h.inside, fun h => ?_⟩, hin, hname, hargv, hrefused⟩
  exact ⟨hin.mpr h, hname.mpr (.inl h), hargv.mpr (.inl h), hrefused.mpr (.inl h)⟩

theorem process_execute_safe_echo :
    Safe (processExecute (fun _ => 0) echoHi none (some 8) 3 .returns) (fun _ => 0) echoHi :=
  (process_execute_safe (by decide) (fun _ => 0) (fun _ => 0) none (some 8) 3 .returns).1.mpr rfl

/-- The null byte of every name is behind the array, and a line of spaces is a kernel panic. -/
theorem process_execute_unsafe :
    ¬Safe (processExecute (fun _ => 0) echoHi (some 7) (some 8) 3 .returns) (fun _ => 0) echoHi ∧
      (processExecute (fun _ => 0) echoHi (some 7) (some 8) 3 .returns).log =
        [.getPage 7, .writeName 0 9, .writeName 4 1, .create (some 0), .getPage 8, .start 8 7,
          .downChildLock] ∧
      echoHi.length = 8 ∧
      (processExecute (fun _ => 0) [32, 32] (some 7) (some 8) 3 .returns).result =
        .error .assertion := by
  have hlog : (processExecute (fun _ => 0) echoHi (some 7) (some 8) 3 .returns).log =
      [.getPage 7, .writeName 0 9, .writeName 4 1, .create (some 0), .getPage 8, .start 8 7,
        .downChildLock] := by
    decide +kernel
  refine ⟨fun h => ?_, hlog, rfl, by decide +kernel⟩
  have hin : 0 + 9 ≤ 8 := h.inside (.writeName 0 9) (by rw [hlog]; exact .tail _ (.head _))
  exact absurd hin (by decide)

/-! ### A call that fails -/

@[simp] theorem thread?_setThread (k : Kernel) (p : Page) (t : Thread) :
    (k.setThread p t).thread? p = some t :=
  Kernel.thread?_eq.mpr (Function.update_self _ _ _)

@[simp] theorem setThread_setThread (k : Kernel) (p : Page) (t u : Thread) :
    (k.setThread p t).setThread p u = k.setThread p u := by
  unfold Kernel.setThread
  simp only [Function.update_idem]

/-- Without a page for the thread, the caller gets to the `child_lock` of an earlier child. -/
theorem execute_noThread {k : Kernel} {t : Thread} (hk : k.page k.current = .thread t)
    (hn : t.next = .outside) :
    ((step (.execute .noThread) k).bind (step .run)).bind (step .run) =
      (k.setThread k.current
        { t with childTid := tidError, next := .executeDown tidError }).semaphoreDown .outside := by
  have hgoto : step (.execute .noThread) k =
      some (k.setThread k.current { t with next := .setChildTid tidError }) := by
    change (if k.at? .outside then k.goto (.setChildTid tidError) else none) = _
    rw [if_pos (Kernel.at?_eq.mpr ⟨t, hk, hn⟩)]
    exact goto_eq hk
  have hset : step .run (k.setThread k.current { t with next := .setChildTid tidError }) =
      some (k.setThread k.current
        { t with childTid := tidError, next := .executeDown tidError }) := by
    change Kernel.run _ = _
    unfold Kernel.run
    change ((k.setThread k.current _).thread? k.current).bind _ = _
    rw [thread?_setThread]
    change some ((k.setThread k.current _).setThread k.current _) = _
    rw [setThread_setThread]
  rw [hgoto, Option.bind_some, hset, Option.bind_some]
  change Kernel.run _ = _
  unfold Kernel.run
  change ((k.setThread k.current _).thread? k.current).bind _ = _
  rw [thread?_setThread]
  rfl

/-- What the `child_lock` of a thread comes to. -/
def childLockDown (k : Kernel) (t : Thread) : Down :=
  match t.childLock with
  | none => .panics
  | some p =>
      match k.page p with
      | .thread u => if u.parentLock.value = 0 then .blocks else .returns
      | .other w => if w = 0 then .panics else .returns

theorem setThread_next {k : Kernel} {p q : Page} {u v : Thread} {s : Statement}
    (hp : k.page p = .thread u) (hv : v.next = u.next)
    (hq : (k.thread? q).map Thread.next = some s) :
    ((k.setThread p v).thread? q).map Thread.next = some s := by
  by_cases he : q = p
  · subst he
    rw [Kernel.thread?_eq.mpr hp] at hq
    rw [thread?_setThread]
    exact (congrArg some hv).trans hq
  · have hsame : (k.setThread p v).thread? q = k.thread? q := by
      unfold Kernel.thread? Kernel.setThread
      simp only [Function.update_of_ne he]
    rw [hsame]
    exact hq

/-- The running thread gets behind its `semaphore_down` exactly if the semaphore can be downed. -/
theorem semaphoreDown_down {k : Kernel} {t : Thread} {s : Statement}
    (hk : k.thread? k.current = some t) (hs : t.next ≠ s) :
    (∃ k', k.semaphoreDown s = some k' ∧ (k'.thread? k.current).map Thread.next = some s) ↔
      childLockDown k t = .returns := by
  have hgoto : ∀ {k₁ : Kernel}, k₁.current = k.current → (k₁.thread? k.current).isSome →
      ∃ k', k₁.goto s = some k' ∧ (k'.thread? k.current).map Thread.next = some s := by
    intro k₁ hc hsome
    obtain ⟨v, hv⟩ := Option.isSome_iff_exists.mp hsome
    refine ⟨_, goto_eq (t := v) (by rw [hc]; exact Kernel.thread?_eq.mp hv), ?_⟩
    rw [hc, thread?_setThread]
    rfl
  have hnext : (k.thread? k.current).map Thread.next = some t.next := by rw [hk]; rfl
  unfold Kernel.semaphoreDown childLockDown
  rw [hk, Option.bind_eq_bind, Option.bind_some]
  cases t.childLock with
  | none =>
      refine iff_of_false ?_ Down.noConfusion
      rintro ⟨k', h, -⟩
      cases h
  | some p =>
      rw [Option.bind_eq_bind, Option.bind_some]
      dsimp only
      cases hp : k.page p with
      | thread u =>
          dsimp only
          split_ifs with hzero
          · refine iff_of_false ?_ id
            rintro ⟨k', h, hout⟩
            have hpage : k'.page = (k.setThread p { u with
                parentLock := ⟨0, u.parentLock.waiters ++ [k.current]⟩ }).page := (schedule_page h).1
            have hwait := setThread_next hp (v := { u with
              parentLock := ⟨0, u.parentLock.waiters ++ [k.current]⟩ }) rfl hnext
            have hsame : k'.thread? k.current = (k.setThread p { u with
                parentLock := ⟨0, u.parentLock.waiters ++ [k.current]⟩ }).thread? k.current := by
              unfold Kernel.thread?
              rw [hpage]
            rw [hsame, hwait] at hout
            exact hs (Option.some.inj hout)
          · refine iff_of_true (hgoto rfl ?_) rfl
            have hgone := setThread_next hp (v := { u with
              parentLock := ⟨u.parentLock.value - 1, u.parentLock.waiters⟩ }) rfl hnext
            exact Option.isSome_map.symm.trans (by rw [hgone]; rfl)
      | other w =>
          dsimp only
          split_ifs with hzero
          · refine iff_of_false ?_ id
            rintro ⟨k', h, -⟩
            cases h
          · refine iff_of_true (hgoto rfl ?_) rfl
            have hne : k.current ≠ p := by
              rintro he
              rw [Kernel.thread?_eq, he, hp] at hk
              cases hk
            unfold Kernel.thread? at hk ⊢
            dsimp only
            rw [Function.update_of_ne hne, hk]
            rfl

/-- Without a page for the thread, `process_execute` returns exactly if the `child_lock` of the
caller, as it was before, can be downed. -/
theorem execute_noThread_returns {k : Kernel} {t : Thread} (hk : k.page k.current = .thread t)
    (hn : t.next = .outside) :
    (∃ k', ((step (.execute .noThread) k).bind (step .run)).bind (step .run) = some k' ∧
      (k'.thread? k.current).map Thread.next = some .outside) ↔ childLockDown k t = .returns := by
  rw [execute_noThread hk hn]
  have h := semaphoreDown_down (k := k.setThread k.current
    { t with childTid := tidError, next := .executeDown tidError }) (s := .outside)
    (thread?_setThread k k.current _) Statement.noConfusion
  refine h.trans ?_
  unfold childLockDown Kernel.setThread
  cases t.childLock with
  | none => exact Iff.rfl
  | some p =>
      by_cases he : p = k.current
      · subst he
        simp only [Function.update_self, hk]
      · simp only [Function.update_of_ne he]

/-- **The failures that are clean**: those of the first allocation.  After a failure of the second
one the caller is left with the `semaphore_down` of whatever its `child_lock` is. -/
theorem failed_execution_clean (hcmd : 0 ∉ cmd) (s : Mem) (copy thread : Option Page) (tid : ℤ)
    (lock : Down) (hfail : copy = none ∨ thread = none) :
    (CleanFailure (processExecute s cmd copy thread tid lock) ↔ copy = none) ∧
    ∀ (k : Kernel) (t : Thread), k.page k.current = .thread t → t.next = .outside →
      step (.execute .noCopy) k = some k ∧
      ((step (.execute .noThread) k).bind (step .run)).bind (step .run) =
        (k.setThread k.current
          { t with childTid := tidError, next := .executeDown tidError }).semaphoreDown .outside := by
  refine ⟨?_, fun k t hk hn => ⟨?_, execute_noThread hk hn⟩⟩
  · cases copy with
    | none => exact iff_of_true ⟨rfl, rfl, nofun⟩ rfl
    | some p =>
        obtain ⟨cut, name, l, r, -, hends, hrun⟩ := processExecute_spec hcmd s p thread tid lock
        refine iff_of_false (fun h => h.notDowned ?_) (Option.some_ne_none p)
        rw [hrun, (hends.noThread (hfail.resolve_left (Option.some_ne_none p))).1]
        exact List.mem_append_right _ (List.mem_append_right _ (.tail _ (.head _)))
  · change (if k.at? .outside then some k else none) = some k
    rw [if_pos (Kernel.at?_eq.mpr ⟨t, hk, hn⟩)]

theorem failed_execution_clean_echo :
    CleanFailure (processExecute (fun _ => 0) echoHi none (some 8) 3 .returns) :=
  (failed_execution_clean (by decide) (fun _ => 0) none (some 8) 3 .returns (.inl rfl)).1.mpr rfl

/-- Without a page for the thread, the page of the copy is not freed and `child_lock` is downed:
the initial thread blocks on the semaphore of the idle thread. -/
theorem failed_execution_blocks :
    ¬CleanFailure (processExecute (fun _ => 0) echoHi (some 7) none 3 .blocks) ∧
      held (processExecute (fun _ => 0) echoHi (some 7) none 3 .blocks).log = [7] ∧
      (processExecute (fun _ => 0) echoHi (some 7) none 3 .blocks).log.getLast? = some .downChildLock ∧
      (((step (.execute .noThread) (boot fun _ => 0)).bind (step .run)).bind (step .run)).map
        (fun k => (k.status initialThread, k.current)) = some (.blocked, idleThread) := by
  have hheld : held (processExecute (fun _ => 0) echoHi (some 7) none 3 .blocks).log = [7] := by
    decide +kernel
  refine ⟨fun h => ?_, hheld, by decide +kernel, by decide +kernel⟩
  have hfreed := h.freed
  rw [hheld] at hfreed
  cases hfreed

end CSE130.Lab3.Execute
