import CSE130.Lab3.Creation
import CSE130.Lab3.ElfLoad
import CSE130.Lab3.Execute

/-! # What `exec` returns

`sys_exec` learns nothing of the child: when the child has ended, it opens the whole command line
as one path and returns the thread id if there is such a file.  The child had loaded the file that
the first token names (`exec_reports_load`).  A call that waits for a child that does not end, or
for the `child_lock` of an earlier one when there is no page for the thread, returns nothing.

The file system is seen twice, by the child when it loads and by the parent when the child has
ended.  The test of the user's pointer is left out. -/

namespace CSE130.Lab3.Execute

open Files Traced

/-- The file of an inode, as `elf_load` reads it. -/
def execFile (st : State) (s : Sector) : Option Elf.ExecFile :=
  if h : (st.dataOf s).length < 2 ^ 31 then some ⟨st.disk, st.dataOf s, h⟩ else none

/-- `elf_load (argv[0])` succeeds in the thread that runs `start_process`; the working directory
of a new thread is not set. -/
def ChildLoads (st : State) (sp : Elf.Space) (line : List UInt8) : Prop :=
  ∃ file argv f st' sp', tokens (line.take (pgsize - 1)) = file :: argv ∧
    Paths.filesysOpen st none file = some (f, st') ∧
    (Elf.elfLoad (f.bind (execFile st')) sp).result = .ok (true, sp')

/-- `sys_exec`; `st` is the file system when `process_execute` has returned. -/
def sysExec (s : Mem) (line : List UInt8) (copy thread : Option Page) (tid : ℤ) (lock : Down)
    (st : State) (cwd : Option Sector) : Exec ℤ := do
  let tid ← processExecute s line copy thread tid lock
  let (f, _) ← ofOption .assertion (Paths.filesysOpen st cwd line)
  pure (if f.isNone then -1 else tid)

/-- The call returns the thread id of the child if it was started and has loaded its program, and
otherwise -1. -/
def Reports (x : Exec ℤ) (tid : ℤ) (loads : Prop) : Prop :=
  ∃ v, x.result = .ok v ∧ (v = tid ↔ (∃ t p, .start t p ∈ x.log) ∧ loads) ∧
    (v = tid ∨ v = tidError)

variable {line : List UInt8} {s : Mem} {copy thread : Option Page} {tid : ℤ} {lock : Down}
  {st st₀ : State} {cwd : Option Sector} {sp : Elf.Space}

theorem sysExec_of_ok {v : ℤ} {f : Option Sector} {st' : State}
    (h : (processExecute s line copy thread tid lock).result = .ok v)
    (ho : Paths.filesysOpen st cwd line = some (f, st')) :
    (sysExec s line copy thread tid lock st cwd).result = .ok (if f.isNone then -1 else v) ∧
      (sysExec s line copy thread tid lock st cwd).log =
        (processExecute s line copy thread tid lock).log := by
  unfold sysExec
  rw [bind_of_ok h, ho]
  exact ⟨rfl, List.append_nil _⟩

theorem sysExec_result_ok {v : ℤ} (h : (sysExec s line copy thread tid lock st cwd).result = .ok v) :
    (∃ w, (processExecute s line copy thread tid lock).result = .ok w) ∧
      ∃ f st', Paths.filesysOpen st cwd line = some (f, st') := by
  unfold sysExec at h
  obtain ⟨w, hw, h⟩ := result_bind_eq_ok.mp h
  refine ⟨⟨w, hw⟩, ?_⟩
  cases ho : Paths.filesysOpen st cwd line with
  | none =>
      rw [ho] at h
      cases h
  | some r => exact ⟨r.1, r.2, rfl⟩

theorem processExecute_notStarted (hline : 0 ∉ line) (s : Mem) (tid : ℤ)
    (h : copy = none ∨ lock = .returns ∧ thread = none) :
    (processExecute s line copy thread tid lock).result = .ok tidError ∧
      ¬∃ t p, .start t p ∈ (processExecute s line copy thread tid lock).log := by
  cases copy with
  | none =>
      refine ⟨rfl, ?_⟩
      rintro ⟨t, p, hm⟩
      cases hm
  | some p =>
      obtain ⟨rfl, rfl⟩ := h.resolve_left (Option.some_ne_none p)
      obtain ⟨-, hstart⟩ := processExecute_mem hline s p none tid .returns
      refine ⟨(processExecute_result hline s p none tid .returns).1 rfl, ?_⟩
      rintro ⟨t, q, hm⟩
      cases ((hstart t q).mp hm).1

theorem processExecute_started (hline : 0 ∉ line) (s : Mem) (tid : ℤ) (hc : copy ≠ none)
    (ht : thread ≠ none) (hne : tokens line ≠ []) :
    (processExecute s line copy thread tid .returns).result = .ok tid ∧
      ∃ t p, .start t p ∈ (processExecute s line copy thread tid .returns).log := by
  obtain ⟨p, rfl⟩ := Option.ne_none_iff_exists'.mp hc
  obtain ⟨t, rfl⟩ := Option.ne_none_iff_exists'.mp ht
  obtain ⟨-, hstart⟩ := processExecute_mem hline s p (some t) tid .returns
  exact ⟨(processExecute_result hline s p (some t) tid .returns).2.2 ht hne,
    t, p, (hstart t p).mpr ⟨rfl, rfl, hne⟩⟩

theorem processExecute_ok (hline : 0 ∉ line) {w : ℤ}
    (h : (processExecute s line copy thread tid lock).result = .ok w) :
    copy = none ∨ lock = .returns ∧ (thread = none ∨ tokens line ≠ []) := by
  cases copy with
  | none => exact .inl rfl
  | some p =>
      obtain ⟨hno, hpanic, hyes⟩ := processExecute_result hline s p thread tid lock
      refine .inr ?_
      by_cases ht : thread = none
      · rw [hno ht] at h
        exact ⟨(Down.result_eq_ok.mp h).1, .inl ht⟩
      by_cases hnil : tokens line = []
      · rw [hpanic ht hnil] at h
        cases h
      · rw [hyes ht hnil] at h
        exact ⟨(Down.result_eq_ok.mp h).1, .inr hnil⟩

theorem reports_iff (hline : 0 ∉ line) (htid : tid ≠ tidError) (s : Mem)
    (copy thread : Option Page) (lock : Down) (st₀ st : State) (cwd : Option Sector)
    (sp : Elf.Space) :
    Reports (sysExec s line copy thread tid lock st cwd) tid (ChildLoads st₀ sp line) ↔
      ∃ f st', Paths.filesysOpen st cwd line = some (f, st') ∧
        (copy = none ∨ lock = .returns ∧ (thread = none ∨
          tokens line ≠ [] ∧ (f.isSome ↔ ChildLoads st₀ sp line))) := by
  constructor
  · rintro ⟨v, hv, hiff, -⟩
    obtain ⟨⟨w, hw⟩, f, st', ho⟩ := sysExec_result_ok hv
    refine ⟨f, st', ho, ?_⟩
    by_cases hc : copy = none
    · exact .inl hc
    obtain ⟨rfl, hcase⟩ := (processExecute_ok hline hw).resolve_left hc
    refine .inr ⟨rfl, ?_⟩
    by_cases ht : thread = none
    · exact .inl ht
    have hne := hcase.resolve_left ht
    obtain ⟨hr, hstart⟩ := processExecute_started hline s tid hc ht hne
    obtain ⟨hv', hlog⟩ := sysExec_of_ok hr ho
    rw [hlog] at hiff
    rw [hv'] at hv
    obtain rfl := Except.ok.inj hv
    refine .inr ⟨hne, ?_⟩
    cases f with
    | none => exact iff_of_false Bool.noConfusion fun hl => htid (hiff.mpr ⟨hstart, hl⟩).symm
    | some s => exact iff_of_true rfl (hiff.mp rfl).2
  · rintro ⟨f, st', ho, hcase⟩
    by_cases hnone : copy = none ∨ lock = .returns ∧ thread = none
    · obtain ⟨hr, hstart⟩ := processExecute_notStarted hline s tid hnone
      obtain ⟨hv, hlog⟩ := sysExec_of_ok hr ho
      refine ⟨tidError, ?_, ?_, .inr rfl⟩
      · rw [hv, ite_self]
      · rw [hlog]
        exact iff_of_false (fun h => htid h.symm) fun h => hstart h.1
    · obtain ⟨hc, ht⟩ := not_or.mp hnone
      obtain ⟨rfl, hrest⟩ := hcase.resolve_left hc
      have ht : thread ≠ none := fun h => ht ⟨rfl, h⟩
      obtain ⟨hne, hsame⟩ := hrest.resolve_left ht
      obtain ⟨hr, hstart⟩ := processExecute_started hline s tid hc ht hne
      obtain ⟨hv, hlog⟩ := sysExec_of_ok hr ho
      cases f with
      | none =>
          refine ⟨tidError, hv, ?_, .inr rfl⟩
          exact iff_of_false (fun h => htid h.symm) fun h => Bool.noConfusion (hsame.mpr h.2)
      | some f =>
          refine ⟨tid, hv, ?_, .inl rfl⟩
          rw [hlog]
          exact iff_of_true rfl ⟨hstart, hsame.mp rfl⟩

theorem reports_iff_found (hline : 0 ∉ line) (htid : tid ≠ tidError) (s : Mem)
    (copy thread : Option Page) (lock : Down) (st₀ st : State) (cwd : Option Sector)
    (sp : Elf.Space) (hn : Files.Counted st) (hm : ∀ k, st.heap k = true)
    (hopen : (Paths.filesysOpen st cwd line).isSome) :
    Reports (sysExec s line copy thread tid lock st cwd) tid (ChildLoads st₀ sp line) ↔
      copy = none ∨ lock = .returns ∧ (thread = none ∨
        tokens line ≠ [] ∧ ((pathFile st cwd line).isSome ↔ ChildLoads st₀ sp line)) := by
  rw [reports_iff hline htid]
  obtain ⟨⟨f, st'⟩, ho⟩ := Option.isSome_iff_exists.mp hopen
  rw [← filesysOpen_memory hn hm ho, ho]
  constructor
  · rintro ⟨f', st'', h, hcase⟩
    cases h
    exact hcase
  · exact fun hcase => ⟨f, st', rfl, hcase⟩

/-- **The calls that report the load**: those that have no page for the copy of the line, and those
whose `semaphore_down` returns and that have no page for the thread, or for which the whole command
line is the path of a file if and only if the first token was loaded.  With memory for opening it,
this is a matter of the directories; and without a page for the thread, of the `child_lock` that
the caller had before. -/
theorem exec_reports_load (hline : 0 ∉ line) (htid : tid ≠ tidError) (s : Mem)
    (copy thread : Option Page) (lock : Down) (st₀ st : State) (cwd : Option Sector)
    (sp : Elf.Space) :
    (Reports (sysExec s line copy thread tid lock st cwd) tid (ChildLoads st₀ sp line) ↔
      ∃ f st', Paths.filesysOpen st cwd line = some (f, st') ∧
        (copy = none ∨ lock = .returns ∧ (thread = none ∨
          tokens line ≠ [] ∧ (f.isSome ↔ ChildLoads st₀ sp line)))) ∧
    (Files.Counted st → (∀ k, st.heap k = true) → (Paths.filesysOpen st cwd line).isSome →
      (Reports (sysExec s line copy thread tid lock st cwd) tid (ChildLoads st₀ sp line) ↔
        copy = none ∨ lock = .returns ∧ (thread = none ∨
          tokens line ≠ [] ∧ ((pathFile st cwd line).isSome ↔ ChildLoads st₀ sp line)))) ∧
    ∀ (k : Kernel) (t : Thread), k.page k.current = .thread t → t.next = .outside →
      ((∃ k', ((step (.execute .noThread) k).bind (step .run)).bind (step .run) = some k' ∧
        (k'.thread? k.current).map Thread.next = some .outside) ↔ childLockDown k t = .returns) :=
  ⟨reports_iff hline htid s copy thread lock st₀ st cwd sp,
    reports_iff_found hline htid s copy thread lock st₀ st cwd sp,
    fun _ _ hk hn => execute_noThread_returns hk hn⟩

/-- A name without arguments, in a file system that is left alone: the id of a process that was not
loaded is returned if there is a file of that name. -/
theorem exec_reports_name (hline : 0 ∉ line) (htid : tid ≠ tidError) (hword : tokens line = [line])
    (hlen : line.length < pgsize) (hn : Files.Counted st) (hm : ∀ k, st.heap k = true)
    (hopen : (Paths.filesysOpen st none line).isSome) (s : Mem) (p t : Page) (sp : Elf.Space) :
    Reports (sysExec s line (some p) (some t) tid .returns st none) tid (ChildLoads st sp line) ↔
      ChildLoads st sp line ∨ pathFile st none line = none := by
  have hne : tokens line ≠ [] := by
    rw [hword]
    exact List.cons_ne_nil _ _
  have hfound : ChildLoads st sp line → (pathFile st none line).isSome := by
    rintro ⟨file, argv, f, st', sp', htok, ho, hload⟩
    rw [List.take_of_length_le (Nat.le_sub_one_of_lt hlen), hword] at htok
    cases htok
    rw [← filesysOpen_memory hn hm ho]
    obtain ⟨ok, sp₁, hr, -, hq⟩ := Elf.elfLoad_loads (f.bind (execFile st')) sp
    rw [hload] at hr
    cases hr
    obtain ⟨e, he, -⟩ := hq rfl
    cases f with
    | none => cases he
    | some f => rfl
  rw [reports_iff_found hline htid s (some p) (some t) .returns st st none sp hn hm hopen]
  constructor
  · rintro (h | ⟨-, h | ⟨-, hsame⟩⟩)
    · cases h
    · cases h
    · by_cases hl : ChildLoads st sp line
      · exact .inl hl
      · exact .inr (Option.not_isSome_iff_eq_none.mp (mt hsame.mp hl))
  · rintro (hl | hnone)
    · exact .inr ⟨rfl, .inr ⟨hne, iff_of_true (hfound hl) hl⟩⟩
    · refine .inr ⟨rfl, .inr ⟨hne, iff_of_false ?_ fun hl => ?_⟩⟩
      · rw [hnone]
        exact Bool.noConfusion
      · rw [hnone] at hfound
        exact Bool.noConfusion (hfound hl)

/-! ### A file system with one program -/

/-- A disk with the file `"a"` in the root directory. -/
def programDisk (vaddrs : List UInt32) (s : Sector) : Block :=
  if s = 1 then InodeDisk.toBlock ⟨fun _ => 2, 0, 0, true, 40⟩
  else if s = 2 then fun x =>
    if x < 20 then DirEntry.toBytes ⟨1, [], 1⟩ x else DirEntry.toBytes ⟨3, [97], 1⟩ (x - 20)
  else if s = 3 then InodeDisk.toBlock ⟨fun _ => 4, 0, 0, false, 200⟩
  else (Elf.program vaddrs).disk 1

def programState (vaddrs : List UInt32) : State where
  disk := programDisk vaddrs
  freeMap _ := true
  size := 5
  freeMapFile := true
  openInodes _ := none
  live s := s == 1 || s == 3
  heap _ := true
  allocFailed := false

/-- Whether the whole line can be opened, and whether the first token is loaded. -/
def execRun (vaddrs : List UInt32) (line : List UInt8) : Option (Bool × Bool) := do
  let (whole, _) ← Paths.filesysOpen (programState vaddrs) none line
  let file ← (tokens (line.take (pgsize - 1))).head?
  let (f, st') ← Paths.filesysOpen (programState vaddrs) none file
  let (ok, _) ← (Elf.elfLoad (f.bind (execFile st')) Elf.emptySpace).value
  some (whole.isSome, ok)

theorem execRun_spec {vaddrs : List UInt32} {whole ok : Bool}
    (h : execRun vaddrs line = some (whole, ok)) :
    (∃ f st', Paths.filesysOpen (programState vaddrs) none line = some (f, st') ∧ f.isSome = whole) ∧
      (ChildLoads (programState vaddrs) Elf.emptySpace line ↔ ok = true) := by
  unfold execRun at h
  simp only [Option.bind_eq_bind, Option.bind_eq_some_iff, Option.some.injEq, Prod.mk.injEq] at h
  obtain ⟨⟨w, st⟩, hw, file, hfile, ⟨f, st'⟩, hf, ⟨b, sp'⟩, hload, rfl, rfl⟩ := h
  have hload := value_eq_some.mp hload
  refine ⟨⟨w, st, hw, rfl⟩, ?_⟩
  constructor
  · rintro ⟨file', argv, f', st₁, sp₁, htok, ho, hr⟩
    rw [htok] at hfile
    cases hfile
    rw [hf] at ho
    cases ho
    rw [hload] at hr
    cases hr
    rfl
  · rintro rfl
    obtain ⟨argv, htok⟩ := List.head?_eq_some_iff.mp hfile
    exact ⟨file, argv, f, st', sp', htok, hf, hload⟩

theorem not_reports {vaddrs : List UInt32} {whole ok : Bool} (hline : 0 ∉ line)
    (h : execRun vaddrs line = some (whole, ok)) (hne : whole ≠ ok) :
    ¬Reports (sysExec (fun _ => 0) line (some 7) (some 8) 3 .returns (programState vaddrs) none) 3
      (ChildLoads (programState vaddrs) Elf.emptySpace line) := by
  obtain ⟨⟨f, st', ho, hf⟩, hl⟩ := execRun_spec h
  rw [reports_iff hline (by decide)]
  rintro ⟨f', st'', ho', h | ⟨-, h | ⟨-, hsame⟩⟩⟩
  · cases h
  · cases h
  · rw [ho] at ho'
    cases ho'
    rw [hl, hf] at hsame
    exact hne (Bool.eq_iff_iff.mpr hsame)

theorem exec_reports_load_a : Reports (sysExec (fun _ => 0) [97] (some 7) (some 8) 3 .returns
    (programState [0x08048000]) none) 3 (ChildLoads (programState [0x08048000]) Elf.emptySpace [97]) := by
  have hrun : execRun [0x08048000] [97] = some (true, true) := by decide +kernel
  obtain ⟨⟨f, st', ho, hf⟩, hl⟩ := execRun_spec hrun
  refine (exec_reports_load (by decide) (by decide) (fun _ => 0) (some 7) (some 8) .returns _ _ none
    _).1.mpr ⟨f, st', ho, .inr ⟨rfl, .inr ⟨by decide, ?_⟩⟩⟩
  exact iff_of_true hf (hl.mpr rfl)

/-- A program with an argument is loaded, and -1 is returned; a file with two segments in one page
is not loaded, and a thread id is returned; without a page for the thread the initial thread blocks
on the semaphore of the idle thread, and nothing is returned. -/
theorem exec_guesses_load :
    ¬Reports (sysExec (fun _ => 0) [97, 32, 98] (some 7) (some 8) 3 .returns
      (programState [0x08048000]) none) 3
      (ChildLoads (programState [0x08048000]) Elf.emptySpace [97, 32, 98]) ∧
    ¬Reports (sysExec (fun _ => 0) [97] (some 7) (some 8) 3 .returns
      (programState [0x08048000, 0x08049000]) none) 3
      (ChildLoads (programState [0x08048000, 0x08049000]) Elf.emptySpace [97]) ∧
    ((boot fun _ => 0).thread? initialThread).map (childLockDown (boot fun _ => 0)) = some .blocks ∧
    ¬Reports (sysExec (fun _ => 0) [97] (some 7) none 3 .blocks (programState [0x08048000]) none) 3
      (ChildLoads (programState [0x08048000]) Elf.emptySpace [97]) := by
  have hargument : execRun [0x08048000] [97, 32, 98] = some (false, true) := by decide +kernel
  have hoverlap : execRun [0x08048000, 0x08049000] [97] = some (true, false) := by decide +kernel
  refine ⟨not_reports (by decide) hargument (by decide), not_reports (by decide) hoverlap (by decide),
    by decide, ?_⟩
  rw [reports_iff (by decide) (by decide)]
  rintro ⟨f, st', -, h | ⟨h, -⟩⟩
  · cases h
  · cases h

end CSE130.Lab3.Execute
