import CSE130.Lab3.Arguments
import CSE130.Lib.Traced

/-! # Where the arguments of a process are written

`process_execute` keeps `PGSIZE - 1` bytes of the command line and `setup_stack` maps one page
for the stack.  `push_command` lowers the stack pointer by what the arguments need and compares
it with nothing.  Here its writes are logged: they stay in the page exactly when the arguments
fit (`pushCommandLog_only`), and a command line whose arguments do not fit is loaded all the same
(`push_command_on_page`). -/

namespace CSE130.Lab3

open Traced

/-- Why the new thread does not get to the user program: a loop does not find the end of a
string, `argv[0]` is not set, or `elf_load` fails. -/
inductive Halt
  | unterminated
  | noProgram
  | notLoaded
  deriving DecidableEq

/-- A write of `push_command`: where, and how many bytes. -/
structure StackWrite where
  addr : ℕ
  size : ℕ

/-- The write is in the page that `setup_stack` maps. -/
def StackWrite.InPage (w : StackWrite) : Prop :=
  physBase - pgsize ≤ w.addr ∧ w.addr + w.size ≤ physBase

/-- What runs in the new thread, with the writes of `push_command`. -/
abbrev Push := Traced Halt StackWrite

/-- `memcpy (esp, bytes, length)`. -/
def store (m : Mem) (esp : ℕ) (bytes : List UInt8) : Push Mem := do
  access ⟨esp, bytes.length⟩
  pure (m.write esp bytes)

/-- `pushStrings`, with its writes. -/
def pushStringsLog : List ℕ → Mem → ℕ → Push (List ℕ × Mem × ℕ)
  | [], m, esp => pure ([], m, esp)
  | p :: argv, m, esp => do
      let (addr, m, esp) ← pushStringsLog argv m esp
      let sLen := (← ofOption .unterminated (strlen m pgsize p)) + 1
      let esp := esp - sLen
      let m ← store m esp (m.read p sLen)
      pure (esp :: addr, m, esp)

/-- `pushPointers`, with its writes. -/
def pushPointersLog : List ℕ → Mem → ℕ → Push (Mem × ℕ)
  | [], m, esp => pure (m, esp)
  | a :: addr, m, esp => do
      let (m, esp) ← pushPointersLog addr m esp
      let m ← store m (esp - 4) (Mem.wordBytes a)
      pure (m, esp - 4)

/-- `push_command (argv, argc, &esp)`, with its writes. -/
def pushCommandLog (m : Mem) (argv : List ℕ) (esp : ℕ) : Push (Mem × ℕ) := do
  let (addr, m, esp) ← pushStringsLog argv m (wordAlign esp)
  let (m, esp) ← pushPointersLog addr m (wordAlign esp - 4)
  let m ← store m (esp - 4) (Mem.wordBytes esp)
  let m ← store m (esp - 8) (Mem.wordBytes argv.length)
  pure (m, esp - 12)

/-- `start_process (cmdline)`.  `load` is what `elf_load (argv[0])` does to the memory before it
comes to `setup_stack`, or its failure. -/
def startProcessLog (load : ℕ → Mem → Option Mem) (m : Mem) (cmdline : ℕ) : Push (Mem × ℕ) := do
  let (argv, m) ← ofOption .unterminated (tokenise pgsize m cmdline)
  let file ← ofOption .noProgram argv.head?
  let m ← ofOption .notLoaded (load file m)
  let (m, esp) := setupStack m
  pushCommandLog m argv esp

/-- `strlcpy (dst, src, size)`, with `size > 0`. -/
def strlcpy (m : Mem) (dst : ℕ) (src : List UInt8) (size : ℕ) : Mem :=
  m.write dst (src.take (size - 1) ++ [0])

/-- `process_execute (cmdline)`, up to the return of `push_command` in the new thread: `copy` is
the page that holds the copy of the command line. -/
def processExecute (load : ℕ → Mem → Option Mem) (m : Mem) (copy : ℕ) (cmdline : List UInt8) :
    Push (Mem × ℕ) :=
  startProcessLog load (strlcpy m copy cmdline pgsize) copy

variable {m m' : Mem} {p esp lo copy : ℕ} {cmd : List UInt8} {ts : List (List UInt8)}
  {argv addr : List ℕ} {load : ℕ → Mem → Option Mem}

/-! ### The log leaves the results alone -/

@[simp] theorem store_result (m : Mem) (esp : ℕ) (bytes : List UInt8) :
    (store m esp bytes).result = .ok (m.write esp bytes) := rfl

theorem only_store {P : StackWrite → Prop} {bytes : List UInt8} :
    (store m esp bytes).Only P ↔ P ⟨esp, bytes.length⟩ := by
  unfold store
  rw [only_bind_of_ok (access_result _), only_access]
  exact and_iff_left (only_pure _)

@[simp] theorem store_value (m : Mem) (esp : ℕ) (bytes : List UInt8) :
    (store m esp bytes).value = some (m.write esp bytes) := rfl

theorem pushStringsLog_value : ∀ argv : List ℕ,
    (pushStringsLog argv m esp).value = pushStrings argv m esp
  | [] => rfl
  | p :: argv => by
      unfold pushStringsLog pushStrings
      simp only [value_bind, pushStringsLog_value argv, value_ofOption, store_value, value_pure]
      rfl

theorem pushPointersLog_value : ∀ addr : List ℕ,
    (pushPointersLog addr m esp).value = some (pushPointers addr m esp)
  | [] => rfl
  | a :: addr => by
      unfold pushPointersLog pushPointers
      simp only [value_bind, pushPointersLog_value addr, store_value, value_pure]
      rfl

theorem pushCommandLog_value : (pushCommandLog m argv esp).value = pushCommand m argv esp := by
  unfold pushCommandLog pushCommand
  simp only [value_bind, pushStringsLog_value, pushPointersLog_value, store_value, value_pure]
  rfl

theorem startProcessLog_value (load : ℕ → Mem → Mem) (m : Mem) (cmdline : ℕ) :
    (startProcessLog (fun file m => some (load file m)) m cmdline).value =
      startProcess load m cmdline := by
  unfold startProcessLog startProcess
  simp only [value_bind, value_ofOption, pushCommandLog_value]
  rfl

/-! ### Where the writes are -/

theorem StackWrite.inPage_mk {a n : ℕ} :
    (StackWrite.mk a n).InPage ↔ physBase - pgsize ≤ a ∧ a + n ≤ physBase := Iff.rfl

theorem StackWrite.inPage_of_le {n : ℕ} (hlo : physBase - pgsize ≤ esp - n) (hhi : esp ≤ physBase) :
    (StackWrite.mk (esp - n) n).InPage := by
  rw [inPage_mk]
  unfold physBase pgsize at *
  omega

theorem pushStringsLog_only : ∀ {argv addr : List ℕ} {m' : Mem} {esp' : ℕ},
    pushStrings argv m esp = some (addr, m', esp') → esp ≤ physBase →
    esp' ≤ esp ∧ (physBase - pgsize ≤ esp' → (pushStringsLog argv m esp).Only StackWrite.InPage)
  | [], _, _, _, h, _ => by
      cases h
      exact ⟨Nat.le_refl _, fun _ => only_pure _⟩
  | p :: argv, _, _, _, h, hesp => by
      unfold pushStrings at h
      obtain ⟨⟨addr, m₁, esp₁⟩, hloop, h⟩ := Option.bind_eq_some_iff.mp h
      obtain ⟨n, hn, h⟩ := Option.bind_eq_some_iff.mp h
      cases h
      obtain ⟨hle, hrest⟩ := pushStringsLog_only hloop hesp
      refine ⟨by omega, fun hlo => ?_⟩
      unfold pushStringsLog
      rw [only_bind_of_ok (value_eq_some.mp ((pushStringsLog_value _).trans hloop))]
      refine ⟨hrest (by omega), ?_⟩
      dsimp only
      rw [hn, ofOption_some, Traced.pure_bind, only_bind_of_ok (store_result _ _ _), only_store,
        Mem.read_length]
      exact ⟨StackWrite.inPage_of_le hlo (by omega), only_pure _⟩

theorem pushPointersLog_only : ∀ addr : List ℕ, esp ≤ physBase →
    (pushPointers addr m esp).2 = esp - 4 * addr.length ∧
      (physBase - pgsize ≤ esp - 4 * addr.length →
        (pushPointersLog addr m esp).Only StackWrite.InPage)
  | [], _ => ⟨rfl, fun _ => only_pure _⟩
  | a :: addr, hesp => by
      obtain ⟨hstop, hrest⟩ := pushPointersLog_only addr hesp
      have hlast : (pushPointers addr m esp).2 - 4 = esp - 4 * (a :: addr).length := by
        rw [hstop, List.length_cons]
        omega
      refine ⟨hlast, fun hlo => ?_⟩
      unfold pushPointersLog
      rw [only_bind_of_ok (value_eq_some.mp (pushPointersLog_value _))]
      rw [List.length_cons] at hlo
      refine ⟨hrest (by omega), ?_⟩
      dsimp only
      rw [only_bind_of_ok (store_result _ _ _), only_store, hstop, Mem.wordBytes_length]
      exact ⟨StackWrite.inPage_of_le (by omega) (by omega), only_pure _⟩

/-- The writes stay in the page exactly when the arguments fit; the return address is not
written. -/
theorem pushCommandLog_only
    (hargv : List.Forall₂ (fun p t => m.IsString p t ∧ physBase ≤ p ∧ t.length < pgsize) argv ts)
    (hsize : frameSize ts ≤ physBase) :
    (∃ r, (pushCommandLog m argv physBase).result = .ok r) ∧
      ((pushCommandLog m argv physBase).Only StackWrite.InPage ↔ frameSize ts ≤ pgsize + 4) := by
  unfold frameSize at hsize
  have halign : wordAlign physBase = physBase := rfl
  obtain ⟨addr, m₁, hstrs, hlaid, -⟩ := pushStrings_spec hargv (by omega)
  have hlen := hlaid.le.2
  obtain ⟨-, honly₁⟩ := pushStringsLog_only hstrs (Nat.le_refl _)
  obtain ⟨top, htop⟩ : ∃ top, top = wordAlign (physBase - stringsSize ts) - 4 := ⟨_, rfl⟩
  have htop' : top + 4 + (stringsSize ts + 3) / 4 * 4 = physBase := by
    unfold wordAlign physBase at *
    omega
  obtain ⟨hstop, honly₂⟩ := pushPointersLog_only (m := m₁) addr (show top ≤ physBase by omega)
  have hlast : (pushCommandLog m argv physBase).Only StackWrite.InPage ↔
      (pushStringsLog argv m physBase).Only StackWrite.InPage ∧
        (pushPointersLog addr m₁ top).Only StackWrite.InPage ∧
          (StackWrite.mk (top - 4 * addr.length - 4) 4).InPage ∧
            (StackWrite.mk (top - 4 * addr.length - 8) 4).InPage := by
    unfold pushCommandLog
    rw [halign, only_bind_of_ok (value_eq_some.mp ((pushStringsLog_value _).trans hstrs))]
    dsimp only
    rw [← htop, only_bind_of_ok (value_eq_some.mp (pushPointersLog_value _)), only_bind_of_ok (store_result _ _ _), only_store, only_bind_of_ok (store_result _ _ _),
      only_store, hstop]
    simp only [Mem.wordBytes_length, only_pure, and_true]
  constructor
  · unfold pushCommandLog
    rw [halign, result_bind_of_ok (value_eq_some.mp ((pushStringsLog_value _).trans hstrs))]
    dsimp only
    rw [result_bind_of_ok (value_eq_some.mp (pushPointersLog_value _))]
    exact ⟨_, rfl⟩
  · rw [hlast, StackWrite.inPage_mk, StackWrite.inPage_mk]
    unfold frameSize
    constructor
    · rintro ⟨-, -, -, hlo, -⟩
      unfold physBase pgsize at *
      omega
    · intro hfit
      have hlow : physBase - pgsize ≤ top - 4 * addr.length - 8 := by
        unfold physBase pgsize at *
        omega
      exact ⟨honly₁ (by omega), honly₂ (by omega), ⟨by omega, by omega⟩, hlow, by omega⟩

/-! ### What the arguments of a command line need -/

theorem stringsSize_filter (q : List UInt8 → Bool) : ∀ ts : List (List UInt8),
    stringsSize (ts.filter q) ≤ stringsSize ts
  | [] => Nat.le_refl _
  | t :: ts => by
      have := stringsSize_filter q ts
      rw [List.filter_cons]
      split
      · rw [stringsSize_cons, stringsSize_cons]
        omega
      · rw [stringsSize_cons]
        omega

/-- The arguments take at most five bytes for each byte of the command line. -/
theorem frameSize_tokens_le (cmd : List UInt8) : frameSize (tokens cmd) ≤ 5 * cmd.length + 24 := by
  have hsum : stringsSize (tokens cmd) ≤ cmd.length + 1 :=
    Nat.le_trans (stringsSize_filter _ _) (Nat.le_of_eq (stringsSize_splitOn cmd))
  have hcount := length_le_stringsSize (tokens cmd)
  unfold frameSize
  omega

/-! ### Every command line -/

/-- `elf_load` does not touch the page of the command line. -/
def Keeps (copy : ℕ) (load : ℕ → Mem → Option Mem) : Prop :=
  ∀ file m m', load file m = some m' → ∀ x, copy ≤ x → x < copy + pgsize → m' x = m x

/-- `push_command` writes in the stack page only, and a command line whose arguments do not fit
in it is not loaded. -/
structure OnStackPage (load : ℕ → Mem → Option Mem) (m : Mem) (copy : ℕ) (cmd : List UInt8) :
    Prop where
  inside : (processExecute load m copy cmd).Only StackWrite.InPage
  refused : pgsize < frameSize (tokens (cmd.take (pgsize - 1))) →
    (processExecute load m copy cmd).result = .error .notLoaded

/-- The copy of the command line, as the new thread finds it. -/
theorem strlcpy_isString (hcmd : 0 ∉ cmd) (m : Mem) (copy : ℕ) :
    (strlcpy m copy cmd pgsize).IsString copy (cmd.take (pgsize - 1)) := by
  have hread := @Mem.read_write_self m copy (cmd.take (pgsize - 1) ++ [0])
  rw [List.length_append, List.length_singleton] at hread
  exact ⟨hread, fun h0 => hcmd (List.mem_of_mem_take h0)⟩

theorem take_pgsize_length (cmd : List UInt8) : (cmd.take (pgsize - 1)).length < pgsize := by
  rw [List.length_take]
  unfold pgsize
  omega

/-- Without arguments there is no program to load. -/
theorem processExecute_nil (hcmd : 0 ∉ cmd) (h : tokens (cmd.take (pgsize - 1)) = []) (m : Mem) :
    processExecute load m copy cmd = exit .noProgram := by
  have hlen := take_pgsize_length cmd
  obtain ⟨argv, m₁, htok, hall, -⟩ :=
    tokenise_spec (strlcpy_isString hcmd m copy) hlen hlen h
  obtain rfl := List.forall₂_nil_right_iff.mp hall
  unfold processExecute startProcessLog
  rw [htok, ofOption_some, Traced.pure_bind]
  rfl

theorem processExecute_cons (hcmd : 0 ∉ cmd) (hkernel : physBase ≤ copy) (hload : Keeps copy load)
    (h : tokens (cmd.take (pgsize - 1)) ≠ []) (m : Mem) : ∃ file m₁,
      (load file m₁ = none → processExecute load m copy cmd = exit .notLoaded) ∧
      ((load file m₁).isSome → (∃ r, (processExecute load m copy cmd).result = .ok r) ∧
        ((processExecute load m copy cmd).Only StackWrite.InPage ↔
          frameSize (tokens (cmd.take (pgsize - 1))) ≤ pgsize + 4)) := by
  have hlen := take_pgsize_length cmd
  have hsize := frameSize_tokens_le (cmd.take (pgsize - 1))
  obtain ⟨argv, m₁, htok, hall, -⟩ :=
    tokenise_spec (strlcpy_isString hcmd m copy) hlen hlen rfl
  cases argv with
  | nil => exact absurd (List.forall₂_nil_left_iff.mp hall) h
  | cons file argv =>
      have hrun : processExecute load m copy cmd = (do
          let m ← ofOption .notLoaded (load file m₁)
          let (m, esp) := setupStack m
          pushCommandLog m (file :: argv) esp) := by
        unfold processExecute startProcessLog
        rw [htok, ofOption_some, Traced.pure_bind]
        rfl
      rw [hrun]
      refine ⟨file, m₁, fun hl => by rw [hl]; rfl, fun hl => ?_⟩
      obtain ⟨m₂, hl⟩ := Option.isSome_iff_exists.mp hl
      rw [hl, ofOption_some, Traced.pure_bind]
      have hkeep : ∀ x, copy ≤ x → x < copy + pgsize → (setupStack m₂).1 x = m₁ x :=
        fun x hx hx' => (if_neg (by omega)).trans (hload file m₁ m₂ hl x hx hx')
      refine pushCommandLog_only (hall.imp fun p t hp => ?_) ?_
      · exact ⟨hp.1.congr fun x hx hx' => hkeep x (by omega) (by omega), by omega, by omega⟩
      · unfold physBase pgsize at *
        omega

/-- Command lines whose arguments fit in the stack page are all that this holds of. -/
theorem push_command_on_page (hcmd : 0 ∉ cmd) (hkernel : physBase ≤ copy) (m : Mem) :
    (∀ load, Keeps copy load → OnStackPage load m copy cmd) ↔
      frameSize (tokens (cmd.take (pgsize - 1))) ≤ pgsize := by
  by_cases hnil : tokens (cmd.take (pgsize - 1)) = []
  · have hsmall : frameSize (tokens (cmd.take (pgsize - 1))) ≤ pgsize := by
      rw [hnil]
      decide
    refine iff_of_true (fun load _ => ⟨?_, fun hbig => absurd hsmall (Nat.not_le.mpr hbig)⟩) hsmall
    rw [processExecute_nil hcmd hnil]
    exact only_exit _
  · constructor
    · intro hall
      have hload : Keeps copy fun _ m => some m := fun _ m m' h x _ _ => by
        cases h
        rfl
      obtain ⟨_, _, -, hok⟩ := processExecute_cons hcmd hkernel hload hnil m
      obtain ⟨⟨r, hr⟩, -⟩ := hok rfl
      by_contra hbig
      have hrefused := (hall _ hload).refused (Nat.not_le.mp hbig)
      rw [hr] at hrefused
      cases hrefused
    · intro hfit load hload
      refine ⟨?_, fun hbig => absurd hfit (Nat.not_le.mpr hbig)⟩
      obtain ⟨file, m₁, hfail, hok⟩ := processExecute_cons hcmd hkernel hload hnil m
      cases hl : load file m₁ with
      | none =>
          rw [hfail hl]
          exact only_exit _
      | some m₂ => exact (hok (by rw [hl]; rfl)).2.mpr (by omega)

theorem push_command_on_page_echo : frameSize (tokens (echoHi.take (pgsize - 1))) ≤ pgsize ∧
    ∀ load, Keeps 3222274048 load → OnStackPage load (fun _ => 0) 3222274048 echoHi := by
  have hfit : frameSize (tokens (echoHi.take (pgsize - 1))) ≤ pgsize := by decide
  exact ⟨hfit, (push_command_on_page (by decide) (by decide) _).mpr hfit⟩

/-! ### Many short arguments -/

/-- `n` arguments of one letter. -/
def letters (n : ℕ) : List UInt8 := (List.replicate n [97, 32]).flatten

theorem tokens_letters : ∀ n : ℕ, tokens (letters n) = List.replicate n [97]
  | 0 => rfl
  | n + 1 => by
      have hstep : letters (n + 1) = [97] ++ 32 :: letters n := rfl
      rw [hstep, tokens_token (by decide) (by decide), tokens_letters n, List.replicate_succ]

theorem letters_length : ∀ n : ℕ, (letters n).length = 2 * n
  | 0 => rfl
  | n + 1 => by
      have hstep : letters (n + 1) = 97 :: 32 :: letters n := rfl
      rw [hstep, List.length_cons, List.length_cons, letters_length n]
      omega

theorem zero_notMem_letters : ∀ n : ℕ, 0 ∉ letters n
  | 0 => List.not_mem_nil
  | n + 1 => by
      have hstep : letters (n + 1) = 97 :: 32 :: letters n := rfl
      rw [hstep, List.mem_cons, List.mem_cons, not_or, not_or]
      exact ⟨by decide, by decide, zero_notMem_letters n⟩

theorem stringsSize_replicate (t : List UInt8) : ∀ n : ℕ,
    stringsSize (List.replicate n t) = n * (t.length + 1)
  | 0 => (Nat.zero_mul _).symm
  | n + 1 => by
      rw [List.replicate_succ, stringsSize_cons, stringsSize_replicate t n, Nat.succ_mul]
      exact Nat.add_comm _ _

/-- 700 arguments of one letter take 1400 bytes of the command line, and more than a page of the
stack. -/
theorem push_command_leaves_page :
    ¬ (processExecute (fun _ m => some m) (fun _ => 0) 3222274048 (letters 700)).Only
      StackWrite.InPage := by
  have hload : Keeps 3222274048 fun _ m => some m := fun _ m m' h x _ _ => by
    cases h
    rfl
  have hkept : (letters 700).take (pgsize - 1) = letters 700 :=
    List.take_of_length_le (by rw [letters_length]; decide)
  have htok : tokens ((letters 700).take (pgsize - 1)) = List.replicate 700 [97] := by
    rw [hkept, tokens_letters]
  obtain ⟨_, _, -, hok⟩ := processExecute_cons (zero_notMem_letters 700) (by decide) hload
    (by rw [htok]; exact List.cons_ne_nil _ _) (fun _ => 0)
  rw [(hok rfl).2, htok]
  unfold frameSize
  rw [stringsSize_replicate, List.length_replicate]
  decide

end CSE130.Lab3
