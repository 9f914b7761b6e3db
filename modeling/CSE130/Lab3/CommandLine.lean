import CSE130.Lab3.Strtok
import CSE130.Lab3.PrintedIntegers
import CSE130.Lab3.Random

/-! # The kernel command line

`make_kernel_command_line` (`utils/Pintos.pm`) writes the arguments of the kernel into the boot sector,
each with a null byte, and `main` (`threads/init.c`) finds them there: `read_command_line` points `argv`
at them, `parse_options` cuts the options in place and `run_actions` calls the actions that the other
words ask for.

The meaning of a command line is a function of its words (`meaning`).  The kernel gives every command line
this meaning, its errors included, as long as there are at most 64 words: `argv` has 65 entries, while 128
bytes have room for 128 empty words (`boot_makeKernelCommandLine`).  A line composed of actions never has that many words
(`boot_kernelArgs`).  An option `-rs` changes nothing, since `parse_options` seeds the generator once more
after it (`boot_seed`). -/

namespace CSE130.Lab3.CommandLine

open CSE130.Lab3.Random (Rc4 randomInit)

/-- The bytes of a string. -/
abbrev Text := List UInt8

def ascii (s : List Char) : Text := s.map fun c => UInt8.ofNat c.toNat

/-! ### The host -/

/-- `LOADER_ARGS_LEN`. -/
def loaderArgsLen : ℕ := 128

/-- `ptov (LOADER_ARG_CNT)`. -/
def loaderArgCnt : ℕ := 0xc0007d3a

/-- `ptov (LOADER_ARGS)`. -/
def loaderArgs : ℕ := loaderArgCnt + 4

/-- The words, each with its null byte. -/
def joined (args : List Text) : Text := args.flatMap (· ++ [0])

/-- `make_kernel_command_line`; `none` if it dies. -/
def makeKernelCommandLine (args : List Text) : Option Text :=
  if loaderArgsLen < (joined args).length then none
  else some (Mem.wordBytes args.length ++ joined args ++
    List.replicate (loaderArgsLen - (joined args).length) 0)

def dash : UInt8 := 45

def equals : UInt8 := 61

/-- The word begins with a dash. -/
def isOption (w : Text) : Bool := w.head? == some dash

/-- The actions of `run_actions`. -/
inductive Task where
  | run | ls | cat | rm | extract | append
deriving DecidableEq, Repr

def Task.name : Task → Text
  | run => ascii ['r', 'u', 'n']
  | ls => ascii ['l', 's']
  | cat => ascii ['c', 'a', 't']
  | rm => ascii ['r', 'm']
  | extract => ascii ['e', 'x', 't', 'r', 'a', 'c', 't']
  | append => ascii ['a', 'p', 'p', 'e', 'n', 'd']

/-- The number of words of an action, its name included. -/
def Task.argc : Task → ℕ
  | ls | extract => 1
  | run | cat | rm | append => 2

/-- The arguments that `utils/pintos` prepares for the kernel: the files to put into its file system are
extracted before the first action, and the files to get are appended after the last one. -/
def kernelArgs (puts gets args : List Text) : List Text :=
  args.takeWhile isOption ++ (if puts = [] then [] else [Task.extract.name]) ++
    args.dropWhile isOption ++ gets.flatMap fun file => [Task.append.name, file]

/-! ### `read_command_line` -/

/-- Why the kernel stops on its command line. -/
inductive Halt where
  /-- `command line arguments overflow` -/
  | commandLineOverflow
  /-- A word is stored behind the end of `argv`. -/
  | outOfBounds
  /-- A string without an end. -/
  | endless
  /-- `-h`: the help is printed and the machine powered off. -/
  | usage
  /-- ``unknown option `%s' (use -h for help)`` -/
  | unknownOption (name : Text)
  /-- The assertion of `atoi`, where the option has no value. -/
  | nullPointer
  /-- The number does not fit into an `int`. -/
  | overflow
  /-- ``unknown action `%s' (use -h for help)`` -/
  | unknownAction (name : Text)
  /-- ``action `%s' requires %d argument(s)`` -/
  | missingArgument (name : Text) (count : ℕ)
deriving DecidableEq, Repr

/-- `strnlen (p, maxlen)`. -/
def strnlen (m : Mem) (p : ℕ) : ℕ → ℕ
  | 0 => 0
  | maxlen + 1 => if m p = 0 then 0 else strnlen m (p + 1) maxlen + 1

/-- The loop of `read_command_line`, from the entry `i` of `argv` on. -/
def readArgs (m : Mem) : ℕ → ℕ → ℕ → Except Halt (List ℕ)
  | 0, _, _ => .ok []
  | argc + 1, i, p =>
      if loaderArgs + loaderArgsLen ≤ p then .error .commandLineOverflow
      else if loaderArgsLen / 2 < i then .error .outOfBounds
      else (readArgs m argc (i + 1) (p + strnlen m p (loaderArgs + loaderArgsLen - p) + 1)).map (p :: ·)

/-- `read_command_line`; the null pointer behind the last entry is stored too, and `argc` is an `int`. -/
def readCommandLine (m : Mem) : Except Halt (List ℕ) := do
  let argc := m.word loaderArgCnt
  if 2 ^ 31 ≤ argc then .error .outOfBounds
  else
    let argv ← readArgs m argc 0 loaderArgs
    if loaderArgsLen / 2 < argc then .error .outOfBounds else .ok argv

/-! ### `parse_options` -/

/-- `enum shutdown_type`. -/
inductive Shutdown where
  | none | powerOff | reboot
deriving DecidableEq, Repr

/-- The static variables that the options set.  The names of the devices are pointers in the kernel. -/
structure Options (β : Type) where
  how : Shutdown := .none
  format_filesys : Bool := false
  filesys_bdev_name : Option β := none
  scratch_bdev_name : Option β := none
  swap_bdev_name : Option β := none
  random : Rc4 := ⟨fun _ => 0, 0, 0, false⟩
  thread_mlfqs : Bool := false
  user_page_limit : ℕ := 2 ^ 32 - 1

variable {β : Type}

/-- `atoi (value)`. -/
def atoiValue (text : β → Text) : Option β → Except Halt ℤ
  | none => .error .nullPointer
  | some value =>
      match Printf.atoi ((text value).map fun c => Char.ofNat c.toNat) with
      | none => .error .overflow
      | some n => .ok n

/-- The options that `parse_options` compares a name with. -/
inductive Flag where
  | h | q | r | f | filesys | scratch | swap | rs | mlfqs | ul
deriving DecidableEq, Repr

def Flag.name : Flag → Text
  | h => ascii ['-', 'h']
  | q => ascii ['-', 'q']
  | r => ascii ['-', 'r']
  | f => ascii ['-', 'f']
  | filesys => ascii ['-', 'f', 'i', 'l', 'e', 's', 'y', 's']
  | scratch => ascii ['-', 's', 'c', 'r', 'a', 't', 'c', 'h']
  | swap => ascii ['-', 's', 'w', 'a', 'p']
  | rs => ascii ['-', 'r', 's']
  | mlfqs => ascii ['-', 'm', 'l', 'f', 'q', 's']
  | ul => ascii ['-', 'u', 'l']

/-- In the order of the comparisons. -/
def flags : List Flag := [.h, .q, .r, .f, .filesys, .scratch, .swap, .rs, .mlfqs, .ul]

/-- What is done for the option. -/
def setFlag (text : β → Text) (value : Option β) (o : Options β) : Flag → Except Halt (Options β)
  | .h => .error .usage
  | .q => .ok { o with how := .powerOff }
  | .r => .ok { o with how := .reboot }
  | .f => .ok { o with format_filesys := true }
  | .filesys => .ok { o with filesys_bdev_name := value }
  | .scratch => .ok { o with scratch_bdev_name := value }
  | .swap => .ok { o with swap_bdev_name := value }
  | .rs => (atoiValue text value).map fun seed => { o with random := randomInit (seed % 2 ^ 32).toNat }
  | .mlfqs => .ok { o with thread_mlfqs := true }
  | .ul => (atoiValue text value).map fun limit => { o with user_page_limit := (limit % 2 ^ 32).toNat }

/-- The body of the loop of `parse_options`, for an option that has been cut. -/
def setOption (text : β → Text) (name : Text) (value : Option β) (o : Options β) :
    Except Halt (Options β) :=
  match flags.find? fun flag => name = flag.name with
  | none => .error (.unknownOption name)
  | some flag => setFlag text value o flag

/-- A string ends within the address space. -/
def addresses : ℕ := 2 ^ 32

/-- The string at `p`, of at most `n` bytes. -/
def cstring (m : Mem) : ℕ → ℕ → Text
  | 0, _ => []
  | n + 1, p => if m p = 0 then [] else m p :: cstring m n (p + 1)

/-- The two calls of `strtok_r`: the name, the value and the memory. -/
def cutOption (m : Mem) (arg : ℕ) : Option (Option ℕ × Option ℕ × Mem) := do
  let (name, m, save_ptr) ← strtok addresses m arg [equals]
  let (value, m, _) ← strtok addresses m save_ptr []
  some (name, value, m)

/-- `parse_options`, at the time `now`. -/
def parseOptions (now : ℕ) : Mem → List ℕ → Options ℕ → Except Halt (Mem × List ℕ × Options ℕ)
  | m, [], o => .ok (m, [], { o with random := randomInit now })
  | m, arg :: argv, o =>
      if m arg = dash then
        match cutOption m arg with
        | some (some name, value, m) => do
            let o ← setOption (cstring m addresses) (cstring m addresses name) value o
            parseOptions now m argv o
        | _ => .error .endless
      else .ok (m, arg :: argv, { o with random := randomInit now })

/-! ### `run_actions` -/

/-- The table of `run_actions`. -/
def actions : List Task := [.run, .ls, .cat, .rm, .extract, .append]

/-- `run_actions`: the functions called, each with the words of its action, and why the loop stopped. -/
def runActions (text : β → Text) : List β → List (Task × List β) × Option Halt
  | [] => ([], none)
  | word :: argv =>
      match actions.find? fun a => text word = a.name with
      | none => ([], some (.unknownAction (text word)))
      | some a =>
          if argv.length < a.argc - 1 then ([], some (.missingArgument (text word) (a.argc - 1)))
          else
            let r := runActions text (argv.drop (a.argc - 1))
            ((a, word :: argv.take (a.argc - 1)) :: r.1, r.2)
termination_by argv => argv.length
decreasing_by
  rw [List.length_drop, List.length_cons]
  omega

/-! ### `main` -/

/-- What `main` has done with its command line. -/
structure Boot (β : Type) where
  options : Options β
  calls : List (Task × List β)
  halt : Option Halt

/-- `main`, as far as it deals with the command line. -/
def boot (now : ℕ) (m : Mem) : Except Halt (Mem × Boot ℕ) := do
  let argv ← readCommandLine m
  let (m, argv, o) ← parseOptions now m argv {}
  let r := runActions (cstring m addresses) argv
  .ok (m, ⟨o, r.1, r.2⟩)

def Options.map {γ : Type} (f : β → γ) (o : Options β) : Options γ :=
  { how := o.how, format_filesys := o.format_filesys, filesys_bdev_name := o.filesys_bdev_name.map f,
    scratch_bdev_name := o.scratch_bdev_name.map f, swap_bdev_name := o.swap_bdev_name.map f,
    random := o.random, thread_mlfqs := o.thread_mlfqs, user_page_limit := o.user_page_limit }

def Boot.map {γ : Type} (f : β → γ) (b : Boot β) : Boot γ :=
  ⟨b.options.map f, b.calls.map (Prod.map id (List.map f)), b.halt⟩

/-- The same with the strings for the pointers to them. -/
def outcome (now : ℕ) (m : Mem) : Except Halt (Boot Text) :=
  (boot now m).map fun r => r.2.map (cstring r.1 addresses)

/-! ### The meaning of a command line -/

/-- The name of an option stands before the first equals sign. -/
def optionName (w : Text) : Text := w.takeWhile (· ≠ equals)

/-- Its value is what follows, if anything does. -/
def optionValue (w : Text) : Option Text :=
  if (w.dropWhile (· ≠ equals)).tail = [] then none else some (w.dropWhile (· ≠ equals)).tail

/-- One option more. -/
def set (o : Options Text) (w : Text) : Except Halt (Options Text) :=
  setOption id (optionName w) (optionValue w) o

/-- The meaning of the words: the options up to the first other word are set in their order, the generator
is seeded by the clock, and the actions follow. -/
def meaning (now : ℕ) (words : List Text) : Except Halt (Boot Text) := do
  let o ← (words.takeWhile isOption).foldlM set {}
  let r := runActions id (words.dropWhile isOption)
  .ok ⟨{ o with random := randomInit now }, r.1, r.2⟩

variable {m m' : Mem} {p n : ℕ} {a w : Text} {args ws : List Text}

/-! ### The words in memory -/

/-- The words stand one after the other, from `p` on. -/
def Laid (m : Mem) : ℕ → List Text → Prop
  | _, [] => True
  | p, a :: args => m.IsString p a ∧ Laid m (p + a.length + 1) args

/-- Where they stand. -/
def pointers : ℕ → List Text → List ℕ
  | _, [] => []
  | p, a :: args => p :: pointers (p + a.length + 1) args

theorem joined_cons : joined (a :: args) = a ++ [0] ++ joined args := rfl

theorem length_joined_cons : (joined (a :: args)).length = a.length + 1 + (joined args).length := by
  rw [joined_cons, List.length_append, List.length_append, List.length_singleton]

theorem Laid.of_read (hargs : ∀ a ∈ args, 0 ∉ a) (h : m.read p (joined args).length = joined args) :
    Laid m p args := by
  induction args generalizing p with
  | nil => trivial
  | cons a args ih =>
      rw [length_joined_cons, Mem.read_add, joined_cons] at h
      obtain ⟨hfirst, hrest⟩ := List.append_inj h (by simp)
      exact ⟨⟨hfirst, hargs a List.mem_cons_self⟩,
        ih (fun b hb => hargs b (List.mem_cons_of_mem a hb)) hrest⟩

theorem Laid.congr (h : Laid m p args) (hm : ∀ x, p ≤ x → m' x = m x) : Laid m' p args := by
  induction args generalizing p with
  | nil => trivial
  | cons a args ih =>
      exact ⟨h.1.congr fun x hx _ => hm x hx, ih h.2 fun x hx => hm x (by omega)⟩

theorem strnlen_eq (h : m.IsString p a) (hn : a.length < n) : strnlen m p n = a.length := by
  induction a generalizing p n with
  | nil =>
      cases n with
      | zero => rfl
      | succ n => rw [strnlen, if_pos (Mem.isString_nil.mp h), List.length_nil]
  | cons c a ih =>
      obtain ⟨hc, hc0, hrest⟩ := Mem.isString_cons.mp h
      cases n with
      | zero => omega
      | succ n =>
          rw [List.length_cons] at hn ⊢
          rw [strnlen, if_neg (hc ▸ hc0), ih hrest (by omega)]

theorem cstring_eq (h : m.IsString p a) (hn : a.length < n) : cstring m n p = a := by
  induction a generalizing p n with
  | nil =>
      cases n with
      | zero => rfl
      | succ n => rw [cstring, if_pos (Mem.isString_nil.mp h)]
  | cons c a ih =>
      obtain ⟨hc, hc0, hrest⟩ := Mem.isString_cons.mp h
      cases n with
      | zero => rw [List.length_cons] at hn; omega
      | succ n =>
          rw [List.length_cons] at hn
          rw [cstring, if_neg (hc ▸ hc0), ih hrest (by omega), hc]

/-! ### Reading the words -/

/-- The loop points at the words until it leaves `argv`. -/
theorem readArgs_eq {i : ℕ} (h : Laid m p args)
    (hend : p + (joined args).length ≤ loaderArgs + loaderArgsLen) :
    readArgs m args.length i p =
      if i + args.length ≤ loaderArgsLen / 2 + 1 ∨ args = [] then .ok (pointers p args)
      else .error .outOfBounds := by
  induction args generalizing i p with
  | nil => exact (if_pos (.inr rfl)).symm
  | cons a args ih =>
      rw [length_joined_cons] at hend
      have hlen := strnlen_eq h.1 (n := loaderArgs + loaderArgsLen - p) (by omega)
      rw [List.length_cons, readArgs, if_neg (by omega)]
      by_cases hi : loaderArgsLen / 2 < i
      · rw [if_pos hi, if_neg (by simp; omega)]
      · rw [if_neg hi, hlen, ih h.2 (by omega)]
        by_cases hroom : i + 1 + args.length ≤ loaderArgsLen / 2 + 1
        · rw [if_pos (.inl hroom), if_pos (.inl (by omega))]
          rfl
        · have hne : args ≠ [] := by
            rintro rfl
            simp at hroom
            omega
          rw [if_neg (by simp [hne]; omega), if_neg (by simp; omega)]
          rfl

theorem make_spec {bytes : Text} (h : makeKernelCommandLine args = some bytes) :
    (joined args).length ≤ loaderArgsLen ∧
      bytes = Mem.wordBytes args.length ++ joined args ++
        List.replicate (loaderArgsLen - (joined args).length) 0 := by
  unfold makeKernelCommandLine at h
  split at h
  · cases h
  · exact ⟨by omega, (Option.some.inj h).symm⟩

theorem length_le_joined (args : List Text) : args.length ≤ (joined args).length := by
  induction args with
  | nil => rfl
  | cons a args ih =>
      rw [length_joined_cons, List.length_cons]
      omega

/-- What the boot loader leaves in memory. -/
def Loaded (m : Mem) (args : List Text) : Prop :=
  ∃ bytes, makeKernelCommandLine args = some bytes ∧ m.read loaderArgCnt (4 + loaderArgsLen) = bytes

theorem loaded_write {bytes : Text} (h : makeKernelCommandLine args = some bytes) :
    Loaded (m.write loaderArgCnt bytes) args := by
  have hlen : bytes.length = 4 + loaderArgsLen := by
    obtain ⟨hle, rfl⟩ := make_spec h
    simp only [List.length_append, Mem.wordBytes_length, List.length_replicate]
    omega
  exact ⟨bytes, h, hlen ▸ Mem.read_write_self⟩

theorem Loaded.word (h : Loaded m args) : m.word loaderArgCnt = args.length := by
  obtain ⟨bytes, hmake, hread⟩ := h
  obtain ⟨hle, rfl⟩ := make_spec hmake
  have hlen := length_le_joined args
  rw [Mem.read_add, List.append_assoc] at hread
  refine Mem.word_of_read (List.append_inj_left hread (by simp)) ?_
  unfold loaderArgsLen at hle
  omega

theorem Loaded.laid (h : Loaded m args) (hargs : ∀ a ∈ args, 0 ∉ a) : Laid m loaderArgs args := by
  obtain ⟨bytes, hmake, hread⟩ := h
  obtain ⟨hle, rfl⟩ := make_spec hmake
  rw [Mem.read_add, List.append_assoc] at hread
  have hrest := List.append_inj_right hread (by simp)
  rw [← Nat.add_sub_of_le hle, Mem.read_add] at hrest
  exact .of_read hargs (List.append_inj_left hrest (by simp))

theorem Loaded.size (h : Loaded m args) : (joined args).length ≤ loaderArgsLen := by
  obtain ⟨bytes, hmake, -⟩ := h
  exact (make_spec hmake).1

theorem readCommandLine_eq (h : Loaded m args) (hargs : ∀ a ∈ args, 0 ∉ a) :
    readCommandLine m = if args.length ≤ loaderArgsLen / 2 then .ok (pointers loaderArgs args)
      else .error .outOfBounds := by
  have hsize := h.size
  have hlen := length_le_joined args
  have hread := readArgs_eq (i := 0) (h.laid hargs) (by omega)
  unfold readCommandLine
  rw [h.word, if_neg (by unfold loaderArgsLen at hsize; omega), hread]
  by_cases hroom : args.length ≤ loaderArgsLen / 2
  · rw [if_pos (.inl (by omega)), if_pos hroom]
    exact if_neg (by omega)
  · rw [if_neg hroom]
    by_cases hlast : 0 + args.length ≤ loaderArgsLen / 2 + 1 ∨ args = []
    · rw [if_pos hlast]
      exact if_pos (by omega)
    · rw [if_neg hlast]
      rfl

/-! ### Cutting an option -/

theorem skipToken_end (h : m.IsString p a) (hn : a.length < n) :
    skipToken m [] n p = some (p + a.length) := by
  induction a generalizing p n with
  | nil =>
      cases n with
      | zero => omega
      | succ n => simp [skipToken, strchr, Mem.isString_nil.mp h]
  | cons c a ih =>
      obtain ⟨hc, hc0, hrest⟩ := Mem.isString_cons.mp h
      cases n with
      | zero => omega
      | succ n =>
          rw [List.length_cons] at hn ⊢
          have hstop : strchr [] (m p) = false := by simp [strchr, hc, hc0]
          rw [skipToken, hstop, if_neg (by simp), ih hrest (by omega)]
          exact congrArg some (by omega)

/-- The call of `strtok_r` for the value: all of the rest. -/
theorem strtok_rest (h : m.IsString p a) (hn : a.length < n) :
    strtok n m p [] = some (if a = [] then none else some p, m, p + a.length) := by
  cases n with
  | zero => omega
  | succ n =>
      cases a with
      | nil =>
          have h0 := Mem.isString_nil.mp h
          simp [strtok, skipDelimiters, strchr, h0]
      | cons c a =>
          obtain ⟨hc, hc0, -⟩ := Mem.isString_cons.mp h
          have hskip : skipDelimiters m [] (n + 1) p = some p := by
            simp [skipDelimiters, strchr, hc, hc0]
          have hstop := h.stop
          unfold strtok
          rw [hskip, Option.bind_eq_bind, Option.bind_some, if_neg (hc ▸ hc0), skipToken_end h hn,
            Option.bind_some, if_neg (fun hne => hne hstop), if_neg (by simp)]

/-- The call for the name: the bytes before the first equals sign, which is overwritten. -/
theorem strtok_name (h : m.IsString p w) (hn : w.length < n) (hdash : isOption w) :
    ∃ m' save v, strtok n m p [equals] = some (some p, m', save) ∧ m'.IsString p (optionName w) ∧
      m'.IsString save v ∧ v = (w.dropWhile (· ≠ equals)).tail ∧ save + v.length = p + w.length ∧
      (∀ x, m' x ≠ m x → p ≤ x ∧ x < p + w.length) := by
  obtain ⟨t, r, hskip, rfl, hmem, hr⟩ := skipToken_spec (d := equals) h hn
  have hbefore : ∀ c ∈ t, decide (c ≠ equals) = true := fun c hc => by
    simp only [ne_eq, decide_not, Bool.not_eq_eq_eq_not, Bool.not_true, decide_eq_false_iff_not]
    rintro rfl
    exact hmem hc
  have ht : t ≠ [] := by
    rintro rfl
    obtain rfl | ⟨r', rfl⟩ := hr
    · simp [isOption] at hdash
    · simp [isOption, equals, dash] at hdash
  obtain ⟨c, t', rfl⟩ := List.exists_cons_of_ne_nil ht
  have hc := (Mem.isString_cons.mp h).1
  have hc0 := (Mem.isString_cons.mp h).2.1
  have hce : c ≠ equals := fun he => hmem (he ▸ List.mem_cons_self)
  have hfirst : skipDelimiters m [equals] n p = some p := by
    cases n with
    | zero => omega
    | succ n => simp [skipDelimiters, strchr, hc, hc0, hce]
  have hend := h.suffix
  unfold strtok
  rw [hfirst, Option.bind_eq_bind, Option.bind_some, if_neg (hc ▸ hc0), hskip, Option.bind_some,
    optionName, List.takeWhile_append_of_pos hbefore, List.dropWhile_append_of_pos hbefore]
  obtain rfl | ⟨v, rfl⟩ := hr
  · -- no equals sign: the position saved is the null byte
    rw [List.append_nil] at h
    exact ⟨m, p + (c :: t').length, [], if_neg (fun hne => hne h.stop), by simpa using h, hend, rfl,
      by simp, fun x hx => absurd rfl hx⟩
  · obtain ⟨heq, -, hrest⟩ := Mem.isString_cons.mp hend
    refine ⟨m.write (p + (c :: t').length) [0], p + (c :: t').length + 1, v, ?_, ?_, ?_, ?_, ?_, ?_⟩
    · exact if_pos (by rw [heq]; decide)
    · simpa using h.cut
    · exact hrest.congr fun x hx _ => Mem.write_above (by simpa using hx)
    · simp
    · simp only [List.length_append, List.length_cons]
      omega
    · intro x hx
      simp only [List.length_append, List.length_cons]
      by_cases hlow : x < p + (c :: t').length
      · exact absurd (Mem.write_below hlow) hx
      · by_cases hhigh : p + (c :: t').length + 1 ≤ x
        · exact absurd (Mem.write_above (by simpa using hhigh)) hx
        · simp only [List.length_cons] at hlow hhigh
          omega

/-- An option that has been cut: its name and its value are strings, and nothing outside it has changed. -/
structure OptionCut (m m' : Mem) (p : ℕ) (w : Text) (value : Option ℕ) : Prop where
  name : m'.IsString p (optionName w)
  text : ∀ v, value = some v →
    ∃ t, m'.IsString v t ∧ optionValue w = some t ∧ v + t.length = p + w.length
  noText : value = none → optionValue w = none
  others : ∀ x, m' x ≠ m x → p ≤ x ∧ x < p + w.length

theorem cutOption_spec (h : m.IsString p w) (hn : w.length < addresses) (hdash : isOption w) :
    ∃ value m', cutOption m p = some (some p, value, m') ∧ OptionCut m m' p w value := by
  obtain ⟨m', save, v, hname, hstring, hv, hvalue, hend, hothers⟩ := strtok_name h hn hdash
  have hlen : v.length < addresses := by
    have hle := (List.dropWhile_sublist (fun c => decide (c ≠ equals)) (l := w)).length_le
    rw [hvalue, List.length_tail]
    omega
  refine ⟨if v = [] then none else some save, m', ?_, hstring, ?_, ?_, hothers⟩
  · unfold cutOption
    rw [hname, Option.bind_eq_bind, Option.bind_some]
    dsimp only
    rw [strtok_rest hv hlen]
    rfl
  · intro q hq
    split at hq
    · cases hq
    · obtain rfl := Option.some.inj hq
      exact ⟨v, hv, by rw [optionValue, ← hvalue, if_neg ‹_›], hend⟩
  · intro hnone
    split at hnone
    · rw [optionValue, ← hvalue, if_pos ‹_›]
    · cases hnone

/-! ### Parsing the options -/

section text

variable {text : β → Text} {name : Text} {value : Option β} {o o' : Options β}

theorem setFlag_map (flag : Flag) : (setFlag text value o flag).map (Options.map text) =
    setFlag id (value.map text) (o.map text) flag := by
  cases flag
  case rs | ul =>
    cases value with
    | none => rfl
    | some v =>
        simp only [setFlag, atoiValue, Option.map_some, id_eq]
        split <;> rfl
  all_goals rfl

/-- The code does the same to strings as to pointers to them. -/
theorem setOption_map (text : β → Text) (name : Text) (value : Option β) (o : Options β) :
    (setOption text name value o).map (Options.map text) =
    setOption id name (value.map text) (o.map text) := by
  unfold setOption
  cases flags.find? fun flag => name = flag.name with
  | none => rfl
  | some flag => exact setFlag_map flag

/-- The names of the devices. -/
def Options.names (o : Options β) : List β :=
  o.filesys_bdev_name.toList ++ o.scratch_bdev_name.toList ++ o.swap_bdev_name.toList

theorem setFlag_names {flag : Flag} (h : setFlag text value o flag = .ok o') :
    ∀ v ∈ o'.names, v ∈ o.names ∨ value = some v := by
  intro v hv
  cases flag
  case h => cases h
  case rs | ul =>
    simp only [setFlag] at h
    cases hvalue : atoiValue text value with
    | error e => rw [hvalue] at h; cases h
    | ok n =>
        rw [hvalue] at h
        cases h
        exact .inl hv
  all_goals
    cases h
    simp only [Options.names, List.mem_append, Option.mem_toList] at hv ⊢
    tauto

theorem setOption_names (h : setOption text name value o = .ok o') :
    ∀ v ∈ o'.names, v ∈ o.names ∨ value = some v := by
  unfold setOption at h
  cases hfind : flags.find? fun flag => name = flag.name with
  | none => rw [hfind] at h; cases h
  | some flag => exact setFlag_names (by rwa [hfind] at h)

theorem Options.map_congr {γ : Type} {f g : β → γ} (h : ∀ v ∈ o.names, f v = g v) :
    o.map f = o.map g := by
  unfold Options.names at h
  unfold Options.map
  congr 1 <;> refine Option.map_congr fun v hv => h v ?_ <;> simp [hv]

end text

theorem runActions_map {text : β → Text} (argv : List β) : runActions id (argv.map text) =
    ((runActions text argv).1.map (Prod.map id (List.map text)), (runActions text argv).2) := by
  induction argv using runActions.induct text with
  | case1 => simp [runActions]
  | case2 word argv h => simp [runActions, h]
  | case3 word argv a h hlen => simp [runActions, h, hlen]
  | case4 word argv a h hlen ih =>
      rw [runActions, h]
      simp only [List.map_cons, runActions, h, id_eq, List.length_map, if_neg hlen, ← List.map_drop, ih]
      simp [List.map_take]

/-- The names of the devices end before `p`. -/
def Kept (m : Mem) (p : ℕ) (o : Options ℕ) : Prop :=
  ∀ v ∈ o.names, ∃ t, m.IsString v t ∧ v + t.length < p

theorem Kept.congr {o : Options ℕ} (h : Kept m p o) (hm : ∀ x, m' x ≠ m x → p ≤ x) (hp : p ≤ n) :
    Kept m' n o := by
  intro v hv
  obtain ⟨t, ht, hend⟩ := h v hv
  exact ⟨t, ht.congr fun x _ hx => by_contra fun hne => by have := hm x hne; omega, by omega⟩

theorem Kept.map_eq {o : Options ℕ} (h : Kept m p o) (hm : ∀ x, m' x ≠ m x → p ≤ x)
    (hp : p ≤ addresses) : o.map (cstring m' addresses) = o.map (cstring m addresses) := by
  refine Options.map_congr fun v hv => ?_
  obtain ⟨t, ht, hend⟩ := h v hv
  have ht' : m'.IsString v t := ht.congr fun x _ hx => by_contra fun hne => by have := hm x hne; omega
  rw [cstring_eq ht (by omega), cstring_eq ht' (by omega)]

theorem isOption_iff (h : m.IsString p w) : isOption w = true ↔ m p = dash := by
  cases w with
  | nil => simp [isOption, Mem.isString_nil.mp h, dash]
  | cons c w => simp [isOption, (Mem.isString_cons.mp h).1]

theorem map_pointers (h : Laid m p ws) (hend : p + (joined ws).length ≤ addresses) :
    (pointers p ws).map (cstring m addresses) = ws := by
  induction ws generalizing p with
  | nil => rfl
  | cons w ws ih =>
      rw [length_joined_cons] at hend
      rw [pointers, List.map_cons, cstring_eq h.1 (by omega), ih h.2 (by omega)]

/-- What the kernel has after `parse_options`, as texts. -/
def texts (r : Mem × List ℕ × Options ℕ) : List Text × Options Text :=
  (r.2.1.map (cstring r.1 addresses), r.2.2.map (cstring r.1 addresses))

/-- **The options in memory are set as the words say.** -/
theorem parseOptions_eq (now : ℕ) {o : Options ℕ} (h : Laid m p ws)
    (hend : p + (joined ws).length ≤ addresses) (hkept : Kept m p o) :
    (parseOptions now m (pointers p ws) o).map texts =
      ((ws.takeWhile isOption).foldlM set (o.map (cstring m addresses))).map fun o' =>
        (ws.dropWhile isOption, { o' with random := randomInit now }) := by
  induction ws generalizing p m o with
  | nil => rfl
  | cons w ws ih =>
      rw [length_joined_cons] at hend
      rw [pointers, parseOptions]
      by_cases hdash : isOption w = true
      · obtain ⟨value, m', hcut, hoption⟩ := cutOption_spec h.1 (by omega) hdash
        have hothers : ∀ x, m' x ≠ m x → p ≤ x := fun x hx => (hoption.others x hx).1
        have hlen := (List.takeWhile_sublist (fun c => decide (c ≠ equals)) (l := w)).length_le
        have hname : cstring m' addresses p = optionName w := by
          refine cstring_eq hoption.name ?_
          unfold optionName
          omega
        have hvalue : value.map (cstring m' addresses) = optionValue w := by
          cases value with
          | none => exact (hoption.noText rfl).symm
          | some v =>
              obtain ⟨t, ht, htext, htend⟩ := hoption.text v rfl
              rw [htext, Option.map_some, cstring_eq ht (by omega)]
        rw [if_pos ((isOption_iff h.1).mp hdash), hcut, List.takeWhile_cons_of_pos hdash,
          List.dropWhile_cons_of_pos hdash, List.foldlM_cons]
        dsimp only
        have hmap := setOption_map (cstring m' addresses) (optionName w) value o
        rw [hvalue, hkept.map_eq hothers (by omega)] at hmap
        rw [hname, set, ← hmap]
        cases hset : setOption (cstring m' addresses) (optionName w) value o with
        | error e => rfl
        | ok o' =>
            refine ih (h.2.congr fun x hx => ?_) (by omega) ?_
            · refine by_contra fun hne => ?_
              have := (hoption.others x hne).2
              omega
            · intro v hv
              obtain hold | rfl := setOption_names hset v hv
              · exact hkept.congr hothers (show p ≤ _ by omega) v hold
              · obtain ⟨t, ht, -, htend⟩ := hoption.text v rfl
                exact ⟨t, ht, by omega⟩
      · rw [if_neg (fun he => hdash ((isOption_iff h.1).mpr he)), List.takeWhile_cons_of_neg hdash,
          List.dropWhile_cons_of_neg hdash]
        have hmap := map_pointers h (show p + (joined (w :: ws)).length ≤ addresses by
          rw [length_joined_cons]
          omega)
        exact congrArg (fun l => Except.ok (l, _)) hmap

/-! ### The whole command line -/

/-- What the loader has left decides. -/
theorem boot_eq {now : ℕ} (h : Loaded m args) (hargs : ∀ a ∈ args, 0 ∉ a) :
    outcome now m = if args.length ≤ loaderArgsLen / 2 then meaning now args else .error .outOfBounds := by
  have hsize := h.size
  have hparse := parseOptions_eq now (o := {}) (h.laid hargs)
    (by unfold loaderArgs loaderArgCnt addresses; unfold loaderArgsLen at hsize; omega)
    (fun v hv => absurd hv List.not_mem_nil)
  have hempty : Options.map (cstring m addresses) {} = {} := rfl
  rw [hempty] at hparse
  unfold outcome boot meaning
  rw [readCommandLine_eq h hargs]
  by_cases hlen : args.length ≤ loaderArgsLen / 2
  · rw [if_pos hlen, if_pos hlen]
    change Except.map _ ((parseOptions now m (pointers loaderArgs args) {}).bind _) =
      ((args.takeWhile isOption).foldlM set {}).bind _
    generalize parseOptions now m (pointers loaderArgs args) {} = parsed at hparse ⊢
    generalize (args.takeWhile isOption).foldlM set {} = settings at hparse ⊢
    cases parsed with
    | error e =>
        cases settings with
        | error e' => exact congrArg _ (Except.error.inj hparse)
        | ok o => cases hparse
    | ok r =>
        cases settings with
        | error e => cases hparse
        | ok o =>
            obtain ⟨m', argv, o'⟩ := r
            obtain ⟨hargv, ho⟩ := Prod.mk.inj (Except.ok.inj hparse)
            change Except.ok (Boot.map (cstring m' addresses) _) = Except.ok _
            dsimp only at hargv ho
            rw [Boot.map, ho, ← hargv, runActions_map]
  · rw [if_neg hlen, if_neg hlen]
    rfl

/-- `-q ls`. -/
def quitLs : List Text := [Flag.q.name, Task.ls.name]

/-- **The kernel gives the command line that is written for it its meaning** as long as there are at most 64
words, and leaves its array otherwise. -/
theorem boot_makeKernelCommandLine {now : ℕ} {bytes : Text}
    (h : makeKernelCommandLine args = some bytes) (hargs : ∀ a ∈ args, 0 ∉ a) :
    outcome now (m.write loaderArgCnt bytes) =
      if args.length ≤ loaderArgsLen / 2 then meaning now args else .error .outOfBounds :=
  boot_eq (loaded_write h) hargs

theorem boot_makeKernelCommandLine_quit : ∃ bytes, makeKernelCommandLine quitLs = some bytes ∧
    outcome 0 (Mem.write (fun _ => 0) loaderArgCnt bytes) =
      .ok ⟨{ how := .powerOff, random := randomInit 0 }, [(.ls, [Task.ls.name])], none⟩ := by
  refine ⟨_, rfl, (@boot_makeKernelCommandLine _ quitLs 0 _ rfl (by decide)).trans ?_⟩
  have hls : actions.find? (fun a => id Task.ls.name = a.name) = some .ls := by decide
  have hrun : runActions id [Task.ls.name] = ([(.ls, [Task.ls.name])], none) := by
    rw [runActions, hls]
    simp [runActions, Task.argc]
  rw [if_pos (by decide)]
  unfold meaning
  rw [show quitLs.dropWhile isOption = [Task.ls.name] by decide, hrun]
  rfl

/-! ### Command lines of actions -/

/-- An action with its argument. -/
inductive Command where
  | run (task : Text)
  | ls
  | cat (file : Text)
  | rm (file : Text)
  | extract
  | append (file : Text)

def Command.task : Command → Task
  | run _ => .run
  | ls => .ls
  | cat _ => .cat
  | rm _ => .rm
  | extract => .extract
  | append _ => .append

/-- The words that ask for it. -/
def Command.words : Command → List Text
  | c@(run w) | c@(cat w) | c@(rm w) | c@(append w) => [c.task.name, w]
  | c@ls | c@extract => [c.task.name]

/-- What is called for it. -/
def Command.call (c : Command) : Task × List Text := (c.task, c.words)

theorem find_name (a : Task) : actions.find? (fun b => decide (a.name = b.name)) = some a := by
  cases a <;> decide

theorem runActions_words (c : Command) (ws : List Text) : runActions id (c.words ++ ws) =
    (c.call :: (runActions id ws).1, (runActions id ws).2) := by
  cases c <;>
    simp [Command.words, Command.call, Command.task, runActions, find_name, Task.argc]

theorem runActions_commands (cs : List Command) : runActions id (cs.flatMap Command.words) =
    (cs.map Command.call, none) := by
  induction cs with
  | nil => simp [runActions]
  | cons c cs ih => rw [List.flatMap_cons, runActions_words, ih, List.map_cons]

theorem mem_actions (a : Task) : a ∈ actions := by
  cases a <;> decide

/-- An action with all its words is a command. -/
theorem exists_command (a : Task) {argv : List Text} (h : a.argc - 1 ≤ argv.length) :
    ∃ c : Command, c.call = (a, a.name :: argv.take (a.argc - 1)) ∧
      a.name :: argv = c.words ++ argv.drop (a.argc - 1) := by
  cases a
  case ls => exact ⟨.ls, rfl, rfl⟩
  case extract => exact ⟨.extract, rfl, rfl⟩
  all_goals
    obtain ⟨w, argv, rfl⟩ : ∃ w argv', argv = w :: argv' := List.exists_cons_of_length_pos h
  case run => exact ⟨.run w, rfl, rfl⟩
  case cat => exact ⟨.cat w, rfl, rfl⟩
  case rm => exact ⟨.rm w, rfl, rfl⟩
  case append => exact ⟨.append w, rfl, rfl⟩

/-- Why the loop stops before the words `rest`. -/
inductive Stops : List Text → Option Halt → Prop
  | done : Stops [] none
  | unknown (w : Text) (rest : List Text) : (∀ a : Task, w ≠ a.name) →
      Stops (w :: rest) (some (.unknownAction w))
  | missing (a : Task) : a.argc = 2 → Stops [a.name] (some (.missingArgument a.name 1))

/-- **`run_actions` calls what the words ask for, as far as they are commands**: the calls are those of a
command for each of the first words, and it stops at the end, at a word that names no action or at a last
word that lacks its argument. -/
theorem runActions_prefix (ws : List Text) : ∃ (cs : List Command) (rest : List Text),
    ws = cs.flatMap Command.words ++ rest ∧
    (runActions id ws).1 = cs.map Command.call ∧ Stops rest (runActions id ws).2 := by
  induction ws using runActions.induct id with
  | case1 => exact ⟨[], [], rfl, by simp [runActions], by simpa [runActions] using Stops.done⟩
  | case2 w argv h =>
      rw [runActions, h]
      refine ⟨[], w :: argv, rfl, rfl, .unknown w argv fun a ha => ?_⟩
      exact List.find?_eq_none.mp h a (mem_actions a) (by simpa using ha)
  | case3 w argv a h hlen =>
      have hname : w = a.name := by simpa using List.find?_some h
      rw [runActions, h]
      simp only [if_pos hlen]
      have hargc : a.argc = 2 ∧ argv = [] := by
        cases a <;> simp [Task.argc] at hlen ⊢ <;> exact hlen
      obtain ⟨hargc, rfl⟩ := hargc
      exact ⟨[], [w], rfl, rfl, by rw [hargc, id, hname]; exact .missing a hargc⟩
  | case4 w argv a h hlen ih =>
      have hname : w = a.name := by simpa using List.find?_some h
      obtain ⟨cs, rest, hws, hcalls, hstops⟩ := ih
      obtain ⟨c, hcall, hwords⟩ := exists_command a (show a.argc - 1 ≤ argv.length by omega)
      rw [runActions, h]
      simp only [if_neg hlen]
      refine ⟨c :: cs, rest, ?_, ?_, hstops⟩
      · rw [hname, hwords, hws, List.flatMap_cons, List.append_assoc]
      · rw [hcalls, List.map_cons, hcall, hname]

/-! ### What `utils/pintos` asks for -/

theorem isOption_name (a : Task) : ¬ isOption a.name = true := by
  cases a <;> decide

theorem isOption_words (c : Command) (ws : List Text) :
    (c.words ++ ws).takeWhile isOption = [] ∧ (c.words ++ ws).dropWhile isOption = c.words ++ ws := by
  cases c <;>
    exact ⟨List.takeWhile_cons_of_neg (isOption_name _), List.dropWhile_cons_of_neg (isOption_name _)⟩

theorem isOption_commands (cs : List Command) :
    (cs.flatMap Command.words).takeWhile isOption = [] ∧
      (cs.flatMap Command.words).dropWhile isOption = cs.flatMap Command.words := by
  cases cs with
  | nil => exact ⟨rfl, rfl⟩
  | cons c cs => exact isOption_words c _

theorem words_length (cs : List Command) :
    2 * (cs.flatMap Command.words).length ≤ (joined (cs.flatMap Command.words)).length := by
  induction cs with
  | nil => rfl
  | cons c cs ih =>
      cases c <;> simp [Command.words, joined, Task.name, ascii, Command.task] at ih ⊢ <;> omega

theorem setOption_length {β : Type} {text : β → Text} {name : Text} {value : Option β} {o o' : Options β}
    (h : setOption text name value o = .ok o') : 2 ≤ name.length := by
  unfold setOption at h
  cases hfind : flags.find? fun flag => name = flag.name with
  | none => rw [hfind] at h; cases h
  | some flag =>
      have hname : name = flag.name := by simpa using List.find?_some hfind
      rw [hname]
      cases flag <;> decide

theorem options_length {opts : List Text} {o o' : Options Text} (h : opts.foldlM set o = .ok o') :
    2 * opts.length ≤ (joined opts).length := by
  induction opts generalizing o with
  | nil => rfl
  | cons w opts ih =>
      rw [List.foldlM_cons] at h
      cases hset : set o w with
      | error e => rw [hset] at h; cases h
      | ok o₁ =>
          rw [hset] at h
          have hname := setOption_length hset
          have hle := (List.takeWhile_sublist (fun c => decide (c ≠ equals)) (l := w)).length_le
          have hrest := ih h
          unfold optionName at hname
          rw [length_joined_cons, List.length_cons]
          omega

theorem joined_append {ws' : List Text} : joined (ws ++ ws') = joined ws ++ joined ws' := List.flatMap_append

/-- The commands that a call of `utils/pintos` stands for. -/
def requested (puts gets : List Text) (cs : List Command) : List Command :=
  (if puts = [] then [] else [.extract]) ++ cs ++ gets.map .append

theorem kernelArgs_eq {opts : List Text} (hopts : ∀ w ∈ opts, isOption w) (puts gets : List Text)
    (cs : List Command) : kernelArgs puts gets (opts ++ cs.flatMap Command.words) =
      opts ++ (requested puts gets cs).flatMap Command.words := by
  have htake := (isOption_commands cs).1
  have hdrop := (isOption_commands cs).2
  unfold kernelArgs requested
  rw [List.takeWhile_append_of_pos hopts, List.dropWhile_append_of_pos hopts, htake, hdrop, List.append_nil]
  cases puts <;> simp [List.flatMap_map, Command.words, Command.task]

/-- **The kernel does what `utils/pintos` was asked for.** -/
theorem boot_kernelArgs {now : ℕ} {opts puts gets : List Text} {o : Options Text} {cs : List Command}
    (h : Loaded m (kernelArgs puts gets (opts ++ cs.flatMap Command.words)))
    (hargs : ∀ a ∈ kernelArgs puts gets (opts ++ cs.flatMap Command.words), 0 ∉ a)
    (hopts : ∀ w ∈ opts, isOption w) (hset : opts.foldlM set {} = .ok o) :
    outcome now m = .ok ⟨{ o with random := randomInit now },
      (requested puts gets cs).map Command.call, none⟩ := by
  rw [kernelArgs_eq hopts] at h hargs
  have hsize := h.size
  have hwords := words_length (requested puts gets cs)
  have hlength := options_length hset
  rw [joined_append, List.length_append] at hsize
  rw [boot_eq h hargs, if_pos (by rw [List.length_append]; omega)]
  unfold meaning
  rw [List.takeWhile_append_of_pos hopts, List.dropWhile_append_of_pos hopts,
    (isOption_commands _).1, (isOption_commands _).2, List.append_nil, hset, runActions_commands]
  rfl

/-- `pintos -p f -g f -- -q run f`. -/
theorem boot_kernelArgs_file : ∃ bytes, makeKernelCommandLine (kernelArgs [[102]] [[102]]
      ([Flag.q.name] ++ [Command.run [102]].flatMap Command.words)) = some bytes ∧
    outcome 0 (Mem.write (fun _ => 0) loaderArgCnt bytes) =
      .ok ⟨{ how := .powerOff, random := randomInit 0 },
        (requested [[102]] [[102]] [.run [102]]).map Command.call, none⟩ :=
  ⟨_, rfl, @boot_kernelArgs _ 0 [Flag.q.name] [[102]] [[102]] _ [.run [102]] (loaded_write rfl) (by decide)
    (by decide) rfl⟩

/-! ### The option `-rs` -/

/-- The generator seeded by the clock. -/
def Options.seeded (now : ℕ) (o : Options Text) : Options Text := { o with random := randomInit now }

theorem setFlag_seeded {now : ℕ} {value : Option Text} {o o' : Options Text} (flag : Flag)
    (h : o.seeded now = o'.seeded now) : (setFlag id value o flag).map (Options.seeded now) =
      (setFlag id value o' flag).map (Options.seeded now) := by
  cases o
  cases o'
  simp only [Options.seeded, Options.mk.injEq] at h
  obtain ⟨rfl, rfl, rfl, rfl, rfl, -, rfl, rfl⟩ := h
  cases flag
  case rs | ul =>
    unfold setFlag
    cases atoiValue id value <;> rfl
  all_goals rfl

theorem set_seeded {now : ℕ} {o o' : Options Text} (h : o.seeded now = o'.seeded now) :
    (set o w).map (Options.seeded now) = (set o' w).map (Options.seeded now) := by
  unfold set setOption
  cases flags.find? fun flag => optionName w = flag.name with
  | none => rfl
  | some flag => exact setFlag_seeded flag h

/-- What the options before have done to the generator does not matter in the end. -/
theorem foldlM_seeded {now : ℕ} {o o' : Options Text} (h : o.seeded now = o'.seeded now) :
    (ws.foldlM set o).map (Options.seeded now) = (ws.foldlM set o').map (Options.seeded now) := by
  induction ws generalizing o o' with
  | nil => exact congrArg Except.ok h
  | cons w ws ih =>
      have hset := set_seeded (w := w) h
      rw [List.foldlM_cons, List.foldlM_cons]
      generalize set o w = r at hset ⊢
      generalize set o' w = r' at hset ⊢
      cases r with
      | error e =>
          cases r' with
          | error e' => exact congrArg Except.error (Except.error.inj hset)
          | ok o₁' => cases hset
      | ok o₁ =>
          cases r' with
          | error e' => cases hset
          | ok o₁' => exact ih (Except.ok.inj hset)

theorem meaning_eq (now : ℕ) (ws : List Text) : meaning now ws =
    (((ws.takeWhile isOption).foldlM set {}).map (Options.seeded now)).map fun o =>
      ⟨o, (runActions id (ws.dropWhile isOption)).1, (runActions id (ws.dropWhile isOption)).2⟩ := by
  unfold meaning
  cases (ws.takeWhile isOption).foldlM set {} <;> rfl

-- `ls -q`: an option after an action is taken for an action.
example : (meaning 5 [Task.ls.name, Flag.q.name]).toOption.map
    (fun b => (b.options.how, b.calls.map Prod.snd, b.halt.isSome)) = some (.none, [[Task.ls.name]], true) := by
  decide +kernel

theorem isOption_of_name {flag : Flag} (h : optionName w = flag.name) : isOption w = true := by
  have hhead : flag.name.head? = some dash := by cases flag <;> rfl
  rw [← h, optionName] at hhead
  cases w with
  | nil => cases hhead
  | cons c w =>
      rw [List.takeWhile_cons] at hhead
      split at hhead
      · exact beq_iff_eq.mpr hhead
      · cases hhead

/-- **`-rs` has no effect**: with a number for the seed it can be left out, wherever it is. -/
theorem boot_seed {now : ℕ} {before after : List Text} {rs v : Text} {n : ℤ}
    (h : Loaded m (before ++ rs :: after)) (h' : Loaded m' (before ++ after))
    (hargs : ∀ a ∈ before ++ rs :: after, 0 ∉ a)
    (hlen : (before ++ rs :: after).length ≤ loaderArgsLen / 2) (hbefore : ∀ w ∈ before, isOption w)
    (hname : optionName rs = Flag.rs.name) (hvalue : optionValue rs = some v)
    (hseed : Printf.atoi (v.map fun c => Char.ofNat c.toNat) = some n) :
    outcome now m = outcome now m' := by
  have hset : ∀ o, set o rs = .ok { o with random := randomInit (n % 2 ^ 32).toNat } := fun o => by
    have hfind : flags.find? (fun flag => Flag.rs.name = flag.name) = some .rs := by decide
    unfold set setOption
    rw [hname, hvalue, hfind]
    simp only [setFlag, atoiValue, id, hseed]
    rfl
  have hfold : ((before ++ rs :: after.takeWhile isOption).foldlM set {}).map (Options.seeded now) =
      ((before ++ after.takeWhile isOption).foldlM set {}).map (Options.seeded now) := by
    rw [List.foldlM_append, List.foldlM_append]
    cases before.foldlM set {} with
    | error e => rfl
    | ok o =>
        change Except.map _ (List.foldlM set o (rs :: _)) = Except.map _ (List.foldlM set o _)
        rw [List.foldlM_cons, hset]
        exact foldlM_seeded rfl
  have hargs' : ∀ a ∈ before ++ after, 0 ∉ a := fun a ha => hargs a (by
    rw [List.mem_append] at ha ⊢
    exact ha.imp_right (List.mem_cons_of_mem rs))
  have hlen' : (before ++ after).length ≤ loaderArgsLen / 2 := by
    rw [List.length_append, List.length_cons] at hlen
    rw [List.length_append]
    omega
  rw [boot_eq h hargs, boot_eq h' hargs', if_pos hlen, if_pos hlen', meaning_eq, meaning_eq,
    List.takeWhile_append_of_pos hbefore, List.takeWhile_append_of_pos hbefore,
    List.dropWhile_append_of_pos hbefore, List.dropWhile_append_of_pos hbefore,
    List.takeWhile_cons_of_pos (isOption_of_name hname), List.dropWhile_cons_of_pos (isOption_of_name hname),
    hfold]

/-- `-rs=7 ls` and `ls`. -/
theorem boot_seed_seven : ∃ bytes bytes',
    makeKernelCommandLine [ascii ['-', 'r', 's', '=', '7'], Task.ls.name] = some bytes ∧
    makeKernelCommandLine [Task.ls.name] = some bytes' ∧
    outcome 0 (Mem.write (fun _ => 0) loaderArgCnt bytes) =
      outcome 0 (Mem.write (fun _ => 0) loaderArgCnt bytes') :=
  ⟨_, _, rfl, rfl, @boot_seed _ _ 0 [] [Task.ls.name] (ascii ['-', 'r', 's', '=', '7']) [55] 7
    (loaded_write rfl) (loaded_write rfl) (by decide) (by decide) (by decide) (by decide) rfl (by decide)⟩

end CSE130.Lab3.CommandLine
