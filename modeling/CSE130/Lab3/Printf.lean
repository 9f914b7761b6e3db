import Mathlib.Data.List.Basic
import Mathlib.Data.BitVec
import Mathlib.Data.Int.Basic

/-! # Formatted output

`__vprintf` of the C library (`lib/stdio.c`): it copies the characters of a format and replaces each
conversion by the text of the next argument.  The text goes character by character to a function
`output` with a state `aux` of its own; the functions that print into a buffer, to a file handle of a
user program and to the console differ in these only.

The variable arguments are the words on the stack, one for each argument but two, the lower one first,
for an argument of 64 bits.  `none` stands for undefined behaviour: an argument is taken that is not
there, an `int` overflows while a conversion is parsed, or the format ends within a conversion, in which
case the loop goes past the null character.  The counters of the characters wrap around, and so does the
negation of the least `intmax_t`.  Pointers point to characters in a memory that the output does not
change, and a string is shorter than `2 ^ 31`. -/

namespace CSE130.Lab3.Printf

/-- A word on the stack. -/
abbrev Word := BitVec 32

/-- `INT_MAX`. -/
def intMax : ℤ := 2 ^ 31 - 1

/-- `n++` for an `int`. -/
def incr (n : ℤ) : ℤ := Int.bmod (n + 1) (2 ^ 32)

theorem incr_of_lt {n : ℤ} (h0 : 0 ≤ n) (h : n < intMax) : incr n = n + 1 := by
  unfold intMax at h
  unfold incr
  exact Int.bmod_eq_of_le_mul_two (by omega) (by omega)

/-- The flags of `struct printf_conversion`. -/
structure Flags where
  minus : Bool := false
  plus : Bool := false
  space : Bool := false
  pound : Bool := false
  zero : Bool := false
  group : Bool := false
  deriving DecidableEq

/-- The type of the argument to format. -/
inductive ArgType where
  | char | short | int | intmax | long | longlong | ptrdifft | sizet
  deriving DecidableEq

/-- `struct printf_conversion`. -/
structure Conversion where
  flags : Flags
  width : ℤ
  precision : ℤ
  type : ArgType
  deriving DecidableEq

/-- `struct integer_base`; `x` is `none` for 0. -/
structure IntegerBase where
  base : ℕ
  digits : List Char
  x : Option Char
  group : ℕ

/-- `base_d`. -/
def baseD : IntegerBase := ⟨10, "0123456789".toList, none, 3⟩

/-- `base_o`. -/
def baseO : IntegerBase := ⟨8, "01234567".toList, none, 3⟩

/-- `base_x`. -/
def baseX : IntegerBase := ⟨16, "0123456789abcdef".toList, some 'x', 4⟩

/-- `base_X`. -/
def baseUpperX : IntegerBase := ⟨16, "0123456789ABCDEF".toList, some 'X', 4⟩

/-- `isdigit`. -/
def isdigit (c : Char) : Prop := '0'.toNat ≤ c.toNat ∧ c.toNat ≤ '9'.toNat

instance (c : Char) : Decidable (isdigit c) := inferInstanceAs (Decidable (_ ∧ _))

/-! ### Arguments -/

/-- `va_arg` for a type of 32 bits. -/
def vaArg : List Word → Option (Word × List Word)
  | [] => none
  | w :: args => some (w, args)

/-- `va_arg` for a type of 64 bits. -/
def vaArg64 : List Word → Option (BitVec 64 × List Word)
  | low :: high :: args => some (high ++ low, args)
  | _ => none

/-- The argument of a signed conversion. -/
def signedArg (type : ArgType) (args : List Word) : Option (ℤ × List Word) :=
  match type with
  | .char => (vaArg args).map fun (w, args) => ((w.setWidth 8).toInt, args)
  | .short => (vaArg args).map fun (w, args) => ((w.setWidth 16).toInt, args)
  | .int | .long | .ptrdifft => (vaArg args).map fun (w, args) => (w.toInt, args)
  | .intmax | .longlong => (vaArg64 args).map fun (w, args) => (w.toInt, args)
  | .sizet => (vaArg args).map fun (w, args) =>
      (if (w.toNat : ℤ) > (2 ^ 32 - 1) / 2 then w.toNat - (2 ^ 32 - 1) - 1 else w.toNat, args)

/-- The argument of an unsigned conversion. -/
def unsignedArg (type : ArgType) (args : List Word) : Option (ℕ × List Word) :=
  match type with
  | .char => (vaArg args).map fun (w, args) => ((w.setWidth 8).toNat, args)
  | .short => (vaArg args).map fun (w, args) => ((w.setWidth 16).toNat, args)
  | .int | .long | .sizet => (vaArg args).map fun (w, args) => (w.toNat, args)
  | .intmax | .longlong => (vaArg64 args).map fun (w, args) => (w.toNat, args)
  | .ptrdifft => (vaArg args).map fun (w, args) =>
      ((w.signExtend 64 &&& BitVec.ofNat 64 (2 ^ 32 - 1)).toNat, args)

/-! ### Conversion specifications -/

/-- One round of the loop over the flag characters. -/
def Flags.add (f : Flags) : Char → Option Flags
  | '-' => some { f with minus := true }
  | '+' => some { f with plus := true }
  | ' ' => some { f with space := true }
  | '#' => some { f with pound := true }
  | '0' => some { f with zero := true }
  | c => if c = Char.ofNat 39 then some { f with group := true } else none

/-- The loop over the flag characters. -/
def parseFlags (f : Flags) : List Char → Flags × List Char
  | [] => (f, [])
  | c :: format =>
      match f.add c with
      | some f => parseFlags f format
      | none => (f, c :: format)

/-- `for (; isdigit (*format); format++) n = n * 10 + *format - '0'`. -/
def parseNumber (n : ℤ) : List Char → Option (ℤ × List Char)
  | [] => some (n, [])
  | c :: format =>
      if isdigit c then
        if n * 10 + c.toNat ≤ intMax then parseNumber (n * 10 + c.toNat - '0'.toNat) format
        else none
      else some (n, c :: format)

/-- A number of the format, or the next argument for `*`. -/
def parseField (format : List Char) (args : List Word) : Option (ℤ × List Char × List Word) :=
  match format with
  | '*' :: format => (vaArg args).map fun (w, args) => (w.toInt, format, args)
  | format => (parseNumber 0 format).map fun (n, format) => (n, format, args)

/-- The type of the argument. -/
def parseType : List Char → ArgType × List Char
  | 'h' :: 'h' :: format => (.char, format)
  | 'h' :: format => (.short, format)
  | 'j' :: format => (.intmax, format)
  | 'l' :: 'l' :: format => (.longlong, format)
  | 'l' :: format => (.long, format)
  | 't' :: format => (.ptrdifft, format)
  | 'z' :: format => (.sizet, format)
  | format => (.int, format)

/-- The flags that others override. -/
def Flags.settle (f : Flags) : Flags :=
  { f with zero := f.zero && !f.minus, space := f.space && !f.plus }

/-- A negative field width. -/
def settleWidth (f : Flags) (width : ℤ) : Option (Flags × ℤ) :=
  if width < 0 then
    if -width ≤ intMax then some ({ f with minus := true }, -width) else none
  else some (f, width)

/-- The precision. -/
def parsePrecision (format : List Char) (args : List Word) : Option (ℤ × List Char × List Word) :=
  match format with
  | '.' :: format =>
      (parseField format args).map fun (precision, format, args) =>
        (if precision < 0 then -1 else precision, format, args)
  | format => some (-1, format, args)

/-- `parse_conversion`. -/
def parseConversion (format : List Char) (args : List Word) :
    Option (Conversion × List Char × List Word) := do
  let (flags, format) := parseFlags {} format
  let (width, format, args) ← parseField format args
  let (flags, width) ← settleWidth flags.settle width
  let (precision, format, args) ← parsePrecision format args
  let flags := if precision ≥ 0 then { flags with zero := false } else flags
  let (type, format) := parseType format
  return (⟨flags, width, precision, type⟩, format, args)

/-! ### Output -/

section Output

variable {σ : Type} (output : Char → σ → σ)

/-- `output_dup`. -/
def outputDup (ch : Char) : ℕ → σ → σ
  | 0, aux => aux
  | cnt + 1, aux => outputDup ch cnt (output ch aux)

/-- The characters of a string one after the other. -/
def outputString : List Char → σ → σ
  | [], aux => aux
  | ch :: string, aux => outputString string (output ch aux)

/-- `b->digits[value % b->base]`. -/
def IntegerBase.digit (b : IntegerBase) (value : ℕ) : Char := b.digits.getD (value % b.base) '0'

/-- `*cp++ = ch` in the buffer of 64 characters. -/
def push (ch : Char) (buf : List Char) : Option (List Char) :=
  if buf.length < 64 then some (ch :: buf) else none

/-- `while (value > 0)`; each round takes a place of the buffer, so that there are 64 at most. -/
def pushDigits (group : Bool) (b : IntegerBase) :
    ℕ → ℕ → ℕ → List Char → Option (List Char)
  | 0, value, _, buf => if value > 0 then none else some buf
  | rounds + 1, value, digitCnt, buf =>
      if value > 0 then do
        let buf ← if group ∧ digitCnt > 0 ∧ digitCnt % b.group = 0 then push ',' buf else some buf
        let buf ← push (b.digit value) buf
        pushDigits group b rounds (value / b.base) (digitCnt + 1) buf
      else some buf

/-- `while (cp - buf < precision && cp < buf + sizeof buf - 1) *cp++ = '0'`. -/
def pushZeros (precision : ℤ) : ℕ → List Char → Option (List Char)
  | 0, buf => some buf
  | rounds + 1, buf =>
      if buf.length < precision ∧ buf.length < 63 then do
        let buf ← push '0' buf
        pushZeros precision rounds buf
      else some buf

/-- The sign character, if there is one. -/
def signChar (isSigned negative : Bool) (f : Flags) : Option Char :=
  if isSigned then
    if f.plus then some (if negative then '-' else '+')
    else if f.space then some (if negative then '-' else ' ')
    else if negative then some '-'
    else none
  else none

/-- The buffer of `format_integer` before it is put out; its head is the last character. -/
def integerBuffer (value : ℕ) (b : IntegerBase) (c : Conversion) : Option (List Char) := do
  let buf ← pushDigits c.flags.group b 64 value 0 []
  let buf ← pushZeros (if c.precision < 0 then 1 else c.precision) 64 buf
  if c.flags.pound ∧ b.base = 8 ∧ buf.head? ≠ some '0' then push '0' buf else some buf

/-- `format_integer`. -/
def formatInteger (value : ℕ) (isSigned negative : Bool) (b : IntegerBase) (c : Conversion)
    (aux : σ) : Option σ := do
  let sign := signChar isSigned negative c.flags
  let x := if c.flags.pound ∧ value ≠ 0 then b.x else none
  let buf ← integerBuffer value b c
  let padCnt := c.width - buf.length - (if x.isSome then 2 else 0) - (if sign.isSome then 1 else 0)
  let aux := if !c.flags.minus ∧ !c.flags.zero then outputDup output ' ' padCnt.toNat aux else aux
  let aux := outputString output sign.toList aux
  let aux := match x with
    | some x => output x (output '0' aux)
    | none => aux
  let aux := if c.flags.zero then outputDup output '0' padCnt.toNat aux else aux
  let aux := outputString output buf aux
  return if c.flags.minus then outputDup output ' ' padCnt.toNat aux else aux

/-- `format_string`. -/
def formatString (string : List Char) (c : Conversion) (aux : σ) : σ :=
  let padCnt := (c.width - string.length).toNat
  let aux := if c.width > string.length ∧ !c.flags.minus then outputDup output ' ' padCnt aux else aux
  let aux := outputString output string aux
  if c.width > string.length ∧ c.flags.minus then outputDup output ' ' padCnt aux else aux

/-- The characters at `s` that `strnlen` counts. -/
def strn (mem : ℕ → Char) (s : ℕ) : ℕ → List Char
  | 0 => []
  | maxlen + 1 => if mem s = Char.ofNat 0 then [] else mem s :: strn mem (s + 1) maxlen

/-- The string of a string conversion. -/
def stringArg (mem : ℕ → Char) (s : Word) (precision : ℤ) : List Char :=
  let maxlen := (BitVec.ofInt 32 precision).toNat
  if s = 0 then "(null)".toList.take maxlen else strn mem s.toNat maxlen

/-- The base of an unsigned conversion. -/
def unsignedBase (ch : Char) : IntegerBase :=
  if ch = 'o' then baseO else if ch = 'u' then baseD else if ch = 'x' then baseX else baseUpperX

/-- The conversions that `__vprintf` knows of; `invalid` prints the message for the others. -/
def convert (invalid : List Char → Char → σ → Option σ) (mem : ℕ → Char) (ch : Char)
    (c : Conversion) (args : List Word) (aux : σ) : Option (σ × List Word) :=
  if ch = 'd' ∨ ch = 'i' then do
    let (value, args) ← signedArg c.type args
    -- as a `uintmax_t` the negative value is its absolute value, also that of `- 2 ^ 63`
    let aux ← formatInteger output value.natAbs true (decide (value < 0)) baseD c aux
    return (aux, args)
  else if ch = 'o' ∨ ch = 'u' ∨ ch = 'x' ∨ ch = 'X' then do
    let (value, args) ← unsignedArg c.type args
    let aux ← formatInteger output value false false (unsignedBase ch) c aux
    return (aux, args)
  else if ch = 'c' then do
    let (w, args) ← vaArg args
    return (formatString output [Char.ofNat (w.setWidth 8).toNat] c aux, args)
  else if ch = 's' then do
    let (s, args) ← vaArg args
    return (formatString output (stringArg mem s c.precision) c aux, args)
  else if ch = 'p' then do
    let (p, args) ← vaArg args
    let aux ← formatInteger output p.toNat false false baseX { c with flags := { pound := true } } aux
    return (aux, args)
  else if ch = 'f' ∨ ch = 'e' ∨ ch = 'E' ∨ ch = 'g' ∨ ch = 'G' ∨ ch = 'n' then do
    let aux ← invalid "<<no %%%c in kernel>>".toList ch aux
    return (aux, args)
  else do
    let aux ← invalid "<<no %%%c conversion>>".toList ch aux
    return (aux, args)

/-- The loop of `__vprintf`; each round takes a character of the format. -/
def vprintfLoop (invalid : List Char → Char → σ → Option σ) (mem : ℕ → Char) :
    ℕ → List Char → List Word → σ → Option σ
  | _, [], _, aux => some aux
  | 0, _ :: _, _, _ => none
  | rounds + 1, ch :: format, args, aux =>
      if ch ≠ '%' then vprintfLoop invalid mem rounds format args (output ch aux)
      else if format.head? = some '%' then
        vprintfLoop invalid mem rounds format.tail args (output '%' aux)
      else do
        let (c, format, args) ← parseConversion format args
        match format with
        | [] => none
        | ch :: format => do
          let (aux, args) ← convert output invalid mem ch c args aux
          vprintfLoop invalid mem rounds format args aux

/-- `__printf` with one of the two messages, whose conversion is `%c`. -/
def printfMessage (mem : ℕ → Char) (format : List Char) (ch : Char) (aux : σ) : Option σ :=
  vprintfLoop output (fun _ _ _ => none) mem format.length format [BitVec.ofNat 32 ch.toNat] aux

/-- `__vprintf`. -/
def vprintf (mem : ℕ → Char) (format : List Char) (args : List Word) (aux : σ) : Option σ :=
  vprintfLoop output (printfMessage output mem) mem format.length format args aux

end Output

/-! ### The text

What is put out does not depend on the function that puts it out. -/

variable {σ τ : Type} {output : Char → σ → σ} {output' : Char → τ → τ} {h : σ → τ} {aux : σ}
  {mem : ℕ → Char} {format string string' : List Char} {args : List Word} {ch : Char} {cnt : ℕ}

/-- The characters between the sign and the digits. -/
def baseMark (value : ℕ) (b : IntegerBase) (f : Flags) : List Char :=
  match if f.pound ∧ value ≠ 0 then b.x else none with
  | some x => ['0', x]
  | none => []

/-- The text of a conversion of an integer. -/
def integerText (value : ℕ) (isSigned negative : Bool) (b : IntegerBase) (c : Conversion) :
    Option (List Char) := do
  let sign := (signChar isSigned negative c.flags).toList
  let x := baseMark value b c.flags
  let buf ← integerBuffer value b c
  let padCnt := (c.width - (sign.length + x.length + buf.length : ℕ)).toNat
  return (if !c.flags.minus ∧ !c.flags.zero then List.replicate padCnt ' ' else []) ++ sign ++ x ++
    (if c.flags.zero then List.replicate padCnt '0' else []) ++ buf ++
    (if c.flags.minus then List.replicate padCnt ' ' else [])

/-- The text of a conversion of a string. -/
def stringText (string : List Char) (c : Conversion) : List Char :=
  let pad := List.replicate (c.width - string.length).toNat ' '
  (if c.flags.minus then [] else pad) ++ string ++ if c.flags.minus then pad else []

theorem outputString_append :
    outputString output (string ++ string') aux =
      outputString output string' (outputString output string aux) := by
  induction string generalizing aux with
  | nil => rfl
  | cons ch string ih => exact ih

theorem outputString_concat :
    outputString output (string ++ [ch]) aux = output ch (outputString output string aux) :=
  outputString_append

theorem outputDup_eq :
    outputDup output ch cnt aux = outputString output (List.replicate cnt ch) aux := by
  induction cnt generalizing aux with
  | zero => rfl
  | succ cnt ih => exact ih

theorem formatInteger_eq {value : ℕ} {isSigned negative : Bool} {b : IntegerBase} {c : Conversion} :
    formatInteger output value isSigned negative b c aux =
      (integerText value isSigned negative b c).map fun text => outputString output text aux := by
  unfold formatInteger integerText
  cases integerBuffer value b c with
  | none => rfl
  | some buf =>
      simp only [baseMark, Option.bind_eq_bind, Option.bind_some, Option.pure_def, Option.map_some,
        outputDup_eq, outputString_append]
      generalize (if c.flags.pound ∧ value ≠ 0 then b.x else none) = x
      have hpad : c.width - buf.length - (if x.isSome then 2 else 0) -
          (if (signChar isSigned negative c.flags).isSome then 1 else 0) =
          c.width - ((signChar isSigned negative c.flags).toList.length +
            (match x with | some x => ['0', x] | none => []).length + buf.length : ℕ) := by
        cases x <;> cases signChar isSigned negative c.flags <;> simp <;> omega
      rw [hpad]
      cases x <;> cases c.flags.minus <;> cases c.flags.zero <;>
        simp [outputString]

theorem formatString_eq {c : Conversion} :
    formatString output string c aux = outputString output (stringText string c) aux := by
  unfold formatString stringText
  simp only [outputDup_eq, outputString_append]
  by_cases hw : c.width > string.length
  · cases c.flags.minus <;> simp [hw, outputString]
  · have hpad : (c.width - string.length).toNat = 0 := by omega
    cases c.flags.minus <;> simp [hw, hpad, outputString]

/-- One output function behaves as another on the states that `h` gives. -/
def Simulates (output : Char → σ → σ) (output' : Char → τ → τ) (h : σ → τ) : Prop :=
  ∀ ch aux, output' ch (h aux) = h (output ch aux)

theorem Simulates.outputString (hh : Simulates output output' h) :
    outputString output' string (h aux) = h (outputString output string aux) := by
  induction string generalizing aux with
  | nil => rfl
  | cons ch string ih =>
      rw [Printf.outputString, Printf.outputString, hh ch aux, ih]

theorem Simulates.formatInteger (hh : Simulates output output' h) {value : ℕ}
    {isSigned negative : Bool} {b : IntegerBase} {c : Conversion} :
    formatInteger output' value isSigned negative b c (h aux) =
      (formatInteger output value isSigned negative b c aux).map h := by
  simp only [formatInteger_eq, hh.outputString, Option.map_map, Function.comp_def]

theorem Simulates.formatString (hh : Simulates output output' h) {c : Conversion} :
    formatString output' string c (h aux) = h (formatString output string c aux) := by
  simp only [formatString_eq, hh.outputString]

variable {invalid : List Char → Char → σ → Option σ} {invalid' : List Char → Char → τ → Option τ}

theorem Simulates.convert (hh : Simulates output output' h)
    (hi : ∀ message ch aux, invalid' message ch (h aux) = (invalid message ch aux).map h)
    {c : Conversion} :
    convert output' invalid' mem ch c args (h aux) =
      (convert output invalid mem ch c args aux).map fun (aux, args) => (h aux, args) := by
  have hint : ∀ (value : ℕ) (s n : Bool) (b : IntegerBase) (c : Conversion) (args : List Word),
      ((Printf.formatInteger output' value s n b c (h aux)).bind fun aux => some (aux, args)) =
      ((Printf.formatInteger output value s n b c aux).bind fun aux => some (aux, args)).map
        fun (aux, args) => (h aux, args) := by
    intro value s n b c args
    rw [hh.formatInteger]
    cases Printf.formatInteger output value s n b c aux <;> rfl
  have hmessage : ∀ message,
      ((invalid' message ch (h aux)).bind fun aux => some (aux, args)) =
      ((invalid message ch aux).bind fun aux => some (aux, args)).map
        fun (aux, args) => (h aux, args) := by
    intro message
    rw [hi]
    cases invalid message ch aux <;> rfl
  unfold Printf.convert
  simp only [Option.bind_eq_bind, Option.pure_def]
  split_ifs
  · cases signedArg c.type args with
    | none => rfl
    | some r => exact hint _ _ _ _ _ _
  · cases unsignedArg c.type args with
    | none => rfl
    | some r => exact hint _ _ _ _ _ _
  · cases vaArg args with
    | none => rfl
    | some r => simp [hh.formatString]
  · cases vaArg args with
    | none => rfl
    | some r => simp [hh.formatString]
  · cases vaArg args with
    | none => rfl
    | some r => exact hint _ _ _ _ _ _
  · exact hmessage _
  · exact hmessage _

theorem Simulates.vprintfLoop (hh : Simulates output output' h)
    (hi : ∀ message ch aux, invalid' message ch (h aux) = (invalid message ch aux).map h)
    {rounds : ℕ} :
    vprintfLoop output' invalid' mem rounds format args (h aux) =
      (vprintfLoop output invalid mem rounds format args aux).map h := by
  induction rounds generalizing format args aux with
  | zero => cases format <;> rfl
  | succ rounds ih =>
      cases format with
      | nil => rfl
      | cons ch format =>
          unfold Printf.vprintfLoop
          split_ifs
          · rw [hh ch aux, ih]
          · rw [hh '%' aux, ih]
          · simp only [Option.bind_eq_bind]
            cases parseConversion format args with
            | none => rfl
            | some r =>
                obtain ⟨c, format, args⟩ := r
                cases format with
                | nil => rfl
                | cons ch format =>
                    simp only [Option.bind_some, hh.convert hi]
                    cases Printf.convert output invalid mem ch c args aux with
                    | none => rfl
                    | some r => exact ih

theorem Simulates.vprintf (hh : Simulates output output' h) :
    vprintf output' mem format args (h aux) = (vprintf output mem format args aux).map h :=
  hh.vprintfLoop fun _ _ _ => hh.vprintfLoop fun _ _ _ => rfl

/-- What `__vprintf` puts out. -/
def text (mem : ℕ → Char) (format : List Char) (args : List Word) : Option (List Char) :=
  vprintf (fun ch text => text ++ [ch]) mem format args []

/-- Whatever the output function is, it gets the characters of the text in their order. -/
theorem vprintf_eq : vprintf output mem format args aux =
    (text mem format args).map fun text => outputString output text aux := by
  have hh : Simulates (fun ch text => text ++ [ch]) output fun text => outputString output text aux := by
    intro ch text
    exact outputString_concat.symm
  exact @Simulates.vprintf _ _ _ _ _ [] mem format args hh

/-! ### Printing into a buffer -/

/-- The characters of `string` at `a`. -/
def store (m : ℕ → Char) (a : ℕ) (string : List Char) : ℕ → Char :=
  fun x => if a ≤ x then (string[x - a]?).getD (m x) else m x

/-- `struct vsnprintf_aux` and the memory. -/
structure VsnprintfAux where
  p : ℕ
  length : ℤ
  maxLength : ℤ
  m : ℕ → Char

/-- `vsnprintf_helper`. -/
def vsnprintfHelper (ch : Char) (aux : VsnprintfAux) : VsnprintfAux :=
  if aux.length < aux.maxLength then
    { aux with length := incr aux.length, p := aux.p + 1, m := store aux.m aux.p [ch] }
  else { aux with length := incr aux.length }

/-- `vsnprintf`: the returned number and the memory. -/
def vsnprintf (mem : ℕ → Char) (buffer bufSize : ℕ) (format : List Char) (args : List Word)
    (m : ℕ → Char) : Option (ℤ × (ℕ → Char)) := do
  let maxLength := (BitVec.ofNat 32 (if bufSize > 0 then bufSize - 1 else 0)).toInt
  let aux ← vprintf vsnprintfHelper mem format args ⟨buffer, 0, maxLength, m⟩
  return (aux.length, if bufSize > 0 then store aux.m aux.p [Char.ofNat 0] else aux.m)

variable {m : ℕ → Char} {a buffer bufSize : ℕ}

@[simp] theorem store_nil : store m a [] = m := by
  funext x
  simp [store]

theorem store_append : store (store m a string) (a + string.length) string' =
    store m a (string ++ string') := by
  funext x
  unfold store
  by_cases h : a ≤ x
  · by_cases h' : a + string.length ≤ x
    · rw [if_pos h', if_pos h, if_pos h, List.getElem?_append_right (by omega),
        List.getElem?_eq_none (by omega : string.length ≤ x - a), Option.getD_none, Nat.sub_add_eq]
    · rw [if_neg h', if_pos h, if_pos h, List.getElem?_append_left (by omega)]
  · rw [if_neg (by omega), if_neg h, if_neg h]

/-- The output is cut off when the buffer is full, and counted to its end if an `int` can count it. -/
theorem outputString_vsnprintf {aux : VsnprintfAux} (h0 : 0 ≤ aux.length)
    (hlen : aux.length + string.length ≤ intMax) :
    outputString vsnprintfHelper string aux =
      { aux with
        length := aux.length + string.length
        p := aux.p + (string.take (aux.maxLength - aux.length).toNat).length
        m := store aux.m aux.p (string.take (aux.maxLength - aux.length).toNat) } := by
  induction string generalizing aux with
  | nil => simp [outputString]
  | cons ch string ih =>
      rw [List.length_cons] at hlen
      push_cast at hlen
      have hincr : incr aux.length = aux.length + 1 := incr_of_lt h0 (by omega)
      have hlength : (vsnprintfHelper ch aux).length = aux.length + 1 := by
        unfold vsnprintfHelper
        split_ifs
        · exact hincr
        · exact hincr
      rw [outputString, ih (by omega) (by omega)]
      unfold vsnprintfHelper
      rw [hincr]
      split_ifs with h
      · have htake : (aux.maxLength - aux.length).toNat =
            (aux.maxLength - (aux.length + 1)).toNat + 1 := by omega
        simp only [htake, List.take_succ_cons, List.length_cons]
        congr 1
        · omega
        · push_cast
          omega
        · exact @store_append [ch] _ _ _
      · have htake : (aux.maxLength - aux.length).toNat = 0 := by omega
        have htake' : (aux.maxLength - (aux.length + 1)).toNat = 0 := by omega
        simp only [htake, htake', List.take_zero, List.length_cons]
        congr 1
        push_cast
        omega

/-- **The contract of `vsnprintf`** for a text that an `int` can count: it puts the first `bufSize - 1`
characters of the text and a null character into the buffer, writes nowhere else, and returns the length
of the whole text. -/
theorem vsnprintf_eq (hsize : bufSize ≤ 2 ^ 31)
    (hlen : ∀ t, text mem format args = some t → t.length < 2 ^ 31) :
    vsnprintf mem buffer bufSize format args m =
      (text mem format args).map fun text =>
        ((text.length : ℤ), store m buffer
          (if bufSize = 0 then [] else text.take (bufSize - 1) ++ [Char.ofNat 0])) := by
  have hmax : (BitVec.ofNat 32 (if bufSize > 0 then bufSize - 1 else 0)).toInt =
      ((bufSize - 1 : ℕ) : ℤ) := by
    rw [BitVec.toInt_eq_toNat_of_lt] <;> split_ifs <;> simp <;> omega
  unfold vsnprintf
  simp only [hmax, vprintf_eq, Option.bind_eq_bind, Option.pure_def]
  cases ht : text mem format args with
  | none => rfl
  | some text =>
      have hlen := hlen text ht
      rw [Option.map_some, Option.bind_some, Option.map_some,
        outputString_vsnprintf (Int.le_refl 0) (by unfold intMax; dsimp only; omega)]
      by_cases h0 : bufSize = 0
      · simp [h0]
      · simp only [Nat.pos_of_ne_zero h0, if_true, h0, if_false, store_append, Int.sub_zero,
          Int.toNat_natCast, Int.zero_add]

theorem vsnprintf_eq_cut :
    vsnprintf (fun _ => 'a') 100 3 "%d!".toList [BitVec.ofInt 32 (-42)] (fun _ => 'z') =
      (text (fun _ => 'a') "%d!".toList [BitVec.ofInt 32 (-42)]).map fun text =>
        ((text.length : ℤ), store (fun _ => 'z') 100
          (if 3 = 0 then [] else text.take (3 - 1) ++ [Char.ofNat 0])) := by
  have ht : text (fun _ => 'a') "%d!".toList [BitVec.ofInt 32 (-42)] = some "-42!".toList := rfl
  refine vsnprintf_eq (by decide) fun t h => ?_
  rw [ht] at h
  cases h
  decide

/-! ### Printing to a file handle -/

/-- `struct vhprintf_aux` and the calls of `write`; `buf` has the characters before `p`. -/
structure VhprintfAux where
  buf : List Char := []
  charCnt : ℤ := 0
  writes : List (List Char) := []

/-- `flush`. -/
def flush (aux : VhprintfAux) : VhprintfAux :=
  if aux.buf ≠ [] then { aux with writes := aux.writes ++ [aux.buf], buf := [] }
  else { aux with buf := [] }

/-- `add_char`. -/
def addChar (c : Char) (aux : VhprintfAux) : VhprintfAux :=
  let aux := { aux with buf := aux.buf ++ [c] }
  let aux := if aux.buf.length ≥ 64 then flush aux else aux
  { aux with charCnt := incr aux.charCnt }

/-- `vhprintf`: the returned number and what is written, one call after the other. -/
def vhprintf (mem : ℕ → Char) (format : List Char) (args : List Word) :
    Option (ℤ × List (List Char)) := do
  let aux ← vprintf addChar mem format args {}
  let aux := flush aux
  return (aux.charCnt, aux.writes)

/-- The state after `string` has been put out. -/
structure Buffered (string : List Char) (aux : VhprintfAux) : Prop where
  all : aux.writes.flatten ++ aux.buf = string
  room : aux.buf.length < 64
  full : ∀ w ∈ aux.writes, w.length = 64
  count : string.length < 2 ^ 31 → aux.charCnt = string.length

theorem Buffered.addChar {aux : VhprintfAux} (hb : Buffered string aux) :
    Buffered (string ++ [ch]) (addChar ch aux) := by
  have hcount : (string ++ [ch]).length < 2 ^ 31 →
      incr aux.charCnt = ((string ++ [ch]).length : ℕ) := by
    intro hlen
    rw [List.length_append, List.length_singleton] at hlen ⊢
    have hcnt := hb.count (by omega)
    rw [incr_of_lt (by omega) (by unfold intMax; omega), hcnt]
    push_cast
    rfl
  have hall : aux.writes.flatten ++ (aux.buf ++ [ch]) = string ++ [ch] := by
    rw [← hb.all, List.append_assoc]
  have hroom := hb.room
  unfold Printf.addChar flush
  by_cases hfull : (aux.buf ++ [ch]).length ≥ 64
  · simp only [hfull, if_true, List.append_ne_nil_of_right_ne_nil _ (List.cons_ne_nil ch []), ne_eq,
      not_false_eq_true]
    refine ⟨by simpa using hall, by simp, ?_, hcount⟩
    intro w hw
    rcases List.mem_append.mp hw with hw | hw
    · exact hb.full w hw
    · rw [List.mem_singleton.mp hw]
      simp at hfull ⊢
      omega
  · simp only [hfull, if_false]
    exact ⟨hall, Nat.lt_of_not_le hfull, hb.full, hcount⟩

theorem Buffered.outputString {aux : VhprintfAux} (hb : Buffered string aux) :
    Buffered (string ++ string') (outputString Printf.addChar string' aux) := by
  induction string' generalizing string aux with
  | nil => simpa [Printf.outputString] using hb
  | cons ch string' ih =>
      have hb' : Buffered (string ++ [ch]) (Printf.addChar ch aux) := hb.addChar
      have := ih hb'
      rwa [List.append_assoc] at this

/-- **What a user program prints is written once and in order**, and counted: the calls of `write` get
the whole text, in pieces of 64 characters but for the last, and none of them is empty. -/
theorem vhprintf_writes {t : List Char} (ht : text mem format args = some t)
    (hlen : t.length < 2 ^ 31) : ∃ writes,
      vhprintf mem format args = some ((t.length : ℤ), writes) ∧ writes.flatten = t ∧
      (∀ w ∈ writes, 0 < w.length ∧ w.length ≤ 64) ∧ ∀ w ∈ writes.dropLast, w.length = 64 := by
  have hb : Buffered t (outputString addChar t {}) :=
    @Buffered.outputString [] t {} ⟨rfl, by decide, by simp, fun _ => rfl⟩
  have heq : vhprintf mem format args =
      some ((flush (outputString addChar t {})).charCnt, (flush (outputString addChar t {})).writes) := by
    simp [vhprintf, vprintf_eq, ht]
  generalize outputString addChar t {} = aux at hb heq
  have hroom := hb.room
  have hcount : (flush aux).charCnt = t.length := by
    unfold flush
    split_ifs <;> exact hb.count hlen
  refine ⟨(flush aux).writes, by rw [heq, hcount], ?_⟩
  unfold flush
  by_cases hnil : aux.buf = []
  · have hall := hb.all
    rw [hnil, List.append_nil] at hall
    simp only [hnil, ne_eq, not_true_eq_false, if_false]
    refine ⟨hall, fun w hw => ?_, fun w hw => hb.full w (List.mem_of_mem_dropLast hw)⟩
    have := hb.full w hw
    omega
  · simp only [ne_eq, hnil, not_false_eq_true, if_true]
    refine ⟨by simpa using hb.all, fun w hw => ?_, fun w hw => ?_⟩
    · have hpos := List.length_pos_iff.mpr hnil
      rcases List.mem_append.mp hw with hw | hw
      · have := hb.full w hw
        omega
      · rw [List.mem_singleton.mp hw]
        omega
    · rw [List.dropLast_concat] at hw
      exact hb.full w hw

theorem vhprintf_writes_number : ∃ writes,
    vhprintf (fun _ => 'a') "%3d%%".toList [BitVec.ofNat 32 42] = some (((4 : ℕ) : ℤ), writes) ∧
    writes.flatten = " 42%".toList ∧ (∀ w ∈ writes, 0 < w.length ∧ w.length ≤ 64) ∧
    ∀ w ∈ writes.dropLast, w.length = 64 :=
  vhprintf_writes (t := " 42%".toList) rfl (by decide)

end CSE130.Lab3.Printf
