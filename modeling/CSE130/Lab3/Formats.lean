import CSE130.Lab3.PrintedIntegers

/-! # The language of formats

A format is made of literal characters, of `%%`, and of conversions: flags, a field width, a precision,
the type of the argument and a conversion character.  `Spec` and `Piece` are its syntax, `spell` writes
them down, and `formatText` is what they mean.  `parse_conversion` reads a specification back
(`parseConversion_spell`), and `__vprintf` puts out the meaning of the format (`text_spell`). -/

namespace CSE130.Lab3.Printf

variable {b : IntegerBase} {c : Conversion} {f : Flags} {l rest : List Char} {ch : Char}
  {mem : ℕ → Char} {args args' : List Word} {w : Word} {n : ℤ} {rounds k : ℕ}
  {σ : Type} {output : Char → σ → σ} {aux : σ}

/-! ### Specifications -/

/-- A number in a specification: an argument, or digits. -/
inductive Field where
  | star
  | digits (ds : List Char)

/-- A conversion specification. -/
structure Spec where
  flags : List Char
  width : Field
  precision : Option Field
  type : ArgType

def Field.spell : Field → List Char
  | star => ['*']
  | digits ds => ds

def ArgType.spell : ArgType → List Char
  | .char => ['h', 'h']
  | .short => ['h']
  | .int => []
  | .intmax => ['j']
  | .long => ['l']
  | .longlong => ['l', 'l']
  | .ptrdifft => ['t']
  | .sizet => ['z']

/-- The precision is spelled with a point. -/
def spellPrecision : Option Field → List Char
  | none => []
  | some field => '.' :: field.spell

def Spec.spell (s : Spec) : List Char :=
  s.flags ++ (s.width.spell ++ (spellPrecision s.precision ++ s.type.spell))

/-- The digits are digits. -/
def Field.Ok : Field → Prop
  | star => True
  | digits ds => ∀ ch ∈ ds, isdigit ch

/-- A field width does not start with a zero, as that is a flag. -/
structure Spec.Ok (s : Spec) : Prop where
  flags : ∀ ch ∈ s.flags, ({} : Flags).add ch ≠ none
  width : s.width.Ok
  noZero : s.width.spell.head? ≠ some '0'
  precision : ∀ field, s.precision = some field → field.Ok

/-- A character that ends a specification. -/
structure Terminal (ch : Char) : Prop where
  noFlag : ({} : Flags).add ch = none
  noDigit : ¬ isdigit ch
  plain : ch ∉ ['*', '.', 'h', 'j', 'l', 't', 'z']
  byte : ch.toNat < 256

/-- The number that digits denote. -/
def decimal (ds : List Char) : ℕ := ds.foldl (fun n ch => n * 10 + (ch.toNat - '0'.toNat)) 0

def Field.value : Field → List Word → Option (ℤ × List Word)
  | star, args => (vaArg args).map fun (w, args) => (w.toInt, args)
  | digits ds, args =>
      if (decimal ds : ℤ) + '0'.toNat ≤ intMax then some ((decimal ds : ℤ), args) else none

/-- Without a precision and with a negative one the precision is -1. -/
def precisionValue : Option Field → List Word → Option (ℤ × List Word)
  | none, args => some (-1, args)
  | some field, args => (field.value args).map fun (n, args) => (if n < 0 then -1 else n, args)

/-- The conversion that a specification denotes. -/
def Spec.conversion (s : Spec) (args : List Word) : Option (Conversion × List Word) := do
  let (width, args) ← s.width.value args
  let (precision, args) ← if -intMax ≤ width then precisionValue s.precision args else none
  return (⟨{
      minus := decide ('-' ∈ s.flags) || decide (width < 0)
      plus := decide ('+' ∈ s.flags)
      space := decide (' ' ∈ s.flags) && !decide ('+' ∈ s.flags)
      pound := decide ('#' ∈ s.flags)
      zero := decide ('0' ∈ s.flags) && !decide ('-' ∈ s.flags) && decide (precision < 0)
      group := decide (Char.ofNat 39 ∈ s.flags) }, |width|, precision, s.type⟩, args)

/-- What is known of the conversion that a specification denotes. -/
theorem Spec.conversion_cases {s : Spec} (h : s.conversion args = some (c, args')) :
    ∃ width args₁, s.width.value args = some (width, args₁) ∧ c.width = |width| ∧ c.type = s.type ∧
      c.flags.group = decide (Char.ofNat 39 ∈ s.flags) ∧
      c.flags.minus = (decide ('-' ∈ s.flags) || decide (width < 0)) ∧
      c.flags.zero = (decide ('0' ∈ s.flags) && !decide ('-' ∈ s.flags) && decide (c.precision < 0)) := by
  unfold Spec.conversion at h
  cases hw : s.width.value args with
  | none => simp [hw] at h
  | some r =>
      obtain ⟨width, args₁⟩ := r
      rw [hw] at h
      simp only [Option.bind_eq_bind, Option.bind_some] at h
      by_cases hmin : -intMax ≤ width
      · rw [if_pos hmin] at h
        cases hp : precisionValue s.precision args₁ with
        | none => simp [hp] at h
        | some r =>
            simp only [hp, Option.bind_some, Option.pure_def, Option.some.injEq, Prod.mk.injEq] at h
            obtain ⟨rfl, -⟩ := h
            exact ⟨width, args₁, rfl, rfl, rfl, rfl, rfl, rfl⟩
      · simp [hmin] at h

/-! ### Reading specifications -/

theorem add_eq_none : f.add ch = none ↔ ch ∉ ['-', '+', ' ', '#', '0', Char.ofNat 39] := by
  unfold Flags.add
  split <;> simp_all

/-- The flags that a list of flag characters sets. -/
def flagsOf (f : Flags) (l : List Char) : Flags where
  minus := f.minus || decide ('-' ∈ l)
  plus := f.plus || decide ('+' ∈ l)
  space := f.space || decide (' ' ∈ l)
  pound := f.pound || decide ('#' ∈ l)
  zero := f.zero || decide ('0' ∈ l)
  group := f.group || decide (Char.ofNat 39 ∈ l)

theorem flagsOf_cons (h : ({} : Flags).add ch ≠ none) :
    ∃ f', f.add ch = some f' ∧ flagsOf f' l = flagsOf f (ch :: l) := by
  rw [ne_eq, add_eq_none, not_not] at h
  simp only [List.mem_cons, List.not_mem_nil, or_false] at h
  rcases h with rfl | rfl | rfl | rfl | rfl | rfl <;> refine ⟨_, rfl, ?_⟩ <;> simp [flagsOf]

theorem parseFlags_append (hl : ∀ ch ∈ l, ({} : Flags).add ch ≠ none)
    (hrest : ∀ ch ∈ rest.head?, ({} : Flags).add ch = none) :
    parseFlags f (l ++ rest) = (flagsOf f l, rest) := by
  induction l generalizing f with
  | nil =>
      have hf : flagsOf f [] = f := by simp [flagsOf]
      rw [hf]
      cases rest with
      | nil => rfl
      | cons ch rest =>
          have hnone : f.add ch = none := add_eq_none.mpr (add_eq_none.mp (hrest ch rfl))
          simp [parseFlags, hnone]
  | cons ch l ih =>
      obtain ⟨f', hadd, hflags⟩ := flagsOf_cons (f := f) (l := l) (hl ch List.mem_cons_self)
      rw [List.cons_append, parseFlags, hadd, ← hflags]
      exact ih fun x hx => hl x (List.mem_cons_of_mem _ hx)

/-- The value of digits behind others. -/
def decimalFrom (k : ℕ) (ds : List Char) : ℕ := ds.foldl (fun n ch => n * 10 + (ch.toNat - '0'.toNat)) k

theorem le_decimalFrom : k ≤ decimalFrom k l := by
  unfold decimalFrom
  induction l generalizing k with
  | nil => exact le_rfl
  | cons ch l ih => exact (by omega : k ≤ k * 10 + (ch.toNat - '0'.toNat)).trans ih

theorem parseNumber_digits (hl : ∀ ch ∈ l, isdigit ch) (hrest : ∀ ch ∈ rest.head?, ¬ isdigit ch)
    (hk : (k : ℤ) + '0'.toNat ≤ intMax) :
    parseNumber k (l ++ rest) =
      if (decimalFrom k l : ℤ) + '0'.toNat ≤ intMax then some ((decimalFrom k l : ℤ), rest)
      else none := by
  induction l generalizing k with
  | nil =>
      rw [decimalFrom, List.foldl_nil, if_pos hk, List.nil_append]
      cases rest with
      | nil => rfl
      | cons ch rest => exact if_neg (hrest ch rfl)
  | cons ch l ih =>
      have hdigit := hl ch List.mem_cons_self
      have hstep : (k : ℤ) * 10 + ch.toNat - '0'.toNat = (k * 10 + (ch.toNat - '0'.toNat) : ℕ) := by
        have := hdigit.1
        omega
      have hle : k * 10 + (ch.toNat - '0'.toNat) ≤ decimalFrom k (ch :: l) := le_decimalFrom
      rw [List.cons_append, parseNumber, if_pos hdigit, hstep]
      split_ifs with h₁ h₂ h₂
      · rw [ih (fun x hx => hl x (List.mem_cons_of_mem _ hx)) (by omega)]
        exact if_pos h₂
      · rw [ih (fun x hx => hl x (List.mem_cons_of_mem _ hx)) (by omega)]
        exact if_neg h₂
      · omega
      · rfl

/-- A field is read, up to what ends it. -/
theorem parseField_spell {field : Field} (args : List Word) (hf : field.Ok)
    (hrest : ∀ ch ∈ rest.head?, ¬ isdigit ch ∧ ch ≠ '*') :
    parseField (field.spell ++ rest) args =
      (field.value args).map fun (n, args) => (n, rest, args) := by
  cases field with
  | star =>
      cases args with
      | nil => rfl
      | cons w args => rfl
  | digits ds =>
      have hstar : ∀ format, ds ++ rest ≠ '*' :: format := by
        intro format heq
        cases ds with
        | nil => exact (hrest '*' (by rw [List.nil_append] at heq; simp [heq])).2 rfl
        | cons d ds =>
            have hdigit : isdigit d := hf d List.mem_cons_self
            obtain rfl : d = '*' := (List.cons.inj heq).1
            exact absurd hdigit (by decide)
      have hnumber : parseNumber (0 : ℕ) (ds ++ rest) = _ :=
        parseNumber_digits hf (fun ch hch => (hrest ch hch).1) (by decide)
      unfold parseField
      split
      · exact absurd ‹_› (hstar _)
      · rw [Field.spell, show (0 : ℤ) = ((0 : ℕ) : ℤ) from rfl, hnumber, Field.value]
        have hdecimal : decimalFrom 0 ds = decimal ds := rfl
        rw [hdecimal]
        split_ifs <;> rfl

theorem parseType_spell (type : ArgType) (hrest : ∀ ch ∈ rest.head?, ch ∉ ['h', 'j', 'l', 't', 'z']) :
    parseType (type.spell ++ rest) = (type, rest) := by
  cases rest with
  | nil => cases type <;> rfl
  | cons ch rest =>
      have hch := hrest ch rfl
      simp only [List.mem_cons, List.not_mem_nil, or_false, not_or] at hch
      obtain ⟨hh, hj, hl, ht, hz⟩ := hch
      cases type <;> simp [ArgType.spell, parseType, *]

/-- A precision is read, up to a character that is no digit. -/
theorem parsePrecision_spell {precision : Option Field} (args : List Word)
    (hf : ∀ field, precision = some field → field.Ok)
    (hrest : ∀ ch ∈ rest.head?, ¬ isdigit ch ∧ ch ≠ '*' ∧ ch ≠ '.') :
    parsePrecision (spellPrecision precision ++ rest) args =
      (precisionValue precision args).map fun (n, args) => (n, rest, args) := by
  cases precision with
  | none =>
      cases rest with
      | nil => rfl
      | cons ch rest =>
          have hpoint := (hrest ch rfl).2.2
          unfold parsePrecision
          split
          · simp_all [spellPrecision]
          · rfl
  | some field =>
      have hfield := parseField_spell args (hf field rfl)
        fun ch hch => ⟨(hrest ch hch).1, (hrest ch hch).2.1⟩
      unfold parsePrecision spellPrecision precisionValue
      simp only [List.cons_append, hfield]
      cases field.value args <;> rfl

/-! ### The parts of a specification do not run into each other -/

/-- Neither a flag nor the start of a number. -/
def Apart (ch : Char) : Prop := ({} : Flags).add ch = none ∧ ¬ isdigit ch ∧ ch ≠ '*'

theorem apart_type (hch : Terminal ch) (type : ArgType) (rest : List Char) :
    ∀ x ∈ (type.spell ++ ch :: rest).head?, Apart x ∧ x ≠ '.' := by
  have hplain := hch.plain
  simp only [List.mem_cons, List.not_mem_nil, or_false, not_or] at hplain
  have hterminal : Apart ch ∧ ch ≠ '.' :=
    ⟨⟨hch.noFlag, hch.noDigit, hplain.1⟩, hplain.2.1⟩
  intro x hx
  cases type <;> simp only [ArgType.spell, List.cons_append, List.nil_append, List.head?_cons,
    Option.mem_def, Option.some.injEq] at hx <;> subst hx
  all_goals first | exact hterminal | exact ⟨⟨rfl, by decide, by decide⟩, by decide⟩

theorem apart_precision (precision : Option Field) (hrest : ∀ x ∈ rest.head?, Apart x) :
    ∀ x ∈ (spellPrecision precision ++ rest).head?, Apart x := by
  cases precision with
  | none => exact hrest
  | some field =>
      intro x hx
      simp only [spellPrecision, List.cons_append, List.head?_cons, Option.mem_def,
        Option.some.injEq] at hx
      subst hx
      exact ⟨rfl, by decide, by decide⟩

theorem apart_width {field : Field} (hf : field.Ok) (hzero : field.spell.head? ≠ some '0')
    (hrest : ∀ x ∈ rest.head?, Apart x) :
    ∀ x ∈ (field.spell ++ rest).head?, ({} : Flags).add x = none := by
  intro x hx
  cases field with
  | star =>
      simp only [Field.spell, List.cons_append, List.head?_cons, Option.mem_def,
        Option.some.injEq] at hx
      subst hx
      rfl
  | digits ds =>
      cases ds with
      | nil => exact (hrest x hx).1
      | cons d ds =>
          obtain rfl : d = x := by simpa [Field.spell] using hx
          have hdigit : isdigit d := hf d List.mem_cons_self
          apply add_eq_none.mpr
          simp only [List.mem_cons, List.not_mem_nil, or_false, not_or]
          refine ⟨?_, ?_, ?_, ?_, fun h0 => hzero (by simp [Field.spell, h0]), ?_⟩
          all_goals
            rintro rfl
            exact absurd hdigit (by decide)

/-- **`parse_conversion` reads every specification as it is meant**, and stops at the conversion
character. -/
theorem parseConversion_spell {s : Spec} (hs : s.Ok) (hch : Terminal ch) :
    parseConversion (s.spell ++ ch :: rest) args =
      (s.conversion args).map fun (c, args) => (c, ch :: rest, args) := by
  have htype := apart_type hch s.type rest
  have hprecision := apart_precision s.precision fun x hx => (htype x hx).1
  have hflags := parseFlags_append (f := {}) hs.flags (apart_width hs.width hs.noZero hprecision)
  have hwidth := parseField_spell args hs.width fun x hx => (hprecision x hx).2
  have hspell : s.spell ++ ch :: rest = s.flags ++ (s.width.spell ++
      (spellPrecision s.precision ++ (s.type.spell ++ ch :: rest))) := by
    simp [Spec.spell, List.append_assoc]
  unfold parseConversion Spec.conversion
  rw [hspell, hflags]
  simp only [hwidth, Option.bind_eq_bind]
  cases s.width.value args with
  | none => rfl
  | some r =>
      obtain ⟨width, args⟩ := r
      simp only [Option.map_some, Option.bind_some]
      have hafter := parsePrecision_spell args hs.precision
        fun x hx => ⟨(htype x hx).1.2.1, (htype x hx).1.2.2, (htype x hx).2⟩
      have htype' : parseType (s.type.spell ++ ch :: rest) = (s.type, ch :: rest) := by
        apply parseType_spell
        rintro x ⟨⟩
        have hplain := hch.plain
        simp only [List.mem_cons, List.not_mem_nil, or_false, not_or] at hplain ⊢
        tauto
      by_cases hmin : -intMax ≤ width
      · have hsettle : settleWidth (flagsOf {} s.flags).settle width =
            some ({ (flagsOf {} s.flags).settle with
              minus := decide ('-' ∈ s.flags) || decide (width < 0) }, |width|) := by
          unfold settleWidth
          by_cases hneg : width < 0
          · rw [if_pos hneg, if_pos (by omega), abs_of_neg hneg]
            simp [hneg]
          · rw [if_neg hneg, abs_of_nonneg (by omega)]
            simp [hneg, flagsOf, Flags.settle]
        rw [hsettle, if_pos hmin]
        simp only [Option.bind_some, hafter]
        cases precisionValue s.precision args with
        | none => rfl
        | some r =>
            simp only [Option.map_some, Option.bind_some, htype', Option.pure_def]
            by_cases hp : r.1 < 0
            · simp [hp, flagsOf, Flags.settle]
            · simp [hp, not_lt.mp hp, flagsOf, Flags.settle]
      · have hsettle : settleWidth (flagsOf {} s.flags).settle width = none := by
          unfold settleWidth
          rw [if_pos (by unfold intMax at hmin; omega), if_neg (by omega)]
        rw [hsettle, if_neg hmin]
        rfl

theorem parseConversion_spell_star :
    parseConversion ((⟨['-', '0'], .star, some (.digits ['1', '2']), .long⟩ : Spec).spell ++ 'x' :: ['y'])
      [BitVec.ofNat 32 5] =
    ((⟨['-', '0'], .star, some (.digits ['1', '2']), .long⟩ : Spec).conversion
      [BitVec.ofNat 32 5]).map fun (c, args) => (c, 'x' :: ['y'], args) :=
  parseConversion_spell ⟨by simp [Flags.add], trivial, by simp [Field.spell],
    by simp [Field.Ok]; decide⟩ ⟨rfl, by decide, by decide, by decide⟩

/-! ### Formats -/

/-- A piece of a format. -/
inductive Piece where
  | lit (ch : Char)
  | percent
  | conv (s : Spec) (ch : Char)

def Piece.spell : Piece → List Char
  | lit ch => [ch]
  | percent => ['%', '%']
  | conv s ch => '%' :: (s.spell ++ [ch])

/-- Pieces are told apart: `%` is no literal, and `%%` no conversion. -/
def Piece.Ok : Piece → Prop
  | lit ch => ch ≠ '%'
  | percent => True
  | conv s ch => s.Ok ∧ Terminal ch ∧ (s.spell ++ [ch]).head? ≠ some '%'

/-- The text of a conversion, and the arguments that are left. -/
def conversionText (mem : ℕ → Char) (ch : Char) (c : Conversion) (args : List Word) :
    Option (List Char × List Word) :=
  if ch ∈ ['d', 'i'] then do
    let (value, args) ← signedArg c.type args
    let text ← integerText value.natAbs true (decide (value < 0)) baseD c
    return (text, args)
  else if ch ∈ ['o', 'u', 'x', 'X'] then do
    let (value, args) ← unsignedArg c.type args
    let text ← integerText value false false (unsignedBase ch) c
    return (text, args)
  else if ch = 'c' then
    (vaArg args).map fun (w, args) => (stringText [Char.ofNat (w.setWidth 8).toNat] c, args)
  else if ch = 's' then
    (vaArg args).map fun (s, args) => (stringText (stringArg mem s c.precision) c, args)
  else if ch = 'p' then do
    let (p, args) ← vaArg args
    let text ← integerText p.toNat false false baseX { c with flags := { pound := true } }
    return (text, args)
  else if ch ∈ ['f', 'e', 'E', 'g', 'G', 'n'] then
    some ("<<no %".toList ++ ch :: " in kernel>>".toList, args)
  else some ("<<no %".toList ++ ch :: " conversion>>".toList, args)

/-- The text of a piece, and the arguments that are left. -/
def Piece.text (mem : ℕ → Char) : Piece → List Word → Option (List Char × List Word)
  | lit ch, args => some ([ch], args)
  | percent, args => some (['%'], args)
  | conv s ch, args => do
      let (c, args) ← s.conversion args
      conversionText mem ch c args

/-- The text of a format. -/
def formatText (mem : ℕ → Char) : List Piece → List Word → Option (List Char)
  | [], _ => some []
  | p :: ps, args => do
      let (text, args) ← p.text mem args
      let text' ← formatText mem ps args
      return text ++ text'

variable {invalid : List Char → Char → σ → Option σ}

theorem vprintfLoop_lit (hch : ch ≠ '%') :
    vprintfLoop output invalid mem (rounds + 1) (ch :: l) args aux =
      vprintfLoop output invalid mem rounds l args (output ch aux) := by
  rw [vprintfLoop, if_pos hch]

theorem vprintfLoop_percent :
    vprintfLoop output invalid mem (rounds + 1) ('%' :: '%' :: l) args aux =
      vprintfLoop output invalid mem rounds l args (output '%' aux) := by
  rw [vprintfLoop, if_neg (by simp), if_pos (by simp), List.tail_cons]

theorem vprintfLoop_lits (hl : '%' ∉ l) :
    vprintfLoop output invalid mem (rounds + l.length) (l ++ rest) args aux =
      vprintfLoop output invalid mem rounds rest args (outputString output l aux) := by
  induction l generalizing aux with
  | nil => rfl
  | cons ch l ih =>
      have hch : ch ≠ '%' := fun h => hl (h ▸ List.mem_cons_self)
      rw [List.cons_append, List.length_cons, ← Nat.add_assoc, vprintfLoop_lit hch]
      exact ih fun h => hl (List.mem_cons_of_mem _ h)

theorem vprintfLoop_nil : vprintfLoop output invalid mem rounds [] args aux = some aux := by
  cases rounds <;> rfl

theorem vprintfLoop_char (hw : Char.ofNat (w.setWidth 8).toNat = ch) :
    vprintfLoop output invalid mem (rounds + 1) ('%' :: 'c' :: l) (w :: args) aux =
      vprintfLoop output invalid mem rounds l args (output ch aux) := by
  have hparse : parseConversion ('c' :: l) (w :: args) =
      some (⟨{}, 0, -1, .int⟩, 'c' :: l, w :: args) := rfl
  have hconvert : convert output invalid mem 'c' ⟨{}, 0, -1, .int⟩ (w :: args) aux =
      some (output ch aux, args) := by
    rw [← hw]
    rfl
  rw [vprintfLoop, if_neg (by simp), if_neg (by simp), hparse]
  simp only [Option.bind_eq_bind, Option.bind_some, hconvert]

/-- One of the messages for conversions that there are not. -/
theorem printfMessage_eq (hbyte : ch.toNat < 256) (hl : '%' ∉ l) :
    printfMessage output mem ("<<no %%%c".toList ++ l) ch aux =
      some (outputString output ("<<no %".toList ++ ch :: l) aux) := by
  have hmod : ((BitVec.ofNat 32 ch.toNat).setWidth 8).toNat = ch.toNat := by
    simp
    omega
  have hchar : Char.ofNat ((BitVec.ofNat 32 ch.toNat).setWidth 8).toNat = ch := by
    rw [hmod, Char.ofNat_toNat]
  have hformat : "<<no %%%c".toList ++ l = "<<no ".toList ++ '%' :: '%' :: '%' :: 'c' :: l := rfl
  have hrounds : ("<<no ".toList ++ '%' :: '%' :: '%' :: 'c' :: l).length =
      2 + l.length + 1 + 1 + "<<no ".toList.length := by
    simp only [List.length_append, List.length_cons]
    omega
  have htext : "<<no %".toList ++ ch :: l = "<<no ".toList ++ '%' :: ch :: l := rfl
  rw [printfMessage, hformat, hrounds, vprintfLoop_lits (by decide), vprintfLoop_percent,
    vprintfLoop_char hchar, htext, outputString_append]
  have hlits : vprintfLoop output (fun _ _ _ => none) mem (2 + l.length) (l ++ []) []
      (output ch (output '%' (outputString output "<<no ".toList aux))) = _ := vprintfLoop_lits hl
  rw [List.append_nil, vprintfLoop_nil] at hlits
  exact hlits

theorem convert_eq (hbyte : ch.toNat < 256) :
    convert output (printfMessage output mem) mem ch c args aux =
      (conversionText mem ch c args).map fun (text, args) => (outputString output text aux, args) := by
  have hmessage : ∀ l, '%' ∉ l → printfMessage output mem ("<<no %%%c".toList ++ l) ch aux =
      some (outputString output ("<<no %".toList ++ ch :: l) aux) := fun l => printfMessage_eq hbyte
  unfold convert conversionText
  simp only [List.mem_cons, List.not_mem_nil, or_false, Option.bind_eq_bind, Option.pure_def,
    formatInteger_eq, formatString_eq]
  split_ifs
  · cases signedArg c.type args with
    | none => rfl
    | some r =>
        simp only [Option.bind_some]
        cases integerText r.1.natAbs true (decide (r.1 < 0)) baseD c <;> rfl
  · cases unsignedArg c.type args with
    | none => rfl
    | some r =>
        simp only [Option.bind_some]
        cases integerText r.1 false false (unsignedBase ch) c <;> rfl
  · cases vaArg args <;> rfl
  · cases vaArg args <;> rfl
  · cases vaArg args with
    | none => rfl
    | some r =>
        simp only [Option.bind_some]
        cases integerText r.1.toNat false false baseX { c with flags := { pound := true } } <;> rfl
  · have hkernel : "<<no %%%c in kernel>>".toList = "<<no %%%c".toList ++ " in kernel>>".toList := rfl
    rw [hkernel, hmessage _ (by decide)]
    rfl
  · have hconversion : "<<no %%%c conversion>>".toList = "<<no %%%c".toList ++ " conversion>>".toList :=
      rfl
    rw [hconversion, hmessage _ (by decide)]
    rfl

theorem vprintfLoop_conv {s : Spec} (hs : s.Ok) (hch : Terminal ch)
    (hhead : (s.spell ++ [ch]).head? ≠ some '%') :
    vprintfLoop output (printfMessage output mem) mem (rounds + 1) ('%' :: (s.spell ++ ch :: l)) args
        aux =
      ((Piece.conv s ch).text mem args).bind fun (text, args) =>
        vprintfLoop output (printfMessage output mem) mem rounds l args
          (outputString output text aux) := by
  have hhead' : (s.spell ++ ch :: l).head? ≠ some '%' := by
    intro heq
    apply hhead
    cases hspell : s.spell <;> simpa [hspell] using heq
  rw [vprintfLoop, if_neg (by simp), if_neg hhead', parseConversion_spell hs hch, Piece.text]
  simp only [Option.bind_eq_bind]
  cases s.conversion args with
  | none => rfl
  | some r =>
      simp only [Option.map_some, Option.bind_some, convert_eq hch.byte]
      cases conversionText mem ch r.1 r.2 <;> rfl

/-- **`__vprintf` puts out what the format means**, for every format that is spelled from pieces. -/
theorem vprintf_spell {ps : List Piece} (hps : ∀ p ∈ ps, p.Ok) :
    vprintf output mem (ps.flatMap Piece.spell) args aux =
      (formatText mem ps args).map fun text => outputString output text aux := by
  have hloop : ∀ rounds, (ps.flatMap Piece.spell).length ≤ rounds →
      vprintfLoop output (printfMessage output mem) mem rounds (ps.flatMap Piece.spell) args aux =
        (formatText mem ps args).map fun text => outputString output text aux := by
    induction ps generalizing args aux with
    | nil => exact fun rounds _ => vprintfLoop_nil
    | cons p ps ih =>
        intro rounds hrounds
        have ih := fun args aux => @ih args aux fun p hp => hps p (List.mem_cons_of_mem _ hp)
        have hp := hps p List.mem_cons_self
        rw [List.flatMap_cons, List.length_append] at hrounds
        have hlength : 1 ≤ p.spell.length := by cases p <;> simp [Piece.spell]
        cases rounds with
        | zero => omega
        | succ rounds =>
            have ih := fun args aux => ih args aux rounds (by omega)
            cases p with
            | lit ch =>
                rw [List.flatMap_cons, Piece.spell, List.singleton_append, vprintfLoop_lit hp, ih]
                simp only [formatText, Piece.text, Option.bind_eq_bind, Option.bind_some]
                cases formatText mem ps args <;> rfl
            | percent =>
                rw [List.flatMap_cons, Piece.spell, List.cons_append, List.singleton_append,
                  vprintfLoop_percent, ih]
                simp only [formatText, Piece.text, Option.bind_eq_bind, Option.bind_some]
                cases formatText mem ps args <;> rfl
            | conv s ch =>
                rw [List.flatMap_cons, Piece.spell, List.cons_append, List.append_assoc,
                  List.singleton_append, vprintfLoop_conv hp.1 hp.2.1 hp.2.2, formatText]
                cases (Piece.conv s ch).text mem args with
                | none => rfl
                | some r =>
                    simp only [Option.bind_some, ih, Option.bind_eq_bind]
                    cases formatText mem ps r.2 with
                    | none => rfl
                    | some text => simp [outputString_append]
  exact hloop _ le_rfl

theorem vprintf_spell_percent :
    vprintf (fun ch text => text ++ [ch]) (fun _ => 'a')
      ([Piece.lit 'a', .percent, .conv ⟨[], .digits [], none, .int⟩ 'q'].flatMap Piece.spell) [] [] =
      (formatText (fun _ => 'a') [.lit 'a', .percent, .conv ⟨[], .digits [], none, .int⟩ 'q'] []).map
        fun text => outputString (fun ch text => text ++ [ch]) text [] :=
  vprintf_spell (by
    simp only [List.mem_cons, List.not_mem_nil, or_false, forall_eq_or_imp, forall_eq]
    exact ⟨by simp [Piece.Ok], trivial, ⟨by simp, by simp [Field.Ok], by simp [Field.spell], by simp⟩,
      ⟨rfl, by decide, by decide, by decide⟩, by decide⟩)

/-! ### A signed conversion -/

theorem terminal_d : Terminal 'd' := ⟨rfl, by decide, by decide, by decide⟩

theorem Field.Ok.percent {field : Field} (hf : field.Ok) : '%' ∉ field.spell := by
  cases field with
  | star => simp [Field.spell]
  | digits ds => exact fun hmem => absurd (hf '%' hmem) (by decide)

theorem Spec.Ok.percent {s : Spec} (hs : s.Ok) : '%' ∉ s.spell := by
  unfold Spec.spell
  simp only [List.mem_append, not_or]
  refine ⟨fun hmem => hs.flags '%' hmem rfl, hs.width.percent, ?_, ?_⟩
  · cases hp : s.precision with
    | none => simp [spellPrecision]
    | some field => simpa [spellPrecision] using (hs.precision field hp).percent
  · cases s.type <;> simp [ArgType.spell]

theorem outputString_concat_eq : outputString (fun ch text => text ++ [ch]) l rest = rest ++ l := by
  induction l generalizing rest with
  | nil => simp [outputString]
  | cons ch l ih => rw [outputString, ih, List.append_assoc, List.singleton_append]

theorem text_conv {s : Spec} (hs : s.Ok) (hch : Terminal ch) (hne : ch ≠ '%') :
    text mem ('%' :: (s.spell ++ [ch])) args =
      ((Piece.conv s ch).text mem args).map fun (text, _) => text := by
  have hhead : (s.spell ++ [ch]).head? ≠ some '%' := by
    intro heq
    rcases List.mem_append.mp (List.mem_of_head? heq) with hmem | hmem
    · exact hs.percent hmem
    · exact hne (List.mem_singleton.mp hmem).symm
  have hps : ∀ p ∈ [Piece.conv s ch], p.Ok := by
    intro p hp
    rw [List.mem_singleton.mp hp]
    exact ⟨hs, hch, hhead⟩
  have hspell : '%' :: (s.spell ++ [ch]) = [Piece.conv s ch].flatMap Piece.spell := by
    simp [Piece.spell]
  rw [text, hspell, vprintf_spell hps]
  simp only [outputString_concat_eq, List.nil_append, formatText]
  cases (Piece.conv s ch).text mem args <;> simp

/-- The text of `%d` with an argument `w`. -/
theorem text_signed {s : Spec} (hs : s.Ok) (hint : s.type = .int)
    (hargs : s.conversion args = some (c, w :: args')) :
    text mem ('%' :: (s.spell ++ ['d'])) args =
      integerText w.toInt.natAbs true (decide (w.toInt < 0)) baseD c := by
  obtain ⟨-, -, -, -, htype, -⟩ := Spec.conversion_cases hargs
  have hsigned : signedArg c.type (w :: args') = some (w.toInt, args') := by
    rw [htype, hint]
    rfl
  rw [text_conv hs terminal_d (by decide), Piece.text, hargs]
  simp only [Option.bind_eq_bind, Option.bind_some, conversionText, List.mem_cons, true_or, if_true,
    hsigned]
  cases integerText w.toInt.natAbs true (decide (w.toInt < 0)) baseD c <;> rfl

/-- **A printed `int` is read back by `atoi`**: whatever the flags other than the one for commas, the field
width and the precision are. -/
theorem atoi_text {s : Spec} (hs : s.Ok) (hint : s.type = .int) (hgroup : Char.ofNat 39 ∉ s.flags)
    (hargs : s.conversion args = some (c, w :: args')) :
    ∃ t, text mem ('%' :: (s.spell ++ ['d'])) args = some t ∧ atoi t = some w.toInt := by
  obtain ⟨-, -, -, -, -, hflag, -⟩ := Spec.conversion_cases hargs
  rw [decide_eq_false hgroup] at hflag
  rw [text_signed hs hint hargs]
  exact atoi_integerText (BitVec.le_toInt w) (BitVec.toInt_lt) hflag

theorem atoi_text_minus : ∃ t,
    text (fun _ => 'a') ('%' :: ((⟨['0'], .star, none, .int⟩ : Spec).spell ++ ['d']))
      [BitVec.ofInt 32 (-7), BitVec.ofInt 32 (-42)] = some t ∧
    atoi t = some (BitVec.ofInt 32 (-42)).toInt :=
  atoi_text ⟨by simp [Flags.add], trivial, by simp [Field.spell], by simp⟩ rfl (by simp) rfl

/-- **When a field is filled exactly**: the text of a signed conversion has the characters of the field
width, or those that it needs if they are more; but if the width is a negative argument and zeros have
been asked for, it is padded with both zeros and spaces. -/
theorem length_text_iff {s : Spec} (hs : s.Ok) (hint : s.type = .int)
    (hargs : s.conversion args = some (c, w :: args')) :
    ∃ t t₀, text mem ('%' :: (s.spell ++ ['d'])) args = some t ∧
      integerText w.toInt.natAbs true (decide (w.toInt < 0)) baseD { c with width := 0 } = some t₀ ∧
      ((t.length : ℤ) = max c.width t₀.length ↔ c.width ≤ t₀.length ∨
        ¬ ('0' ∈ s.flags ∧ '-' ∉ s.flags ∧ c.precision < 0 ∧
          ∃ width args₁, s.width.value args = some (width, args₁) ∧ width < 0)) := by
  have hle := BitVec.le_toInt w
  have hlt := BitVec.toInt_lt (x := w)
  obtain ⟨t, t₀, ht, ht₀, hlength⟩ := length_integerText true (decide (w.toInt < 0)) sound_baseD
    (by omega : w.toInt.natAbs < 2 ^ 64) c
  refine ⟨t, t₀, (text_signed hs hint hargs).trans ht, ht₀, ?_⟩
  obtain ⟨width, args₁, hwidth, -, -, -, hminus, hzero⟩ := Spec.conversion_cases hargs
  have hboth : (c.flags.minus ∧ c.flags.zero) ↔ ('0' ∈ s.flags ∧ '-' ∉ s.flags ∧ c.precision < 0 ∧
      ∃ width args₁, s.width.value args = some (width, args₁) ∧ width < 0) := by
    rw [hminus, hzero]
    simp only [Bool.or_eq_true, Bool.and_eq_true, Bool.not_eq_true', decide_eq_true_eq,
      decide_eq_false_iff_not]
    constructor
    · rintro ⟨hleft, ⟨h0, hdash⟩, hprecision⟩
      exact ⟨h0, hdash, hprecision, width, args₁, hwidth, hleft.resolve_left hdash⟩
    · rintro ⟨h0, hdash, hprecision, width', args₁', hwidth', hneg⟩
      obtain rfl : width = width' := by simp_all
      exact ⟨Or.inr hneg, ⟨h0, hdash⟩, hprecision⟩
  rw [hlength, ← hboth]
  by_cases h : c.flags.minus ∧ c.flags.zero
  · rw [if_pos h]
    simp only [h, and_self, not_true_eq_false, or_false]
    omega
  · rw [if_neg h]
    simp only [h, not_false_eq_true, or_true, iff_true]
    omega

theorem length_text_iff_star : ∃ t t₀,
    text (fun _ => 'a') ('%' :: ((⟨['0'], .star, none, .int⟩ : Spec).spell ++ ['d']))
      [BitVec.ofInt 32 (-5), BitVec.ofInt 32 42] = some t ∧
    integerText (BitVec.ofInt 32 42).toInt.natAbs true (decide ((BitVec.ofInt 32 42).toInt < 0)) baseD
      ⟨{ minus := true, zero := true }, 0, -1, .int⟩ = some t₀ ∧
    ((t.length : ℤ) = max (5 : ℤ) t₀.length ↔ (5 : ℤ) ≤ t₀.length ∨
      ¬ ('0' ∈ ['0'] ∧ '-' ∉ ['0'] ∧ (-1 : ℤ) < 0 ∧ ∃ width args₁,
        Field.star.value [BitVec.ofInt 32 (-5), BitVec.ofInt 32 42] = some (width, args₁) ∧
          width < 0)) :=
  length_text_iff (s := ⟨['0'], .star, none, .int⟩) (c := ⟨{ minus := true, zero := true }, 5, -1, .int⟩)
    ⟨by simp [Flags.add], trivial, by simp [Field.spell], by simp⟩ rfl rfl

end CSE130.Lab3.Printf
