import CSE130.Lab3.Printf
import Mathlib.Data.List.Basic
import Mathlib.Data.Bool.AllAny
import Mathlib.Algebra.Ring.Nat
import Mathlib.Algebra.Order.Ring.Nat
import Mathlib.Tactic.Ring

/-! # Printed integers

What `format_integer` prints is read back: by `readInteger`, which knows of the base, the mark `0x` and
the commas, and by the `atoi` of the same library (`lib/stdlib.c`) where the number is decimal and has
no commas.  The buffer of 64 characters is large enough for every number of 64 bits (`integerBuffer_spec`):
in octal there are 22 digits at most, and a comma before no more of them than every third. -/

namespace CSE130.Lab3.Printf

variable {b : IntegerBase} {c : Conversion} {buf buf' l l' t : List Char} {ch : Char}
  {value n k rounds digitCnt : ℕ} {precision : ℤ} {group isSigned negative : Bool} {v : ℤ}

/-! ### Numerals -/

/-- What the digits of a base must be like. -/
structure IntegerBase.Sound (b : IntegerBase) : Prop where
  large : 8 ≤ b.base
  length : b.digits.length = b.base
  nodup : b.digits.Nodup
  zero : b.digits[0]? = some '0'
  plain : ∀ ch ∈ b.digits, ch ∉ [',', ' ', '+', '-', 'x', 'X']
  mark : b.x ∈ [none, some 'x', some 'X']

theorem sound_baseD : baseD.Sound :=
  ⟨by decide, by decide, by decide, by decide, List.all_iff_forall_prop.mp (by decide), by decide⟩

theorem sound_baseO : baseO.Sound :=
  ⟨by decide, by decide, by decide, by decide, List.all_iff_forall_prop.mp (by decide), by decide⟩

theorem sound_baseX : baseX.Sound :=
  ⟨by decide, by decide, by decide, by decide, List.all_iff_forall_prop.mp (by decide), by decide⟩

theorem sound_baseUpperX : baseUpperX.Sound :=
  ⟨by decide, by decide, by decide, by decide, List.all_iff_forall_prop.mp (by decide), by decide⟩

/-- One character of a numeral; commas do not count. -/
def numeralStep (b : IntegerBase) (value : ℕ) (ch : Char) : ℕ :=
  if ch = ',' then value else value * b.base + b.digits.idxOf ch

/-- The value of a numeral. -/
def numeral (b : IntegerBase) (l : List Char) : ℕ := l.foldl (numeralStep b) 0

/-- The number of digits. -/
def places (l : List Char) : ℕ := l.countP (· ≠ ',')

theorem foldl_numeralStep :
    l.foldl (numeralStep b) value = value * b.base ^ places l + numeral b l := by
  unfold numeral
  induction l generalizing value with
  | nil => simp [places]
  | cons ch l ih =>
      rw [List.foldl_cons, List.foldl_cons, ih, @ih (numeralStep b 0 ch)]
      by_cases hch : ch = ','
      · simp [numeralStep, hch, places]
      · simp only [numeralStep, hch, if_false, places, List.countP_cons, ne_eq, not_false_eq_true,
          decide_true, if_true]
        ring

theorem numeral_comma : numeral b (',' :: l) = numeral b l := by
  simp [numeral, numeralStep]

theorem numeral_cons (hch : ch ≠ ',') :
    numeral b (ch :: l) = b.digits.idxOf ch * b.base ^ places l + numeral b l := by
  conv_lhs => rw [numeral, List.foldl_cons, foldl_numeralStep]
  simp [numeralStep, hch]

namespace IntegerBase.Sound

theorem mod_lt (hb : b.Sound) : value % b.base < b.digits.length := by
  rw [hb.length]
  exact Nat.mod_lt _ (by have := hb.large; omega)

theorem digit_eq (hb : b.Sound) : b.digit value = b.digits.get ⟨value % b.base, hb.mod_lt⟩ := by
  rw [digit, List.getD_eq_getElem?_getD, List.getElem?_eq_getElem hb.mod_lt, Option.getD_some,
    List.get_eq_getElem]

theorem digit_mem (hb : b.Sound) : b.digit value ∈ b.digits := by
  rw [hb.digit_eq]
  exact List.get_mem _ _

theorem idxOf_digit (hb : b.Sound) : b.digits.idxOf (b.digit value) = value % b.base := by
  rw [hb.digit_eq, List.get_eq_getElem, hb.nodup.idxOf_getElem]

theorem zero_mem (hb : b.Sound) : '0' ∈ b.digits := List.mem_of_getElem? hb.zero

theorem idxOf_zero (hb : b.Sound) : b.digits.idxOf '0' = 0 := by
  obtain ⟨hlt, heq⟩ := List.getElem?_eq_some_iff.mp hb.zero
  have := hb.nodup.idxOf_getElem 0 hlt
  rwa [heq] at this

theorem numeral_zero (hb : b.Sound) : numeral b ('0' :: l) = numeral b l := by
  rw [numeral_cons (by decide), hb.idxOf_zero, Nat.zero_mul, Nat.zero_add]

theorem numeral_zeros (hb : b.Sound) : numeral b (List.replicate n '0' ++ l) = numeral b l := by
  induction n with
  | zero => rfl
  | succ n ih => rw [List.replicate_succ, List.cons_append, hb.numeral_zero, ih]

end IntegerBase.Sound

/-! ### The buffer -/

/-- The characters of a numeral are digits, and commas if they have been asked for. -/
def Numeric (b : IntegerBase) (group : Bool) (l : List Char) : Prop :=
  ∀ ch ∈ l, ch ∈ b.digits ∨ ch = ',' ∧ group = true

theorem Numeric.cons (h : Numeric b group l) (hch : ch ∈ b.digits ∨ ch = ',' ∧ group = true) :
    Numeric b group (ch :: l) := by
  intro x hx
  rcases List.mem_cons.mp hx with rfl | hx
  · exact hch
  · exact h x hx

theorem Numeric.zeros (h : Numeric b group l) (hb : b.Sound) :
    Numeric b group (List.replicate n '0' ++ l) := by
  intro x hx
  rcases List.mem_append.mp hx with hx | hx
  · rw [List.eq_of_mem_replicate hx]
    exact Or.inl hb.zero_mem
  · exact h x hx

/-- What is in the buffer when the digits of `value` are left to do. -/
structure Pushed (b : IntegerBase) (group : Bool) (digitCnt : ℕ) (buf : List Char) : Prop where
  room : buf.length ≤ 2 * digitCnt
  places : places buf = digitCnt
  numeric : Numeric b group buf

/-- A comma, if there is one, and a digit. -/
theorem pushDigits_succ (rounds : ℕ) (hb : b.Sound) (h : Pushed b group digitCnt buf) (hcnt : digitCnt < 31)
    (hpos : 0 < value) :
    ∃ buf', pushDigits group b (rounds + 1) value digitCnt buf =
        pushDigits group b rounds (value / b.base) (digitCnt + 1) buf' ∧
      Pushed b group (digitCnt + 1) buf' ∧
      numeral b buf' = value % b.base * b.base ^ digitCnt + numeral b buf := by
  have hroom := h.room
  have hmem : b.digit value ∈ b.digits := hb.digit_mem
  have hcomma : b.digit value ≠ ',' := fun heq =>
    hb.plain _ hmem (by simp [heq])
  have hpush : ∀ {l : List Char}, l.length ≤ 2 * digitCnt + 1 → places l = digitCnt →
      Numeric b group l → numeral b l = numeral b buf →
      push (b.digit value) l = some (b.digit value :: l) ∧
      Pushed b group (digitCnt + 1) (b.digit value :: l) ∧
      numeral b (b.digit value :: l) =
        value % b.base * b.base ^ digitCnt + numeral b buf := by
    intro l hl hplaces hnumeric hvalue
    refine ⟨if_pos (by omega), ⟨by simp; omega, ?_, hnumeric.cons (Or.inl hmem)⟩, ?_⟩
    · rw [places, List.countP_cons_of_pos (by simpa using hcomma), ← places, hplaces]
    · rw [numeral_cons hcomma, hb.idxOf_digit, hplaces, hvalue]
  rw [pushDigits, if_pos hpos]
  split_ifs with hgroup
  · have hplaces : places (',' :: buf) = digitCnt := by
      rw [places, List.countP_cons_of_neg (by simp), ← places, h.places]
    obtain ⟨hsome, hpushed, hvalue⟩ := hpush (by simp; omega) hplaces
      (h.numeric.cons (Or.inr ⟨rfl, hgroup.1⟩)) numeral_comma
    refine ⟨_, ?_, hpushed, hvalue⟩
    have hfirst : push ',' buf = some (',' :: buf) := if_pos (by omega)
    simp [hfirst, hsome]
  · obtain ⟨hsome, hpushed, hvalue⟩ := hpush (by omega) h.places h.numeric rfl
    refine ⟨_, ?_, hpushed, hvalue⟩
    simp [hsome]

/-- The digits of `value` are put before those that are there. -/
theorem pushDigits_spec (hb : b.Sound) (h : Pushed b group digitCnt buf) (hvalue : value < 8 ^ k)
    (hrounds : k ≤ rounds) (hcnt : k + digitCnt ≤ 31) :
    ∃ buf' cnt, pushDigits group b rounds value digitCnt buf = some buf' ∧ cnt ≤ k + digitCnt ∧
      Pushed b group cnt buf' ∧ numeral b buf' = value * b.base ^ digitCnt + numeral b buf := by
  induction k generalizing rounds value digitCnt buf with
  | zero =>
      obtain rfl : value = 0 := by omega
      refine ⟨buf, digitCnt, ?_, by omega, h, by simp⟩
      cases rounds <;> simp [pushDigits]
  | succ k ih =>
      by_cases hpos : 0 < value
      · cases rounds with
        | zero => omega
        | succ rounds =>
            obtain ⟨buf₁, hstep, hpushed, hnum⟩ := pushDigits_succ rounds hb h (by omega) hpos
            have hsmaller : value / b.base < 8 ^ k := by
              rw [Nat.div_lt_iff_lt_mul (by have := hb.large; omega)]
              calc value < 8 ^ (k + 1) := hvalue
                _ = 8 ^ k * 8 := Nat.pow_succ _ _
                _ ≤ 8 ^ k * b.base := Nat.mul_le_mul_left _ hb.large
            obtain ⟨buf', cnt, heq, hle, hpushed', hnum'⟩ :=
              ih hpushed hsmaller (Nat.le_of_succ_le_succ hrounds) (by omega)
            refine ⟨buf', cnt, hstep.trans heq, by omega, hpushed', ?_⟩
            have hdiv := Nat.div_add_mod value b.base
            calc numeral b buf' = value / b.base * b.base ^ (digitCnt + 1) +
                  (value % b.base * b.base ^ digitCnt + numeral b buf) := by rw [hnum', hnum]
              _ = (b.base * (value / b.base) + value % b.base) * b.base ^ digitCnt + numeral b buf := by
                  ring
              _ = value * b.base ^ digitCnt + numeral b buf := by rw [hdiv]
      · obtain rfl : value = 0 := by omega
        refine ⟨buf, digitCnt, ?_, by omega, h, by simp⟩
        cases rounds <;> simp [pushDigits]

/-- Zeros are put before the digits up to the precision, as far as there is room. -/
theorem pushZeros_spec (precision : ℤ) (hroom : buf.length ≤ 63) (hrounds : 63 ≤ rounds + buf.length) :
    ∃ n, pushZeros precision rounds buf = some (List.replicate n '0' ++ buf) ∧
      n + buf.length = max buf.length (min precision.toNat 63) := by
  induction rounds generalizing buf with
  | zero => exact ⟨0, rfl, by omega⟩
  | succ rounds ih =>
      rw [pushZeros]
      split_ifs with h
      · have hpush : push '0' buf = some ('0' :: buf) := if_pos (by omega)
        have hlength : ('0' :: buf).length = buf.length + 1 := List.length_cons
        obtain ⟨n, heq, hn⟩ := ih (by omega : ('0' :: buf).length ≤ 63) (by omega)
        refine ⟨n + 1, ?_, by omega⟩
        simp only [hpush, Option.bind_eq_bind, Option.bind_some, heq]
        rw [List.replicate_succ', List.append_assoc, List.singleton_append]
      · exact ⟨0, rfl, by omega⟩

/-- **The buffer of `format_integer` does not overflow**, and holds the number. -/
theorem integerBuffer_spec (hb : b.Sound) (hvalue : value < 2 ^ 64) (c : Conversion) :
    ∃ buf, integerBuffer value b c = some buf ∧ buf.length ≤ 64 ∧ numeral b buf = value ∧
      Numeric b c.flags.group buf ∧ min c.precision.toNat 63 ≤ buf.length := by
  have hstart : Pushed b c.flags.group 0 [] := ⟨le_rfl, rfl, by simp [Numeric]⟩
  have hoctal : value < 8 ^ 22 := by
    calc value < 2 ^ 64 := hvalue
      _ ≤ 8 ^ 22 := by decide
  obtain ⟨buf₁, cnt, hdigits, hcnt, hpushed, hnum⟩ :=
    pushDigits_spec hb hstart hoctal (by omega : 22 ≤ 64) (by omega)
  have hroom := hpushed.room
  obtain ⟨n, hzeros, hn⟩ := pushZeros_spec (if c.precision < 0 then 1 else c.precision)
    (by omega : buf₁.length ≤ 63) (by omega : 63 ≤ 64 + buf₁.length)
  have hprecision : min c.precision.toNat 63 ≤ n + buf₁.length := by
    rw [hn]
    split_ifs <;> omega
  have hvalue₂ : numeral b (List.replicate n '0' ++ buf₁) = value := by
    rw [hb.numeral_zeros, hnum]
    simp [numeral]
  unfold integerBuffer
  simp only [hdigits, hzeros, Option.bind_eq_bind, Option.bind_some]
  split_ifs
  · refine ⟨'0' :: (List.replicate n '0' ++ buf₁), ?_, ?_, ?_, ?_, ?_⟩
    · exact if_pos (by simp; omega)
    · simp
      omega
    · rw [hb.numeral_zero, hvalue₂]
    · exact (hpushed.numeric.zeros hb).cons (Or.inl hb.zero_mem)
    · simp
      omega
  · refine ⟨List.replicate n '0' ++ buf₁, rfl, ?_, hvalue₂, hpushed.numeric.zeros hb, ?_⟩
    · simp
      omega
    · simp
      omega

/-! ### Reading back -/

/-- The sign in front of a number. -/
def dropSign : List Char → Bool × List Char
  | '-' :: l => (true, l)
  | '+' :: l => (false, l)
  | l => (false, l)

/-- The mark of the base in front of a number. -/
def dropMark (b : IntegerBase) : List Char → List Char
  | '0' :: x :: l => if b.x = some x then l else '0' :: x :: l
  | l => l

/-- The number that stands between spaces. -/
def readInteger (b : IntegerBase) (l : List Char) : ℤ :=
  let (negative, l) := dropSign (l.dropWhile (· = ' '))
  let value : ℤ := numeral b ((dropMark b l).takeWhile (· ≠ ' '))
  if negative then -value else value

/-- The number of characters that the field is to be filled up with. -/
def padding (value : ℕ) (isSigned negative : Bool) (b : IntegerBase) (c : Conversion)
    (buf : List Char) : ℕ :=
  (c.width - ((signChar isSigned negative c.flags).toList.length +
    (baseMark value b c.flags).length + buf.length : ℕ)).toNat

/-- The parts of a printed integer. -/
theorem integerText_eq (h : integerBuffer value b c = some buf) :
    integerText value isSigned negative b c = some (
      List.replicate (if !c.flags.minus ∧ !c.flags.zero then
        padding value isSigned negative b c buf else 0) ' ' ++
      ((signChar isSigned negative c.flags).toList ++ (baseMark value b c.flags ++
      (List.replicate (if c.flags.zero then padding value isSigned negative b c buf else 0) '0' ++
      (buf ++
      List.replicate (if c.flags.minus then padding value isSigned negative b c buf else 0) ' '))))) := by
  unfold integerText
  simp only [h, Option.bind_eq_bind, Option.bind_some, Option.pure_def, padding]
  cases c.flags.minus <;> cases c.flags.zero <;> simp

theorem dropWhile_spaces {p : Char → Bool} (hp : p ' ' = true) :
    (List.replicate n ' ' ++ l).dropWhile p = l.dropWhile p := by
  induction n with
  | zero => rfl
  | succ n ih => rw [List.replicate_succ, List.cons_append, List.dropWhile_cons_of_pos hp, ih]

theorem dropWhile_replicate {p : Char → Bool} (hp : p ' ' = true) :
    (List.replicate n ' ').dropWhile p = [] := by
  have := dropWhile_spaces (n := n) (l := []) hp
  rwa [List.append_nil] at this

theorem takeWhile_spaces (h : ' ' ∉ l) :
    (l ++ List.replicate n ' ').takeWhile (· ≠ ' ') = l := by
  have hall : ∀ ch ∈ l, decide (ch ≠ ' ') = true := by
    intro ch hch
    simpa using fun heq : ch = ' ' => h (heq ▸ hch)
  rw [List.takeWhile_append_of_pos hall]
  cases n <;> simp [List.replicate_succ]

theorem Numeric.not_mem (h : Numeric b group l) (hb : b.Sound)
    (hch : ch ∈ [' ', '+', '-', 'x', 'X']) : ch ∉ l := by
  intro hmem
  rcases h ch hmem with hd | ⟨rfl, -⟩
  · exact hb.plain ch hd (List.mem_cons_of_mem _ hch)
  · simp at hch

/-- Without a mark there is none to drop. -/
theorem dropMark_numeric (h : Numeric b group l) (hb : b.Sound) :
    dropMark b (l ++ List.replicate n ' ') = l ++ List.replicate n ' ' := by
  have hx : ∀ x, b.x = some x → x ∉ l ++ List.replicate n ' ' := by
    intro x hx hmem
    have hmark := hb.mark
    rw [hx] at hmark
    rcases List.mem_append.mp hmem with hmem | hmem
    · exact h.not_mem hb (by simp at hmark ⊢; tauto) hmem
    · rw [List.eq_of_mem_replicate hmem] at hmark
      simp at hmark
  generalize l ++ List.replicate n ' ' = l' at hx
  unfold dropMark
  split
  · rw [if_neg]
    intro heq
    exact hx _ heq (by simp)
  · rfl

theorem dropMark_baseMark (h : Numeric b group l) (hb : b.Sound) {f : Flags} :
    dropMark b (baseMark value b f ++ (l ++ List.replicate n ' ')) = l ++ List.replicate n ' ' := by
  unfold baseMark
  by_cases hx : f.pound ∧ value ≠ 0
  · rw [if_pos hx]
    cases hbx : b.x with
    | none => exact dropMark_numeric h hb
    | some x => simp [dropMark, hbx]
  · rw [if_neg hx]
    exact dropMark_numeric h hb

/-- What stands behind the sign: the mark, the numeral and spaces. -/
def body (value : ℕ) (b : IntegerBase) (f : Flags) (l : List Char) (n : ℕ) : List Char :=
  baseMark value b f ++ (l ++ List.replicate n ' ')

theorem numeral_body (value n : ℕ) (f : Flags) (h : Numeric b group l) (hb : b.Sound) :
    numeral b ((dropMark b (body value b f l n)).takeWhile (· ≠ ' ')) = numeral b l := by
  rw [body, dropMark_baseMark h hb, takeWhile_spaces (h.not_mem hb (by simp))]

theorem head_body (value n : ℕ) (f : Flags) (h : Numeric b group l) (hb : b.Sound) :
    (body value b f l n = List.replicate n ' ' ∧ l = []) ∨
      ∃ ch rest, body value b f l n = ch :: rest ∧ ch ∉ [' ', '+', '-'] := by
  have hnumeric : ∀ {ch rest}, l = ch :: rest → ch ∉ [' ', '+', '-'] := by
    intro ch rest hl hch
    have hmem : ch ∈ l := by simp [hl]
    exact h.not_mem hb (by simp at hch ⊢; tauto) hmem
  unfold body baseMark
  cases hx : (if f.pound ∧ value ≠ 0 then b.x else none) with
  | none =>
      cases hl : l with
      | nil => exact Or.inl (by simp)
      | cons ch rest => exact Or.inr ⟨ch, rest ++ List.replicate n ' ', rfl, hnumeric hl⟩
  | some x => exact Or.inr ⟨'0', x :: (l ++ List.replicate n ' '), rfl, by decide⟩

theorem readInteger_body (h : Numeric b group l) (hb : b.Sound) {f : Flags} :
    readInteger b (body value b f l n) = numeral b l := by
  have hnum := numeral_body value n f h hb
  rcases head_body value n f h hb with ⟨hbody, rfl⟩ | ⟨ch, rest, hbody, hch⟩
  · unfold readInteger
    rw [hbody, dropWhile_replicate (by decide)]
    simp [dropSign, dropMark, numeral]
  · simp only [List.mem_cons, List.not_mem_nil, or_false, not_or] at hch
    have hdrop : (ch :: rest).dropWhile (· = ' ') = ch :: rest :=
      List.dropWhile_cons_of_neg (by simpa using hch.1)
    have hsign : dropSign (ch :: rest) = (false, ch :: rest) := by
      unfold dropSign
      split
      · simp_all
      · simp_all
      · rfl
    unfold readInteger
    rw [hbody] at hnum ⊢
    simp only [hdrop, hsign, hnum, Bool.false_eq_true, if_false]

theorem readInteger_spaces : readInteger b (List.replicate n ' ' ++ l) = readInteger b l := by
  rw [readInteger, dropWhile_spaces (by decide), readInteger]

/-- A sign other than `-` says nothing about the value. -/
theorem readInteger_sign (h : Numeric b group l) (hb : b.Sound) {f : Flags} :
    readInteger b ((signChar isSigned negative f).toList ++ body value b f l n) =
      if isSigned ∧ negative then -(numeral b l : ℤ) else numeral b l := by
  have hnum := numeral_body value n f h hb
  have hspace : readInteger b (' ' :: body value b f l n) = numeral b l := by
    rw [← readInteger_body h hb (f := f) (n := n)]
    exact readInteger_spaces (n := 1)
  have hminus : readInteger b ('-' :: body value b f l n) = -(numeral b l : ℤ) := by
    unfold readInteger
    rw [List.dropWhile_cons_of_neg (by decide)]
    simp only [dropSign, hnum, if_true]
  have hplus : readInteger b ('+' :: body value b f l n) = numeral b l := by
    unfold readInteger
    rw [List.dropWhile_cons_of_neg (by decide)]
    simp only [dropSign, hnum, Bool.false_eq_true, if_false]
  unfold signChar
  cases isSigned <;> cases negative <;> cases f.plus <;> cases f.space <;>
    simp [readInteger_body h hb, hspace, hminus, hplus]

/-- **What is printed is read back**, with every combination of the flags, with every field width and
every precision. -/
theorem readInteger_integerText (hb : b.Sound) (hvalue : value < 2 ^ 64) (c : Conversion) :
    ∃ text, integerText value isSigned negative b c = some text ∧
      readInteger b text = if isSigned ∧ negative then -(value : ℤ) else value := by
  obtain ⟨buf, hbuf, -, hnum, hnumeric, -⟩ := integerBuffer_spec hb hvalue c
  refine ⟨_, integerText_eq hbuf, ?_⟩
  rw [readInteger_spaces, ← List.append_assoc (List.replicate _ '0')]
  refine (readInteger_sign (hnumeric.zeros hb) hb).trans ?_
  rw [hb.numeral_zeros, hnum]

theorem readInteger_integerText_group : ∃ text,
    integerText 1234567 true true baseD ⟨{ group := true, minus := true, zero := true }, 20, 9, .int⟩ =
      some text ∧
    readInteger baseD text = if true ∧ true then -((1234567 : ℕ) : ℤ) else (1234567 : ℕ) :=
  readInteger_integerText sound_baseD (by decide) _

/-- Without a field width there is no padding. -/
theorem length_integerText (isSigned negative : Bool) (hb : b.Sound) (hvalue : value < 2 ^ 64)
    (c : Conversion) :
    ∃ text text₀, integerText value isSigned negative b c = some text ∧
      integerText value isSigned negative b { c with width := 0 } = some text₀ ∧
      (text.length : ℤ) = text₀.length + (if c.flags.minus ∧ c.flags.zero then 2 else 1) *
        max 0 (c.width - text₀.length) := by
  obtain ⟨buf, hbuf, -⟩ := integerBuffer_spec hb hvalue c
  have hbuf₀ : integerBuffer value b { c with width := 0 } = some buf := hbuf
  have hnone : padding value isSigned negative b { c with width := 0 } buf = 0 := by
    unfold padding
    simp only
    omega
  refine ⟨_, _, integerText_eq hbuf, integerText_eq hbuf₀, ?_⟩
  rw [hnone]
  have hpad : (padding value isSigned negative b c buf : ℤ) =
      max 0 (c.width - ((signChar isSigned negative c.flags).toList.length +
        (baseMark value b c.flags).length + buf.length : ℕ)) := by
    unfold padding
    omega
  generalize padding value isSigned negative b c buf = pad at hpad
  cases c.flags.minus <;> cases c.flags.zero <;> simp at hpad ⊢ <;> omega

/-! ### `atoi` -/

/-- `isspace`. -/
def isspace (c : Char) : Bool :=
  c = ' ' ∨ c.toNat = 12 ∨ c = '\n' ∨ c = '\r' ∨ c = '\t' ∨ c.toNat = 11

/-- The loop of `atoi` over the digits; `none` if the number overflows. -/
def atoiDigits (value : ℤ) : List Char → Option ℤ
  | [] => some value
  | c :: s =>
      if isdigit c then
        if -2 ^ 31 ≤ value * 10 - ((c.toNat : ℤ) - '0'.toNat) then
          atoiDigits (value * 10 - ((c.toNat : ℤ) - '0'.toNat)) s
        else none
      else some value

/-- `atoi`. -/
def atoi (s : List Char) : Option ℤ := do
  let (negative, s) := dropSign (s.dropWhile isspace)
  let value ← atoiDigits 0 s
  if negative then some value else if value = -2 ^ 31 then none else some (-value)

theorem isdigit_of_mem (h : ch ∈ baseD.digits) :
    isdigit ch ∧ (ch.toNat : ℤ) - '0'.toNat = baseD.digits.idxOf ch ∧ isspace ch = false := by
  have hall : (baseD.digits.all fun ch => decide (isdigit ch ∧
      (ch.toNat : ℤ) - '0'.toNat = baseD.digits.idxOf ch ∧ isspace ch = false)) = true := by decide
  exact List.all_iff_forall_prop.mp hall ch h

/-- The loop computes the numeral, with the sign turned. -/
theorem atoiDigits_numeral (h : Numeric baseD false l)
    (hle : l.foldl (numeralStep baseD) value ≤ 2 ^ 31) :
    atoiDigits (-(value : ℤ)) (l ++ List.replicate n ' ') =
      some (-((l.foldl (numeralStep baseD) value : ℕ) : ℤ)) := by
  induction l generalizing value with
  | nil =>
      cases n with
      | zero => rfl
      | succ n => exact if_neg (by decide)
  | cons ch l ih =>
      have hmem : ch ∈ baseD.digits := (h ch List.mem_cons_self).resolve_right (by simp)
      obtain ⟨hdigit, hvalue, -⟩ := isdigit_of_mem hmem
      have hcomma : ch ≠ ',' := by
        rintro rfl
        exact absurd hmem (by decide)
      have hstep : -(value : ℤ) * 10 - ((ch.toNat : ℤ) - '0'.toNat) =
          -((numeralStep baseD value ch : ℕ) : ℤ) := by
        have hbase : baseD.base = 10 := rfl
        simp only [hvalue, numeralStep, hcomma, if_false, hbase]
        push_cast
        ring
      rw [List.foldl_cons] at hle ⊢
      have hfold : l.foldl (numeralStep baseD) (numeralStep baseD value ch) =
          numeralStep baseD value ch * baseD.base ^ places l + numeral baseD l := foldl_numeralStep
      have hpow : 0 < baseD.base ^ places l := Nat.pow_pos (by decide)
      have hmono : numeralStep baseD value ch ≤ numeralStep baseD value ch * baseD.base ^ places l :=
        Nat.le_mul_of_pos_right _ hpow
      rw [List.cons_append, atoiDigits, if_pos hdigit, hstep, if_pos (by omega)]
      exact ih (fun x hx => h x (List.mem_cons_of_mem _ hx)) hle

theorem atoi_spaces : atoi (List.replicate n ' ' ++ l) = atoi l := by
  rw [atoi, dropWhile_spaces (by decide), atoi]

theorem body_baseD {f : Flags} : body value baseD f l n = l ++ List.replicate n ' ' := by
  unfold body baseMark
  split_ifs <;> rfl

theorem atoiDigits_body (value n : ℕ) (f : Flags) (h : Numeric baseD false l)
    (hle : numeral baseD l ≤ 2 ^ 31) :
    atoiDigits 0 (body value baseD f l n) = some (-(numeral baseD l : ℤ)) := by
  rw [body_baseD]
  exact atoiDigits_numeral h hle

theorem atoi_body (value n : ℕ) (f : Flags) (h : Numeric baseD false l)
    (hlt : numeral baseD l < 2 ^ 31) :
    atoi (body value baseD f l n) = some (numeral baseD l : ℤ) := by
  cases l with
  | nil =>
      rw [body_baseD, List.nil_append, atoi, dropWhile_replicate (by decide)]
      rfl
  | cons ch l =>
      have hdigits := atoiDigits_body 0 n {} h hlt.le
      obtain ⟨-, -, hspace⟩ := isdigit_of_mem ((h ch List.mem_cons_self).resolve_right (by simp))
      have hsign : dropSign (ch :: (l ++ List.replicate n ' ')) =
          (false, ch :: (l ++ List.replicate n ' ')) := by
        have hplain : ch ∈ [' ', '+', '-', 'x', 'X'] → ch ∉ ch :: l := h.not_mem sound_baseD
        unfold dropSign
        split
        · simp_all
        · simp_all
        · rfl
      rw [body_baseD, List.cons_append] at hdigits
      rw [body_baseD, List.cons_append, atoi, List.dropWhile_cons_of_neg (by simp [hspace]), hsign]
      simp only [hdigits, Option.bind_eq_bind, Option.bind_some, Bool.false_eq_true, if_false]
      rw [if_neg (by omega), Int.neg_neg]

/-- The sign character gives the number its sign. -/
theorem atoi_sign (h : Numeric baseD false l) (hle : numeral baseD l ≤ 2 ^ 31)
    (hlt : negative = false → numeral baseD l < 2 ^ 31) {f : Flags} :
    atoi ((signChar true negative f).toList ++ body value baseD f l n) =
      some (if negative then -(numeral baseD l : ℤ) else numeral baseD l) := by
  have hdigits := atoiDigits_body value n f h hle
  have hminus : atoi ('-' :: body value baseD f l n) = some (-(numeral baseD l : ℤ)) := by
    rw [atoi, List.dropWhile_cons_of_neg (by decide)]
    simp only [dropSign, hdigits, Option.bind_eq_bind, Option.bind_some, if_true]
  cases negative with
  | true =>
      unfold signChar
      cases f.plus <;> cases f.space <;> simp [hminus]
  | false =>
      have hlt := hlt rfl
      have hspace : atoi (' ' :: body value baseD f l n) = some (numeral baseD l : ℤ) := by
        rw [← atoi_body value n f h hlt]
        exact atoi_spaces (n := 1)
      have hplus : atoi ('+' :: body value baseD f l n) = some (numeral baseD l : ℤ) := by
        rw [atoi, List.dropWhile_cons_of_neg (by decide)]
        simp only [dropSign, hdigits, Option.bind_eq_bind, Option.bind_some, Bool.false_eq_true,
          if_false]
        rw [if_neg (by omega), Int.neg_neg]
      unfold signChar
      cases f.plus <;> cases f.space <;> simp [atoi_body _ _ _ h hlt, hspace, hplus]

/-- **`atoi` reads what `%d` prints**: without the commas, which it does not know of, every `int` is read
back, with the other flags in every combination and with every field width and precision. -/
theorem atoi_integerText (hv : -2 ^ 31 ≤ v) (hv' : v < 2 ^ 31) (hgroup : c.flags.group = false) :
    ∃ text, integerText v.natAbs true (decide (v < 0)) baseD c = some text ∧ atoi text = some v := by
  obtain ⟨buf, hbuf, -, hnum, hnumeric, -⟩ := integerBuffer_spec sound_baseD
    (by omega : v.natAbs < 2 ^ 64) c
  rw [hgroup] at hnumeric
  refine ⟨_, integerText_eq hbuf, ?_⟩
  rw [atoi_spaces, ← List.append_assoc (List.replicate _ '0')]
  have hvalue : ∀ n, numeral baseD (List.replicate n '0' ++ buf) = v.natAbs := by
    intro n
    rw [sound_baseD.numeral_zeros, hnum]
  refine (atoi_sign (hnumeric.zeros sound_baseD) ?_ ?_).trans ?_
  · rw [hvalue]
    omega
  · rw [hvalue]
    intro hneg
    have := of_decide_eq_false hneg
    omega
  · rw [hvalue]
    by_cases h : v < 0
    · rw [if_pos (decide_eq_true h)]
      exact congrArg some (by omega)
    · rw [if_neg (by rw [decide_eq_true_eq]; exact h)]
      exact congrArg some (by omega)

end CSE130.Lab3.Printf
