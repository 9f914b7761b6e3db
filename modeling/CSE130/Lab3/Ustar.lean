import CSE130.Lib.Layout
import Mathlib.Algebra.Order.BigOperators.Group.List
import Mathlib.Data.Nat.Digits.Lemmas

/-! # Archive headers of Lab 3 (`lib/ustar.c`)

A header is the packed record `struct ustar_header` of 512 bytes.  `ustar_make_header` fills a zeroed
record with strings and octal numbers and puts its checksum in; `ustar_parse_header` checks it and
reads it back.  Both drop the beginning of a file name that would lead out of the directory.

A string is the list of its bytes before the null byte. -/

namespace CSE130.Lab3.Ustar

open Function (update)
open Layout

/-- `USTAR_HEADER_SIZE`. -/
def ustarHeaderSize : ℕ := 512

/-- `INT_MAX`. -/
def intMax : ℕ := 2 ^ 31 - 1

/-- `ULONG_MAX`. -/
def ulongMax : ℕ := 2 ^ 32 - 1

/-- `'/'`, `'.'`, `'0'`, `' '`. -/
def slash : UInt8 := 47
def dot : UInt8 := 46
def zero : UInt8 := 48
def space : UInt8 := 32

/-- `enum ustar_type`. -/
inductive UstarType where
  | regular
  | directory
  | eof
  deriving DecidableEq

/-- The byte in the file format; `USTAR_EOF` is `-1`. -/
def UstarType.byte : UstarType → UInt8
  | .regular => 48
  | .directory => 53
  | .eof => 255

/-- The fields of `struct ustar_header`. -/
inductive Field where
  | name | mode | uid | gid | size | mtime | chksum | typeflag | linkname | magic | version
  | uname | gname | devmajor | devminor | filenamePrefix | padding
  deriving DecidableEq

/-- The fields in their order. -/
def fields : List Field :=
  [.name, .mode, .uid, .gid, .size, .mtime, .chksum, .typeflag, .linkname, .magic, .version,
    .uname, .gname, .devmajor, .devminor, .filenamePrefix, .padding]

def width : Field → ℕ
  | .name => 100
  | .mode => 8
  | .uid => 8
  | .gid => 8
  | .size => 12
  | .mtime => 12
  | .chksum => 8
  | .typeflag => 1
  | .linkname => 100
  | .magic => 6
  | .version => 2
  | .uname => 32
  | .gname => 32
  | .devmajor => 8
  | .devminor => 8
  | .filenamePrefix => 155
  | .padding => 12

theorem size_fields : Layout.size fields width = ustarHeaderSize := by decide

/-- `calculate_chksum`; the sum of 512 bytes does not overflow. -/
def calculateChksum (header : List UInt8) : ℕ :=
  let start := offset fields width .chksum
  let stop := start + width .chksum
  (header.zipIdx.map fun (b, i) => if start ≤ i ∧ i < stop then space.toNat else b.toNat).sum

/-! ### File names -/

/-- The condition of the loop of `strip_antisocial_prefixes`. -/
def Antisocial (fileName : List UInt8) : Prop :=
  fileName.head? = some slash ∨ fileName.take 2 = [dot, slash] ∨
    fileName.take 3 = [dot, dot, slash]

instance (fileName : List UInt8) : Decidable (Antisocial fileName) :=
  inferInstanceAs (Decidable (_ ∨ _ ∨ _))

/-- `strchr (file_name, '/') + 1`. -/
def afterSlash (fileName : List UInt8) : List UInt8 := (fileName.dropWhile (· ≠ slash)).tail

theorem length_afterSlash {fileName : List UInt8} (h : Antisocial fileName) :
    (afterSlash fileName).length < fileName.length := by
  have hne : fileName ≠ [] := by
    rintro rfl
    simp [Antisocial] at h
  have hdrop := (List.dropWhile_suffix (l := fileName) (· ≠ slash)).length_le
  have hpos := List.length_pos_iff.mpr hne
  rw [afterSlash, List.length_tail]
  omega

/-- The loop of `strip_antisocial_prefixes`. -/
def stripLoop (fileName : List UInt8) : List UInt8 :=
  if _h : Antisocial fileName then stripLoop (afterSlash fileName) else fileName
termination_by fileName.length
decreasing_by exact length_afterSlash _h

/-- `strip_antisocial_prefixes`. -/
def stripAntisocialPrefixes (fileName : List UInt8) : List UInt8 :=
  let fileName := stripLoop fileName
  if fileName = [] ∨ fileName = [dot, dot] then [dot] else fileName

/-! ### A header -/

/-- What `%0wo` prints. -/
def octal (w n : ℕ) : List UInt8 :=
  let digits := (Nat.digits 8 n).reverse.map fun d => zero + UInt8.ofNat d
  List.replicate (w - digits.length) zero ++ digits

/-- A zeroed array of `n` bytes after `strlcpy` or `snprintf` has put a string there. -/
def store (n : ℕ) (s : List UInt8) : List UInt8 :=
  let s := s.take (n - 1)
  s ++ List.replicate (n - s.length) 0

/-- The bytes of a string literal. -/
def ustar : List UInt8 := [117, 115, 116, 97, 114]
def root : List UInt8 := [114, 111, 111, 116]

/-- The header, except for the final checksum. -/
def fill (fileName : List UInt8) (type : UstarType) (size : ℕ) : Field → List UInt8
  | .name => store 100 fileName
  | .mode => store 8 (octal 7 (if type = .regular then 420 else 493))
  | .uid => store 8 (List.replicate 7 zero)
  | .gid => store 8 (List.replicate 7 zero)
  | .size => store 12 (octal 11 size)
  | .mtime => store 12 (octal 11 1136102400)
  | .typeflag => [type.byte]
  | .magic => store 6 ustar
  | .version => [zero, zero]
  | .uname => store 32 root
  | .gname => store 32 root
  | f => List.replicate (width f) 0

/-- `ustar_make_header`. -/
def ustarMakeHeader (fileName : List UInt8) (type : UstarType) (size : ℕ) : Option (List UInt8) :=
  let fileName := stripAntisocialPrefixes fileName
  if 99 < fileName.length then none
  else
    let h := fill fileName type size
    let chksum := calculateChksum (pack fields h)
    some (pack fields (update h .chksum (store 8 (octal 7 chksum))))

/-- `parse_octal_field`, from the offset `ofs` on. -/
def parseOctalLoop : List UInt8 → ℕ → ℕ → Option ℕ
  | [], _, _ => none
  | c :: s, ofs, value =>
      if zero ≤ c ∧ c ≤ 55 then
        if ulongMax / 8 < value then none
        else parseOctalLoop s (ofs + 1) (c.toNat - zero.toNat + value * 8)
      else if c = space ∨ c = 0 then
        if 0 < ofs then some value else none
      else none

def parseOctalField (s : List UInt8) : Option ℕ := parseOctalLoop s 0 0

/-- The string in an array. -/
def string (s : List UInt8) : List UInt8 := s.takeWhile (· ≠ 0)

/-- What `ustar_parse_header` stores; there is no file name at the end of the archive. -/
structure Entry where
  fileName : Option (List UInt8)
  type : UstarType
  size : ℕ
  deriving DecidableEq

/-- `ustar_parse_header`. -/
def ustarParseHeader (header : List UInt8) : Except String Entry :=
  let h := unpack fields width header
  if header.all (· = 0) then .ok ⟨none, .eof, 0⟩
  else if h .magic ≠ ustar ++ [0] then .error "not a ustar archive"
  else if h .version ≠ [zero, zero] then .error "invalid ustar version"
  else
    match parseOctalField (h .chksum) with
    | none => .error "corrupt chksum field"
    | some chksum =>
        if chksum ≠ calculateChksum header then .error "checksum mismatch"
        else if (h .name)[99]? ≠ some 0 ∨ (h .filenamePrefix)[0]? ≠ some 0 then
          .error "file name too long"
        else if h .typeflag = [UstarType.regular.byte] then
          match parseOctalField (h .size) with
          | none => .error "corrupt file size field"
          | some size =>
              if intMax < size then .error "file too large"
              else .ok ⟨some (stripAntisocialPrefixes (string (h .name))), .regular, size⟩
        else if h .typeflag = [UstarType.directory.byte] then
          .ok ⟨some (stripAntisocialPrefixes (string (h .name))), .directory, 0⟩
        else .error "unimplemented file type"

/-! ### Dropping the beginning -/

variable {fileName s t : List UInt8} {n m w ofs value : ℕ} {ds : List ℕ} {h : Field → List UInt8}
  {type : UstarType}

theorem stripLoop_spec (fileName : List UInt8) :
    ¬ Antisocial (stripLoop fileName) ∧ stripLoop fileName <:+ fileName := by
  induction fileName using stripLoop.induct with
  | case1 fileName hanti ih =>
      rw [stripLoop, dif_pos hanti]
      have hsuffix : afterSlash fileName <:+ fileName :=
        (List.tail_suffix _).trans (List.dropWhile_suffix _)
      exact ⟨ih.1, ih.2.trans hsuffix⟩
  | case2 fileName hanti =>
      rw [stripLoop, dif_neg hanti]
      exact ⟨hanti, List.suffix_refl fileName⟩

/-- A name that nothing has to be dropped from. -/
structure Stripped (fileName : List UInt8) : Prop where
  social : ¬ Antisocial fileName
  ne_nil : fileName ≠ []
  ne_dots : fileName ≠ [dot, dot]

theorem stripped_strip (fileName : List UInt8) : Stripped (stripAntisocialPrefixes fileName) := by
  unfold stripAntisocialPrefixes
  dsimp only
  split
  · exact ⟨by decide, by decide, by decide⟩
  · rename_i hne
    rw [not_or] at hne
    exact ⟨(stripLoop_spec fileName).1, hne.1, hne.2⟩

theorem Stripped.strip (hs : Stripped fileName) : stripAntisocialPrefixes fileName = fileName := by
  have hloop : stripLoop fileName = fileName := by rw [stripLoop, dif_neg hs.social]
  unfold stripAntisocialPrefixes
  dsimp only
  rw [hloop, if_neg (not_or.mpr ⟨hs.ne_nil, hs.ne_dots⟩)]

theorem zero_notMem_strip (h0 : 0 ∉ fileName) : 0 ∉ stripAntisocialPrefixes fileName := by
  unfold stripAntisocialPrefixes
  dsimp only
  split
  · decide
  · exact fun hmem => h0 ((stripLoop_spec fileName).2.subset hmem)

/-! ### Octal fields -/

/-- The digits, as the source adds them up. -/
def horner (value : ℕ) (ds : List ℕ) : ℕ := ds.foldl (fun value d => d + value * 8) value

theorem le_horner (value : ℕ) (ds : List ℕ) : value ≤ horner value ds := by
  induction ds generalizing value with
  | nil => exact Nat.le_refl value
  | cons d ds ih =>
      have hle := ih (d + value * 8)
      rw [horner, List.foldl_cons, ← horner]
      omega

/-- A loop over digits; none of them overflows if the number does not. -/
theorem parseOctalLoop_digits (hds : ∀ d ∈ ds, d < 8) (hmax : horner value ds ≤ ulongMax) :
    parseOctalLoop (ds.map (fun d => zero + UInt8.ofNat d) ++ s) ofs value =
      parseOctalLoop s (ofs + ds.length) (horner value ds) := by
  induction ds generalizing ofs value with
  | nil => rfl
  | cons d ds ih =>
      obtain ⟨hd, hds⟩ := List.forall_mem_cons.mp hds
      rw [horner, List.foldl_cons, ← horner] at hmax
      have hle := le_horner (d + value * 8) ds
      have hchar : zero ≤ zero + UInt8.ofNat d ∧ zero + UInt8.ofNat d ≤ 55 ∧
          (zero + UInt8.ofNat d).toNat - zero.toNat = d := by
        interval_cases d <;> decide
      have hfits : ¬ ulongMax / 8 < value := by
        rw [ulongMax] at *
        omega
      rw [List.map_cons, List.cons_append, parseOctalLoop, if_pos ⟨hchar.1, hchar.2.1⟩,
        if_neg hfits, hchar.2.2, ih hds hmax, List.length_cons, Nat.add_right_comm, Nat.add_assoc]
      rfl

theorem octal_eq (w n : ℕ) : octal w n = (List.replicate (w - (Nat.digits 8 n).length) 0 ++
    (Nat.digits 8 n).reverse).map fun d => zero + UInt8.ofNat d := by
  simp [octal]

theorem length_octal (hn : n < 8 ^ w) : (octal w n).length = w := by
  have hle := (Nat.digits_length_le_iff (by decide) n).mpr hn
  rw [octal_eq, List.length_map, List.length_append, List.length_replicate, List.length_reverse]
  omega

theorem parseOctalField_octal (hw : 0 < w) (hn : n < 8 ^ w) (hmax : n ≤ ulongMax) :
    parseOctalField (octal w n ++ 0 :: s) = some n := by
  have hvalue : horner 0 (List.replicate (w - (Nat.digits 8 n).length) 0 ++
      (Nat.digits 8 n).reverse) = n := by
    have hzeros : ∀ k, horner 0 (List.replicate k 0) = 0 := by
      intro k
      induction k with
      | zero => rfl
      | succ k ih => exact ih
    have happend : horner 0 (List.replicate (w - (Nat.digits 8 n).length) 0 ++
        (Nat.digits 8 n).reverse) = horner (horner 0 (List.replicate
          (w - (Nat.digits 8 n).length) 0)) (Nat.digits 8 n).reverse := List.foldl_append
    rw [happend, hzeros, horner, List.foldl_reverse]
    conv_rhs => rw [← Nat.ofDigits_digits 8 n, Nat.ofDigits_eq_foldr]
    simp [Nat.mul_comm]
  have hdigits : ∀ d ∈ List.replicate (w - (Nat.digits 8 n).length) 0 ++
      (Nat.digits 8 n).reverse, d < 8 := by
    intro d hd
    rw [List.mem_append, List.mem_replicate, List.mem_reverse] at hd
    obtain ⟨-, rfl⟩ | hd := hd
    · decide
    · exact Nat.digits_lt_base (by decide) hd
  have hlength := length_octal hn
  rw [octal_eq, List.length_map] at hlength
  rw [octal_eq, parseOctalField, parseOctalLoop_digits hdigits (by rwa [hvalue]), hvalue, hlength,
    Nat.zero_add, parseOctalLoop, if_neg (by decide), if_pos (.inr rfl), if_pos hw]

/-! ### Fields of a fixed width -/

theorem length_store (hn : 0 < n) (s : List UInt8) : (store n s).length = n := by
  simp only [store, List.length_append, List.length_take, List.length_replicate]
  omega

theorem store_eq (hs : s.length < n) : store n s = s ++ List.replicate (n - s.length) 0 := by
  rw [store, List.take_of_length_le (by omega)]

/-- A string that fits is read back. -/
theorem string_store (h0 : 0 ∉ s) (hs : s.length < n) : string (store n s) = s := by
  have hpos : ∀ c ∈ s, decide (c ≠ 0) = true := by
    intro c hc
    apply decide_eq_true
    rintro rfl
    exact h0 hc
  have hreplicate : List.replicate (n - s.length) (0 : UInt8) =
      0 :: List.replicate (n - s.length - 1) 0 := by
    rw [← List.replicate_succ]
    congr 1
    omega
  rw [string, store_eq hs, List.takeWhile_append_of_pos hpos, hreplicate,
    List.takeWhile_cons_of_neg (by decide), List.append_nil]

theorem parseOctalField_store (hw : 0 < w) (hn : n < 8 ^ w) (hmax : n ≤ ulongMax) :
    parseOctalField (store (w + 1) (octal w n)) = some n := by
  have hlength := length_octal hn
  rw [store_eq (by omega), hlength, Nat.add_sub_cancel_left]
  exact parseOctalField_octal hw hn hmax

theorem getLast_store (hs : s.length < n) : (store n s)[n - 1]? = some 0 := by
  rw [store_eq hs, List.getElem?_append_right (by omega), List.getElem?_replicate, if_pos (by omega)]

/-! ### The checksum -/

theorem map_zipIdx {g : UInt8 × ℕ → ℕ} {f : UInt8 → ℕ} {k : ℕ}
    (hg : ∀ b i, k ≤ i → i < k + s.length → g (b, i) = f b) :
    (s.zipIdx k).map g = s.map f := by
  induction s generalizing k with
  | nil => rfl
  | cons b s ih =>
      rw [List.zipIdx_cons, List.map_cons, List.map_cons, hg b k (Nat.le_refl k) (by simp)]
      congr 1
      apply ih
      intro c i hi hlt
      apply hg c i (by omega)
      rw [List.length_cons]
      omega

/-- The bytes of the field of the checksum do not matter. -/
theorem calculateChksum_append {a b c : List UInt8} (ha : a.length = offset fields width .chksum)
    (hb : b.length = width .chksum) : calculateChksum (a ++ (b ++ c)) =
      (a.map UInt8.toNat).sum + ((b.map fun _ => space.toNat).sum + (c.map UInt8.toNat).sum) := by
  unfold calculateChksum
  dsimp only
  rw [List.zipIdx_append, List.zipIdx_append, List.map_append, List.map_append, List.sum_append,
    List.sum_append]
  congr 1
  · rw [map_zipIdx]
    intro d i _ hlt
    apply if_neg
    omega
  congr 1
  · rw [map_zipIdx]
    intro d i hle hlt
    apply if_pos
    omega
  · rw [map_zipIdx]
    intro d i hle _
    apply if_neg
    omega

theorem calculateChksum_le (header : List UInt8) : calculateChksum header ≤ header.length * 255 := by
  have hle := List.sum_le_card_nsmul (header.zipIdx.map fun p : UInt8 × ℕ =>
    if offset fields width .chksum ≤ p.2 ∧ p.2 < offset fields width .chksum + width .chksum then
      space.toNat else p.1.toNat) 255 ?_
  · simpa [calculateChksum] using hle
  · intro x hx
    obtain ⟨p, -, rfl⟩ := List.mem_map.mp hx
    have hbyte := p.1.toNat_lt
    split
    · decide
    · omega

/-- The checksum of a header, whatever is in the field for it. -/
theorem calculateChksum_update (hw : Fits fields width h) (hs : s.length = width .chksum) :
    calculateChksum (pack fields (update h .chksum s)) = calculateChksum (pack fields h) := by
  have hbefore : (pack (fields.takeWhile (· ≠ .chksum)) h).length = offset fields width .chksum :=
    length_pack fun g hg => hw g ((List.takeWhile_sublist _).subset hg)
  have hsplit : pack fields (update h .chksum s) = pack (fields.takeWhile (· ≠ .chksum)) h ++
      (s ++ pack (fields.dropWhile (· ≠ .chksum)).tail h) := by
    rw [pack_eq (f := .chksum) (by decide)]
    rfl
  have hsame : pack fields h = pack (fields.takeWhile (· ≠ .chksum)) h ++
      (h .chksum ++ pack (fields.dropWhile (· ≠ .chksum)).tail h) := pack_eq (by decide)
  rw [hsplit, hsame, calculateChksum_append hbefore hs,
    calculateChksum_append hbefore (hw _ (by decide))]
  simp [hs, hw .chksum (by decide)]

/-! ### A header and back -/

theorem fits_fill (fileName : List UInt8) (type : UstarType) (size : ℕ) :
    Fits fields width (fill fileName type size) := by
  intro f _
  cases f <;> simp [fill, width, length_store]

theorem mem_fields (f : Field) : f ∈ fields := by cases f <;> decide

/-- The header that is made. -/
def made (fileName : List UInt8) (type : UstarType) (size : ℕ) : Field → List UInt8 :=
  update (fill fileName type size) .chksum
    (store 8 (octal 7 (calculateChksum (pack fields (fill fileName type size)))))

theorem fits_made (fileName : List UInt8) (type : UstarType) (size : ℕ) :
    Fits fields width (made fileName type size) := by
  intro f hf
  by_cases hchksum : f = .chksum
  · subst hchksum
    rw [made, Function.update_self]
    exact length_store (by decide) _
  · rw [made, Function.update_of_ne hchksum]
    exact fits_fill fileName type size f hf

theorem ustarMakeHeader_eq (hs : (stripAntisocialPrefixes fileName).length ≤ 99) (size : ℕ) :
    ustarMakeHeader fileName type size =
      some (pack fields (made (stripAntisocialPrefixes fileName) type size)) :=
  if_neg (by omega)

theorem mem_made (hf : f ∈ fields) {b : UInt8} (hb : b ∈ made fileName type n f) :
    b ∈ pack fields (made fileName type n) :=
  List.mem_flatMap.mpr ⟨f, hf, hb⟩

/-- **Headers.**  A header of a regular file or a directory is read as it was made. -/
theorem ustarParseHeader_made (hs : Stripped fileName) (h0 : 0 ∉ fileName)
    (hlength : fileName.length ≤ 99) (hn : n ≤ intMax) (htype : type ≠ .eof) :
    ustarParseHeader (pack fields (made fileName type n)) =
      .ok ⟨some fileName, type, if type = .regular then n else 0⟩ := by
  have hunpack : unpack fields width (pack fields (made fileName type n)) = made fileName type n :=
    funext fun f => unpack_pack (fits_made fileName type n) (mem_fields f)
  have hall : ¬ (pack fields (made fileName type n)).all (· = 0) = true := by
    intro hall
    have hmem : 117 ∈ pack fields (made fileName type n) := by
      apply mem_made (f := .magic) (by decide)
      simp [made, fill, store, ustar]
    have hzero := of_decide_eq_true (List.all_eq_true.mp hall 117 hmem)
    exact absurd hzero (by decide)
  have hsum : calculateChksum (pack fields (made fileName type n)) =
      calculateChksum (pack fields (fill fileName type n)) :=
    calculateChksum_update (fits_fill fileName type n) (length_store (by decide) _)
  have hle : calculateChksum (pack fields (fill fileName type n)) ≤ ustarHeaderSize * 255 := by
    rw [← size_fields, ← length_pack (fits_fill fileName type n)]
    exact calculateChksum_le _
  have hchksum : parseOctalField (made fileName type n .chksum) =
      some (calculateChksum (pack fields (fill fileName type n))) := by
    rw [made, Function.update_self]
    apply parseOctalField_store (by decide)
    · exact lt_of_le_of_lt hle (by decide)
    · exact le_trans hle (by decide)
  have hsize : parseOctalField (made fileName type n .size) = some n := by
    apply parseOctalField_store (by decide)
    · exact lt_of_le_of_lt hn (by decide)
    · exact le_trans hn (by decide)
  have hname : (made fileName type n .name)[99]? = some 0 := getLast_store (by omega)
  have hstring : string (made fileName type n .name) = fileName := string_store h0 (by omega)
  have hmagic : made fileName type n .magic = ustar ++ [0] := rfl
  have hversion : made fileName type n .version = [zero, zero] := rfl
  have hprefix : (made fileName type n .filenamePrefix)[0]? = some 0 := rfl
  have htypeflag : made fileName type n .typeflag = [type.byte] := rfl
  unfold ustarParseHeader
  rw [if_neg hall, hunpack, hsum, hmagic, hversion, hchksum, hname, hprefix, htypeflag, hsize,
    hstring, hs.strip]
  cases type with
  | regular => simp [hn]
  | directory => simp [UstarType.byte]
  | eof => exact absurd rfl htype

/-- The types that a header is made for. -/
def UstarType.Stored (type : UstarType) : Prop := type = .regular ∨ type = .directory

/-- **Round trip of headers.**  A header can be made whenever the stripped name has at most 99 bytes,
and is read with this name; stripping once is enough. -/
theorem ustar_header_round_trip (fileName : List UInt8) (h0 : 0 ∉ fileName) :
    (∀ (type : UstarType) (size : ℕ), type.Stored → size ≤ intMax →
      (stripAntisocialPrefixes fileName).length ≤ 99 →
      ∃ header, ustarMakeHeader fileName type size = some header ∧
        ustarParseHeader header = .ok ⟨some (stripAntisocialPrefixes fileName), type,
          if type = .regular then size else 0⟩) ∧
    stripAntisocialPrefixes (stripAntisocialPrefixes fileName) = stripAntisocialPrefixes fileName ∧
    ¬ Antisocial (stripAntisocialPrefixes fileName) ∧
    stripAntisocialPrefixes fileName ≠ [] ∧ stripAntisocialPrefixes fileName ≠ [dot, dot] := by
  have hs := stripped_strip fileName
  refine ⟨?_, hs.strip, hs.social, hs.ne_nil, hs.ne_dots⟩
  intro type size htype hsize hlength
  refine ⟨_, ustarMakeHeader_eq hlength size, ?_⟩
  apply ustarParseHeader_made hs (zero_notMem_strip h0) hlength hsize
  obtain rfl | rfl := htype
  · decide
  · decide

/-- `"../a/b"` is stored as `"a/b"`. -/
theorem ustar_header_round_trip_parent :
    ∃ header, ustarMakeHeader [dot, dot, slash, 97, slash, 98] .regular intMax = some header ∧
      ustarParseHeader header = .ok ⟨some [97, slash, 98], .regular, intMax⟩ := by
  have hstrip : stripAntisocialPrefixes [dot, dot, slash, 97, slash, 98] = [97, slash, 98] := by
    simp [stripAntisocialPrefixes, stripLoop, Antisocial, afterSlash, dot, slash]
  have htrip := (ustar_header_round_trip [dot, dot, slash, 97, slash, 98] (by decide)).1 .regular
    intMax (.inl rfl) (Nat.le_refl _) (by rw [hstrip]; decide)
  rwa [hstrip] at htrip

end CSE130.Lab3.Ustar
