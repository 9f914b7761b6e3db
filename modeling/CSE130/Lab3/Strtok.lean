import CSE130.Lib.Memory

/-! # Strings and tokens of Lab 3 (`lib/string.c`)

`strtok_r` cuts a string in place: it looks for the next token behind the saved position and
overwrites the delimiter after it.  A caller that asks again and again sees the parts of the
string between the delimiters, without the empty ones (`strtok_none`, `strtok_some`).

The loops over a string stop within the array that the string is in; its size is the fuel they
are given. -/

namespace CSE130.Lab3

/-- `strlen (string)`. -/
def strlen (m : Mem) : ℕ → ℕ → Option ℕ
  | 0, _ => none
  | fuel + 1, p => if m p = 0 then some 0 else (strlen m fuel (p + 1)).map (· + 1)

/-- `strchr (delimiters, c) != NULL`: the null byte at the end of the delimiters is found too. -/
def strchr (delimiters : List UInt8) (c : UInt8) : Bool := delimiters.contains c || c == 0

/-- The first loop of `strtok_r`: skip any delimiters, but not the end of the string. -/
def skipDelimiters (m : Mem) (delimiters : List UInt8) : ℕ → ℕ → Option ℕ
  | 0, _ => none
  | fuel + 1, s =>
      if strchr delimiters (m s) then
        if m s = 0 then some s else skipDelimiters m delimiters fuel (s + 1)
      else some s

/-- The second loop: skip up to the next delimiter or the end of the string. -/
def skipToken (m : Mem) (delimiters : List UInt8) : ℕ → ℕ → Option ℕ
  | 0, _ => none
  | fuel + 1, s =>
      if strchr delimiters (m s) then some s else skipToken m delimiters fuel (s + 1)

/-- `strtok_r` on a string in an array of `size` bytes, from `s` or from the saved position: the
token or `NULL`, the memory and the position saved. -/
def strtok (size : ℕ) (m : Mem) (s : ℕ) (delimiters : List UInt8) :
    Option (Option ℕ × Mem × ℕ) := do
  let token ← skipDelimiters m delimiters size s
  if m token = 0 then
    some (none, m, token)
  else
    let e ← skipToken m delimiters size token
    if m e ≠ 0 then some (some token, m.write e [0], e + 1) else some (some token, m, e)

/-- The parts of a string between the delimiters `d`, without the empty ones. -/
def pieces (d : UInt8) (l : List UInt8) : List (List UInt8) := (l.splitOn d).filter (· ≠ [])

/-- The bytes of the strings, each with its null byte. -/
def stringsSize (args : List (List UInt8)) : ℕ := (args.map fun t => t.length + 1).sum

variable {m : Mem} {d : UInt8} {s size : ℕ} {cmd t : List UInt8} {ts : List (List UInt8)}

theorem strlen_spec : ∀ {t : List UInt8} {p fuel : ℕ}, m.IsString p t → t.length < fuel →
    strlen m fuel p = some t.length
  | [], p, fuel + 1, hs, _ => by
      unfold strlen
      rw [if_pos (Mem.isString_nil.mp hs), List.length_nil]
  | c :: t, p, fuel + 1, hs, hl => by
      obtain ⟨hc, hc0, hrest⟩ := Mem.isString_cons.mp hs
      rw [List.length_cons] at hl
      unfold strlen
      rw [hc, if_neg hc0, strlen_spec hrest (by omega), Option.map_some, List.length_cons]

/-! ### The parts of a string -/

theorem pieces_delim (l : List UInt8) : pieces d (d :: l) = pieces d l := by
  simp [pieces, List.splitOn_cons_eq_if_modifyHead]

theorem pieces_token (ht : t ≠ []) (h : d ∉ t) (l : List UInt8) :
    pieces d (t ++ d :: l) = t :: pieces d l := by
  unfold pieces
  rw [List.splitOn_append_cons_self_of_not_mem h, List.filter_cons_of_pos (by simpa using ht)]

theorem pieces_last (ht : t ≠ []) (h : d ∉ t) : pieces d t = [t] := by
  unfold pieces
  rw [List.splitOn_eq_singleton h, List.filter_cons_of_pos (by simpa using ht), List.filter_nil]

/-- No part is empty, and none has a delimiter in it. -/
theorem mem_pieces : ∀ {l : List UInt8} {t : List UInt8}, t ∈ pieces d l →
    t ≠ [] ∧ d ∉ t ∧ t.Sublist l := by
  intro l t ht
  obtain ⟨hmem, hne⟩ := List.mem_filter.mp ht
  refine ⟨of_decide_eq_true hne, ?_⟩
  clear ht hne
  induction l generalizing t with
  | nil =>
      rw [List.splitOn_nil, List.mem_singleton] at hmem
      subst hmem
      exact ⟨List.not_mem_nil, List.Sublist.refl _⟩
  | cons c l ih =>
      rw [List.splitOn_cons_eq_if_modifyHead] at hmem
      split_ifs at hmem with hc
      · obtain rfl | hmem := List.mem_cons.mp hmem
        · exact ⟨List.not_mem_nil, List.nil_sublist _⟩
        · exact ⟨(ih hmem).1, (ih hmem).2.cons c⟩
      · cases hs : l.splitOn d with
        | nil => exact absurd hs (List.splitOn_ne_nil d l)
        | cons u us =>
            rw [hs] at ih hmem
            obtain rfl | hmem := List.mem_cons.mp hmem
            · obtain ⟨hu, hsub⟩ := ih List.mem_cons_self
              refine ⟨fun h => ?_, hsub.cons_cons c⟩
              obtain rfl | h := List.mem_cons.mp h
              · exact hc (beq_self_eq_true _)
              · exact hu h
            · obtain ⟨ht, hsub⟩ := ih (List.mem_cons_of_mem u hmem)
              exact ⟨ht, hsub.cons c⟩

theorem stringsSize_cons (t : List UInt8) (ts : List (List UInt8)) :
    stringsSize (t :: ts) = t.length + 1 + stringsSize ts := rfl

theorem length_le_stringsSize : ∀ ts : List (List UInt8), ts.length ≤ stringsSize ts
  | [] => Nat.le_refl _
  | t :: ts => by
      have := length_le_stringsSize ts
      rw [stringsSize_cons, List.length_cons]
      omega

theorem stringsSize_splitOn : ∀ l : List UInt8, stringsSize (l.splitOn d) = l.length + 1
  | [] => rfl
  | c :: l => by
      have ih := stringsSize_splitOn l
      rw [List.splitOn_cons_eq_if_modifyHead, List.length_cons]
      split
      · rw [stringsSize_cons, ih, List.length_nil]
        omega
      · cases hs : l.splitOn d with
        | nil =>
            rw [hs] at ih
            cases ih
        | cons t ts =>
            rw [hs, stringsSize_cons] at ih
            rw [List.modifyHead_cons, stringsSize_cons, List.length_cons]
            omega

/-! ### One call -/

/-- The first loop of `strtok_r` stops at a suffix `w` with the same parts. -/
theorem skipDelimiters_spec (hd : d ≠ 0) : ∀ {cmd : List UInt8} {s fuel : ℕ}, m.IsString s cmd →
    cmd.length < fuel → ∃ k w, skipDelimiters m [d] fuel s = some (s + k) ∧
      k + w.length = cmd.length ∧ m.IsString (s + k) w ∧ pieces d w = pieces d cmd ∧
      ∀ r, w ≠ d :: r
  | [], s, fuel + 1, hs, _ => by
      have h0 := Mem.isString_nil.mp hs
      refine ⟨0, [], ?_, rfl, hs, rfl, fun r h => by cases h⟩
      simp [skipDelimiters, strchr, h0]
  | c :: cmd, s, fuel + 1, hs, hl => by
      obtain ⟨hc, hc0, hrest⟩ := Mem.isString_cons.mp hs
      rw [List.length_cons] at hl
      by_cases h : c = d
      · rw [h] at hc ⊢
        obtain ⟨k, w, hskip, hlen, hw, htok, hhead⟩ :=
          skipDelimiters_spec hd hrest (show cmd.length < fuel by omega)
        have he : s + 1 + k = s + (k + 1) := by omega
        rw [he] at hskip hw
        refine ⟨k + 1, w, ?_, by rw [List.length_cons]; omega, hw, ?_, hhead⟩
        · unfold skipDelimiters
          rw [hc, if_pos (by simp [strchr]), if_neg hd, hskip]
        · rw [htok, pieces_delim]
      · refine ⟨0, c :: cmd, ?_, by omega, hs, rfl, fun r he => h (List.cons.inj he).1⟩
        have hstop : strchr [d] c = false := by simp [strchr, h, hc0]
        unfold skipDelimiters
        simp [hc, hstop]

/-- The second loop stops after the bytes `t` before the next delimiter. -/
theorem skipToken_spec : ∀ {w : List UInt8} {s fuel : ℕ}, m.IsString s w → w.length < fuel →
    ∃ t r, skipToken m [d] fuel s = some (s + t.length) ∧ w = t ++ r ∧ d ∉ t ∧
      (r = [] ∨ ∃ r', r = d :: r')
  | [], s, fuel + 1, hs, _ => by
      have h0 := Mem.isString_nil.mp hs
      refine ⟨[], [], ?_, rfl, List.not_mem_nil, .inl rfl⟩
      simp [skipToken, strchr, h0]
  | c :: w, s, fuel + 1, hs, hl => by
      obtain ⟨hc, hc0, hrest⟩ := Mem.isString_cons.mp hs
      rw [List.length_cons] at hl
      by_cases h : c = d
      · subst h
        refine ⟨[], c :: w, ?_, rfl, List.not_mem_nil, .inr ⟨w, rfl⟩⟩
        simp [skipToken, strchr, hc]
      · obtain ⟨t, r, hskip, rfl, hmem, hr⟩ := skipToken_spec hrest (show w.length < fuel by omega)
        have hd : strchr [d] c = false := by simp [strchr, h, hc0]
        refine ⟨c :: t, r, ?_, rfl, ?_, hr⟩
        · unfold skipToken
          rw [hc, hd, hskip, List.length_cons]
          simp [Nat.add_assoc, Nat.add_comm 1]
        · rw [List.mem_cons, not_or]
          exact ⟨fun he => h he.symm, hmem⟩

/-- One call of `strtok_r` on a string with a first token: where the token is, and where the
next call goes on. -/
structure CutAt (d : UInt8) (m m' : Mem) (s : ℕ) (cmd t : List UInt8) (ts : List (List UInt8))
    (p s' : ℕ) (cmd' : List UInt8) : Prop where
  start : s ≤ p
  token : m'.IsString p t
  save : p + t.length ≤ s'
  rest : m'.IsString s' cmd'
  pieces : pieces d cmd' = ts
  stop : s' + cmd'.length = s + cmd.length
  shorter : cmd'.length < cmd.length
  others : ∀ x, m' x ≠ m x → s ≤ x ∧ m' x = 0

theorem strtok_none (hd : d ≠ 0) (hs : m.IsString s cmd) (hl : cmd.length < size)
    (h : pieces d cmd = []) : ∃ s', strtok size m s [d] = some (none, m, s') := by
  obtain ⟨k, w, hskip, hlen, hw, htok, hhead⟩ := skipDelimiters_spec hd hs hl
  obtain ⟨t, r, -, rfl, hmem, hr⟩ := skipToken_spec (d := d) hw (show w.length < size by omega)
  have hend : m (s + k) = 0 := by
    obtain rfl | ht := eq_or_ne t []
    · obtain rfl | ⟨r', rfl⟩ := hr
      · exact Mem.isString_nil.mp hw
      · exact absurd rfl (hhead r')
    · rw [h] at htok
      obtain rfl | ⟨r', rfl⟩ := hr
      · rw [List.append_nil, pieces_last ht hmem] at htok
        cases htok
      · rw [pieces_token ht hmem] at htok
        cases htok
  refine ⟨s + k, ?_⟩
  unfold strtok
  rw [hskip, Option.bind_eq_bind, Option.bind_some, if_pos hend]

theorem strtok_some (hd : d ≠ 0) (hs : m.IsString s cmd) (hl : cmd.length < size)
    (h : pieces d cmd = t :: ts) :
    ∃ p m' s' cmd', strtok size m s [d] = some (some p, m', s') ∧
      CutAt d m m' s cmd t ts p s' cmd' := by
  obtain ⟨k, w, hskip, hlen, hw, htok, hhead⟩ := skipDelimiters_spec hd hs hl
  obtain ⟨u, r, hstop, rfl, hmem, hr⟩ := skipToken_spec (d := d) hw (show w.length < size by omega)
  rw [List.length_append] at hlen
  have hu : u ≠ [] := by
    rintro rfl
    obtain rfl | ⟨r', rfl⟩ := hr
    · rw [h] at htok
      cases htok
    · exact hhead r' rfl
  have hpos := List.length_pos_iff.mpr hu
  have hfirst : m (s + k) ≠ 0 := by
    obtain ⟨c, v, rfl⟩ := List.exists_cons_of_ne_nil hu
    obtain ⟨hc, hc0, -⟩ := Mem.isString_cons.mp hw
    rwa [hc]
  have hend := hw.suffix
  unfold strtok
  rw [hskip, Option.bind_eq_bind, Option.bind_some, if_neg hfirst, hstop]
  rw [h] at htok
  obtain rfl | ⟨r', rfl⟩ := hr
  · -- the token is the last one: its own null byte ends it
    rw [List.append_nil] at htok hw
    rw [pieces_last hu hmem, List.cons.injEq] at htok
    obtain ⟨rfl, rfl⟩ := htok
    refine ⟨s + k, m, s + k + u.length, [], ?_, by omega, hw, Nat.le_refl _, hend, rfl, ?_, ?_,
      fun x hx => absurd rfl hx⟩
    · simp [Mem.isString_nil.mp hend]
    · simp only [List.length_nil] at hlen ⊢
      omega
    · simp only [List.length_nil] at hlen ⊢
      omega
  · -- the delimiter after the token is overwritten
    rw [pieces_token hu hmem, List.cons.injEq] at htok
    obtain ⟨rfl, rfl⟩ := htok
    obtain ⟨hdelim, -, hrest⟩ := Mem.isString_cons.mp hend
    rw [List.length_cons] at hlen
    refine ⟨s + k, m.write (s + k + u.length) [0], s + k + u.length + 1, r', ?_, by omega, hw.cut,
      by omega, ?_, rfl, by omega, by omega, fun x hx => ?_⟩
    · simp [hdelim, hd]
    · exact hrest.congr fun x hx _ => Mem.write_above (by simp; omega)
    · obtain hlt | rfl | hgt := Nat.lt_trichotomy x (s + k + u.length)
      · exact absurd (Mem.write_below hlt) hx
      · exact ⟨by omega, by simp [Mem.write]⟩
      · exact absurd (Mem.write_above (by simp; omega)) hx

end CSE130.Lab3
