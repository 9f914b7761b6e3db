import CSE130.Lab3.Strtok
import Mathlib.Data.List.Forall2

/-! # The arguments of a process

`start_process` cuts the command line into tokens with `strtok_r` and, once the executable is
loaded, `push_command` lays them out on the page that `setup_stack` maps at the top of user
memory.  The user program finds there exactly the tokens it was called with
(`argument_passing`).

The command line is in a page of its own (`process_execute` allocates it), so the loops over a
string stop within `PGSIZE` bytes: this is the fuel they are given. -/

namespace CSE130.Lab3

/-- `PGSIZE`. -/
def pgsize : ℕ := 4096

/-- `PHYS_BASE`. -/
def physBase : ℕ := 3221225472

/-- `strtok_r`, from `s` or from the saved position: the token or `NULL`, the memory and the
position saved. -/
def strtokR (m : Mem) (s : ℕ) (delimiters : List UInt8) : Option (Option ℕ × Mem × ℕ) := do
  let token ← skipDelimiters m delimiters pgsize s
  if m token = 0 then
    some (none, m, token)
  else
    let e ← skipToken m delimiters pgsize token
    if m e ≠ 0 then some (some token, m.write e [0], e + 1) else some (some token, m, e)

/-! ### userprog/process.c, userprog/elf.c -/

/-- The loop of `start_process` over the tokens: `argv` and the memory. -/
def tokenise : ℕ → Mem → ℕ → Option (List ℕ × Mem)
  | 0, _, _ => none
  | fuel + 1, m, s => do
      let (token, m, save) ← strtokR m s [32]
      match token with
      | none => some ([], m)
      | some t =>
          let (argv, m) ← tokenise fuel m save
          some (t :: argv, m)

/-- `setup_stack`: a zeroed page at the top of user memory, and the stack pointer. -/
def setupStack (m : Mem) : Mem × ℕ :=
  (fun x => if physBase - pgsize ≤ x ∧ x < physBase then 0 else m x, physBase)

/-- Clear the two low bits. -/
def wordAlign (esp : ℕ) : ℕ := esp - esp % 4

/-- The loop of `push_command` over the strings, the last one first: `argv_addr`, the memory and
the stack pointer. -/
def pushStrings : List ℕ → Mem → ℕ → Option (List ℕ × Mem × ℕ)
  | [], m, esp => some ([], m, esp)
  | p :: argv, m, esp => do
      let (addr, m, esp) ← pushStrings argv m esp
      let sLen := (← strlen m pgsize p) + 1
      let esp := esp - sLen
      some (esp :: addr, m.write esp (m.read p sLen), esp)

/-- The loop of `push_command` over the addresses, the last one first. -/
def pushPointers : List ℕ → Mem → ℕ → Mem × ℕ
  | [], m, esp => (m, esp)
  | a :: addr, m, esp =>
      let (m, esp) := pushPointers addr m esp
      (m.write (esp - 4) (Mem.wordBytes a), esp - 4)

/-- `push_command (argv, argc, &esp)`.  The null sentinel and the return address are skipped, not
written. -/
def pushCommand (m : Mem) (argv : List ℕ) (esp : ℕ) : Option (Mem × ℕ) := do
  let (addr, m, esp) ← pushStrings argv m (wordAlign esp)
  let (m, esp) := pushPointers addr m (wordAlign esp - 4)
  let m := m.write (esp - 4) (Mem.wordBytes esp)
  let m := m.write (esp - 8) (Mem.wordBytes argv.length)
  some (m, esp - 12)

/-- `start_process (cmdline)`, up to the return of `push_command`.  `load` is what a successful
`elf_load (argv[0])` does to the memory before it comes to `setup_stack`. -/
def startProcess (load : ℕ → Mem → Mem) (m : Mem) (cmdline : ℕ) : Option (Mem × ℕ) := do
  let (argv, m) ← tokenise pgsize m cmdline
  let file ← argv.head?
  let (m, esp) := setupStack (load file m)
  pushCommand m argv esp

/-! ### What the user program finds -/

/-- The tokens of a command line. -/
def tokens (cmd : List UInt8) : List (List UInt8) := (cmd.splitOn 32).filter (· ≠ [])

/-- The bytes that the arguments take on the stack: the strings rounded up to words, the null
sentinel, the addresses and three header words. -/
def frameSize (args : List (List UInt8)) : ℕ :=
  (stringsSize args + 3) / 4 * 4 + 4 + 4 * args.length + 12

/-- The stack below which `esp` stands holds the arguments `args`: the strings, `argv` and the
header words are in disjoint parts of the stack page, in this order from the top. -/
structure Decodes (m : Mem) (esp : ℕ) (args : List (List UInt8)) : Prop where
  page : physBase - pgsize ≤ esp
  aligned : 4 ∣ esp
  argc : m.word (esp + 4) = args.length
  argv : m.word (esp + 8) = esp + 12
  string : ∀ i t, args[i]? = some t → m.IsString (m.word (esp + 12 + 4 * i)) t
  null : m.word (esp + 12 + 4 * args.length) = 0
  above : ∀ i t, args[i]? = some t →
    esp + 12 + 4 * (args.length + 1) ≤ m.word (esp + 12 + 4 * i)
  below : ∀ i t, args[i]? = some t → m.word (esp + 12 + 4 * i) + t.length + 1 ≤ physBase
  apart : ∀ i j t u, args[i]? = some t → args[j]? = some u → i < j →
    m.word (esp + 12 + 4 * i) + t.length + 1 ≤ m.word (esp + 12 + 4 * j)

variable {m m' : Mem} {s p esp lo hi n fuel : ℕ} {cmd t : List UInt8}
  {ts args : List (List UInt8)} {argv addr : List ℕ}

/-! ### Tokens -/

theorem tokens_token (ht : t ≠ []) (h : (32 : UInt8) ∉ t) (l : List UInt8) :
    tokens (t ++ 32 :: l) = t :: tokens l := pieces_token ht h l

/-- One call of `strtok_r` on a string with a first token: where the token is, and where the
next call goes on. -/
structure Cut (m m' : Mem) (s : ℕ) (cmd t : List UInt8) (ts : List (List UInt8))
    (p s' : ℕ) (cmd' : List UInt8) : Prop where
  start : s ≤ p
  token : m'.IsString p t
  save : p + t.length ≤ s'
  rest : m'.IsString s' cmd'
  tokens : tokens cmd' = ts
  stop : s' + cmd'.length = s + cmd.length
  shorter : cmd'.length < cmd.length
  others : ∀ x, m' x ≠ m x → s ≤ x ∧ m' x = 0

theorem strtokR_none (hs : m.IsString s cmd) (hl : cmd.length < pgsize) (h : tokens cmd = []) :
    ∃ s', strtokR m s [32] = some (none, m, s') :=
  strtok_none (by decide) hs hl h

theorem strtokR_some (hs : m.IsString s cmd) (hl : cmd.length < pgsize)
    (h : tokens cmd = t :: ts) :
    ∃ p m' s' cmd', strtokR m s [32] = some (some p, m', s') ∧
      Cut m m' s cmd t ts p s' cmd' := by
  obtain ⟨p, m', s', cmd', hcall, hcut⟩ := strtok_some (by decide) hs hl h
  exact ⟨p, m', s', cmd', hcall, hcut.start, hcut.token, hcut.save, hcut.rest, hcut.pieces,
    hcut.stop, hcut.shorter, hcut.others⟩

/-- The loop of `start_process` leaves each token as a string of its own, inside the command
line. -/
theorem tokenise_spec : ∀ {fuel s : ℕ} {m : Mem} {cmd : List UInt8} {ts : List (List UInt8)},
    m.IsString s cmd → cmd.length < pgsize → cmd.length < fuel → tokens cmd = ts →
    ∃ argv m', tokenise fuel m s = some (argv, m') ∧
      List.Forall₂ (fun p t => m'.IsString p t ∧ s ≤ p ∧ p + t.length ≤ s + cmd.length) argv ts ∧
      ∀ x, m' x ≠ m x → s ≤ x ∧ m' x = 0
  | fuel + 1, s, m, cmd, [], hs, hl, _, h => by
      obtain ⟨s', hcall⟩ := strtokR_none hs hl h
      refine ⟨[], m, ?_, .nil, fun x hx => absurd rfl hx⟩
      unfold tokenise
      rw [hcall]
      rfl
  | fuel + 1, s, m, cmd, t :: ts, hs, hl, hfuel, h => by
      obtain ⟨p, m₁, s', cmd', hcall, hcut⟩ := strtokR_some hs hl h
      have hshorter := hcut.shorter
      obtain ⟨argv, m₂, hloop, hall, hothers⟩ :=
        tokenise_spec hcut.rest (by omega) (show cmd'.length < fuel by omega) hcut.tokens
      have := hcut.start
      have := hcut.save
      have := hcut.stop
      refine ⟨p :: argv, m₂, ?_, .cons ⟨?_, hcut.start, by omega⟩ (hall.imp fun q u hq => ?_),
        fun x hx => ?_⟩
      · unfold tokenise
        rw [hcall, Option.bind_eq_bind, Option.bind_some]
        dsimp only
        rw [hloop]
        rfl
      · exact hcut.token.before hcut.save hothers
      · exact ⟨hq.1, by omega, by omega⟩
      · rcases eq_or_ne (m₂ x) (m₁ x) with he | he
        · rw [he] at hx ⊢
          exact hcut.others x hx
        · exact ⟨by have := (hothers x he).1; omega, (hothers x he).2⟩

/-! ### The stack -/

/-- The strings `ts` lie at the addresses `addr`, one after the other from `lo` to `hi`. -/
def Strings (m : Mem) : List ℕ → List (List UInt8) → ℕ → ℕ → Prop
  | [], [], lo, hi => lo = hi
  | a :: addr, t :: ts, lo, hi =>
      a = lo ∧ m.IsString a t ∧ Strings m addr ts (a + t.length + 1) hi
  | _, _, _, _ => False

/-- The words `vs` lie one after the other from `a` on. -/
def Words (m : Mem) : List ℕ → ℕ → Prop
  | [], _ => True
  | v :: vs, a => m.read a 4 = Mem.wordBytes v ∧ Words m vs (a + 4)

theorem Strings.le : ∀ {addr : List ℕ} {ts : List (List UInt8)} {lo hi : ℕ},
    Strings m addr ts lo hi → lo + stringsSize ts = hi ∧ addr.length = ts.length
  | [], [], lo, hi, h => ⟨h, rfl⟩
  | a :: addr, t :: ts, lo, hi, h => by
      obtain ⟨rfl, -, h⟩ := h
      obtain ⟨hle, hlen⟩ := h.le
      refine ⟨?_, by rw [List.length_cons, List.length_cons, hlen]⟩
      unfold stringsSize at *
      rw [List.map_cons, List.sum_cons]
      omega

theorem Strings.congr : ∀ {addr : List ℕ} {ts : List (List UInt8)} {lo hi : ℕ},
    Strings m addr ts lo hi → (∀ x, lo ≤ x → x < hi → m' x = m x) → Strings m' addr ts lo hi
  | [], [], lo, hi, h, _ => h
  | a :: addr, t :: ts, lo, hi, h, hm => by
      obtain ⟨rfl, ht, h⟩ := h
      have := h.le
      exact ⟨rfl, ht.congr fun x hx hx' => hm x hx (by omega),
        h.congr fun x hx hx' => hm x (by omega) hx'⟩

theorem Strings.getElem? : ∀ {addr : List ℕ} {ts : List (List UInt8)} {lo hi i : ℕ}
    {t : List UInt8}, Strings m addr ts lo hi → ts[i]? = some t →
    ∃ a, addr[i]? = some a ∧ m.IsString a t ∧ lo ≤ a ∧ a + t.length + 1 ≤ hi
  | [], [], _, _, _, _, _, hu => by simp at hu
  | [], _ :: _, _, _, _, _, h, _ => h.elim
  | a :: addr, t :: ts, lo, hi, 0, u, h, hu => by
      obtain ⟨rfl, ht, h⟩ := h
      rw [List.getElem?_cons_zero, Option.some.injEq] at hu
      have := h.le
      subst hu
      exact ⟨a, rfl, ht, Nat.le_refl _, by omega⟩
  | a :: addr, t :: ts, lo, hi, i + 1, u, h, hu => by
      obtain ⟨rfl, -, h⟩ := h
      rw [List.getElem?_cons_succ] at hu
      obtain ⟨b, hb, hstring, hlo, hhi⟩ := h.getElem? hu
      exact ⟨b, by rw [List.getElem?_cons_succ, hb], hstring, by omega, hhi⟩

/-- An earlier string ends before a later one starts. -/
theorem Strings.apart : ∀ {addr : List ℕ} {ts : List (List UInt8)} {lo hi i j a b : ℕ}
    {t : List UInt8}, Strings m addr ts lo hi → ts[i]? = some t → addr[i]? = some a →
    addr[j]? = some b → i < j → a + t.length + 1 ≤ b
  | c :: addr, t :: ts, lo, hi, 0, j + 1, a, b, u, h, hu, ha, hb, _ => by
      obtain ⟨rfl, -, h⟩ := h
      rw [List.getElem?_cons_zero, Option.some.injEq] at hu ha
      rw [List.getElem?_cons_succ] at hb
      subst hu ha
      have hj : j < ts.length := by
        rw [← h.le.2]
        exact (List.getElem?_eq_some_iff.mp hb).1
      obtain ⟨b', hb', -, hlo, -⟩ := h.getElem? (List.getElem?_eq_getElem hj)
      rw [hb, Option.some.injEq] at hb'
      omega
  | c :: addr, t :: ts, lo, hi, i + 1, j + 1, a, b, u, h, hu, ha, hb, hij => by
      obtain ⟨rfl, -, h⟩ := h
      rw [List.getElem?_cons_succ] at hu ha hb
      exact h.apart hu ha hb (by omega)

theorem Words.congr : ∀ {vs : List ℕ} {a : ℕ}, Words m vs a →
    (∀ x, a ≤ x → x < a + 4 * vs.length → m' x = m x) → Words m' vs a
  | [], _, _, _ => trivial
  | v :: vs, a, ⟨hv, h⟩, hm => by
      rw [List.length_cons] at hm
      exact ⟨(Mem.read_congr fun x hx hx' => hm x hx (by omega)).trans hv,
        h.congr fun x hx hx' => hm x (by omega) (by omega)⟩

theorem Words.getElem? : ∀ {vs : List ℕ} {a i v : ℕ}, Words m vs a → vs[i]? = some v →
    m.read (a + 4 * i) 4 = Mem.wordBytes v
  | v :: vs, a, 0, u, ⟨hv, _⟩, hu => by
      rw [List.getElem?_cons_zero, Option.some.injEq] at hu
      exact hu ▸ hv
  | v :: vs, a, i + 1, u, ⟨_, h⟩, hu => by
      rw [List.getElem?_cons_succ] at hu
      have he : a + 4 * (i + 1) = a + 4 + 4 * i := by omega
      rw [he]
      exact h.getElem? hu

/-- The strings are copied to the bytes below `esp`, which is below the originals. -/
theorem pushStrings_spec : ∀ {argv : List ℕ} {ts : List (List UInt8)},
    List.Forall₂ (fun p t => m.IsString p t ∧ esp ≤ p ∧ t.length < pgsize) argv ts →
    stringsSize ts ≤ esp →
    ∃ addr m', pushStrings argv m esp = some (addr, m', esp - stringsSize ts) ∧
      Strings m' addr ts (esp - stringsSize ts) esp ∧
      ∀ x, x < esp - stringsSize ts ∨ esp ≤ x → m' x = m x
  | [], [], _, _ => ⟨[], m, rfl, rfl, fun _ _ => rfl⟩
  | p :: argv, t :: ts, .cons hp hall, hsize => by
      have hsum : stringsSize (t :: ts) = t.length + 1 + stringsSize ts := rfl
      obtain ⟨addr, m₁, hloop, hstrings, hframe⟩ := pushStrings_spec hall (by omega)
      have ht : m₁.IsString p t :=
        hp.1.congr fun x hx _ => hframe x (.inr (Nat.le_trans hp.2.1 hx))
      have hlo : esp - stringsSize ts - (t.length + 1) = esp - stringsSize (t :: ts) := by omega
      have hread : m₁.read p (t.length + 1) = t ++ [0] := ht.read
      refine ⟨_ :: addr, m₁.write (esp - stringsSize (t :: ts)) (t ++ [0]), ?_,
        ⟨rfl, ⟨?_, ht.nonzero⟩, ?_⟩, fun x hx => ?_⟩
      · unfold pushStrings
        rw [hloop, Option.bind_eq_bind, Option.bind_some]
        dsimp only
        rw [strlen_spec ht hp.2.2, Option.bind_eq_bind, Option.bind_some, hlo, hread]
      · have := @Mem.read_write_self m₁ (esp - stringsSize (t :: ts)) (t ++ [0])
        rwa [List.length_append, List.length_singleton] at this
      · have he : esp - stringsSize (t :: ts) + t.length + 1 = esp - stringsSize ts := by omega
        rw [he]
        refine hstrings.congr fun x hx _ => Mem.write_above ?_
        rw [List.length_append, List.length_singleton]
        omega
      · rw [← hframe x (by omega)]
        rcases hx with hx | hx
        · exact Mem.write_below hx
        · refine Mem.write_above ?_
          rw [List.length_append, List.length_singleton]
          omega

theorem pushPointers_spec : ∀ {addr : List ℕ}, 4 * addr.length ≤ esp →
    ∃ m', pushPointers addr m esp = (m', esp - 4 * addr.length) ∧
      Words m' addr (esp - 4 * addr.length) ∧
      ∀ x, x < esp - 4 * addr.length ∨ esp ≤ x → m' x = m x
  | [], _ => ⟨m, rfl, trivial, fun _ _ => rfl⟩
  | a :: addr, hsize => by
      rw [List.length_cons] at hsize
      obtain ⟨m₁, hloop, hwords, hframe⟩ := pushPointers_spec (show 4 * addr.length ≤ esp by omega)
      have hlo : esp - 4 * addr.length - 4 = esp - 4 * (a :: addr).length := by
        rw [List.length_cons]
        omega
      refine ⟨m₁.write (esp - 4 * (a :: addr).length) (Mem.wordBytes a), ?_,
        ⟨Mem.read_write_self, ?_⟩, fun x hx => ?_⟩
      · unfold pushPointers
        rw [hloop]
        dsimp only
        rw [hlo]
      · rw [← hlo, Nat.sub_add_cancel (by omega)]
        exact hwords.congr fun x hx _ => Mem.write_above (by rw [Mem.wordBytes_length]; omega)
      · rw [List.length_cons] at hx
        rw [← hframe x (by omega), ← hlo]
        rcases hx with hx | hx
        · exact Mem.write_below (by omega)
        · exact Mem.write_above (by rw [Mem.wordBytes_length]; omega)

theorem pushCommand_spec
    (hargv : List.Forall₂ (fun p t => m.IsString p t ∧ physBase ≤ p ∧ t.length < pgsize) argv ts)
    (hzero : ∀ x, physBase - pgsize ≤ x → x < physBase → m x = 0)
    (hfit : frameSize ts ≤ pgsize) :
    ∃ m' esp, pushCommand m argv physBase = some (m', esp) ∧ Decodes m' esp ts := by
  unfold frameSize pgsize at hfit
  have halign : wordAlign physBase = physBase := rfl
  obtain ⟨addr, m₁, hstrs, hlaid, hframe₁⟩ := pushStrings_spec hargv (by unfold physBase; omega)
  -- `top` is the end of `argv`, `esp₃` its start
  obtain ⟨top, htop⟩ : ∃ top, top = wordAlign (physBase - stringsSize ts) - 4 := ⟨_, rfl⟩
  have htop' : top + 4 + (stringsSize ts + 3) / 4 * 4 = physBase := by
    unfold wordAlign physBase at *
    omega
  have hlen := hlaid.le.2
  obtain ⟨m₂, hptrs, hwords, hframe₂⟩ :=
    pushPointers_spec (m := m₁)
      (show 4 * addr.length ≤ top by unfold physBase at *; omega)
  obtain ⟨a, ha⟩ : ∃ a, top - 4 * addr.length = a + 12 :=
    ⟨top - 4 * addr.length - 12, by unfold physBase at *; omega⟩
  rw [ha] at hptrs hwords hframe₂
  let m₃ := (m₂.write (a + 8) (Mem.wordBytes (a + 12))).write (a + 4) (Mem.wordBytes argv.length)
  have hframe₃ : ∀ x, a + 12 ≤ x → m₃ x = m₂ x := fun x hx =>
    (Mem.write_above (by rw [Mem.wordBytes_length]; omega)).trans
      (Mem.write_above (by rw [Mem.wordBytes_length]; omega))
  have hbound : a + 12 < 2 ^ 32 := by unfold physBase at *; omega
  have hword : ∀ i b, addr[i]? = some b → b < physBase → m₃.word (a + 12 + 4 * i) = b :=
    fun i b hb hlt => Mem.word_of_read
      ((hwords.congr fun x hx _ => hframe₃ x hx).getElem? hb) (by unfold physBase at *; omega)
  have hstrings : Strings m₃ addr ts (physBase - stringsSize ts) physBase :=
    hlaid.congr fun x hx _ => (hframe₃ x (by omega)).trans (hframe₂ x (.inr (by omega)))
  -- the place of each string, as the pointers in `argv` give it
  have hplace : ∀ i t, ts[i]? = some t → ∃ b, addr[i]? = some b ∧ m₃.IsString b t ∧
      m₃.word (a + 12 + 4 * i) = b ∧ physBase - stringsSize ts ≤ b ∧
      b + t.length + 1 ≤ physBase := fun i t ht => by
    obtain ⟨b, hb, hstring, hlo, hhi⟩ := hstrings.getElem? ht
    exact ⟨b, hb, hstring, hword i b hb (by omega), hlo, hhi⟩
  refine ⟨m₃, a, ?_, ⟨?_, ?_, ?_, ?_, fun i t ht => ?_, ?_, fun i t ht => ?_, fun i t ht => ?_,
    fun i j t u ht hu hij => ?_⟩⟩
  · unfold pushCommand
    rw [halign, hstrs, Option.bind_eq_bind, Option.bind_some]
    dsimp only
    rw [← htop, hptrs]
    rfl
  · unfold physBase pgsize at *
    omega
  · unfold physBase wordAlign at *
    omega
  · rw [← hargv.length_eq]
    refine Mem.word_of_read Mem.read_write_self ?_
    rw [hargv.length_eq]
    omega
  · refine Mem.word_of_read ?_ hbound
    exact (Mem.read_write_of_disjoint (.inr (show a + 4 + 4 ≤ a + 8 by omega))).trans
      Mem.read_write_self
  · obtain ⟨b, -, hstring, he, -⟩ := hplace i t ht
    exact he ▸ hstring
  · have he : a + 12 + 4 * ts.length = top := by unfold physBase at *; omega
    have hbyte : ∀ x, top ≤ x → x < top + 4 → m₃ x = 0 := fun x hx hx' => by
      rw [hframe₃ x (by omega), hframe₂ x (.inr hx), hframe₁ x (.inl (by omega))]
      exact hzero x (by unfold physBase pgsize at *; omega) (by omega)
    rw [he]
    unfold Mem.word
    rw [hbyte top (by omega) (by omega), hbyte (top + 1) (by omega) (by omega),
      hbyte (top + 2) (by omega) (by omega), hbyte (top + 3) (by omega) (by omega)]
    rfl
  · obtain ⟨b, -, -, he, hlo, -⟩ := hplace i t ht
    rw [he]
    omega
  · obtain ⟨b, -, -, he, -, hhi⟩ := hplace i t ht
    exact he ▸ hhi
  · obtain ⟨b, hb, -, he, -⟩ := hplace i t ht
    obtain ⟨c, hc, -, he', -⟩ := hplace j u hu
    rw [he, he']
    exact hstrings.apart ht hb hc hij

/-- The arguments reach the program: after `start_process` the stack holds the tokens of the
command line, provided the frame fits in the stack page and loading the executable leaves the
page of the command line alone. -/
theorem argument_passing {load : ℕ → Mem → Mem} {cmdline : ℕ} (hcmd : m.IsString cmdline cmd)
    (hlen : cmd.length < pgsize) (hne : tokens cmd ≠ []) (hkernel : physBase ≤ cmdline)
    (hload : ∀ file m x, cmdline ≤ x → x < cmdline + pgsize → load file m x = m x)
    (hfit : frameSize (tokens cmd) ≤ pgsize) :
    ∃ m' esp, startProcess load m cmdline = some (m', esp) ∧ Decodes m' esp (tokens cmd) := by
  obtain ⟨argv, m₁, htok, hall, -⟩ := tokenise_spec hcmd hlen hlen rfl
  cases argv with
  | nil => exact absurd (List.forall₂_nil_left_iff.mp hall) hne
  | cons file argv =>
    have hkeep : ∀ x, cmdline ≤ x → x < cmdline + pgsize → (setupStack (load file m₁)).1 x = m₁ x :=
      fun x hx hx' => (if_neg (by omega)).trans (hload file m₁ x hx hx')
    have hargv : List.Forall₂ (fun p t => (setupStack (load file m₁)).1.IsString p t ∧
        physBase ≤ p ∧ t.length < pgsize) (file :: argv) (tokens cmd) :=
      hall.imp fun p t h => ⟨h.1.congr fun x hx hx' => hkeep x (by omega) (by omega),
        by omega, by omega⟩
    obtain ⟨m', esp, hpush, hdec⟩ := pushCommand_spec hargv (fun x hx hx' => if_pos ⟨hx, hx'⟩) hfit
    refine ⟨m', esp, ?_, hdec⟩
    unfold startProcess
    rw [htok, Option.bind_eq_bind, Option.bind_some]
    exact hpush

/-- `echo  hi` -/
def echoHi : List UInt8 := [101, 99, 104, 111, 32, 32, 104, 105]

/-- The command line in the page at 3222274048. -/
def echoMem : Mem := Mem.write (fun _ => 0) 3222274048 echoHi

theorem argument_passing_echo : ∃ m' esp,
    startProcess (fun _ m => m) echoMem 3222274048 = some (m', esp) ∧
      Decodes m' esp [[101, 99, 104, 111], [104, 105]] := by
  have htok : tokens echoHi = [[101, 99, 104, 111], [104, 105]] := by decide
  have hcmd : echoMem.IsString 3222274048 echoHi := ⟨by decide, by decide⟩
  have hload : ∀ (file : ℕ) (m : Mem) x, 3222274048 ≤ x → x < 3222274048 + pgsize → m x = m x :=
    fun _ _ _ _ _ => rfl
  have := argument_passing hcmd (by decide) (by rw [htok]; decide) (by decide) hload
    (by rw [htok]; decide)
  rwa [htok] at this

end CSE130.Lab3
