import Mathlib.Data.List.Basic
import Mathlib.Data.List.TakeDrop
import Mathlib.Data.Nat.Notation
import Mathlib.Algebra.Ring.Nat

/-! # Byte-addressed memory

A memory is a function from addresses to bytes; a block of it is read and written as a list.
A read of what was written gives it back (`read_write_self`), and reads elsewhere do not see a
write (`read_write_of_disjoint`).  On top of it stand the words of four bytes, the least
significant first, and the strings that end with a zero byte. -/

namespace CSE130

/-- A memory. -/
abbrev Mem := ℕ → UInt8

namespace Mem

variable {m m' : Mem} {a b n k v : ℕ} {bs s : List UInt8}

/-- The `n` bytes from `a` on. -/
def read (m : Mem) (a n : ℕ) : List UInt8 := (List.range n).map fun i => m (a + i)

/-- Overwrite the bytes from `a` on. -/
def write (m : Mem) (a : ℕ) (bs : List UInt8) : Mem :=
  fun x => if a ≤ x then (bs[x - a]?).getD (m x) else m x

@[simp] theorem read_length : (m.read a n).length = n := by simp [read]

theorem read_getElem? (h : k < n) : (m.read a n)[k]? = some (m (a + k)) := by
  simp [read, h]

theorem read_congr (h : ∀ x, a ≤ x → x < a + n → m' x = m x) : m'.read a n = m.read a n := by
  unfold read
  refine List.map_congr_left fun i hi => ?_
  have := List.mem_range.mp hi
  exact h _ (by omega) (by omega)

theorem read_add : m.read a (n + k) = m.read a n ++ m.read (a + n) k := by
  unfold read
  rw [List.range_add, List.map_append, List.map_map]
  simp [Function.comp_def, Nat.add_assoc]

theorem write_below {x : ℕ} (h : x < a) : m.write a bs x = m x := by
  unfold write
  rw [if_neg (by omega)]

theorem write_above {x : ℕ} (h : a + bs.length ≤ x) : m.write a bs x = m x := by
  unfold write
  rw [if_pos (by omega), List.getElem?_eq_none (by omega), Option.getD_none]

theorem read_write_self : (m.write a bs).read a bs.length = bs := by
  refine List.ext_getElem? fun i => ?_
  by_cases hi : i < bs.length
  · rw [read_getElem? hi, List.getElem?_eq_getElem hi]
    simp [write, hi]
  · rw [List.getElem?_eq_none (by simp; omega), List.getElem?_eq_none (by omega)]

/-- Writes elsewhere are not seen. -/
theorem read_write_of_disjoint (h : b + n ≤ a ∨ a + bs.length ≤ b) :
    (m.write a bs).read b n = m.read b n := by
  refine read_congr fun x hx hx' => ?_
  rcases h with h | h
  · exact write_below (by omega)
  · exact write_above (by omega)

/-! ### Words -/

/-- The four bytes of a word. -/
def wordBytes (v : ℕ) : List UInt8 :=
  [UInt8.ofNat v, UInt8.ofNat (v / 256), UInt8.ofNat (v / 65536), UInt8.ofNat (v / 16777216)]

@[simp] theorem wordBytes_length : (wordBytes v).length = 4 := rfl

/-- The word at `a`. -/
def word (m : Mem) (a : ℕ) : ℕ :=
  (m a).toNat + (m (a + 1)).toNat * 256 + (m (a + 2)).toNat * 65536 + (m (a + 3)).toNat * 16777216

theorem word_of_read (h : m.read a 4 = wordBytes v) (hv : v < 2 ^ 32) : m.word a = v := by
  simp only [read, List.range, List.range.loop, List.map_cons, List.map_nil, wordBytes,
    List.cons.injEq, Nat.add_zero] at h
  unfold word
  rw [h.1, h.2.1, h.2.2.1, h.2.2.2.1]
  simp only [UInt8.toNat_ofNat']
  omega

/-! ### Strings -/

/-- The string `s` is at `a`. -/
structure IsString (m : Mem) (a : ℕ) (s : List UInt8) : Prop where
  read : m.read a (s.length + 1) = s ++ [0]
  nonzero : 0 ∉ s

theorem IsString.congr (hs : m.IsString a s) (h : ∀ x, a ≤ x → x ≤ a + s.length → m' x = m x) :
    m'.IsString a s :=
  ⟨(read_congr fun x hx hx' => h x hx (by omega)).trans hs.read, hs.nonzero⟩

theorem isString_nil : m.IsString a [] ↔ m a = 0 := by
  constructor
  · intro h
    have := h.read
    simpa [Mem.read] using this
  · intro h
    exact ⟨by simp [Mem.read, h], List.not_mem_nil⟩

theorem isString_cons {c : UInt8} : m.IsString a (c :: s) ↔ m a = c ∧ c ≠ 0 ∧ m.IsString (a + 1) s := by
  have hread : m.read a ((c :: s).length + 1) = m a :: m.read (a + 1) (s.length + 1) := by
    rw [List.length_cons, Nat.add_comm (s.length + 1), read_add]
    simp [Mem.read]
  constructor
  · intro h
    have hr := h.read
    rw [hread, List.cons_append, List.cons.injEq] at hr
    have hn := h.nonzero
    rw [List.mem_cons, not_or] at hn
    exact ⟨hr.1, fun hc => hn.1 hc.symm, hr.2, hn.2⟩
  · rintro ⟨rfl, hc, h⟩
    refine ⟨by rw [hread, h.read, List.cons_append], ?_⟩
    rw [List.mem_cons, not_or]
    exact ⟨fun h => hc h.symm, h.nonzero⟩

theorem IsString.read_prefix {t : List UInt8} (h : m.IsString a (s ++ t)) :
    m.read a s.length = s := by
  have hr := h.read
  rw [List.length_append, Nat.add_assoc, read_add, List.append_assoc] at hr
  exact List.append_inj_left hr (by simp)

/-- A null byte cuts a string. -/
theorem IsString.cut {t : List UInt8} (h : m.IsString a (s ++ t)) :
    (m.write (a + s.length) [0]).IsString a s := by
  have hself : (m.write (a + s.length) [0]).read (a + s.length) 1 = [0] := read_write_self
  refine ⟨?_, fun h0 => h.nonzero (List.mem_append_left t h0)⟩
  rw [read_add, hself, read_write_of_disjoint (by simp), h.read_prefix]

/-- A suffix of a string is a string. -/
theorem IsString.suffix : ∀ {s t : List UInt8} {a : ℕ}, m.IsString a (s ++ t) →
    m.IsString (a + s.length) t
  | [], _, _, h => h
  | c :: s, t, a, h => by
      have := (isString_cons.mp h).2.2.suffix
      rw [List.length_cons]
      rwa [Nat.add_assoc, Nat.add_comm 1] at this

theorem IsString.stop (h : m.IsString a s) : m (a + s.length) = 0 :=
  isString_nil.mp (suffix ((List.append_nil s).symm ▸ h))

/-- A string is not touched by what writes zeros from its null byte on. -/
theorem IsString.before (hs : m.IsString a s) (hb : a + s.length ≤ b)
    (h : ∀ x, m' x ≠ m x → b ≤ x ∧ m' x = 0) : m'.IsString a s := by
  refine hs.congr fun x _ hx => Classical.byContradiction fun hne => ?_
  obtain ⟨hbx, h0⟩ := h x hne
  obtain rfl : x = a + s.length := by omega
  exact hne (h0.trans hs.stop.symm)

end Mem

end CSE130
