import Mathlib.Data.UInt
import Mathlib.Data.Finite.Prod
import Mathlib.Data.Fintype.Pi
import Mathlib.Dynamics.PeriodicPts.Lemmas
import Mathlib.Logic.Equiv.Basic

/-! # Random bytes

`random_init` and `random_bytes` (`lib/random.c`) are the key schedule and the generator of RC4.  The
array `s` is a permutation of the bytes after every call, and the generator runs backwards as well as
forwards.  So after a seed its bytes repeat from the first one on (`randomBytes_periodic`), and it does
not get into the short cycles in which `j` is `i + 1` and `s[j]` is 1 (`calls_seeded`). -/

namespace CSE130.Lab3.Random

open Function (update Bijective)

/-- The static variables. -/
structure Rc4 where
  s : UInt8 → UInt8
  i : UInt8
  j : UInt8
  inited : Bool

/-- `swap_byte` on two bytes of the array. -/
def swapByte (s : UInt8 → UInt8) (a b : UInt8) : UInt8 → UInt8 :=
  let t := s a
  update (update s a (s b)) b t

/-- `seedp[k]`, the bytes of the seed, the lowest first. -/
def seedp (seed : ℕ) (k : ℕ) : UInt8 := UInt8.ofNat (seed / 256 ^ k)

/-- One round of the second loop of `random_init`. -/
def initRound (seed : ℕ) (r : (UInt8 → UInt8) × UInt8) (i : ℕ) : (UInt8 → UInt8) × UInt8 :=
  let j := r.2 + (r.1 (UInt8.ofNat i) + seedp seed (i % 4))
  (swapByte r.1 (UInt8.ofNat i) j, j)

/-- `random_init`. -/
def randomInit (seed : ℕ) : Rc4 where
  s := ((List.range 256).foldl (initRound seed) (id, 0)).1
  i := 0
  j := 0
  inited := true

/-- One round of the loop of `random_bytes`, without its byte. -/
def advance (r : Rc4) : Rc4 :=
  let i := r.i + 1
  let j := r.j + r.s i
  { r with i := i, j := j, s := swapByte r.s i j }

/-- The byte of the round. -/
def byte (r : Rc4) : UInt8 := r.s (r.s r.i + r.s r.j)

/-- The loop of `random_bytes`. -/
def randomLoop : ℕ → Rc4 → List UInt8 × Rc4
  | 0, r => ([], r)
  | size + 1, r =>
      let r := advance r
      let rest := randomLoop size r
      (byte r :: rest.1, rest.2)

/-- `random_bytes`: the bytes and the state. -/
def randomBytes (size : ℕ) (r : Rc4) : List UInt8 × Rc4 :=
  randomLoop size (if r.inited then r else randomInit 0)

/-- The calls of the module; `random_ulong` is one of four bytes. -/
inductive Call where
  | init (seed : ℕ)
  | bytes (size : ℕ)

/-- The state after a call. -/
def call (r : Rc4) : Call → Rc4
  | .init seed => randomInit seed
  | .bytes size => (randomBytes size r).2

/-- The static variables before the first call. -/
def start : Rc4 := ⟨fun _ => 0, 0, 0, false⟩

variable {r r' : Rc4} {s : UInt8 → UInt8} {a b : UInt8} {seed size m n : ℕ} {calls : List Call}

/-! ### Permutations -/

theorem swapByte_eq : swapByte s a b = s ∘ Equiv.swap a b := by
  funext x
  unfold swapByte
  simp only [Function.update_apply, Function.comp_apply, Equiv.swap_apply_def]
  split_ifs <;> simp_all

theorem Bijective.swapByte (h : Bijective s) : Bijective (swapByte s a b) := by
  rw [swapByte_eq]
  exact h.comp (Equiv.swap a b).bijective

theorem randomInit_bijective : Bijective (randomInit seed).s := by
  have hfold : ∀ l : List ℕ, ∀ r : (UInt8 → UInt8) × UInt8, Bijective r.1 →
      Bijective (l.foldl (initRound seed) r).1 := by
    intro l
    induction l with
    | nil => exact fun _ h => h
    | cons i l ih => exact fun r h => ih _ (Bijective.swapByte h)
  exact hfold _ _ Function.bijective_id

theorem advance_bijective (h : Bijective r.s) : Bijective (advance r).s := Bijective.swapByte h

theorem randomLoop_snd : (randomLoop n r).2 = advance^[n] r := by
  induction n generalizing r with
  | zero => rfl
  | succ n ih => exact ih

@[simp] theorem iterate_inited : (advance^[n] r).inited = r.inited := by
  induction n generalizing r with
  | zero => rfl
  | succ n ih => exact ih

theorem iterate_bijective (h : Bijective r.s) : Bijective (advance^[n] r).s := by
  induction n generalizing r with
  | zero => exact h
  | succ n ih => exact ih (advance_bijective h)

/-- The bytes of one long call are those of two short ones. -/
theorem randomLoop_add : randomLoop (m + n) r =
    ((randomLoop m r).1 ++ (randomLoop n (randomLoop m r).2).1,
      (randomLoop n (randomLoop m r).2).2) := by
  induction m generalizing r with
  | zero => simp [randomLoop]
  | succ m ih =>
      rw [Nat.succ_add]
      simp only [randomLoop, ih, List.cons_append]

/-! ### Running backwards -/

/-- The round before. -/
def retreat (r : Rc4) : Rc4 :=
  let s := swapByte r.s r.i r.j
  { r with i := r.i - 1, j := r.j - s r.i, s := s }

theorem retreat_advance : retreat (advance r) = r := by
  have hs : swapByte (swapByte r.s (r.i + 1) (r.j + r.s (r.i + 1))) (r.i + 1)
      (r.j + r.s (r.i + 1)) = r.s := by
    rw [swapByte_eq, swapByte_eq, Function.comp_assoc, ← Equiv.coe_trans, Equiv.swap_swap,
      Equiv.coe_refl, Function.comp_id]
  unfold retreat advance
  simp only [hs]
  cases r
  simp

theorem advance_injective : Function.Injective advance :=
  Function.LeftInverse.injective fun _ => retreat_advance

instance finite_uInt8 : Finite UInt8 := Finite.of_injective UInt8.toFin fun _ _ => UInt8.toFin_inj.mp

instance : Finite Rc4 :=
  Finite.of_injective (fun r : Rc4 => (r.s, r.i, r.j, r.inited)) fun r r' h => by
    cases r
    cases r'
    simp_all

theorem exists_iterate_eq (r : Rc4) : ∃ n > 0, advance^[n] r = r :=
  Function.mem_periodicPts.mp (advance_injective.mem_periodicPts r)

/-- **The bytes repeat from the first one on.** -/
theorem randomBytes_periodic (seed : ℕ) : ∃ n > 0, (randomBytes n (randomInit seed)).2 = randomInit seed ∧
    ∀ m, (randomBytes (n + m) (randomInit seed)).1 =
      (randomBytes n (randomInit seed)).1 ++ (randomBytes m (randomInit seed)).1 := by
  obtain ⟨n, hpos, hn⟩ := exists_iterate_eq (randomInit seed)
  have hback : (randomLoop n (randomInit seed)).2 = randomInit seed := by rw [randomLoop_snd, hn]
  refine ⟨n, hpos, hback, fun m => ?_⟩
  have hadd := congrArg Prod.fst (randomLoop_add (m := n) (n := m) (r := randomInit seed))
  rw [hback] at hadd
  exact hadd

/-! ### Calls -/

/-- A state of a generator that has been seeded: the array is a permutation. -/
structure Seeded (r : Rc4) : Prop where
  inited : r.inited = true
  bijective : Bijective r.s

theorem randomInit_seeded : Seeded (randomInit seed) := ⟨rfl, randomInit_bijective⟩

/-- `j` is one more than `i`, and its entry is 1. -/
def Short (r : Rc4) : Prop := r.j = r.i + 1 ∧ r.s r.j = 1

theorem short_advance : Short (advance r) ↔ Short r := by
  unfold Short advance
  simp only [swapByte_eq, Function.comp_apply, Equiv.swap_apply_right]
  constructor
  · rintro ⟨hj, h1⟩
    rw [h1] at hj
    have hj' : r.j = r.i + 1 := add_right_cancel hj
    exact ⟨hj', by rw [hj', h1]⟩
  · rintro ⟨hj, h1⟩
    rw [hj] at h1
    exact ⟨by rw [hj, h1], h1⟩

theorem short_iterate : Short (advance^[n] r) ↔ Short r := by
  induction n generalizing r with
  | zero => exact Iff.rfl
  | succ n ih => exact ih.trans short_advance

theorem randomInit_not_short : ¬ Short (randomInit seed) := by
  rintro ⟨hj, -⟩
  exact absurd hj (by decide : (0 : UInt8) ≠ 0 + 1)

/-- One call from a state that is as it should be, or is the first one. -/
theorem call_seeded (c : Call) (h : Seeded r ∧ ¬ Short r ∨ r.inited = false) :
    Seeded (call r c) ∧ ¬ Short (call r c) := by
  cases c with
  | init seed => exact ⟨randomInit_seeded, randomInit_not_short⟩
  | bytes size =>
      have hgo : ∀ r, Seeded r → ¬ Short r →
          Seeded (randomLoop size r).2 ∧ ¬ Short (randomLoop size r).2 := by
        intro r hr hshort
        rw [randomLoop_snd, short_iterate]
        exact ⟨⟨by rw [iterate_inited, hr.inited], iterate_bijective hr.bijective⟩, hshort⟩
      unfold call randomBytes
      rcases h with ⟨hr, hshort⟩ | hr
      · rw [if_pos hr.inited]
        exact hgo r hr hshort
      · rw [hr]
        exact hgo _ randomInit_seeded randomInit_not_short

/-- **The generator stays a generator**: after any calls the array is a permutation, and the state is in
none of the short cycles. -/
theorem calls_seeded (c : Call) (calls : List Call) :
    Seeded ((c :: calls).foldl call start) ∧ ¬ Short ((c :: calls).foldl call start) := by
  have hrun : ∀ (calls : List Call) (r : Rc4), Seeded r ∧ ¬ Short r →
      Seeded (calls.foldl call r) ∧ ¬ Short (calls.foldl call r) := by
    intro calls
    induction calls with
    | nil => exact fun _ h => h
    | cons c calls ih => exact fun r h => ih _ (call_seeded c (Or.inl h))
  exact hrun calls _ (call_seeded c (Or.inr rfl))

end CSE130.Lab3.Random
