import Mathlib.Data.List.Basic
import Mathlib.Data.Int.Basic
import Mathlib.Algebra.Ring.Int.Defs

/-! # The file copy of Assignment 6 (`fileman.c`)

`fileman_copy` reads a buffer and writes it until a read does not fill the buffer.  What the calls of
`read` and `write` return is given (`Calls`), a result for every round of the loop; `Allowed` says
which results there can be for a file of these contents.

A read that fails is not noticed: its `-1` is passed to `write` as a size, and added to the sum.  A
write that writes less is not noticed either, and a read that reads less is taken for the last. -/

namespace CSE130.Assignment6

/-- `BUF_SIZE`. -/
def bufSize : ℕ := 4096

/-- `INT_MAX`. -/
def intMax : ℤ := 2 ^ 31 - 1

/-- The descriptors that `fileman_copy` opens. -/
inductive Fd where
  | fExists
  | srcid
  | destid
  deriving DecidableEq

/-- What `read` or `write` returns. -/
inductive Result where
  | error
  | count (n : ℕ)
  deriving DecidableEq

/-- What the calls return. -/
structure Calls where
  /-- `open (fdest, O_WRONLY)` succeeds. -/
  destOpens : Bool
  /-- `open (fsrc, O_RDONLY)` succeeds. -/
  srcOpens : Bool
  /-- `creat (fdest, S_IRWXU)` succeeds. -/
  destCreated : Bool
  read : ℕ → Result
  write : ℕ → Result
  /-- The memory from `buf` on, which is written after a read that fails. -/
  memory : ℕ → List UInt8

/-- What `fileman_copy` returns and leaves behind: `fdest`, and the descriptors not closed. -/
structure Run where
  value : ℤ
  dest : Option (List UInt8)
  opened : List Fd
  deriving DecidableEq

/-- The loop goes on for longer, `count_total` overflows, or the function returns. -/
inductive Outcome where
  | running
  | undefined
  | returned (r : Run)
  deriving DecidableEq

variable (calls : Calls)

/-- The value of `count` after a `read`. -/
def Result.value : Result → ℤ
  | .error => -1
  | .count n => n

/-- The bytes that a `write` of `count` bytes from `buf` is about. -/
def Calls.buffer (k : ℕ) (rest : List UInt8) : List UInt8 :=
  match calls.read k with
  | .error => calls.memory k
  | .count n => rest.take n

/-- The loop, from round `k` on: `rest` is what has not been read of `fsrc`. -/
def copyLoop : ℕ → ℕ → List UInt8 → ℤ → List UInt8 → List Fd → Outcome
  | 0, _, _, _, _, _ => .running
  | fuel + 1, k, rest, total, dest, opened =>
      match calls.write k with
      | .error => .returned ⟨-1, some dest, (opened.erase .destid).erase .srcid⟩
      | .count w =>
          let dest := dest ++ (calls.buffer k rest).take w
          let total := total + (calls.read k).value
          if intMax < total then .undefined
          else if calls.read k = .count bufSize then
            copyLoop fuel (k + 1) (rest.drop bufSize) total dest opened
          else .returned ⟨total, some dest, (opened.erase .destid).erase .srcid⟩

/-- `fileman_copy`. -/
def filemanCopy (fuel : ℕ) (src : List UInt8) (dest : Option (List UInt8)) : Outcome :=
  if calls.destOpens then .returned ⟨-1, dest, [Fd.fExists].erase .fExists⟩
  else if !calls.srcOpens then .returned ⟨-1, dest, []⟩
  else if !calls.destCreated then .returned ⟨-1, dest, [Fd.srcid].erase .srcid⟩
  else copyLoop calls fuel 0 src 0 [] [.destid, .srcid]

/-! ### What the calls may return -/

/-- The loop goes on after round `k`. -/
def Calls.Full (k : ℕ) : Prop := calls.read k = .count bufSize ∧ calls.write k ≠ .error

/-- The results that there can be.  A read returns no more than there is, and nothing at the end of
the file only; a write no more than it is to write.  After a read that fails a write is to write
`(size_t) -1` bytes, and may return anything. -/
structure Calls.Allowed (src : List UInt8) : Prop where
  read : ∀ k n, (∀ i < k, calls.Full i) → calls.read k = .count n →
    n ≤ bufSize ∧ bufSize * k + n ≤ src.length ∧ (n = 0 → src.length = bufSize * k)
  write : ∀ k n w, (∀ i < k, calls.Full i) → calls.read k = .count n →
    calls.write k = .count w → w ≤ n

/-- What the copy is for: it returns with both descriptors closed, and either returns `-1` or the
number of bytes of `fsrc`, with `fdest` a copy of it. -/
def Faithful (src : List UInt8) (dest : Option (List UInt8)) : Prop :=
  ∃ fuel r, filemanCopy calls fuel src dest = .returned r ∧ r.opened = [] ∧
    (r.value = -1 ∨ r.value = src.length ∧ r.dest = some src)

/-- Round `k` is the last, and all is well: its write fails, or it is the first round and its read
fails, or it reads what is left, no write has fallen short, and the size is an `int`. -/
def Calls.EndsWell (src : List UInt8) (k : ℕ) : Prop :=
  (∀ i < k, calls.Full i) ∧ ((bufSize * k : ℕ) : ℤ) ≤ intMax ∧
    (calls.write k = .error ∨ (k = 0 ∧ calls.read 0 = .error) ∨
      ∃ n < bufSize, calls.read k = .count n ∧ bufSize * k + n = src.length ∧
        (src.length : ℤ) ≤ intMax ∧ (∀ i < k, calls.write i = .count bufSize) ∧
        calls.write k = .count n)

/-! ### The loop -/

variable {calls} {src dest rest : List UInt8} {k fuel : ℕ} {total : ℤ} {opened : List Fd} {r : Run}

theorem copyLoop_opened (h : copyLoop calls fuel k rest total dest opened = .returned r) :
    r.opened = (opened.erase .destid).erase .srcid := by
  induction fuel generalizing k rest total dest with
  | zero => cases h
  | succ fuel ih =>
      rw [copyLoop] at h
      split at h
      · cases h
        rfl
      · dsimp only at h
        split at h
        · cases h
        · split at h
          · exact ih h
          · cases h
            rfl

/-- What has been written after `k` full reads: less than was read, unless no write fell short. -/
structure Written (calls : Calls) (src : List UInt8) (k : ℕ) (dest : List UInt8) : Prop where
  length_le : dest.length ≤ bufSize * k
  full : dest.length = bufSize * k → ∀ i < k, calls.write i = .count bufSize
  copied : (∀ i < k, calls.write i = .count bufSize) → dest = src.take (bufSize * k)

theorem written_zero : Written calls src 0 [] where
  length_le := Nat.le_refl 0
  full _ i hi := absurd hi (Nat.not_lt_zero i)
  copied _ := by simp

theorem length_take_drop {n w : ℕ} (hn : bufSize * k + n ≤ src.length) (hw : w ≤ n) :
    (((src.drop (bufSize * k)).take n).take w).length = w := by
  rw [List.length_take, List.length_take, List.length_drop]
  omega

theorem Written.next {w : ℕ} (h : Written calls src k dest) (hsrc : bufSize * k + bufSize ≤ src.length)
    (hw : w ≤ bufSize) (hwrite : calls.write k = .count w) :
    Written calls src (k + 1) (dest ++ ((src.drop (bufSize * k)).take bufSize).take w) where
  length_le := by
    have hle := h.length_le
    rw [List.length_append, length_take_drop hsrc hw, Nat.mul_succ]
    omega
  full hlength i hi := by
    have hle := h.length_le
    rw [List.length_append, length_take_drop hsrc hw, Nat.mul_succ] at hlength
    obtain hik | rfl := Nat.lt_succ_iff_lt_or_eq.mp hi
    · exact h.full (by omega) i hik
    · rw [hwrite]
      congr 1
      omega
  copied hall := by
    have hk := hall k (Nat.lt_succ_self k)
    rw [hwrite] at hk
    obtain rfl : w = bufSize := Result.count.inj hk
    rw [h.copied fun i hi => hall i (Nat.lt_succ_of_lt hi), List.take_take, Nat.min_self,
      ← List.take_add, Nat.mul_succ]

theorem Written.last_iff {n w : ℕ} (h : Written calls src k dest) (hsrc : bufSize * k + n ≤ src.length)
    (hw : w ≤ n) : dest ++ ((src.drop (bufSize * k)).take n).take w = src ↔
      bufSize * k + n = src.length ∧ (∀ i < k, calls.write i = .count bufSize) ∧ w = n := by
  constructor
  · intro hsame
    have hlength := congrArg List.length hsame
    rw [List.length_append, length_take_drop hsrc hw] at hlength
    have hle := h.length_le
    exact ⟨by omega, h.full (by omega), by omega⟩
  · rintro ⟨hend, hall, rfl⟩
    rw [h.copied hall, List.take_take, Nat.min_self, ← List.take_add, hend, List.take_length]

/-- Where the loop is at the start of round `k`. -/
structure Round (calls : Calls) (src : List UInt8) (k : ℕ) (rest : List UInt8) (total : ℤ)
    (dest : List UInt8) : Prop where
  full : ∀ i < k, calls.Full i
  rest_eq : rest = src.drop (bufSize * k)
  total_eq : total = (bufSize * k : ℕ)
  total_le : total ≤ intMax
  read : bufSize * k ≤ src.length
  written : Written calls src k dest

theorem round_zero : Round calls src 0 src 0 [] where
  full i hi := absurd hi (Nat.not_lt_zero i)
  rest_eq := by simp
  total_eq := rfl
  total_le := by decide
  read := Nat.zero_le _
  written := written_zero

theorem Round.next {w : ℕ} (h : Round calls src k rest total dest) (ha : calls.Allowed src)
    (hread : calls.read k = .count bufSize) (hwrite : calls.write k = .count w)
    (hfits : total + bufSize ≤ intMax) : Round calls src (k + 1) (rest.drop bufSize) (total + bufSize)
      (dest ++ (rest.take bufSize).take w) := by
  obtain ⟨-, hsrc, -⟩ := ha.read k bufSize h.full hread
  have hw := ha.write k bufSize w h.full hread hwrite
  refine ⟨fun i hi => ?_, ?_, ?_, hfits, by rwa [Nat.mul_succ], ?_⟩
  · obtain hik | rfl := Nat.lt_succ_iff_lt_or_eq.mp hi
    · exact h.full i hik
    · exact ⟨hread, by rw [hwrite]; nofun⟩
  · rw [h.rest_eq, List.drop_drop, Nat.mul_succ]
  · rw [h.total_eq]
    push_cast
    rw [Int.mul_add, Int.mul_one]
  · rw [h.rest_eq]
    exact h.written.next hsrc hw hwrite

/-- What the end of the loop comes to. -/
def Run.Good (r : Run) (src : List UInt8) : Prop :=
  r.value = -1 ∨ r.value = src.length ∧ r.dest = some src

theorem Round.good_iff {n w : ℕ} (h : Round calls src k rest total dest) (opened : List Fd)
    (ha : calls.Allowed src) (hread : calls.read k = .count n) (hwrite : calls.write k = .count w) :
    Run.Good ⟨total + n, some (dest ++ (rest.take n).take w), opened⟩ src ↔
      bufSize * k + n = src.length ∧ (∀ i < k, calls.write i = .count bufSize) ∧ w = n := by
  obtain ⟨-, hsrc, -⟩ := ha.read k n h.full hread
  have hw := ha.write k n w h.full hread hwrite
  rw [Run.Good, Option.some.injEq, h.rest_eq, h.written.last_iff hsrc hw, h.total_eq]
  dsimp only
  constructor
  · rintro (hneg | ⟨-, hgood⟩)
    · omega
    · exact hgood
  · intro hgood
    exact .inr ⟨by rw [← hgood.1]; push_cast; rfl, hgood⟩

/-- **A run of the loop** that ends well ends in a round that does. -/
theorem Round.endsWell (h : Round calls src k rest total dest) (ha : calls.Allowed src)
    (hr : copyLoop calls fuel k rest total dest opened = .returned r) (hgood : r.Good src) :
    ∃ j, calls.EndsWell src j := by
  induction fuel generalizing k rest total dest with
  | zero => cases hr
  | succ fuel ih =>
      have hle : ((bufSize * k : ℕ) : ℤ) ≤ intMax := h.total_eq ▸ h.total_le
      rw [copyLoop] at hr
      cases hwrite : calls.write k with
      | error => exact ⟨k, h.full, hle, .inl hwrite⟩
      | count w =>
          simp only [hwrite, Calls.buffer] at hr
          cases hread : calls.read k with
          | error =>
              simp only [hread, Result.value, reduceCtorEq, if_false] at hr
              split at hr
              · cases hr
              · -- the sum of all reads is one too small
                cases hr
                have hread' := h.read
                rw [Run.Good, h.total_eq] at hgood
                dsimp only at hgood
                have hk : k = 0 := by
                  obtain hneg | ⟨hlength, -⟩ := hgood
                  · have hzero : bufSize * k = 0 := by omega
                    exact (Nat.mul_eq_zero.mp hzero).resolve_left (by decide)
                  · omega
                subst hk
                exact ⟨0, h.full, hle, .inr (.inl ⟨rfl, hread⟩)⟩
          | count n =>
              obtain ⟨hn, hsrc, -⟩ := ha.read k n h.full hread
              simp only [hread, Result.value, Result.count.injEq] at hr
              split at hr
              · cases hr
              · rename_i hfits
                split at hr
                · rename_i hfull
                  subst hfull
                  exact ih (h.next ha hread hwrite (by omega)) hr
                · rename_i hlast
                  cases hr
                  obtain ⟨hend, hall, rfl⟩ := (h.good_iff _ ha hread hwrite).mp hgood
                  refine ⟨k, h.full, hle, .inr (.inr ⟨w, by omega, hread, hend, ?_, hall, hwrite⟩)⟩
                  rw [h.total_eq] at hfits
                  omega

theorem Round.good {j : ℕ} (hj : calls.EndsWell src j) (ha : calls.Allowed src) (d : ℕ) :
    ∀ k rest total dest, k + d = j → Round calls src k rest total dest →
      ∃ fuel r, copyLoop calls fuel k rest total dest opened = .returned r ∧ r.Good src := by
  induction d with
  | zero =>
      rintro k rest total dest rfl h
      rw [Nat.add_zero] at hj
      obtain ⟨-, -, hwrite | ⟨rfl, hread⟩ | ⟨n, hn, hread, hend, hmax, hall, hwrite⟩⟩ := hj
      · refine ⟨1, ⟨-1, some dest, (opened.erase .destid).erase .srcid⟩, ?_, .inl rfl⟩
        simp only [copyLoop, hwrite]
      · cases hwrite : calls.write 0 with
        | error =>
            refine ⟨1, ⟨-1, some dest, (opened.erase .destid).erase .srcid⟩, ?_, .inl rfl⟩
            simp only [copyLoop, hwrite]
        | count w =>
            obtain rfl : total = 0 := h.total_eq
            refine ⟨1, ⟨-1, some (dest ++ (calls.memory 0).take w), (opened.erase .destid).erase .srcid⟩,
              ?_, .inl rfl⟩
            simp only [copyLoop, hwrite, hread, Result.value, Calls.buffer, reduceCtorEq, if_false]
            rw [if_neg (by decide)]
            rfl
      · have hgood := (h.good_iff ((opened.erase Fd.destid).erase Fd.srcid) ha hread hwrite).mpr
          ⟨hend, hall, rfl⟩
        refine ⟨1, _, ?_, hgood⟩
        simp only [copyLoop, hwrite, hread, Result.value, Calls.buffer, Result.count.injEq,
          Nat.ne_of_lt hn, if_false]
        rw [if_neg]
        rw [h.total_eq]
        omega
  | succ d ih =>
      rintro k rest total dest hkj h
      obtain ⟨hread, hnot⟩ := hj.1 k (by omega)
      cases hwrite : calls.write k with
      | error => exact absurd hwrite hnot
      | count w =>
          have hfits : total + bufSize ≤ intMax := by
            have hmax := hj.2.1
            have hle : bufSize * (k + 1) ≤ bufSize * j := Nat.mul_le_mul_left _ (by omega)
            rw [h.total_eq]
            rw [Nat.mul_succ] at hle
            omega
          obtain ⟨fuel, r, hr, hgood⟩ := ih (k + 1) _ _ _ (by omega) (h.next ha hread hwrite hfits)
          refine ⟨fuel + 1, r, ?_, hgood⟩
          simp only [copyLoop, hwrite, hread, Result.value, Calls.buffer, if_true]
          rw [if_neg (by omega)]
          exact hr

/-- **The copy is faithful** exactly if it fails before anything is wrong, or nothing is. -/
theorem fileman_copy_faithful_iff (calls : Calls) (src : List UInt8) (dest : Option (List UInt8))
    (ha : calls.Allowed src) : Faithful calls src dest ↔
      calls.destOpens = true ∨ calls.srcOpens = false ∨ calls.destCreated = false ∨
        ∃ k, calls.EndsWell src k := by
  unfold Faithful filemanCopy
  by_cases hdest : calls.destOpens = true
  · refine iff_of_true ⟨0, ⟨-1, dest, []⟩, ?_, rfl, .inl rfl⟩ (.inl hdest)
    rw [if_pos hdest]
    rfl
  by_cases hsrc : calls.srcOpens = true
  · by_cases hcreated : calls.destCreated = true
    · simp only [hdest, hsrc, hcreated, Bool.not_true, Bool.false_eq_true, if_false, false_or,
        reduceCtorEq]
      constructor
      · rintro ⟨fuel, r, hr, -, hgood⟩
        exact round_zero.endsWell ha hr hgood
      · rintro ⟨j, hj⟩
        obtain ⟨fuel, r, hr, hgood⟩ := round_zero.good hj ha j 0 src 0 [] (Nat.zero_add j)
        exact ⟨fuel, r, hr, copyLoop_opened hr, hgood⟩
    · rw [Bool.not_eq_true] at hcreated
      refine iff_of_true ⟨0, ⟨-1, dest, []⟩, ?_, rfl, .inl rfl⟩ (.inr (.inr (.inl hcreated)))
      simp only [hdest, hsrc, hcreated]
      rfl
  · rw [Bool.not_eq_true] at hsrc
    refine iff_of_true ⟨0, ⟨-1, dest, []⟩, ?_, rfl, .inl rfl⟩ (.inr (.inl hsrc))
    simp only [hdest, hsrc]
    rfl

/-- Two bytes, and calls that read and write `n` bytes each time. -/
def Calls.always (n : ℕ) : Calls where
  destOpens := false
  srcOpens := true
  destCreated := true
  read _ := .count n
  write _ := .count n
  memory _ := []

theorem always_allowed {n : ℕ} (hn : 0 < n) (hle : n ≤ src.length) (hsize : n < bufSize) :
    (Calls.always n).Allowed src where
  read k m hfull hm := by
    obtain rfl : n = m := Result.count.inj hm
    cases k with
    | zero => exact ⟨by omega, by omega, by omega⟩
    | succ k => exact absurd (Result.count.inj (hfull 0 k.succ_pos).1) (Nat.ne_of_lt hsize)
  write k m w hfull hm hw := by
    obtain rfl : n = m := Result.count.inj hm
    obtain rfl : n = w := Result.count.inj hw
    exact Nat.le_refl n

/-- Both bytes at once. -/
theorem fileman_copy_faithful_two : Faithful (.always 2) [7, 9] none ↔
    (Calls.always 2).destOpens = true ∨ (Calls.always 2).srcOpens = false ∨
      (Calls.always 2).destCreated = false ∨ ∃ k, (Calls.always 2).EndsWell [7, 9] k :=
  fileman_copy_faithful_iff (.always 2) [7, 9] none (always_allowed (by decide) (by decide) (by decide))

/-- A first read of one byte: the other one is not copied, and the copy returns 1. -/
theorem fileman_copy_unfaithful : ¬ ∀ (calls : Calls) (src : List UInt8) (dest : Option (List UInt8)),
    calls.Allowed src → Faithful calls src dest := by
  intro h
  obtain ⟨fuel, r, hr, -, hgood⟩ := h (.always 1) [7, 9] none
    (always_allowed (by decide) (by decide) (by decide))
  cases fuel with
  | zero => cases hr
  | succ fuel =>
      obtain rfl : Run.mk 1 (some [7]) [] = r := Outcome.returned.inj hr
      exact absurd hgood (by decide)

end CSE130.Assignment6
