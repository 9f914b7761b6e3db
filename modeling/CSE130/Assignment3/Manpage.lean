import CSE130.Lib.Transition
import Mathlib.Data.List.Range
import Mathlib.Data.Set.Function

/-! # The manual page of Assignment 3 (`manpage.c`)

Every paragraph has a thread, and the threads pass on the right to show one through the semaphores:
the thread of a paragraph waits for its own semaphore, shows the paragraph and posts the next one.
That of the first paragraph does not wait, and that of the last destroys the semaphores.

The operations that are not those of the main thread come in a fixed order, whatever the order in which
the threads are created, are given their paragraphs and run.  `Progress` says what all of the state is
when `m` of them have been done; the thread of the paragraph `p` starts with number `3 * p - 1`. -/

namespace CSE130.Assignment3.Manpage

open Transition
open Function (update)

/-- What a thread does. -/
inductive Op where
  | wait (lock : ℕ)
  | showParagraph
  | post (lock : ℕ)
  | destroy (lock : ℕ)
  deriving DecidableEq

/-- `thread_routine` for the paragraph `pid`, when `THREAD_NUM` is `n`. -/
def threadRoutine (n pid : ℕ) : List Op :=
  if pid = 0 then [.showParagraph, .post (pid + 1)]
  else if pid = n - 1 then .wait pid :: .showParagraph :: (List.range n).map .destroy
  else [.wait pid, .showParagraph, .post (pid + 1)]

/-- The semaphores, `none` for one that is destroyed; what the threads still have to do, `none` for one
that is not yet created; the variables `i` of the main thread; and the paragraphs shown. -/
structure State where
  locks : ℕ → Option ℕ
  threads : ℕ → Option (List Op)
  created : ℕ
  joined : ℕ
  shown : List ℕ

/-- The state before the first `pthread_create`. -/
def start : State := ⟨fun _ => some 0, fun _ => none, 0, 0, []⟩

/-- The main thread creates or joins a thread, or a thread does an operation. -/
inductive Action where
  | create
  | join
  | run (i : ℕ)

/-- The next operation of the thread `i`; the paragraph of a thread is what `getParagraphId` returns. -/
def run (getParagraphId : ℕ → ℕ) (i : ℕ) (s : State) : Option State :=
  match s.threads i with
  | some (.wait lock :: rest) =>
      match s.locks lock with
      | some (value + 1) => some { s with
          locks := update s.locks lock (some value), threads := update s.threads i (some rest) }
      | _ => none
  | some (.showParagraph :: rest) => some { s with
      shown := s.shown ++ [getParagraphId i], threads := update s.threads i (some rest) }
  | some (.post lock :: rest) =>
      match s.locks lock with
      | some value => some { s with
          locks := update s.locks lock (some (value + 1)), threads := update s.threads i (some rest) }
      | none => none
  | some (.destroy lock :: rest) =>
      match s.locks lock with
      | some _ => some { s with
          locks := update s.locks lock none, threads := update s.threads i (some rest) }
      | none => none
  | _ => none

def step (n : ℕ) (getParagraphId : ℕ → ℕ) : Action → State → Option State
  | .create, s =>
      if s.created < n then some { s with
        threads := update s.threads s.created (some (threadRoutine n (getParagraphId s.created)))
        created := s.created + 1 }
      else none
  | .join, s =>
      if s.created = n ∧ s.joined < n ∧ s.threads s.joined = some [] then
        some { s with joined := s.joined + 1 }
      else none
  | .run i, s => run getParagraphId i s

variable {n m i j p q : ℕ} {getParagraphId : ℕ → ℕ} {s s' : State} {a : Action} {op : Op}
  {rest : List Op}

theorem run_cases (h : run getParagraphId i s = some s') :
    ∃ op rest, s.threads i = some (op :: rest) ∧ s'.threads = update s.threads i (some rest) ∧
      s'.joined = s.joined := by
  unfold run at h
  split at h
  · split at h
    · obtain rfl := Option.some.inj h
      exact ⟨_, _, ‹_›, rfl, rfl⟩
    · cases h
  · obtain rfl := Option.some.inj h
    exact ⟨_, _, ‹_›, rfl, rfl⟩
  · split at h
    · obtain rfl := Option.some.inj h
      exact ⟨_, _, ‹_›, rfl, rfl⟩
    · cases h
  · split at h
    · obtain rfl := Option.some.inj h
      exact ⟨_, _, ‹_›, rfl, rfl⟩
    · cases h
  · cases h

/-! ### The order of the operations -/

/-- What is left of the thread of the paragraph `p` when `m` operations are done. -/
def left (n m p : ℕ) : List Op := (threadRoutine n p).drop (m - (3 * p - 1))

/-- The value of a semaphore then. -/
def lockValue (n m lock : ℕ) : Option ℕ :=
  if lock < m - (3 * n - 2) then none else if lock ≠ 0 ∧ m = 3 * lock - 1 then some 1 else some 0

/-- The state when `m` operations are done. -/
structure Progress (n : ℕ) (getParagraphId : ℕ → ℕ) (m : ℕ) (s : State) : Prop where
  bound : m ≤ 4 * n - 2
  counts : s.created ≤ n ∧ s.joined ≤ n
  created : ∀ i < s.created, s.threads i = some (left n m (getParagraphId i))
  absent : ∀ i ≥ s.created, s.threads i = none ∧ (i < n → m ≤ 3 * getParagraphId i - 1)
  locks : ∀ lock < n, s.locks lock = lockValue n m lock
  shown : s.shown = List.range (min n ((m + 2) / 3))

theorem length_threadRoutine : (threadRoutine n p).length =
    if p = 0 then 2 else if p = n - 1 then n + 2 else 3 := by
  unfold threadRoutine
  split_ifs <;> simp

theorem left_cases (hn : 2 ≤ n) (hp : p < n) (h : left n m p = op :: rest) :
    (m < 3 * p - 1 ∧ op = .wait p) ∨
    (p ≠ 0 ∧ m = 3 * p - 1 ∧ op = .wait p ∧ rest = left n (m + 1) p) ∨
    (m = 3 * p ∧ op = .showParagraph ∧ rest = left n (m + 1) p) ∨
    (p < n - 1 ∧ m = 3 * p + 1 ∧ op = .post (p + 1) ∧ rest = left n (m + 1) p) ∨
    (p = n - 1 ∧ 3 * n - 2 ≤ m ∧ m < 4 * n - 2 ∧ op = .destroy (m - (3 * n - 2)) ∧
      rest = left n (m + 1) p) := by
  unfold left at h
  generalize hd : m - (3 * p - 1) = d at h
  have hlt : d < (threadRoutine n p).length := by
    by_contra hge
    rw [List.drop_eq_nil_of_le (by omega)] at h
    cases h
  rw [List.drop_eq_getElem_cons hlt, List.cons.injEq] at h
  obtain ⟨hop, hrest⟩ := h
  have hop : (threadRoutine n p)[d]? = some op := by rw [List.getElem?_eq_getElem hlt, hop]
  rw [length_threadRoutine] at hlt
  have hnext : 3 * p - 1 ≤ m → rest = left n (m + 1) p := by
    intro hm
    rw [left, ← hrest]
    congr 1
    omega
  unfold threadRoutine at hop
  split_ifs at hop hlt with h0 hlast
  · have hcases : d = 0 ∨ d = 1 := by omega
    rcases hcases with rfl | rfl
    · refine Or.inr (Or.inr (Or.inl ⟨by omega, by simpa using hop.symm, hnext (by omega)⟩))
    · refine Or.inr (Or.inr (Or.inr (Or.inl ⟨by omega, by omega, by simpa using hop.symm,
        hnext (by omega)⟩)))
  · have hcases : d = 0 ∨ d = 1 ∨ 2 ≤ d := by omega
    rcases hcases with rfl | rfl | h2
    · have hop : op = .wait p := by simpa using hop.symm
      by_cases hm : m < 3 * p - 1
      · exact Or.inl ⟨hm, hop⟩
      · exact Or.inr (Or.inl ⟨h0, by omega, hop, hnext (by omega)⟩)
    · exact Or.inr (Or.inr (Or.inl ⟨by omega, by simpa using hop.symm, hnext (by omega)⟩))
    · obtain ⟨k, rfl⟩ : ∃ k, d = k + 2 := ⟨d - 2, by omega⟩
      have hop : op = .destroy k := by
        simp only [List.getElem?_cons_succ, List.getElem?_map] at hop
        rw [List.getElem?_range (by omega)] at hop
        simpa using hop.symm
      refine Or.inr (Or.inr (Or.inr (Or.inr ⟨hlast, by omega, by omega, ?_, hnext (by omega)⟩)))
      rw [hop]
      congr 1
      omega
  · have hcases : d = 0 ∨ d = 1 ∨ d = 2 := by omega
    rcases hcases with rfl | rfl | rfl
    · have hop : op = .wait p := by simpa using hop.symm
      by_cases hm : m < 3 * p - 1
      · exact Or.inl ⟨hm, hop⟩
      · exact Or.inr (Or.inl ⟨h0, by omega, hop, hnext (by omega)⟩)
    · exact Or.inr (Or.inr (Or.inl ⟨by omega, by simpa using hop.symm, hnext (by omega)⟩))
    · exact Or.inr (Or.inr (Or.inr (Or.inl ⟨by omega, by omega, by simpa using hop.symm,
        hnext (by omega)⟩)))

/-- It is the turn of the paragraph `p`. -/
def Turn (n m p : ℕ) : Prop := 3 * p - 1 ≤ m ∧ (p < n - 1 → m ≤ 3 * p + 1)

/-- The threads of the other paragraphs have not started, or have nothing left to do. -/
theorem Turn.left_succ (h : Turn n m p) (hp : p < n) (hq : q < n) (hne : q ≠ p) :
    left n (m + 1) q = left n m q := by
  obtain ⟨hfrom, hto⟩ := h
  unfold left
  by_cases hm : m + 1 ≤ 3 * q - 1
  · congr 1
    omega
  · have hlength : (threadRoutine n q).length ≤ m - (3 * q - 1) := by
      rw [length_threadRoutine]
      split_ifs <;> omega
    rw [List.drop_eq_nil_of_le hlength, List.drop_eq_nil_of_le (by omega)]

/-- The paragraphs of the threads are different. -/
structure Paragraphs (n : ℕ) (getParagraphId : ℕ → ℕ) : Prop where
  range : ∀ i < n, getParagraphId i < n
  inj : ∀ i < n, ∀ j < n, getParagraphId i = getParagraphId j → i = j

theorem Progress.next (hids : Paragraphs n getParagraphId) (h : Progress n getParagraphId m s)
    (hi : i < s.created) (hturn : Turn n m (getParagraphId i)) (hbound : m + 1 ≤ 4 * n - 2)
    {locks : ℕ → Option ℕ} {shown : List ℕ}
    (hlocks : ∀ lock < n, locks lock = lockValue n (m + 1) lock)
    (hshown : shown = List.range (min n ((m + 1 + 2) / 3))) :
    Progress n getParagraphId (m + 1) { s with
      locks := locks
      threads := update s.threads i (some (left n (m + 1) (getParagraphId i)))
      shown := shown } := by
  have hcounts := h.counts
  have hp := hids.range i (by omega)
  refine ⟨hbound, hcounts, fun j hj => ?_, fun j hj => ?_, hlocks, hshown⟩
  · have hj : j < s.created := hj
    by_cases hji : j = i
    · subst hji
      exact Function.update_self ..
    · refine (Function.update_of_ne hji _ _).trans ?_
      rw [h.created j hj]
      have hq := hids.range j (by omega)
      rw [hturn.left_succ hp hq fun heq => hji (hids.inj j (by omega) i (by omega) heq)]
  · have hj : s.created ≤ j := hj
    obtain ⟨hnone, hstart⟩ := h.absent j hj
    refine ⟨(Function.update_of_ne (by omega) _ _).trans hnone, fun hjn => ?_⟩
    have hstart := hstart hjn
    have hne : getParagraphId j ≠ getParagraphId i := fun heq => by
      have := hids.inj j hjn i (by omega) heq
      omega
    obtain ⟨hfrom, hto⟩ := hturn
    have hq := hids.range j hjn
    omega

/-- **An operation of a thread is the next one in the order.** -/
theorem Progress.run (hn : 2 ≤ n) (hids : Paragraphs n getParagraphId)
    (h : Progress n getParagraphId m s) (hrun : run getParagraphId i s = some s') :
    Progress n getParagraphId (m + 1) s' ∧ s'.created = s.created ∧ s'.joined = s.joined := by
  have hcounts := h.counts
  have hbound := h.bound
  have hi : i < s.created := by
    by_contra hge
    rw [Manpage.run, (h.absent i (by omega)).1] at hrun
    cases hrun
  have hp := hids.range i (by omega)
  rw [Manpage.run, h.created i hi] at hrun
  cases hleft : left n m (getParagraphId i) with
  | nil =>
      rw [hleft] at hrun
      cases hrun
  | cons op rest =>
      rw [hleft] at hrun
      rcases left_cases hn hp hleft with ⟨hm, rfl⟩ | ⟨h0, hm, rfl, rfl⟩ | ⟨hm, rfl, rfl⟩ |
        ⟨hlt, hm, rfl, rfl⟩ | ⟨hlast, hm, hm', rfl, rfl⟩
      · have hvalue : s.locks (getParagraphId i) = some 0 := by
          rw [h.locks _ hp, lockValue, if_neg (by omega), if_neg (by omega)]
        simp only [hvalue] at hrun
        cases hrun
      · have hvalue : s.locks (getParagraphId i) = some 1 := by
          rw [h.locks _ hp, lockValue, if_neg (by omega), if_pos ⟨h0, hm⟩]
        simp only [hvalue] at hrun
        obtain rfl := Option.some.inj hrun
        refine ⟨h.next hids hi ⟨by omega, by omega⟩ (by omega) (fun lock hlock => ?_) ?_, rfl, rfl⟩
        · by_cases heq : lock = getParagraphId i
          · rw [heq, Function.update_self, lockValue, if_neg (by omega), if_neg (by omega)]
          · rw [Function.update_of_ne heq, h.locks lock hlock, lockValue, lockValue,
              if_neg (by omega), if_neg (by omega), if_neg (by omega), if_neg (by omega)]
        · rw [h.shown]
          congr 1
          omega
      · obtain rfl := Option.some.inj hrun
        refine ⟨h.next hids hi ⟨by omega, by omega⟩ (by omega) (fun lock hlock => ?_) ?_, rfl, rfl⟩
        · rw [h.locks lock hlock, lockValue, lockValue, if_neg (by omega), if_neg (by omega),
            if_neg (by omega), if_neg (by omega)]
        · have hnow : min n ((m + 2) / 3) = getParagraphId i := by omega
          have hnext : min n ((m + 1 + 2) / 3) = getParagraphId i + 1 := by omega
          rw [h.shown, hnow, hnext, List.range_succ]
      · have hvalue : s.locks (getParagraphId i + 1) = some 0 := by
          rw [h.locks _ (by omega), lockValue, if_neg (by omega), if_neg (by omega)]
        simp only [hvalue] at hrun
        obtain rfl := Option.some.inj hrun
        refine ⟨h.next hids hi ⟨by omega, by omega⟩ (by omega) (fun lock hlock => ?_) ?_, rfl, rfl⟩
        · by_cases heq : lock = getParagraphId i + 1
          · rw [heq, Function.update_self, lockValue, if_neg (by omega), if_pos (by omega)]
          · rw [Function.update_of_ne heq, h.locks lock hlock, lockValue, lockValue,
              if_neg (by omega), if_neg (by omega), if_neg (by omega), if_neg (by omega)]
        · rw [h.shown]
          congr 1
          omega
      · have hvalue : s.locks (m - (3 * n - 2)) = some 0 := by
          rw [h.locks _ (by omega), lockValue, if_neg (by omega), if_neg (by omega)]
        simp only [hvalue] at hrun
        obtain rfl := Option.some.inj hrun
        refine ⟨h.next hids hi ⟨by omega, by omega⟩ (by omega) (fun lock hlock => ?_) ?_, rfl, rfl⟩
        · by_cases heq : lock = m - (3 * n - 2)
          · rw [heq, Function.update_self, lockValue, if_pos (by omega)]
          · rw [Function.update_of_ne heq, h.locks lock hlock, lockValue, lockValue]
            by_cases hbefore : lock < m - (3 * n - 2)
            · rw [if_pos hbefore, if_pos (by omega)]
            · rw [if_neg hbefore, if_neg (by omega), if_neg (by omega), if_neg (by omega)]
        · rw [h.shown]
          congr 1
          omega

theorem progress_start : Progress n getParagraphId 0 start where
  bound := Nat.zero_le _
  counts := ⟨Nat.zero_le _, Nat.zero_le _⟩
  created := fun i hi => absurd hi (Nat.not_lt_zero i)
  absent := fun _ _ => ⟨rfl, fun _ => Nat.zero_le _⟩
  locks := fun lock _ => by
    rw [lockValue, if_neg (by omega), if_neg (by omega)]
    rfl
  shown := by
    have h0 : min n ((0 + 2) / 3) = 0 := by omega
    rw [h0]
    rfl

theorem Progress.create (h : Progress n getParagraphId m s) (hlt : s.created < n) :
    Progress n getParagraphId m { s with
      threads := update s.threads s.created (some (threadRoutine n (getParagraphId s.created)))
      created := s.created + 1 } := by
  have hcounts := h.counts
  refine ⟨h.bound, ⟨hlt, hcounts.2⟩, fun j hj => ?_, fun j hj => ?_, h.locks, h.shown⟩
  · have hj : j < s.created + 1 := hj
    by_cases hjc : j = s.created
    · subst hjc
      refine (Function.update_self _ _ _).trans ?_
      have hstart := (h.absent s.created le_rfl).2 hlt
      rw [left, Nat.sub_eq_zero_of_le hstart, List.drop_zero]
    · exact (Function.update_of_ne hjc _ _).trans (h.created j (by omega))
  · have hj : s.created + 1 ≤ j := hj
    obtain ⟨hnone, hstart⟩ := h.absent j (by omega)
    exact ⟨(Function.update_of_ne (by omega) _ _).trans hnone, hstart⟩

theorem Progress.step (hn : 2 ≤ n) (hids : Paragraphs n getParagraphId)
    (h : Progress n getParagraphId m s) (hs : step n getParagraphId a s = some s') :
    ∃ m', Progress n getParagraphId m' s' ∧
      s'.created + s'.joined + m' = s.created + s.joined + m + 1 := by
  cases a with
  | create =>
      simp only [Manpage.step] at hs
      split_ifs at hs with hlt
      obtain rfl := Option.some.inj hs
      exact ⟨m, h.create hlt, by simp only; omega⟩
  | join =>
      simp only [Manpage.step] at hs
      split_ifs at hs with hlt
      obtain rfl := Option.some.inj hs
      exact ⟨m, ⟨h.bound, ⟨h.counts.1, hlt.2.1⟩, h.created, h.absent, h.locks, h.shown⟩,
        by simp only; omega⟩
  | run i =>
      obtain ⟨hnext, hcreated, hjoined⟩ := h.run hn hids hs
      exact ⟨m + 1, hnext, by omega⟩

theorem Progress.enabled (hn : 2 ≤ n) (hids : Paragraphs n getParagraphId)
    (hall : ∀ p < n, ∃ i < n, getParagraphId i = p) (h : Progress n getParagraphId m s)
    (hjoined : s.joined < n) : ∃ a s', Manpage.step n getParagraphId a s = some s' := by
  have hcounts := h.counts
  by_cases hcreated : s.created < n
  · exact ⟨.create, _, if_pos hcreated⟩
  have hcreated : s.created = n := by omega
  by_cases hm : m < 4 * n - 2
  · obtain ⟨i, hi, hp⟩ := hall (if m < 3 * n - 2 then (m + 1) / 3 else n - 1) (by split_ifs <;> omega)
    have hcases : m < 3 * n - 2 ∧ 3 * getParagraphId i ≤ m + 1 ∧ m + 1 < 3 * getParagraphId i + 3 ∨
        3 * n - 2 ≤ m ∧ getParagraphId i = n - 1 := by
      rw [hp]
      split_ifs <;> omega
    have hrange := hids.range i hi
    have hlength : m - (3 * getParagraphId i - 1) < (threadRoutine n (getParagraphId i)).length := by
      rw [length_threadRoutine]
      split_ifs <;> omega
    cases hleft : left n m (getParagraphId i) with
    | nil =>
        have := List.drop_eq_nil_iff.mp hleft
        omega
    | cons op rest =>
        refine ⟨.run i, ?_⟩
        rw [Manpage.step, Manpage.run, h.created i (by omega), hleft]
        rcases left_cases hn hrange hleft with ⟨hm, rfl⟩ | ⟨h0, hm, rfl, rfl⟩ | ⟨hm, rfl, rfl⟩ |
          ⟨hlt, hm, rfl, rfl⟩ | ⟨hlast, hm, hm', rfl, rfl⟩
        · omega
        · have hvalue : s.locks (getParagraphId i) = some 1 := by
            rw [h.locks _ hrange, lockValue, if_neg (by omega), if_pos ⟨h0, hm⟩]
          simp [hvalue]
        · simp
        · have hvalue : s.locks (getParagraphId i + 1) = some 0 := by
            rw [h.locks _ (by omega), lockValue, if_neg (by omega), if_neg (by omega)]
          simp [hvalue]
        · have hvalue : s.locks (m - (3 * n - 2)) = some 0 := by
            rw [h.locks _ (by omega), lockValue, if_neg (by omega), if_neg (by omega)]
          simp [hvalue]
  · have hm : m = 4 * n - 2 := by
      have := h.bound
      omega
    refine ⟨.join, _, if_pos ⟨hcreated, hjoined, ?_⟩⟩
    have hp := hids.range s.joined hjoined
    rw [h.created s.joined (by omega), left, List.drop_eq_nil_of_le]
    rw [length_threadRoutine]
    split_ifs <;> omega

/-- A thread is about to use a semaphore that is destroyed. -/
def Misuse (s : State) : Prop :=
  ∃ i lock rest, s.locks lock = none ∧ (s.threads i = some (.wait lock :: rest) ∨
    s.threads i = some (.post lock :: rest) ∨ s.threads i = some (.destroy lock :: rest))

theorem Progress.not_misuse (hn : 2 ≤ n) (hids : Paragraphs n getParagraphId)
    (h : Progress n getParagraphId m s) : ¬ Misuse s := by
  rintro ⟨i, lock, rest, hnone, hop⟩
  have hcounts := h.counts
  have hi : i < s.created := by
    by_contra hge
    rw [(h.absent i (by omega)).1] at hop
    simp at hop
  have hp := hids.range i (by omega)
  rw [h.created i hi] at hop
  have hdestroyed : lock < n → lock < m - (3 * n - 2) := by
    intro hlock
    rw [h.locks lock hlock, lockValue] at hnone
    by_contra hge
    rw [if_neg hge] at hnone
    split_ifs at hnone
  rcases hop with hop | hop | hop
  all_goals
    rcases left_cases hn hp (Option.some.inj hop) with ⟨hm, heq⟩ | ⟨h0, hm, heq, -⟩ | ⟨hm, heq, -⟩ |
      ⟨hlt, hm, heq, -⟩ | ⟨hlast, hm, hm', heq, -⟩
    all_goals cases heq
  all_goals omega

theorem joined_done (hdone : ∀ i < s.joined, s.threads i = some [])
    (h : Progress n getParagraphId m s) (hs : step n getParagraphId a s = some s') :
    ∀ i < s'.joined, s'.threads i = some [] := by
  cases a with
  | create =>
      simp only [step] at hs
      split_ifs at hs with hlt
      obtain rfl := Option.some.inj hs
      intro i hi
      have hne : i ≠ s.created := by
        rintro rfl
        have := hdone s.created hi
        rw [(h.absent s.created le_rfl).1] at this
        cases this
      exact (Function.update_of_ne hne _ _).trans (hdone i hi)
  | join =>
      simp only [step] at hs
      split_ifs at hs with hlt
      obtain rfl := Option.some.inj hs
      intro i hi
      by_cases heq : i = s.joined
      · rw [heq]
        exact hlt.2.2
      · have hi : i < s.joined + 1 := hi
        exact hdone i (by omega)
  | run j =>
      obtain ⟨op, rest, hthread, hthreads, hjoined⟩ := run_cases hs
      intro i hi
      have hne : i ≠ j := by
        rintro rfl
        have := hdone i (by omega)
        rw [hthread] at this
        cases this
      rw [hthreads, Function.update_of_ne hne]
      exact hdone i (by omega)

/-- **The manual page is shown in order**: in every interleaving the paragraphs shown so far are the
first ones, no destroyed semaphore is used, no run is longer than its operations, and until the main
thread has joined all of the others, which it does after all of the page, something can go on. -/
theorem manpage_run (hn : 2 ≤ n) (hids : Paragraphs n getParagraphId)
    (hall : ∀ p < n, ∃ i < n, getParagraphId i = p) {hist : List (State × Action)}
    (hr : Run (step n getParagraphId) (fun _ _ => True) start hist s) :
    s.shown = List.range s.shown.length ∧ s.shown.length ≤ n ∧ ¬ Misuse s ∧
      hist.length ≤ 6 * n - 2 ∧ (s.joined = n → s.shown = List.range n) ∧
      (s.joined < n → ∃ a s', step n getParagraphId a s = some s') := by
  have hinv : ∃ m, Progress n getParagraphId m s ∧ hist.length = s.created + s.joined + m ∧
      ∀ i < s.joined, s.threads i = some [] := by
    refine hr.invariant (I := fun hist s => ∃ m, Progress n getParagraphId m s ∧
      hist.length = s.created + s.joined + m ∧ ∀ i < s.joined, s.threads i = some []) ?_ ?_
    · exact ⟨0, progress_start, rfl, fun i hi => absurd hi (Nat.not_lt_zero i)⟩
    · rintro hist s a s' - ⟨m, h, hlength, hdone⟩ - hs
      obtain ⟨m', h', hcount⟩ := h.step hn hids hs
      refine ⟨m', h', ?_, joined_done hdone h hs⟩
      rw [List.length_cons]
      omega
  obtain ⟨m, h, hlength, hdone⟩ := hinv
  have hcounts := h.counts
  have hbound := h.bound
  have hshown : s.shown.length = min n ((m + 2) / 3) := by rw [h.shown, List.length_range]
  refine ⟨by rw [hshown, h.shown], by omega, h.not_misuse hn hids, by omega, fun hall' => ?_,
    h.enabled hn hids hall⟩
  obtain ⟨i, hi, hp⟩ := hall (n - 1) (by omega)
  have hempty := hdone i (by omega)
  have hcreated : i < s.created := by
    by_contra hge
    rw [(h.absent i (by omega)).1] at hempty
    cases hempty
  rw [h.created i hcreated, hp, Option.some.injEq, left, List.drop_eq_nil_iff,
    length_threadRoutine, if_neg (by omega), if_pos rfl] at hempty
  rw [h.shown]
  congr 1
  omega

/-- Seven threads with the paragraphs from the last to the first: all of them are created, show the page,
and are joined. -/
def wholePage : List Action :=
  List.replicate 7 .create ++ [.run 6, .run 6] ++
    [5, 4, 3, 2, 1].flatMap (fun i => List.replicate 3 (.run i)) ++ List.replicate 9 (.run 0) ++
    List.replicate 7 .join

theorem manpage_run_whole : ∃ hist s, Run (step 7 fun i => 6 - i) (fun _ _ => True) start hist s ∧
    execute (step 7 fun i => 6 - i) wholePage start = some s ∧ hist.length ≤ 40 ∧ ¬ Misuse s ∧
    s.shown = List.range 7 := by
  have hjoined : (execute (step 7 fun i => 6 - i) wholePage start).any fun s => s.joined = 7 := by
    decide +kernel
  obtain ⟨s, hs, hj⟩ := (Option.any_eq_true _ _).mp hjoined
  have hr := execute_run (G := fun _ _ => True) (fun _ _ _ => trivial) .nil hs
  obtain ⟨-, -, hmisuse, hlength, hall, -⟩ := manpage_run (by decide)
    ⟨fun i _ => by omega, fun i _ j _ h => by omega⟩ (fun p _ => ⟨6 - p, by omega, by omega⟩) hr
  exact ⟨_, s, hr, hs, hlength, hmisuse, hall (of_decide_eq_true hj)⟩

end CSE130.Assignment3.Manpage
