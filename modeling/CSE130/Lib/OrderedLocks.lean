import CSE130.Lib.Transition
import Mathlib.Data.Finset.Max
import Mathlib.Order.Basic

/-! # Processes that take locks in order

Any number of processes run programs of their own, lists of operations: waiting for a semaphore,
posting it, and calls that only change other data.  The semaphores are locks, free at the start.
When every program takes its locks in increasing order, posts only what it holds, and keeps
nothing in the end (`Ordered`), then no two processes hold one lock (`Owned.exclusive`), and while
some process has not finished, one can go on (`Owned.progress`). -/

namespace CSE130.OrderedLocks

open Function (update)
open Transition

variable {ι κ δ : Type*} [LinearOrder ι]

/-- An operation of a program. -/
inductive Op (ι κ : Type*) where
  | wait (j : ι)
  | post (j : ι)
  | call (c : κ)

/-- The semaphores, the other data, and the processes: each with its program and the number of
operations that it has done. -/
structure System (ι κ δ : Type*) where
  sem : ι → ℕ
  data : δ
  procs : List (List (Op ι κ) × ℕ)

/-- A process starts, or the process `k` does its next operation. -/
inductive Act (ι κ : Type*) where
  | start (p : List (Op ι κ))
  | run (k : ℕ)

/-- The operation of the process `k` on the semaphores and the data; `none` when it has to wait. -/
def Op.exec (perform : ℕ → κ → δ → δ) (k : ℕ) (s : System ι κ δ) : Op ι κ → Option (System ι κ δ)
  | .wait j => if 0 < s.sem j then some { s with sem := update s.sem j (s.sem j - 1) } else none
  | .post j => some { s with sem := update s.sem j (s.sem j + 1) }
  | .call c => some { s with data := perform k c s.data }

def step (perform : ℕ → κ → δ → δ) : Act ι κ → System ι κ δ → Option (System ι κ δ)
  | .start p, s => some { s with procs := s.procs ++ [(p, 0)] }
  | .run k, s =>
      s.procs[k]?.bind fun (p, n) => (p[n]?).bind fun op => (op.exec perform k s).map fun s =>
        { s with procs := s.procs.set k (p, n + 1) }

/-! ### The locks that a program holds -/

/-- What an operation does to the set of locks held. -/
def Op.hold (h : ι → Bool) : Op ι κ → ι → Bool
  | .wait j => update h j true
  | .post j => update h j false
  | .call _ => h

/-- The locks held after the first `n` operations of a program. -/
def held (p : List (Op ι κ)) (n : ℕ) : ι → Bool := (p.take n).foldl Op.hold fun _ => false

variable {p : List (Op ι κ)} {n k : ℕ} {op : Op ι κ} {i j : ι}

@[simp] theorem held_zero (p : List (Op ι κ)) (j : ι) : held p 0 j = false := rfl

theorem held_succ (h : p[n]? = some op) : held p (n + 1) = op.hold (held p n) := by
  simp [held, List.take_add_one, h]

/-- Locks of `J` are taken in increasing order, only a lock that is held is given back, and none
is kept. -/
structure Ordered (J : Finset ι) (p : List (Op ι κ)) : Prop where
  wait : ∀ n j, p[n]? = some (.wait j) → j ∈ J ∧ ∀ i, held p n i = true → i < j
  post : ∀ n j, p[n]? = some (.post j) → j ∈ J ∧ held p n j = true
  done : ∀ j, held p p.length j = false

/-! ### Owners -/

/-- `owner` says which process holds a lock. -/
structure Owned (J : Finset ι) (s : System ι κ δ) (owner : ι → Option ℕ) : Prop where
  sem : ∀ j ∈ J, s.sem j = if owner j = none then 1 else 0
  owner : ∀ j (k : ℕ), owner j = some k ↔ ∃ p n, s.procs[k]? = some (p, n) ∧ held p n j = true
  ordered : ∀ (k : ℕ) p n, s.procs[k]? = some (p, n) → Ordered J p ∧ n ≤ p.length

variable {s s' : System ι κ δ} {perform : ℕ → κ → δ → δ} {owner : ι → Option ℕ} {J : Finset ι}

theorem owned_init (hs : ∀ j ∈ J, s.sem j = 1) (hp : s.procs = []) :
    Owned J s fun _ => none where
  sem j hj := by simp [hs j hj]
  owner j k := by simp [hp]
  ordered k p n h := by simp [hp] at h

theorem run_cases (h : step perform (.run k) s = some s') :
    ∃ p n op s₁, s.procs[k]? = some (p, n) ∧ p[n]? = some op ∧ op.exec perform k s = some s₁ ∧
      s' = { s₁ with procs := s₁.procs.set k (p, n + 1) } := by
  simp only [step, Option.bind_eq_some_iff, Option.map_eq_some_iff] at h
  obtain ⟨⟨p, n⟩, hp, op, hop, s₁, h₁, hs⟩ := h
  exact ⟨p, n, op, s₁, hp, hop, h₁, hs.symm⟩

/-- The cases of an operation: the semaphores after it. -/
theorem exec_cases {s₁ : System ι κ δ} (h : op.exec perform k s = some s₁) :
    s₁.procs = s.procs ∧
      ((∃ j, op = .wait j ∧ 0 < s.sem j ∧ s₁.sem = update s.sem j (s.sem j - 1)) ∨
        (∃ j, op = .post j ∧ s₁.sem = update s.sem j (s.sem j + 1)) ∨
        ∃ c, op = .call c ∧ s₁.sem = s.sem) := by
  cases op with
  | wait j =>
      simp only [Op.exec] at h
      split_ifs at h with hpos
      cases h
      exact ⟨rfl, .inl ⟨j, rfl, hpos, rfl⟩⟩
  | post j =>
      cases h
      exact ⟨rfl, .inr (.inl ⟨j, rfl, rfl⟩)⟩
  | call c =>
      cases h
      exact ⟨rfl, .inr (.inr ⟨c, rfl, rfl⟩)⟩

theorem getElem?_concat_iff {α : Type*} {l : List α} {a b : α} :
    (l ++ [a])[k]? = some b ↔ l[k]? = some b ∨ k = l.length ∧ b = a := by
  rw [List.getElem?_append]
  by_cases hlt : k < l.length
  · simp [hlt, hlt.ne]
  · by_cases hk : k = l.length
    · simp [hk, eq_comm]
    · have hpos : k - l.length ≠ 0 := by omega
      simp [hlt, hk, hpos]

namespace Owned

theorem exclusive (h : Owned J s owner) {k₁ k₂ n₁ n₂ : ℕ} {p₁ p₂ : List (Op ι κ)}
    (h₁ : s.procs[k₁]? = some (p₁, n₁)) (h₂ : s.procs[k₂]? = some (p₂, n₂))
    (hj₁ : held p₁ n₁ j = true) (hj₂ : held p₂ n₂ j = true) : k₁ = k₂ := by
  have ho₁ := (h.owner j k₁).mpr ⟨p₁, n₁, h₁, hj₁⟩
  have ho₂ := (h.owner j k₂).mpr ⟨p₂, n₂, h₂, hj₂⟩
  exact Option.some.inj (ho₁.symm.trans ho₂)

theorem start (h : Owned J s owner) (hp : Ordered J p) :
    Owned J { s with procs := s.procs ++ [(p, 0)] } owner where
  sem := h.sem
  owner j k := by
    rw [h.owner]
    constructor
    · rintro ⟨q, n, hq, hj⟩
      exact ⟨q, n, getElem?_concat_iff.mpr (.inl hq), hj⟩
    · rintro ⟨q, n, hq, hj⟩
      rcases getElem?_concat_iff.mp hq with hq | ⟨-, hq⟩
      · exact ⟨q, n, hq, hj⟩
      · cases hq
        simp at hj
  ordered k q n hq := by
    rcases getElem?_concat_iff.mp hq with hq | ⟨-, hq⟩
    · exact h.ordered k q n hq
    · cases hq
      exact ⟨hp, Nat.zero_le _⟩

/-- The process `k` does its next operation, and `owner'` says what it holds then. -/
theorem advance (h : Owned J s owner) {owner' : ι → Option ℕ} {s₁ : System ι κ δ}
    (hk : s.procs[k]? = some (p, n)) (hop : p[n]? = some op) (hprocs : s₁.procs = s.procs)
    (hsem : ∀ j ∈ J, s₁.sem j = if owner' j = none then 1 else 0)
    (hown : ∀ j, owner' j = some k ↔ op.hold (held p n) j = true)
    (hother : ∀ j i, i ≠ k → (owner' j = some i ↔ owner j = some i)) :
    Owned J { s₁ with procs := s₁.procs.set k (p, n + 1) } owner' where
  sem := hsem
  owner j i := by
    have hlt := (List.getElem?_eq_some_iff.mp hk).1
    rw [hprocs]
    by_cases hik : i = k
    · subst hik
      rw [hown]
      simp [hlt, held_succ hop]
    · rw [hother j i hik, h.owner]
      simp [List.getElem?_set_ne (Ne.symm hik)]
  ordered i q m hq := by
    have hlt := (List.getElem?_eq_some_iff.mp hk).1
    rw [hprocs] at hq
    by_cases hik : i = k
    · subst hik
      simp [hlt] at hq
      obtain ⟨rfl, rfl⟩ := hq
      exact ⟨(h.ordered i p n hk).1, (List.getElem?_eq_some_iff.mp hop).1⟩
    · simp [List.getElem?_set_ne (Ne.symm hik)] at hq
      exact h.ordered i q m hq

theorem run (h : Owned J s owner) (hs : step perform (.run k) s = some s') :
    ∃ owner', Owned J s' owner' := by
  obtain ⟨p, n, op, s₁, hk, hop, hexec, rfl⟩ := run_cases hs
  obtain ⟨hp, -⟩ := h.ordered k p n hk
  obtain ⟨hprocs, ⟨j, rfl, hpos, hsem⟩ | ⟨j, rfl, hsem⟩ | ⟨c, rfl, hsem⟩⟩ := exec_cases hexec
  · -- the lock was free
    have hJ := (hp.wait n j hop).1
    have hfree : owner j = none := by
      by_contra hne
      rw [h.sem j hJ, if_neg hne] at hpos
      exact absurd hpos (Nat.lt_irrefl 0)
    refine ⟨update owner j (some k), h.advance hk hop hprocs (fun i hi => ?_) (fun i => ?_)
      fun i l hl => ?_⟩
    · rw [hsem]
      by_cases hij : i = j
      · subst hij
        simp [h.sem i hi, hfree]
      · simp [hij, h.sem i hi]
    · by_cases hij : i = j
      · subst hij
        simp [Op.hold]
      · simp [hij, Op.hold, h.owner i k, hk]
    · by_cases hij : i = j
      · subst hij
        simp [hfree, Ne.symm hl]
      · simp [hij]
  · -- the process is the owner
    obtain ⟨hJ, hheld⟩ := hp.post n j hop
    have hown : owner j = some k := (h.owner j k).mpr ⟨p, n, hk, hheld⟩
    refine ⟨update owner j none, h.advance hk hop hprocs (fun i hi => ?_) (fun i => ?_)
      fun i l hl => ?_⟩
    · rw [hsem]
      by_cases hij : i = j
      · subst hij
        simp [h.sem i hi, hown]
      · simp [hij, h.sem i hi]
    · by_cases hij : i = j
      · subst hij
        simp [Op.hold]
      · simp [hij, Op.hold, h.owner i k, hk]
    · by_cases hij : i = j
      · subst hij
        simp [hown, Ne.symm hl]
      · simp [hij]
  · refine ⟨owner, h.advance hk hop hprocs (fun i hi => ?_) (fun i => ?_) fun _ _ _ => Iff.rfl⟩
    · rw [hsem, h.sem i hi]
    · simp [Op.hold, h.owner i k, hk]

/-- **Freedom from deadlock**: while a process has not finished, some process can go on. -/
theorem progress (perform : ℕ → κ → δ → δ) (h : Owned J s owner)
    (hk : s.procs[k]? = some (p, n)) (hn : n < p.length) :
    ∃ k' s', step perform (.run k') s = some s' := by
  by_contra hstuck
  -- then every process that has not finished waits for a lock that is held
  have hwait : ∀ (k : ℕ) p n, s.procs[k]? = some (p, n) → n < p.length →
      ∃ j, p[n]? = some (.wait j) ∧ s.sem j = 0 := by
    intro k p n hk hn
    have hop : p[n]? = some p[n] := List.getElem?_eq_getElem hn
    have hnone : p[n].exec perform k s = none := by
      by_contra hne
      obtain ⟨s₁, h₁⟩ := Option.ne_none_iff_exists'.mp hne
      exact hstuck ⟨k, _, by simp [step, hk, hop, h₁]; rfl⟩
    cases hcase : p[n] with
    | wait j =>
        rw [hcase] at hnone
        simp only [Op.exec] at hnone
        split_ifs at hnone with hpos
        exact ⟨j, by rw [hop, hcase], by omega⟩
    | post j =>
        rw [hcase] at hnone
        cases hnone
    | call c =>
        rw [hcase] at hnone
        cases hnone
  -- take the greatest lock that one of them waits for
  classical
  let W := J.filter fun j => ∃ (k : ℕ) (p : List (Op ι κ)) (n : ℕ), s.procs[k]? = some (p, n) ∧
    p[n]? = some (.wait j) ∧ s.sem j = 0
  have hmem : ∀ {k : ℕ} {p n}, s.procs[k]? = some (p, n) → n < p.length →
      ∃ j ∈ W, p[n]? = some (.wait j) := by
    intro k p n hk hn
    obtain ⟨j, hj, hsem⟩ := hwait k p n hk hn
    have hJ := ((h.ordered k p n hk).1.wait n j hj).1
    exact ⟨j, Finset.mem_filter.mpr ⟨hJ, k, p, n, hk, hj, hsem⟩, hj⟩
  have hne : W.Nonempty := by
    obtain ⟨j, hj, -⟩ := hmem hk hn
    exact ⟨j, hj⟩
  obtain ⟨j, hj, hmax⟩ := Finset.exists_max_image W id hne
  obtain ⟨hJ, _, _, _, -, -, hsem⟩ := Finset.mem_filter.mp hj
  -- its owner waits for a greater one
  rw [h.sem j hJ] at hsem
  have hsome : owner j ≠ none := fun hn => by simp [hn] at hsem
  obtain ⟨l, hl⟩ := Option.ne_none_iff_exists'.mp hsome
  obtain ⟨q, m, hq, hheld⟩ := (h.owner j l).mp hl
  obtain ⟨hordered, hle⟩ := h.ordered l q m hq
  have hlt : m < q.length := by
    refine lt_of_le_of_ne hle fun hm => ?_
    rw [hm, hordered.done j] at hheld
    cases hheld
  obtain ⟨i, hi, hwi⟩ := hmem hq hlt
  have hji := (hordered.wait m i hwi).2 j hheld
  exact absurd (hmax i hi) (not_le.mpr hji)

end Owned

end CSE130.OrderedLocks
