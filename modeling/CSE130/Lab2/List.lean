import Mathlib.Data.List.Perm.Basic
import Mathlib.Data.List.Sort
import Mathlib.Data.Int.Order.Basic

/-! # Kernel lists: sorting and maximum (`lib/kernel/list.c`)

A `struct list` is modelled by the Lean list of its elements from front to back.  `listSort`
follows the natural merge sort of the source: a pass cuts the list into runs of nondecreasing
elements and merges them two by two, and passes repeat until one run is left.

The comparator is a partial function: a `list_less_func` of this kernel dereferences pointers
(`lock->donator`, the front of `sema->waiters`), and `none` is a comparison that fails an
assertion or dereferences a null pointer.  All the comparators of the kernel compare a
priority found through the element, so they are instances of `lessBy key`; `key` is partial
where the pointer may be missing. -/

namespace CSE130.Lab2.KernelList

variable {α : Type}

/-! ### The code -/

/-- `is_sorted`: no element is less than the one before it. -/
def isSorted (less : α → α → Option Bool) : List α → Option Bool
  | a :: b :: l => do if (← less b a) then some false else isSorted less (b :: l)
  | _ => some true

/-- `find_end_of_run`: the elements that continue the nondecreasing run begun by `a`, and what
comes after the run. -/
def findEndOfRun (less : α → α → Option Bool) : α → List α → Option (List α × List α)
  | _, [] => some ([], [])
  | a, b :: l => do
      if (← less b a) then some ([], b :: l)
      else
        let (run, rest) ← findEndOfRun less b l
        some (b :: run, rest)

/-- The elements of the second run that `inplace_merge` moves in front of `a`, and the rest. -/
def takeLess (less : α → α → Option Bool) (a : α) : List α → Option (List α × List α)
  | [] => some ([], [])
  | b :: l => do
      if (← less b a) then
        let (moved, rest) ← takeLess less a l
        some (b :: moved, rest)
      else some ([], b :: l)

/-- The loop of `inplace_merge`. -/
def mergeLoop (less : α → α → Option Bool) : List α → List α → Option (List α)
  | [], bs => some bs
  | a :: as, bs => do
      let (moved, rest) ← takeLess less a bs
      let tail ← mergeLoop less as rest
      some (moved ++ a :: tail)

/-- `inplace_merge`, with its two `is_sorted` assertions. -/
def inplaceMerge (less : α → α → Option Bool) (as bs : List α) : Option (List α) := do
  if (← isSorted less as) && (← isSorted less bs) then mergeLoop less as bs else none

/-- One pass of `list_sort`: `output_run_cnt` and the list it leaves.  The first argument
bounds the number of output runs. -/
def sortPass (less : α → α → Option Bool) : ℕ → List α → Option (ℕ × List α)
  | 0, l => some (0, l)
  | _, [] => some (0, [])
  | n + 1, a :: l => do
      let (run₀, rest) ← findEndOfRun less a l
      match rest with
      | [] => some (1, a :: run₀)
      | b :: l' =>
          let (run₁, rest') ← findEndOfRun less b l'
          let merged ← inplaceMerge less (a :: run₀) (b :: run₁)
          let (cnt, out) ← sortPass less n rest'
          some (cnt + 1, merged ++ out)

/-- The `do … while (output_run_cnt > 1)` of `list_sort`; the first argument bounds the number
of passes. -/
def sortLoop (less : α → α → Option Bool) : ℕ → List α → Option (List α)
  | 0, l => some l
  | n + 1, l => do
      let (cnt, out) ← sortPass less l.length l
      if cnt > 1 then sortLoop less n out else some out

/-- `list_sort`. -/
def listSort (less : α → α → Option Bool) (l : List α) : Option (List α) :=
  if l = [] then some []
  else do
    let out ← sortLoop less l.length l
    if (← isSorted less out) then some out else none

/-- `list_max`, for a list that is not empty: the first element that no later one exceeds. -/
def listMax (less : α → α → Option Bool) : α → List α → Option α
  | m, [] => some m
  | m, e :: l => do if (← less m e) then listMax less e l else listMax less m l

/-- A comparator that compares the integers found under `key`. -/
def lessBy (key : α → Option ℤ) (a b : α) : Option Bool := do
  let x ← key a
  let y ← key b
  some (decide (x < y))

example : listSort (lessBy fun x : ℤ => some x) [3, 1, 2, 2, 0] = some [0, 1, 2, 2, 3] := by
  decide

/-! ### The result is a permutation, whatever the comparator -/

section perm

variable {less : α → α → Option Bool}

theorem takeLess_append {a : α} : ∀ {l moved rest : List α},
    takeLess less a l = some (moved, rest) → l = moved ++ rest
  | [], moved, rest, h => by
      simp only [takeLess, Option.some.injEq, Prod.mk.injEq] at h
      obtain ⟨rfl, rfl⟩ := h
      rfl
  | b :: l, moved, rest, h => by
      simp only [takeLess, Option.bind_eq_bind, Option.bind_eq_some_iff] at h
      obtain ⟨lt, _, h⟩ := h
      cases lt with
      | false =>
          simp only [Bool.false_eq_true, if_false, Option.some.injEq, Prod.mk.injEq] at h
          obtain ⟨rfl, rfl⟩ := h
          rfl
      | true =>
          simp only [if_true, Option.bind_eq_some_iff, Option.some.injEq, Prod.mk.injEq] at h
          obtain ⟨⟨m, r⟩, hm, rfl, rfl⟩ := h
          rw [takeLess_append hm, List.cons_append]

theorem mergeLoop_perm : ∀ {as bs out : List α},
    mergeLoop less as bs = some out → out.Perm (as ++ bs)
  | [], bs, out, h => by
      simp only [mergeLoop, Option.some.injEq] at h
      exact h ▸ List.Perm.refl _
  | a :: as, bs, out, h => by
      simp only [mergeLoop, Option.bind_eq_bind, Option.bind_eq_some_iff, Option.some.injEq] at h
      obtain ⟨⟨moved, rest⟩, hm, tail, ht, rfl⟩ := h
      rw [takeLess_append hm, List.cons_append]
      have hp := mergeLoop_perm ht
      calc moved ++ a :: tail
          _ |>.Perm (a :: (moved ++ tail)) := List.perm_middle
          _ |>.Perm (a :: (moved ++ (as ++ rest))) := (hp.append_left moved).cons a
          _ |>.Perm (a :: (as ++ (moved ++ rest))) := by
            rw [← List.append_assoc, ← List.append_assoc]
            exact (List.perm_append_comm.append_right rest).cons a

theorem findEndOfRun_append : ∀ {a : α} {l run rest : List α},
    findEndOfRun less a l = some (run, rest) → l = run ++ rest
  | a, [], run, rest, h => by
      simp only [findEndOfRun, Option.some.injEq, Prod.mk.injEq] at h
      obtain ⟨rfl, rfl⟩ := h
      rfl
  | a, b :: l, run, rest, h => by
      simp only [findEndOfRun, Option.bind_eq_bind, Option.bind_eq_some_iff] at h
      obtain ⟨lt, _, h⟩ := h
      cases lt with
      | true =>
          simp only [if_true, Option.some.injEq, Prod.mk.injEq] at h
          obtain ⟨rfl, rfl⟩ := h
          rfl
      | false =>
          simp only [Bool.false_eq_true, if_false, Option.bind_eq_some_iff, Option.some.injEq,
            Prod.mk.injEq] at h
          obtain ⟨⟨m, r⟩, hm, rfl, rfl⟩ := h
          rw [findEndOfRun_append hm, List.cons_append]

theorem inplaceMerge_perm {as bs out : List α} (h : inplaceMerge less as bs = some out) :
    out.Perm (as ++ bs) := by
  simp only [inplaceMerge, Option.bind_eq_bind, Option.bind_eq_some_iff] at h
  obtain ⟨sa, _, sb, _, h⟩ := h
  split at h
  · exact mergeLoop_perm h
  · cases h

theorem sortPass_perm : ∀ {n : ℕ} {l out : List α} {cnt : ℕ},
    sortPass less n l = some (cnt, out) → out.Perm l
  | 0, l, out, cnt, h => by
      simp only [sortPass, Option.some.injEq, Prod.mk.injEq] at h
      exact h.2 ▸ List.Perm.refl _
  | n + 1, [], out, cnt, h => by
      simp only [sortPass, Option.some.injEq, Prod.mk.injEq] at h
      exact h.2 ▸ List.Perm.refl _
  | n + 1, a :: l, out, cnt, h => by
      simp only [sortPass, Option.bind_eq_bind, Option.bind_eq_some_iff] at h
      obtain ⟨⟨run₀, rest⟩, hr₀, h⟩ := h
      rw [findEndOfRun_append hr₀]
      cases rest with
      | nil =>
          simp only [Option.some.injEq, Prod.mk.injEq] at h
          rw [← h.2, List.append_nil]
      | cons b l' =>
          simp only [Option.bind_eq_some_iff, Option.some.injEq, Prod.mk.injEq] at h
          obtain ⟨⟨run₁, rest'⟩, hr₁, merged, hm, ⟨c, o⟩, ho, _, rfl⟩ := h
          rw [findEndOfRun_append hr₁]
          have hp := (inplaceMerge_perm hm).append (sortPass_perm ho)
          simpa using hp

theorem sortLoop_perm : ∀ {n : ℕ} {l out : List α},
    sortLoop less n l = some out → out.Perm l
  | 0, l, out, h => by
      simp only [sortLoop, Option.some.injEq] at h
      exact h ▸ List.Perm.refl _
  | n + 1, l, out, h => by
      simp only [sortLoop, Option.bind_eq_bind, Option.bind_eq_some_iff] at h
      obtain ⟨⟨cnt, o⟩, ho, h⟩ := h
      split at h
      · exact (sortLoop_perm h).trans (sortPass_perm ho)
      · simp only [Option.some.injEq] at h
        exact h ▸ sortPass_perm ho

theorem listSort_eq_some {l out : List α} (h : listSort less l = some out) :
    out.Perm l ∧ isSorted less out = some true := by
  unfold listSort at h
  split at h
  · rename_i hl
    simp only [Option.some.injEq] at h
    subst h hl
    exact ⟨List.Perm.refl _, rfl⟩
  · simp only [Option.bind_eq_bind, Option.bind_eq_some_iff] at h
    obtain ⟨o, ho, sorted, hs, h⟩ := h
    cases sorted with
    | false => simp at h
    | true =>
        simp only [if_true, Option.some.injEq] at h
        exact h ▸ ⟨sortLoop_perm ho, hs⟩

theorem listSort_perm {l out : List α} (h : listSort less l = some out) : out.Perm l :=
  (listSort_eq_some h).1

end perm

/-! ### Sorting by a total key -/

section key

variable {less : α → α → Option Bool} {val : α → ℤ}

/-- On the elements of `l`, `less` compares the integers `val` gives them. -/
def Compares (less : α → α → Option Bool) (val : α → ℤ) (l : List α) : Prop :=
  ∀ a ∈ l, ∀ b ∈ l, less a b = some (decide (val a < val b))

theorem Compares.subset {l l' : List α} (h : Compares less val l) (hs : l' ⊆ l) :
    Compares less val l' :=
  fun a ha b hb => h a (hs ha) b (hs hb)

/-- `l` is in nondecreasing order. -/
def Ordered (val : α → ℤ) (l : List α) : Prop := l.Pairwise fun a b => val a ≤ val b

theorem isSorted_true_iff : ∀ {l : List α}, Compares less val l →
    (isSorted less l = some true ↔ Ordered val l)
  | [], _ => by simp [isSorted, Ordered]
  | [a], _ => by simp [isSorted, Ordered]
  | a :: b :: l, hc => by
      have ih := isSorted_true_iff (hc.subset (List.subset_cons_self a (b :: l)))
      have hba := hc b (by simp) a (by simp)
      unfold Ordered at ih ⊢
      rw [List.pairwise_cons]
      by_cases hlt : val b < val a
      · constructor
        · intro h
          simp [isSorted, hba, hlt] at h
        · intro h
          have := h.1 b (by simp)
          omega
      · have he : isSorted less (a :: b :: l) = isSorted less (b :: l) := by
          simp [isSorted, hba, hlt]
        rw [he, ih]
        refine ⟨fun h => ⟨?_, h⟩, fun h => h.2⟩
        intro x hx
        rcases List.mem_cons.mp hx with rfl | hx
        · omega
        · have := (List.pairwise_cons.mp h).1 x hx
          omega

theorem listSort_ordered {l out : List α} (hc : Compares less val l)
    (h : listSort less l = some out) : Ordered val out :=
  (isSorted_true_iff (hc.subset (listSort_perm h).subset)).mp (listSort_eq_some h).2

/-- The back of a sorted list carries the largest key. -/
theorem Ordered.le_getLast {l : List α} {m : α} (h : Ordered val l) (hm : l.getLast? = some m) :
    ∀ x ∈ l, val x ≤ val m := by
  intro x hx
  obtain ⟨init, rfl⟩ : ∃ init, l = init ++ [m] := by
    rw [List.getLast?_eq_some_iff] at hm
    exact hm
  rcases List.mem_append.mp hx with hx | hx
  · exact (List.pairwise_append.mp h).2.2 x hx m (by simp)
  · rw [List.mem_singleton.mp hx]

/-- `list_max` returns an element of the list, and none exceeds it. -/
theorem listMax_spec : ∀ {a : α} {l : List α}, Compares less val (a :: l) →
    ∃ m, listMax less a l = some m ∧ m ∈ a :: l ∧ ∀ x ∈ a :: l, val x ≤ val m
  | a, [], _ => ⟨a, rfl, by simp, by simp⟩
  | a, e :: l, hc => by
      have hae := hc a (by simp) e (by simp)
      by_cases hlt : val a < val e
      · obtain ⟨m, hm, hmem, hmax⟩ := listMax_spec
          (hc.subset (List.subset_cons_self a (e :: l)))
        refine ⟨m, by simp [listMax, hae, hlt, hm], List.mem_cons_of_mem a hmem, ?_⟩
        intro x hx
        rcases List.mem_cons.mp hx with rfl | hx
        · have := hmax e (by simp)
          omega
        · exact hmax x hx
      · obtain ⟨m, hm, hmem, hmax⟩ := listMax_spec (a := a) (l := l)
          (hc.subset (by intro x hx; simp only [List.mem_cons] at hx ⊢; tauto))
        refine ⟨m, by simp [listMax, hae, hlt, hm], ?_, ?_⟩
        · simp only [List.mem_cons] at hmem ⊢
          tauto
        · intro x hx
          rcases List.mem_cons.mp hx with rfl | hx
          · exact hmax x (by simp)
          · rcases List.mem_cons.mp hx with rfl | hx
            · have := hmax a (by simp)
              omega
            · exact hmax x (by simp [hx])

end key

/-! ### The sort ends, and fails no assertion

The measure is the number of descents: a pass over a list with `d` of them writes at most
`d / 2 + 1` runs, so the number of passes never reaches the length of the list. -/

section total

variable {less : α → α → Option Bool} {val : α → ℤ}

/-- Adjacent pairs that are out of order. -/
def descents (val : α → ℤ) : List α → ℕ
  | a :: b :: l => (if val b < val a then 1 else 0) + descents val (b :: l)
  | _ => 0

theorem descents_lt_length : ∀ {l : List α}, l ≠ [] → descents val l < l.length
  | [a], _ => by simp [descents]
  | a :: b :: l, _ => by
      have := descents_lt_length (l := b :: l) (by simp)
      simp only [descents, List.length_cons] at this ⊢
      split <;> omega

theorem descents_eq_zero : ∀ {l : List α}, descents val l = 0 → Ordered val l
  | [], _ => by simp [Ordered]
  | [a], _ => by simp [Ordered]
  | a :: b :: l, h => by
      simp only [descents, Nat.add_eq_zero_iff] at h
      have hle : val a ≤ val b := by
        by_contra hlt
        rw [if_pos (by omega)] at h
        omega
      have ih := descents_eq_zero h.2
      refine List.pairwise_cons.mpr ⟨?_, ih⟩
      intro x hx
      rcases List.mem_cons.mp hx with rfl | hx
      · exact hle
      · exact hle.trans ((List.pairwise_cons.mp ih).1 x hx)

theorem descents_of_ordered : ∀ {l : List α}, Ordered val l → descents val l = 0
  | [], _ => rfl
  | [a], _ => rfl
  | a :: b :: l, h => by
      have hab := (List.pairwise_cons.mp h).1 b (by simp)
      simp only [descents, descents_of_ordered (List.pairwise_cons.mp h).2]
      rw [if_neg (by omega)]

theorem Ordered.descents_append_le (l' : List α) : ∀ {l : List α}, Ordered val l →
    descents val (l ++ l') ≤ descents val l' + 1
  | [], _ => by simp
  | [a], _ => by
      cases l' with
      | nil => simp [descents]
      | cons b l' =>
          simp only [List.cons_append, List.nil_append, descents]
          split <;> omega
  | a :: b :: l, h => by
      have ih := Ordered.descents_append_le l' (List.pairwise_cons.mp h).2
      have hab := (List.pairwise_cons.mp h).1 b (by simp)
      simp only [List.cons_append, descents] at ih ⊢
      rw [if_neg (by omega)]
      omega

theorem findEndOfRun_spec : ∀ {a : α} {l : List α}, Compares less val (a :: l) →
    ∃ run rest, findEndOfRun less a l = some (run, rest) ∧ Ordered val (a :: run) ∧
      (rest ≠ [] → descents val (a :: l) = descents val rest + 1)
  | a, [], _ => ⟨[], [], rfl, by simp [Ordered], by simp⟩
  | a, b :: l, hc => by
      have hba := hc b (by simp) a (by simp)
      by_cases hlt : val b < val a
      · refine ⟨[], b :: l, by simp [findEndOfRun, hba, hlt], by simp [Ordered], fun _ => ?_⟩
        simp only [descents, hlt, if_true]
        omega
      · obtain ⟨run, rest, he, ho, hd⟩ := findEndOfRun_spec
          (hc.subset (List.subset_cons_self a (b :: l)))
        refine ⟨b :: run, rest, by simp [findEndOfRun, hba, hlt, he], ?_, fun hr => ?_⟩
        · refine List.pairwise_cons.mpr ⟨?_, ho⟩
          intro x hx
          rcases List.mem_cons.mp hx with rfl | hx
          · omega
          · have := (List.pairwise_cons.mp ho).1 x hx
            omega
        · simp only [descents, hlt, if_false, Nat.zero_add]
          exact hd hr

theorem takeLess_spec {a : α} : ∀ {l : List α}, Compares less val (a :: l) → Ordered val l →
    ∃ moved rest, takeLess less a l = some (moved, rest) ∧ (∀ x ∈ moved, val x < val a) ∧
      ∀ x ∈ rest, val a ≤ val x
  | [], _, _ => ⟨[], [], rfl, by simp, by simp⟩
  | b :: l, hc, ho => by
      have hba := hc b (by simp) a (by simp)
      by_cases hlt : val b < val a
      · obtain ⟨moved, rest, he, hm, hr⟩ := takeLess_spec (l := l)
          (hc.subset (by intro x hx; simp only [List.mem_cons] at hx ⊢; tauto))
          (List.pairwise_cons.mp ho).2
        refine ⟨b :: moved, rest, by simp [takeLess, hba, hlt, he], ?_, hr⟩
        intro x hx
        rcases List.mem_cons.mp hx with rfl | hx
        · exact hlt
        · exact hm x hx
      · refine ⟨[], b :: l, by simp [takeLess, hba, hlt], by simp, ?_⟩
        intro x hx
        rcases List.mem_cons.mp hx with rfl | hx
        · omega
        · have := (List.pairwise_cons.mp ho).1 x hx
          omega

theorem mergeLoop_spec : ∀ {as bs : List α}, Compares less val (as ++ bs) → Ordered val as →
    Ordered val bs → ∃ out, mergeLoop less as bs = some out ∧ Ordered val out
  | [], bs, _, _, hb => ⟨bs, rfl, hb⟩
  | a :: as, bs, hc, ha, hb => by
      obtain ⟨moved, rest, he, hm, hr⟩ := takeLess_spec (a := a) (l := bs)
        (hc.subset (by intro x hx; simp only [List.mem_cons, List.mem_append] at hx ⊢; tauto)) hb
      have hbs := takeLess_append he
      rw [hbs] at hb
      obtain ⟨hmo, hro, hmr⟩ := List.pairwise_append.mp hb
      obtain ⟨haa, hao⟩ := List.pairwise_cons.mp ha
      have hcr : Compares less val (as ++ rest) := hc.subset (by
        rw [hbs]; intro x hx; simp only [List.mem_cons, List.mem_append] at hx ⊢; tauto)
      obtain ⟨tail, ht, hto⟩ := mergeLoop_spec hcr hao hro
      have htl : ∀ x ∈ tail, val a ≤ val x := by
        intro x hx
        rcases List.mem_append.mp ((mergeLoop_perm ht).subset hx) with hx | hx
        · exact haa x hx
        · exact hr x hx
      refine ⟨moved ++ a :: tail, by simp [mergeLoop, he, ht], ?_⟩
      refine List.pairwise_append.mpr ⟨hmo, List.pairwise_cons.mpr ⟨htl, hto⟩, ?_⟩
      intro x hx y hy
      have hxa := hm x hx
      rcases List.mem_cons.mp hy with rfl | hy
      · omega
      · have := htl y hy
        omega

theorem inplaceMerge_spec {as bs : List α} (hc : Compares less val (as ++ bs))
    (ha : Ordered val as) (hb : Ordered val bs) :
    ∃ out, inplaceMerge less as bs = some out ∧ Ordered val out := by
  obtain ⟨out, ho, hs⟩ := mergeLoop_spec hc ha hb
  have h₁ := (isSorted_true_iff (hc.subset (List.subset_append_left as bs))).mpr ha
  have h₂ := (isSorted_true_iff (hc.subset (List.subset_append_right as bs))).mpr hb
  exact ⟨out, by simp [inplaceMerge, h₁, h₂, ho], hs⟩

/-- A pass halves the number of runs: `cnt` is at most half of `descents + 2`, and the list it
leaves has fewer than `cnt` descents. -/
theorem sortPass_spec : ∀ {n : ℕ} {l : List α}, Compares less val l → l.length ≤ n → l ≠ [] →
    ∃ cnt out, sortPass less n l = some (cnt, out) ∧ 2 * cnt ≤ descents val l + 2 ∧
      descents val out + 1 ≤ cnt
  | 0, l, _, hn, hne => absurd (List.length_eq_zero_iff.mp (Nat.le_zero.mp hn)) hne
  | n + 1, a :: l, hc, hn, _ => by
      obtain ⟨run₀, rest, hr₀, ho₀, hd₀⟩ := findEndOfRun_spec hc
      have hl := findEndOfRun_append hr₀
      cases rest with
      | nil =>
          have hz := descents_of_ordered ho₀
          refine ⟨1, a :: run₀, by simp [sortPass, hr₀], by omega, by omega⟩
      | cons b l' =>
          have hcb : Compares less val (b :: l') := hc.subset (by
            rw [hl]; intro x hx; simp only [List.mem_cons, List.mem_append] at hx ⊢; tauto)
          obtain ⟨run₁, rest', hr₁, ho₁, hd₁⟩ := findEndOfRun_spec hcb
          have hl' := findEndOfRun_append hr₁
          have hca : Compares less val ((a :: run₀) ++ (b :: run₁)) := hc.subset (by
            rw [hl, hl']; intro x hx
            simp only [List.mem_cons, List.mem_append] at hx ⊢; tauto)
          obtain ⟨merged, hm, hmo⟩ := inplaceMerge_spec hca ho₀ ho₁
          have hd := hd₀ (by simp)
          by_cases hne : rest' = []
          · subst hne
            have he : sortPass less n ([] : List α) = some (0, []) := by cases n <;> rfl
            refine ⟨1, merged, by simp [sortPass, hr₀, hr₁, hm, he], by omega, ?_⟩
            rw [descents_of_ordered hmo]
          · have hlen : rest'.length ≤ n := by
              have h₁ := congrArg List.length hl
              have h₂ := congrArg List.length hl'
              simp only [List.length_append, List.length_cons] at h₁ h₂ hn
              omega
            obtain ⟨cnt, out, hp, hcnt, hout⟩ := sortPass_spec (n := n) (l := rest')
              (hcb.subset (by rw [hl']; intro x hx
                              simp only [List.mem_cons, List.mem_append] at hx ⊢; tauto))
              hlen hne
            have hd' := hd₁ hne
            have := hmo.descents_append_le out
            refine ⟨cnt + 1, merged ++ out, by simp [sortPass, hr₀, hr₁, hm, hp], ?_, ?_⟩ <;> omega

theorem sortLoop_spec : ∀ {n : ℕ} {l : List α}, Compares less val l → descents val l < n →
    l ≠ [] → ∃ out, sortLoop less n l = some out ∧ Ordered val out
  | 0, _, _, hn, _ => absurd hn (Nat.not_lt_zero _)
  | n + 1, l, hc, hn, hne => by
      obtain ⟨cnt, out, hp, hcnt, hout⟩ := sortPass_spec hc le_rfl hne
      have hperm := sortPass_perm hp
      by_cases h1 : cnt > 1
      · obtain ⟨o, ho, hs⟩ := sortLoop_spec (n := n) (hc.subset hperm.subset) (by omega)
          (fun h => hne (by rw [h] at hperm; exact hperm.symm.eq_nil))
        exact ⟨o, by simp [sortLoop, hp, h1, ho], hs⟩
      · exact ⟨out, by simp [sortLoop, hp, h1], descents_eq_zero (by omega)⟩

/-- **The sort of a list on which the comparator is a total order ends in success.** -/
theorem listSort_isSome {l : List α} (hc : Compares less val l) : (listSort less l).isSome := by
  by_cases hne : l = []
  · simp [listSort, hne]
  · obtain ⟨out, ho, hs⟩ := sortLoop_spec hc (descents_lt_length hne) hne
    have := (isSorted_true_iff (hc.subset (sortLoop_perm ho).subset)).mpr hs
    simp [listSort, hne, ho, this]

end total

/-! ### Elements with equal keys keep their order -/

section stable

variable {less : α → α → Option Bool} {val : α → ℤ}

/-- The elements of every key come in the same order. -/
def Stable (val : α → ℤ) (l out : List α) : Prop :=
  ∀ v, (out.filter fun x => val x = v) = l.filter fun x => val x = v

theorem Stable.refl (l : List α) : Stable val l l := fun _ => rfl

theorem Stable.trans {l out out' : List α} (h : Stable val l out) (h' : Stable val out out') :
    Stable val l out' := fun v => (h' v).trans (h v)

theorem Stable.append {l l' out out' : List α} (h : Stable val l out) (h' : Stable val l' out') :
    Stable val (l ++ l') (out ++ out') := by
  intro v
  rw [List.filter_append, List.filter_append, h v, h' v]

theorem takeLess_less {a : α} : ∀ {l moved rest : List α}, Compares less val (a :: l) →
    takeLess less a l = some (moved, rest) → ∀ x ∈ moved, val x < val a
  | [], moved, rest, _, h => by
      simp only [takeLess, Option.some.injEq, Prod.mk.injEq] at h
      rw [← h.1]
      nofun
  | b :: l, moved, rest, hc, h => by
      have hba := hc b (by simp) a (by simp)
      simp only [takeLess, hba, Option.bind_eq_bind, Option.bind_some] at h
      split at h
      · rename_i hlt
        simp only [Option.bind_eq_some_iff, Option.some.injEq, Prod.mk.injEq] at h
        obtain ⟨⟨m, r⟩, hm, rfl, rfl⟩ := h
        have hsub : (a :: l) ⊆ a :: b :: l := by
          intro x hx
          simp only [List.mem_cons] at hx ⊢
          tauto
        intro x hx
        rcases List.mem_cons.mp hx with rfl | hx
        · exact of_decide_eq_true hlt
        · exact takeLess_less (hc.subset hsub) hm x hx
      · simp only [Option.some.injEq, Prod.mk.injEq] at h
        rw [← h.1]
        nofun

/-- What moves in front of `a` has a smaller key than `a` and all that follows it. -/
theorem mergeLoop_stable : ∀ {as bs out : List α}, Compares less val (as ++ bs) →
    Ordered val as → mergeLoop less as bs = some out → Stable val (as ++ bs) out
  | [], bs, out, _, _, h => by
      simp only [mergeLoop, Option.some.injEq] at h
      exact h ▸ .refl bs
  | a :: as, bs, out, hc, ha, h => by
      simp only [mergeLoop, Option.bind_eq_bind, Option.bind_eq_some_iff, Option.some.injEq] at h
      obtain ⟨⟨moved, rest⟩, hm, tail, ht, rfl⟩ := h
      have hbs := takeLess_append hm
      have hcb : Compares less val (a :: bs) := hc.subset fun x hx => by
        simp only [List.cons_append, List.mem_cons, List.mem_append] at hx ⊢
        tauto
      have hcr : Compares less val (as ++ rest) := hc.subset fun x hx => by
        rw [hbs]
        simp only [List.cons_append, List.mem_cons, List.mem_append] at hx ⊢
        tauto
      have hless := takeLess_less hcb hm
      obtain ⟨haa, hao⟩ := List.pairwise_cons.mp ha
      intro v
      have hrest := mergeLoop_stable hcr hao ht v
      have hswap : (moved.filter fun x => val x = v) ++ ((a :: as).filter fun x => val x = v) =
          ((a :: as).filter fun x => val x = v) ++ moved.filter fun x => val x = v := by
        by_cases hv : v < val a
        · have hnone : ((a :: as).filter fun x => val x = v) = [] := by
            refine List.filter_eq_nil_iff.mpr fun x hx => ?_
            rcases List.mem_cons.mp hx with rfl | hx
            · simp only [decide_eq_true_eq]
              omega
            · have := haa x hx
              simp only [decide_eq_true_eq]
              omega
          rw [hnone, List.append_nil, List.nil_append]
        · have hnone : (moved.filter fun x => val x = v) = [] := by
            refine List.filter_eq_nil_iff.mpr fun x hx => ?_
            have := hless x hx
            simp only [decide_eq_true_eq]
            omega
          rw [hnone, List.append_nil, List.nil_append]
      calc ((moved ++ a :: tail).filter fun x => val x = v)
          _ = (moved.filter fun x => val x = v) ++ (((a :: as).filter fun x => val x = v) ++
                rest.filter fun x => val x = v) := by
            rw [List.filter_append, List.filter_cons, hrest, List.filter_append, List.filter_cons]
            split <;> rfl
          _ = ((a :: as ++ bs).filter fun x => val x = v) := by
            rw [← List.append_assoc, hswap, List.append_assoc, ← List.filter_append, ← hbs,
              ← List.filter_append]

theorem inplaceMerge_stable {as bs out : List α} (hc : Compares less val (as ++ bs))
    (h : inplaceMerge less as bs = some out) : Stable val (as ++ bs) out := by
  simp only [inplaceMerge, Option.bind_eq_bind, Option.bind_eq_some_iff] at h
  obtain ⟨sa, hsa, sb, -, h⟩ := h
  split at h
  · rename_i hand
    rw [(Bool.and_eq_true_iff.mp hand).1] at hsa
    exact mergeLoop_stable hc
      ((isSorted_true_iff (hc.subset (List.subset_append_left as bs))).mp hsa) h
  · cases h

theorem sortPass_stable : ∀ {n : ℕ} {l out : List α} {cnt : ℕ}, Compares less val l →
    sortPass less n l = some (cnt, out) → Stable val l out
  | 0, l, out, cnt, _, h => by
      simp only [sortPass, Option.some.injEq, Prod.mk.injEq] at h
      exact h.2 ▸ .refl l
  | n + 1, [], out, cnt, _, h => by
      simp only [sortPass, Option.some.injEq, Prod.mk.injEq] at h
      exact h.2 ▸ .refl []
  | n + 1, a :: l, out, cnt, hc, h => by
      simp only [sortPass, Option.bind_eq_bind, Option.bind_eq_some_iff] at h
      obtain ⟨⟨run₀, rest⟩, hr₀, h⟩ := h
      have hl := findEndOfRun_append hr₀
      cases rest with
      | nil =>
          simp only [Option.some.injEq, Prod.mk.injEq] at h
          rw [List.append_nil] at hl
          rw [← h.2, hl]
          exact .refl _
      | cons b l' =>
          simp only [Option.bind_eq_some_iff, Option.some.injEq, Prod.mk.injEq] at h
          obtain ⟨⟨run₁, rest'⟩, hr₁, merged, hm, ⟨c, o⟩, ho, _, rfl⟩ := h
          have hl' := findEndOfRun_append hr₁
          have hall : a :: l = (a :: run₀ ++ b :: run₁) ++ rest' := by
            rw [hl, hl', List.cons_append, List.cons_append, List.append_assoc, List.cons_append]
          rw [hall] at hc ⊢
          exact (inplaceMerge_stable (hc.subset (List.subset_append_left ..)) hm).append
            (sortPass_stable (hc.subset (List.subset_append_right ..)) ho)

theorem sortLoop_stable : ∀ {n : ℕ} {l out : List α}, Compares less val l →
    sortLoop less n l = some out → Stable val l out
  | 0, l, out, _, h => by
      simp only [sortLoop, Option.some.injEq] at h
      exact h ▸ .refl l
  | n + 1, l, out, hc, h => by
      simp only [sortLoop, Option.bind_eq_bind, Option.bind_eq_some_iff] at h
      obtain ⟨⟨cnt, o⟩, ho, h⟩ := h
      have hpass := sortPass_stable hc ho
      split at h
      · exact hpass.trans (sortLoop_stable (hc.subset (sortPass_perm ho).subset) h)
      · simp only [Option.some.injEq] at h
        exact h ▸ hpass

/-- **The sort is stable.** -/
theorem listSort_stable {l out : List α} (hc : Compares less val l)
    (h : listSort less l = some out) : Stable val l out := by
  unfold listSort at h
  split at h
  · rename_i hl
    simp only [Option.some.injEq] at h
    rw [hl, ← h]
    exact .refl []
  · simp only [Option.bind_eq_bind, Option.bind_eq_some_iff] at h
    obtain ⟨o, ho, sorted, -, h⟩ := h
    split at h
    · simp only [Option.some.injEq] at h
      exact h ▸ sortLoop_stable hc ho
    · cases h

/-- What comes behind an element of maximal key was behind it before. -/
theorem Stable.behind {l₁ l₂ out : List α} {a : α} (h : Stable val (l₁ ++ a :: l₂) out)
    (ho : Ordered val out) (hp : out.Perm (l₁ ++ a :: l₂)) (hn : (l₁ ++ a :: l₂).Nodup)
    (hmax : ∀ x ∈ l₁ ++ a :: l₂, val x ≤ val a) :
    ∃ s₁ s₂, out = s₁ ++ a :: s₂ ∧ s₂ ⊆ l₂ := by
  obtain ⟨s₁, s₂, rfl⟩ := List.append_of_mem (hp.mem_iff.mpr (List.mem_append_right l₁ List.mem_cons_self))
  refine ⟨s₁, s₂, rfl, ?_⟩
  have hkeep : (s₂.filter fun x => val x = val a) = s₂ := by
    refine List.filter_eq_self.mpr fun x hx => ?_
    have hge := (List.pairwise_cons.mp (List.pairwise_append.mp ho).2.1).1 x hx
    have hle := hmax x (hp.subset (List.mem_append_right s₁ (List.mem_cons_of_mem a hx)))
    simp only [decide_eq_true_eq]
    omega
  have hv := h (val a)
  rw [List.filter_append, List.filter_append, List.filter_cons_of_pos (by simp),
    List.filter_cons_of_pos (by simp), hkeep] at hv
  have hs := hp.nodup_iff.mpr hn
  have hnot : a ∉ (s₁.filter fun x => val x = val a) := fun hmem =>
    (List.nodup_append.mp hs).2.2 a (List.mem_of_mem_filter hmem) a List.mem_cons_self rfl
  have hsuffix := (List.append_cons_inj_of_notMem hnot fun hmem =>
    (List.nodup_cons.mp (List.nodup_append.mp hs).2.1).1 hmem).mp hv
  exact hsuffix.2.2 ▸ List.filter_subset_self l₂

/-- The order of the keys and, within each key, of the elements determines a list. -/
theorem Ordered.eq_of_stable : ∀ {l out : List α}, Ordered val l → Ordered val out →
    Stable val l out → out = l
  | [], [], _, _, _ => rfl
  | [], b :: out, _, _, h => by
      have hb := h (val b)
      simp at hb
  | a :: l, [], _, _, h => by
      have ha := h (val a)
      simp at ha
  | a :: l, b :: out, hl, ho, h => by
      obtain ⟨hal, hl'⟩ := List.pairwise_cons.mp hl
      obtain ⟨hbo, ho'⟩ := List.pairwise_cons.mp ho
      have hmem {x : α} : x ∈ b :: out ↔ x ∈ a :: l := by
        have hx := congrArg (x ∈ ·) (h (val x))
        simpa only [List.mem_filter, decide_true, and_true, eq_iff_iff] using hx
      have hle {x y : α} {l : List α} (hx : ∀ z ∈ l, val x ≤ val z) (hy : y ∈ x :: l) :
          val x ≤ val y := by
        rcases List.mem_cons.mp hy with rfl | hy
        · exact le_rfl
        · exact hx y hy
      have hkey : val a = val b :=
        le_antisymm (hle hal (hmem.mp List.mem_cons_self)) (hle hbo (hmem.mpr List.mem_cons_self))
      have hhead := h (val a)
      rw [List.filter_cons_of_pos (by simp [hkey]), List.filter_cons_of_pos (by simp),
        List.cons.injEq] at hhead
      obtain ⟨rfl, -⟩ := hhead
      rw [Ordered.eq_of_stable hl' ho' fun v => ?_]
      have hv := h v
      by_cases he : val b = v
      · rw [List.filter_cons_of_pos (by simpa using he),
          List.filter_cons_of_pos (by simpa using he)] at hv
        exact List.cons_injective hv
      · rw [List.filter_cons_of_neg (by simpa using he),
          List.filter_cons_of_neg (by simpa using he)] at hv
        exact hv

/-- An element keeps its place in front of another one of no smaller key. -/
theorem Stable.pair {l out : List α} {x y : α} (h : Stable val l out) (ho : Ordered val out)
    (hp : out.Perm l) (hle : val y ≤ val x) (hl : [y, x].Sublist l) : [y, x].Sublist out := by
  by_cases he : val y = val x
  · have hf := hl.filter fun z => decide (val z = val x)
    rw [List.filter_cons_of_pos (by simpa using he), List.filter_cons_of_pos (by simp),
      List.filter_nil, ← h (val x)] at hf
    exact hf.trans List.filter_sublist
  · have hy : y ∈ out := hp.mem_iff.mpr (hl.subset List.mem_cons_self)
    have hx : x ∈ out := hp.mem_iff.mpr (hl.subset (List.mem_cons_of_mem y List.mem_cons_self))
    obtain ⟨s, t, rfl⟩ := List.append_of_mem hy
    rcases List.mem_append.mp hx with hx | hx
    · -- then `x` is not above `y`
      have hge := (List.pairwise_append.mp ho).2.2 x hx y List.mem_cons_self
      exact absurd (le_antisymm hle hge) he
    · rcases List.mem_cons.mp hx with rfl | hx
      · exact absurd rfl he
      · exact ((List.singleton_sublist.mpr hx).cons_cons y).trans (List.sublist_append_right s _)

/-- What happens to the pair if the back of the list is taken. -/
theorem pair_sublist_concat {l : List α} {x y z : α} (h : [y, x].Sublist (l ++ [z])) :
    y ∈ l ∧ (x = z ∨ [y, x].Sublist l) := by
  have hr := List.reverse_sublist.mpr h
  rw [List.reverse_concat] at hr
  rcases List.sublist_cons_iff.mp hr with h' | ⟨r, hr, h'⟩
  · have hl := List.reverse_sublist.mp h'
    exact ⟨hl.subset List.mem_cons_self, .inr hl⟩
  · obtain ⟨rfl, rfl⟩ := List.cons.inj hr
    exact ⟨List.mem_reverse.mp (List.singleton_sublist.mp h'), .inl rfl⟩

end stable

/-! ### Comparators of priorities found under a partial key -/

section lessBy

variable {key : α → Option ℤ}

theorem lessBy_compares {l : List α} (h : ∀ a ∈ l, (key a).isSome) :
    Compares (lessBy key) (fun a => (key a).getD 0) l := by
  intro a ha b hb
  obtain ⟨x, hx⟩ := Option.isSome_iff_exists.mp (h a ha)
  obtain ⟨y, hy⟩ := Option.isSome_iff_exists.mp (h b hb)
  simp [lessBy, hx, hy]

theorem isSorted_lessBy_isSome : ∀ {l : List α}, isSorted (lessBy key) l = some true →
    l.length ≤ 1 ∨ ∀ a ∈ l, (key a).isSome
  | [], _ => .inl (by simp)
  | [a], _ => .inl (by simp)
  | a :: b :: l, h => by
      right
      simp only [isSorted, lessBy, Option.bind_eq_bind, Option.bind_eq_some_iff,
        Option.some.injEq] at h
      obtain ⟨lt, ⟨x, hx, y, hy, hlt⟩, h⟩ := h
      cases lt with
      | true => simp at h
      | false =>
          have ih := isSorted_lessBy_isSome (by simpa using h)
          intro c hc
          rcases List.mem_cons.mp hc with rfl | hc
          · simp [hy]
          · rcases List.mem_cons.mp hc with rfl | hc
            · simp [hx]
            · rcases ih with ih | ih
              · cases l with
                | nil => simp at hc
                | cons d l => simp at ih
              · exact ih c (List.mem_cons_of_mem b hc)

/-- **When a sort by a partial key fails**: never on a list of at most one element, which needs
no comparison, and on a longer one exactly when some element has no key. -/
theorem listSort_lessBy_isSome_iff {l : List α} :
    (listSort (lessBy key) l).isSome ↔ l.length ≤ 1 ∨ ∀ a ∈ l, (key a).isSome := by
  constructor
  · intro h
    obtain ⟨out, ho⟩ := Option.isSome_iff_exists.mp h
    obtain ⟨hp, hs⟩ := listSort_eq_some ho
    rcases isSorted_lessBy_isSome hs with hl | hk
    · exact .inl (hp.length_eq ▸ hl)
    · exact .inr fun a ha => hk a (hp.symm.subset ha)
  · rintro (hl | hk)
    · match l, hl with
      | [], _ => rfl
      | [a], _ => rfl
    · exact listSort_isSome (lessBy_compares hk)

end lessBy

end CSE130.Lab2.KernelList
