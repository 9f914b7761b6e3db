import CSE130.Lab2.List
import CSE130.Lab2.ListLinks

/-! # `list_sort` on links

The natural merge sort works in place: single elements of the second of two runs are spliced in
front of elements of the first one, while three cursors point into the list.  Each loop has a bound
on its turns here, `fuel`, and runs out of it with `none`; the results say that a little more than
the length of the list is enough.

The functions do with the links what those of `KernelList`, which have the same names, do with the
Lean list of the elements.  A strict weak order is the order of the ranks of the elements
(`StrictWeak.compares`), so that what is known of those functions holds for it. -/

namespace CSE130.Lab2.ListLinks

variable {ν : Type} [DecidableEq ν]

/-! ### The code -/

section code

variable (less : ν → ν → Option Bool) (m : Links ν) (fuel : ℕ)

/-- The loop of `is_sorted`. -/
def sortedLoop : ℕ → ν → ν → Option Bool
  | 0, _, _ => none
  | n + 1, a, b => do
      let a ← listNext m a
      if a = b then return true
      if (← less a (← listPrev m a)) then return false
      sortedLoop n a b

def isSorted (a b : ν) : Option Bool := if a = b then some true else sortedLoop less m fuel a b

/-- The loop of `find_end_of_run`. -/
def endOfRunLoop : ℕ → ν → ν → Option ν
  | 0, _, _ => none
  | n + 1, a, b => do
      let a ← listNext m a
      if a = b then return a
      if (← less a (← listPrev m a)) then return a
      endOfRunLoop n a b

/-- `find_end_of_run`, with its assertion that the range is not empty. -/
def findEndOfRun (a b : ν) : Option ν := if a = b then none else endOfRunLoop less m fuel a b

/-- The loop of `inplace_merge`. -/
def mergeLoop : ℕ → Links ν → ν → ν → ν → Option (Links ν)
  | 0, _, _, _, _ => none
  | n + 1, m, a0, a1b0, b1 => do
      if a0 = a1b0 ∨ a1b0 = b1 then return m
      if (← less a1b0 a0) then
        let a1b0 ← listNext m a1b0
        let m ← listSplice m a0 (← listPrev m a1b0) a1b0
        mergeLoop n m a0 a1b0 b1
      else
        let a0 ← listNext m a0
        mergeLoop n m a0 a1b0 b1

/-- `inplace_merge`, with its two `is_sorted` assertions. -/
def inplaceMerge (a0 a1b0 b1 : ν) : Option (Links ν) := do
  if (← isSorted less m fuel a0 a1b0) && (← isSorted less m fuel a1b0 b1) then
    mergeLoop less fuel m a0 a1b0 b1
  else none

/-- The `for` loop of `list_sort`: `output_run_cnt` and the links it leaves. -/
def passLoop (h : Header ν) : ℕ → Links ν → ℕ → ν → Option (ℕ × Links ν)
  | 0, _, _, _ => none
  | n + 1, m, cnt, a0 => do
      if a0 = h.tail then return (cnt, m)
      let cnt := cnt + 1
      let a1b0 ← findEndOfRun less m fuel a0 h.tail
      if a1b0 = h.tail then return (cnt, m)
      let b1 ← findEndOfRun less m fuel a1b0 h.tail
      let m ← inplaceMerge less m fuel a0 a1b0 b1
      passLoop h n m cnt b1

/-- The `do … while (output_run_cnt > 1)` of `list_sort`. -/
def sortLoop (h : Header ν) : ℕ → Links ν → Option (Links ν)
  | 0, _ => none
  | n + 1, m => do
      let (cnt, m) ← passLoop less fuel h fuel m 0 (← listBegin m h)
      if cnt > 1 then sortLoop h n m else return m

/-- `list_sort`. -/
def listSort (h : Header ν) : Option (Links ν) := do
  if (← listBegin m h) = h.tail then return m
  let m ← sortLoop less fuel h fuel m
  if (← isSorted less m fuel (← listBegin m h) h.tail) then return m else none

end code

/-! ### The loops -/

variable {less : ν → ν → Option Bool} {val : ν → ℤ} {m m' : Links ν} {h : Header ν}
  {l as bs out pre post run rest : List ν} {a b x : ν} {n k fuel cnt c : ℕ}

theorem sortedLoop_eq (hl : Linked m a l b) (hb : b ∉ l) (hn : l.length < n) :
    sortedLoop less m n a b = KernelList.isSorted less (a :: l) := by
  induction l generalizing a n with
  | nil =>
      obtain ⟨n, rfl⟩ := Nat.exists_eq_succ_of_ne_zero (by omega : n ≠ 0)
      simp [sortedLoop, listNext_eq, hl.1, KernelList.isSorted]
  | cons x l ih =>
      obtain ⟨n, rfl⟩ := Nat.exists_eq_succ_of_ne_zero (by omega : n ≠ 0)
      rw [List.mem_cons, not_or] at hb
      have hrest := ih hl.2 hb.2 (by simpa using hn)
      simp [sortedLoop, listNext_eq, listPrev_eq, hl.1.1, hl.1.2, KernelList.isSorted, Ne.symm hb.1,
        hrest]

theorem isSorted_eq (hl : Linked m a l b) (hb : b ∉ a :: l) (hn : l.length < n) :
    isSorted less m n a b = KernelList.isSorted less (a :: l) := by
  rw [List.mem_cons, not_or] at hb
  rw [isSorted, if_neg (Ne.symm hb.1), sortedLoop_eq hl hb.2 hn]

theorem endOfRunLoop_eq (hl : Linked m a l b) (hb : b ∉ l) (hn : l.length < n)
    (hr : KernelList.findEndOfRun less a l = some (run, rest)) :
    endOfRunLoop less m n a b = some (front rest b) := by
  induction l generalizing a n run with
  | nil =>
      obtain ⟨n, rfl⟩ := Nat.exists_eq_succ_of_ne_zero (by omega : n ≠ 0)
      simp only [KernelList.findEndOfRun, Option.some.injEq, Prod.mk.injEq] at hr
      obtain ⟨-, rfl⟩ := hr
      simp [endOfRunLoop, listNext_eq, hl.1]
  | cons x l ih =>
      obtain ⟨n, rfl⟩ := Nat.exists_eq_succ_of_ne_zero (by omega : n ≠ 0)
      rw [List.mem_cons, not_or] at hb
      simp only [KernelList.findEndOfRun, Option.bind_eq_bind, Option.bind_eq_some_iff] at hr
      obtain ⟨lt, hlt, hr⟩ := hr
      cases lt with
      | true =>
          simp only [if_true, Option.some.injEq, Prod.mk.injEq] at hr
          obtain ⟨-, rfl⟩ := hr
          simp [endOfRunLoop, listNext_eq, listPrev_eq, hl.1.1, hl.1.2, Ne.symm hb.1, hlt]
      | false =>
          simp only [Bool.false_eq_true, if_false, Option.bind_eq_some_iff, Option.some.injEq,
            Prod.mk.injEq] at hr
          obtain ⟨⟨run', rest'⟩, hr, -, rfl⟩ := hr
          have hloop := ih hl.2 hb.2 (by simpa using hn) hr
          simp [endOfRunLoop, listNext_eq, listPrev_eq, hl.1.1, hl.1.2, Ne.symm hb.1, hlt, hloop]

theorem findEndOfRun_eq (hl : Linked m a l b) (hb : b ∉ a :: l) (hn : l.length < n)
    (hr : KernelList.findEndOfRun less a l = some (run, rest)) :
    findEndOfRun less m n a b = some (front rest b) := by
  rw [List.mem_cons, not_or] at hb
  rw [findEndOfRun, if_neg (Ne.symm hb.1), endOfRunLoop_eq hl hb.2 hn hr]

omit [DecidableEq ν] in
theorem mergeLoop_nil_right (as : List ν) : KernelList.mergeLoop less as [] = some as := by
  induction as with
  | nil => rfl
  | cons a as ih => simp [KernelList.mergeLoop, KernelList.takeLess, ih]

omit [DecidableEq ν] in
theorem mergeLoop_cons (hr : KernelList.mergeLoop less (a :: as) (b :: bs) = some out) :
    (less b a = some true ∧ ∃ t, KernelList.mergeLoop less (a :: as) bs = some t ∧ out = b :: t) ∨
      (less b a = some false ∧ ∃ t, KernelList.mergeLoop less as (b :: bs) = some t ∧ out = a :: t) := by
  simp only [KernelList.mergeLoop, KernelList.takeLess, Option.bind_eq_bind,
    Option.bind_eq_some_iff, Option.some.injEq] at hr
  obtain ⟨⟨moved, rest⟩, ⟨lt, hlt, hr⟩, t, ht, rfl⟩ := hr
  cases lt with
  | true =>
      simp only [if_true, Option.bind_eq_some_iff, Option.some.injEq, Prod.mk.injEq] at hr
      obtain ⟨⟨moved', rest'⟩, hr, rfl, rfl⟩ := hr
      refine Or.inl ⟨hlt, moved' ++ a :: t, ?_, rfl⟩
      simp [KernelList.mergeLoop, hr, ht]
  | false =>
      simp only [Bool.false_eq_true, if_false, Option.some.injEq, Prod.mk.injEq] at hr
      obtain ⟨rfl, rfl⟩ := hr
      exact Or.inr ⟨hlt, t, ht, rfl⟩

/-- The loop of `inplace_merge`: each turn moves one of the two cursors. -/
theorem mergeLoop_spec (hm : Holds m h (pre ++ (as ++ (bs ++ post))))
    (hr : KernelList.mergeLoop less as bs = some out) (hn : as.length + bs.length < n) :
    ∃ m', mergeLoop less n m (front (as ++ (bs ++ post)) h.tail) (front (bs ++ post) h.tail)
        (front post h.tail) = some m' ∧ Holds m' h (pre ++ (out ++ post)) := by
  induction n generalizing m pre as bs out with
  | zero => exact absurd hn (Nat.not_lt_zero _)
  | succ n ih =>
      cases as with
      | nil =>
          obtain rfl : bs = out := by simpa [KernelList.mergeLoop] using hr
          exact ⟨m, by simp [mergeLoop], hm⟩
      | cons a as =>
          cases bs with
          | nil =>
              rw [mergeLoop_nil_right, Option.some_inj] at hr
              subst hr
              exact ⟨m, by simp [mergeLoop], hm⟩
          | cons b bs =>
              have hab : a ≠ b := hm.ne_front
              have hmb : Holds m h (pre ++ a :: as ++ b :: (bs ++ post)) := by simpa using hm
              have hbp : b ≠ front post h.tail := hmb.ne_front
              rcases mergeLoop_cons hr with ⟨hlt, t, ht, rfl⟩ | ⟨hlt, t, ht, rfl⟩
              · obtain ⟨m₁, hs, hm₁⟩ := listSplice_spec hm
                have hm₁' : Holds m₁ h (pre ++ [b] ++ (a :: as ++ (bs ++ post))) := by
                  simpa using hm₁
                obtain ⟨m', hl, hm'⟩ := ih hm₁' ht (by simp only [List.length_cons] at hn ⊢; omega)
                have hs : listSplice m a b (front (bs ++ post) h.tail) = some m₁ := hs
                refine ⟨m', ?_, by simpa using hm'⟩
                rw [← hl]
                simp [mergeLoop, hab, hbp, hlt, listNext_eq, listPrev_eq, hmb.next, hmb.prev_front, hs]
              · have hm₁ : Holds m h (pre ++ [a] ++ (as ++ (b :: bs ++ post))) := by simpa using hm
                obtain ⟨m', hl, hm'⟩ := ih hm₁ ht (by simp only [List.length_cons] at hn ⊢; omega)
                refine ⟨m', ?_, by simpa using hm'⟩
                have hnext : m.next a = some (front (as ++ (b :: bs ++ post)) h.tail) := hm.next
                rw [← hl]
                simp [mergeLoop, hab, hbp, hlt, listNext_eq, hnext]

theorem inplaceMerge_spec (hm : Holds m h (pre ++ (a :: as ++ (b :: bs ++ post))))
    (hr : KernelList.inplaceMerge less (a :: as) (b :: bs) = some out)
    (hn : as.length + bs.length + 2 < n) :
    ∃ m', inplaceMerge less m n a b (front post h.tail) = some m' ∧
      Holds m' h (pre ++ (out ++ post)) := by
  have hmb : Holds m h (pre ++ a :: as ++ b :: (bs ++ post)) := by simpa using hm
  have hla : Linked m a as b := by
    have hl : Linked m a (as ++ b :: (bs ++ post)) h.tail := hm.after
    exact (linked_append.mp hl).1
  have hlb : Linked m b bs (front post h.tail) := by
    have hl := hmb.after
    cases post with
    | nil => simpa using hl
    | cons p post => exact (linked_append.mp hl).1
  have hba : b ∉ a :: as := by
    have hnodup := (show Holds m h (pre ++ (a :: as ++ b :: (bs ++ post))) from hm).nodup_after
    rw [List.append_assoc] at hnodup
    exact fun hmem => (List.nodup_append.mp hnodup).2.2 b hmem b (by simp) rfl
  have hpb : front post h.tail ∉ b :: bs := by
    have hnodup := hmb.nodup_after
    rw [List.cons_append, List.append_assoc, ← List.cons_append] at hnodup
    exact fun hmem => (List.nodup_append.mp hnodup).2.2 _ hmem _ (front_mem post h.tail) rfl
  simp only [KernelList.inplaceMerge, Option.bind_eq_bind, Option.bind_eq_some_iff] at hr
  obtain ⟨sa, hsa, sb, hsb, hr⟩ := hr
  split at hr
  · rename_i hs
    obtain ⟨m', hl, hm'⟩ := mergeLoop_spec (n := n) hm hr (by simp only [List.length_cons]; omega)
    have hl : mergeLoop less n m a b (front post h.tail) = some m' := hl
    refine ⟨m', ?_, hm'⟩
    simp [inplaceMerge, isSorted_eq hla hba (by omega : as.length < n),
      isSorted_eq hlb hpb (by omega : bs.length < n), hsa, hsb, Bool.and_eq_true_iff.mp hs, hl]
  · cases hr

/-! ### The sort -/

theorem passLoop_spec (hm : Holds m h (pre ++ l))
    (hr : KernelList.sortPass less k l = some (cnt, out)) (hk : l.length ≤ k) (hn : l.length < n)
    (hf : l.length < fuel) :
    ∃ m', passLoop less fuel h n m c (front l h.tail) = some (c + cnt, m') ∧
      Holds m' h (pre ++ out) := by
  induction n generalizing m pre l k cnt out c with
  | zero => exact absurd hn (Nat.not_lt_zero _)
  | succ n ih =>
      cases l with
      | nil =>
          have hnil : KernelList.sortPass less k ([] : List ν) = some (0, []) := by cases k <;> rfl
          rw [hnil, Option.some_inj, Prod.mk.injEq] at hr
          obtain ⟨rfl, rfl⟩ := hr
          exact ⟨m, by simp [passLoop], hm⟩
      | cons a l =>
          obtain ⟨k, rfl⟩ := Nat.exists_eq_succ_of_ne_zero (by simp at hk; omega : k ≠ 0)
          simp only [List.length_cons] at hk hn hf
          have hat : h.tail ∉ a :: l := fun hmem =>
            (List.nodup_append.mp hm.nodup_after).2.2 _ hmem h.tail (by simp) rfl
          simp only [KernelList.sortPass, Option.bind_eq_bind, Option.bind_eq_some_iff] at hr
          obtain ⟨⟨run₀, rest⟩, hr₀, hr⟩ := hr
          have hl := KernelList.findEndOfRun_append hr₀
          have he₀ := findEndOfRun_eq hm.after hat (by omega : l.length < fuel) hr₀
          have ha : a ≠ h.tail := fun he => hat (he ▸ List.mem_cons_self)
          cases rest with
          | nil =>
              simp only [Option.some.injEq, Prod.mk.injEq] at hr
              obtain ⟨rfl, rfl⟩ := hr
              rw [List.append_nil] at hl
              exact ⟨m, by simp [passLoop, ha, he₀], hl ▸ hm⟩
          | cons b l' =>
              simp only [Option.bind_eq_some_iff, Option.some.injEq, Prod.mk.injEq] at hr
              obtain ⟨⟨run₁, rest'⟩, hr₁, merged, hmerge, ⟨c', o⟩, ho, rfl, rfl⟩ := hr
              have hl' := KernelList.findEndOfRun_append hr₁
              have hlen := congrArg List.length hl
              have hlen' := congrArg List.length hl'
              simp only [List.length_append, List.length_cons] at hlen hlen'
              have hbt : h.tail ∉ b :: l' := fun hmem => hat (by
                rw [hl]
                exact List.mem_cons_of_mem a (List.mem_append_right run₀ hmem))
              have hb : b ≠ h.tail := fun he => hbt (he ▸ List.mem_cons_self)
              have hmb : Holds m h (pre ++ a :: run₀ ++ b :: l') := by simpa [hl] using hm
              have he₁ := findEndOfRun_eq hmb.after hbt (by omega : l'.length < fuel) hr₁
              have hmm : Holds m h (pre ++ (a :: run₀ ++ (b :: run₁ ++ rest'))) := by
                simpa [hl, hl'] using hm
              obtain ⟨m₁, hi, hm₁⟩ := inplaceMerge_spec hmm hmerge (by omega : _ < fuel)
              rw [← List.append_assoc] at hm₁
              obtain ⟨m', hp, hm'⟩ := @ih m₁ rest' o (pre ++ merged) k c' (c + 1) hm₁ ho (by omega)
                (by omega) (by omega)
              refine ⟨m', ?_, by simpa using hm'⟩
              rw [Nat.add_right_comm, Nat.add_assoc] at hp
              simp [passLoop, ha, he₀, hb, he₁, hi, hp]

/-- The passes: the number of runs goes down until there is one. -/
theorem sortLoop_spec (hm : Holds m h l) (hc : KernelList.Compares less val l) (hne : l ≠ [])
    (hn : KernelList.descents val l < n) (hf : l.length < fuel) :
    ∃ m' out, sortLoop less fuel h n m = some m' ∧ Holds m' h out ∧ out.Perm l ∧
      KernelList.Ordered val out ∧ KernelList.Stable val l out := by
  induction n generalizing m l with
  | zero => exact absurd hn (Nat.not_lt_zero _)
  | succ n ih =>
      obtain ⟨cnt, out, hp, hcnt, hout⟩ := KernelList.sortPass_spec hc le_rfl hne
      have hperm := KernelList.sortPass_perm hp
      have hstable := KernelList.sortPass_stable hc hp
      obtain ⟨m₁, hl, hm₁⟩ := passLoop_spec (c := 0) (show Holds m h ([] ++ l) from hm) hp le_rfl hf hf
      rw [Nat.zero_add] at hl
      have hm₁ : Holds m₁ h out := hm₁
      by_cases h1 : cnt > 1
      · have hne' : out ≠ [] := fun he => hne (by rw [he] at hperm; exact hperm.symm.eq_nil)
        obtain ⟨m', out', hs, hm', hp', ho', hs'⟩ := ih hm₁ (hc.subset hperm.subset) hne' (by omega)
          (hperm.length_eq ▸ hf)
        refine ⟨m', out', ?_, hm', hp'.trans hperm, ho', hstable.trans hs'⟩
        simp [sortLoop, hm.begin_eq, hl, h1, hs]
      · refine ⟨m₁, out, ?_, hm₁, hperm, KernelList.descents_eq_zero (by omega), hstable⟩
        simp [sortLoop, hm.begin_eq, hl, h1]

theorem listSort_compares (hm : Holds m h l) (hc : KernelList.Compares less val l)
    (hf : l.length < fuel) :
    ∃ m' out, listSort less m fuel h = some m' ∧ Holds m' h out ∧ out.Perm l ∧
      KernelList.Ordered val out ∧ KernelList.Stable val l out ∧ (l = [] → m' = m) := by
  cases l with
  | nil =>
      refine ⟨m, [], ?_, hm, .refl _, List.Pairwise.nil, .refl [], fun _ => rfl⟩
      simp [listSort, hm.begin_eq]
  | cons a l =>
      have hnil : Holds m h ([] ++ a :: l) := hm
      have hat : h.tail ∉ a :: l := fun hmem =>
        (List.nodup_append.mp hnil.nodup_after).2.2 _ hmem h.tail (by simp) rfl
      have ha : a ≠ h.tail := fun he => hat (he ▸ List.mem_cons_self)
      have hd : KernelList.descents val (a :: l) < (a :: l).length :=
        KernelList.descents_lt_length (List.cons_ne_nil a l)
      obtain ⟨m', out, hs, hm', hp, ho, hst⟩ := sortLoop_spec hm hc (List.cons_ne_nil a l)
        (hd.trans hf) hf
      refine ⟨m', out, ?_, hm', hp, ho, hst, fun he => absurd he (List.cons_ne_nil a l)⟩
      have hsorted := (KernelList.isSorted_true_iff (hc.subset hp.subset)).mpr ho
      cases out with
      | nil => exact absurd hp.symm.eq_nil (List.cons_ne_nil a l)
      | cons b out =>
          have hbt : h.tail ∉ b :: out := fun hmem => hat (hp.subset hmem)
          have hlen := hp.length_eq
          have hnil' : Holds m' h ([] ++ b :: out) := hm'
          have hi : isSorted less m' fuel b h.tail = some true := by
            rw [isSorted_eq hnil'.after hbt (by simp only [List.length_cons] at hlen hf; omega),
              hsorted]
          simp [listSort, hm.begin_eq, ha, hs, hm'.begin_eq, hi]

/-- **The sort on links does what the sort of the list of elements does.** -/
theorem listSort_refines (hm : Holds m h l) (hc : KernelList.Compares less val l)
    (hf : l.length < fuel) :
    ∃ m' out, listSort less m fuel h = some m' ∧ Holds m' h out ∧
      KernelList.listSort less l = some out := by
  obtain ⟨m', out, hs, hm', hp, ho, hst, -⟩ := listSort_compares hm hc hf
  obtain ⟨out', hs'⟩ := Option.isSome_iff_exists.mp (KernelList.listSort_isSome hc)
  have ho' := KernelList.listSort_ordered hc hs'
  have hst' := KernelList.listSort_stable hc hs'
  obtain rfl : out' = out := ho.eq_of_stable ho' fun v => (hst' v).trans (hst v).symm
  exact ⟨m', out', hs, hm', hs'⟩

/-! ### Strict weak orders -/

/-- Neither comes before the other. -/
def Tied (less : ν → ν → Option Bool) (a b : ν) : Prop :=
  less a b = some false ∧ less b a = some false

instance (less : ν → ν → Option Bool) (a b : ν) : Decidable (Tied less a b) :=
  inferInstanceAs (Decidable (_ ∧ _))

omit [DecidableEq ν] in
theorem Tied.symm (ht : Tied less a b) : Tied less b a := And.symm ht

/-- `less` answers for any two elements of `l`, and is a strict weak order of them. -/
structure StrictWeak (less : ν → ν → Option Bool) (l : List ν) : Prop where
  answers : ∀ a ∈ l, ∀ b ∈ l, less a b ≠ none
  irrefl : ∀ a ∈ l, less a a ≠ some true
  trans : ∀ a ∈ l, ∀ b ∈ l, ∀ c ∈ l, less a b = some true → less b c = some true →
    less a c = some true
  tied : ∀ a ∈ l, ∀ b ∈ l, ∀ c ∈ l, Tied less a b → Tied less b c → Tied less a c

/-- How many elements come before `a`. -/
def rank (less : ν → ν → Option Bool) (l : List ν) (a : ν) : ℤ :=
  (l.countP fun x => less x a = some true : ℕ)

omit [DecidableEq ν] in
theorem countP_lt_countP {p q : ν → Bool} (hpq : ∀ y ∈ l, p y → q y) (hx : x ∈ l) (hp : p x = false)
    (hq : q x = true) : l.countP p < l.countP q := by
  induction l with
  | nil => cases hx
  | cons y l ih =>
      have hrest : l.countP p ≤ l.countP q :=
        List.countP_mono_left fun z hz => hpq z (List.mem_cons_of_mem y hz)
      rcases List.mem_cons.mp hx with rfl | hx
      · rw [List.countP_cons_of_neg (by simp [hp]), List.countP_cons_of_pos hq]
        omega
      · have hlt := ih (fun z hz => hpq z (List.mem_cons_of_mem y hz)) hx
        have hy := hpq y List.mem_cons_self
        rw [List.countP_cons, List.countP_cons]
        split_ifs with h₁ h₂ <;> first | omega | exact absurd (hy h₁) h₂

namespace StrictWeak

omit [DecidableEq ν]

theorem subset (hw : StrictWeak less l) {l' : List ν} (hs : l' ⊆ l) : StrictWeak less l' where
  answers a ha b hb := hw.answers a (hs ha) b (hs hb)
  irrefl a ha := hw.irrefl a (hs ha)
  trans a ha b hb c hc := hw.trans a (hs ha) b (hs hb) c (hs hc)
  tied a ha b hb c hc := hw.tied a (hs ha) b (hs hb) c (hs hc)

theorem some_false (hw : StrictWeak less l) (ha : a ∈ l) (hb : b ∈ l) (hn : less a b ≠ some true) :
    less a b = some false := by
  cases hab : less a b with
  | none => exact absurd hab (hw.answers a ha b hb)
  | some lt =>
      cases lt with
      | true => exact absurd hab hn
      | false => rfl

/-- Whatever lies between them, one of two elements that are in order is in order with it. -/
theorem between (hw : StrictWeak less l) (ha : a ∈ l) (hb : b ∈ l) (hx : x ∈ l)
    (hab : less a b = some true) : less a x = some true ∨ less x b = some true := by
  by_contra hno
  obtain ⟨hax, hxb⟩ := not_or.mp hno
  have hxa : less x a ≠ some true := fun h => hxb (hw.trans x hx a ha b hb h hab)
  have hbx : less b x ≠ some true := fun h => hax (hw.trans a ha b hb x hx hab h)
  have htied := hw.tied a ha x hx b hb ⟨hw.some_false ha hx hax, hw.some_false hx ha hxa⟩
    ⟨hw.some_false hx hb hxb, hw.some_false hb hx hbx⟩
  rw [htied.1] at hab
  cases hab

/-- A strict weak order is the order of the ranks. -/
theorem compares (hw : StrictWeak less l) : KernelList.Compares less (rank less l) l := by
  intro a ha b hb
  by_cases hab : less a b = some true
  · have hlt : rank less l a < rank less l b := by
      refine Int.ofNat_lt.mpr (countP_lt_countP (x := a) (fun x hx h => ?_) ha ?_ ?_)
      · exact decide_eq_true (hw.trans x hx a ha b hb (of_decide_eq_true h) hab)
      · exact decide_eq_false (hw.irrefl a ha)
      · exact decide_eq_true hab
    rw [hab, decide_eq_true hlt]
  · have hle : rank less l b ≤ rank less l a := by
      refine Int.ofNat_le.mpr (List.countP_mono_left fun x hx h => ?_)
      have hxb : less x b = some true := of_decide_eq_true h
      exact decide_eq_true ((hw.between hx hb ha hxb).resolve_right hab)
    rw [hw.some_false ha hb hab, decide_eq_false (not_lt.mpr hle)]

theorem tied_iff (hw : StrictWeak less l) (ha : a ∈ l) (hb : b ∈ l) :
    Tied less a b ↔ rank less l b = rank less l a := by
  unfold Tied
  rw [hw.compares a ha b hb, hw.compares b hb a ha, Option.some_inj, Option.some_inj,
    decide_eq_false_iff_not, decide_eq_false_iff_not]
  omega

end StrictWeak

/-- **`list_sort` sorts** any list by any strict weak order: no assertion fails, the links are those
of a list of the same elements in order, and tied elements stay in the order in which they were. -/
theorem listSort_sorts (hm : Holds m h l) (hw : StrictWeak less l) (hf : l.length < fuel) :
    ∃ m' out, listSort less m fuel h = some m' ∧ Holds m' h out ∧ out.Perm l ∧
      out.Pairwise (fun a b => less b a = some false) ∧
      (∀ x ∈ l, (out.filter fun y => Tied less x y) = l.filter fun y => Tied less x y) ∧
      (l = [] → m' = m) := by
  obtain ⟨m', out, hs, hm', hp, ho, hst, hnil⟩ := listSort_compares hm hw.compares hf
  refine ⟨m', out, hs, hm', hp, ?_, fun x hx => ?_, hnil⟩
  · refine List.Pairwise.imp_of_mem (fun {a b} ha hb hab => ?_) ho
    rw [hw.compares b (hp.subset hb) a (hp.subset ha), decide_eq_false (not_lt.mpr hab)]
  · have hv := hst (rank less l x)
    have hcongr (l' : List ν) (hsub : l' ⊆ l) : (l'.filter fun y => Tied less x y) =
        l'.filter fun y => rank less l y = rank less l x :=
      List.filter_congr fun y hy => decide_eq_decide.mpr (hw.tied_iff hx (hsub hy))
    rw [hcongr out hp.subset, hcongr l (List.Subset.refl l), hv]

/-- The elements 1, 2 and 3 between the header elements 0 and 4. -/
def three : Links ℕ where
  next x := if x < 4 then some (x + 1) else none
  prev x := if 0 < x ∧ x ≤ 4 then some (x - 1) else none

theorem holds_three : Holds three ⟨0, 4⟩ [1, 2, 3] :=
  ⟨by decide, ⟨⟨rfl, rfl⟩, ⟨rfl, rfl⟩, ⟨rfl, rfl⟩, rfl, rfl⟩, rfl, rfl⟩

theorem listSort_sorts_three :
    ∃ m' out, listSort (fun a b => some (decide (b < a))) three 4 ⟨0, 4⟩ = some m' ∧
      Holds m' ⟨0, 4⟩ out ∧ out.Perm [1, 2, 3] ∧
      out.Pairwise (fun a b => (some (decide (a < b)) : Option Bool) = some false) ∧
      (∀ x ∈ [1, 2, 3], (out.filter fun y => Tied (fun a b : ℕ => some (decide (b < a))) x y) =
        [1, 2, 3].filter fun y => Tied (fun a b : ℕ => some (decide (b < a))) x y) ∧
      ([1, 2, 3] = [] → m' = three) :=
  listSort_sorts holds_three ⟨by decide, by decide, by decide, by decide⟩ (by decide)

end CSE130.Lab2.ListLinks
