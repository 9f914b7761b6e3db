import CSE130.Lab2.ListSort
import Mathlib.Data.List.SplitBy

/-! # `list_unique`

The loop compares an element with the next one and removes the next one when they are tied; in this
way the first element of every run of tied elements stays.  The removed elements are linked into
another list, if there is one.

The loop asks for the next element before it looks for the end.  For the first element of an empty
list, which is its tail, there is none: `list_next` fails its assertion. -/

namespace CSE130.Lab2.ListLinks

variable {ν : Type} [DecidableEq ν]

/-! ### The code -/

section code

variable (less : ν → ν → Option Bool) (h : Header ν) (duplicates : Option (Header ν))

/-- The condition `!less (elem, next, aux) && !less (next, elem, aux)`. -/
def tiedTest (elem next : ν) : Option Bool := do
  if (← less elem next) then return false
  return !(← less next elem)

/-- The loop of `list_unique`. -/
def uniqueLoop : ℕ → Links ν → ν → Option (Links ν)
  | 0, _, _ => none
  | n + 1, m, elem => do
      let next ← listNext m elem
      if next = h.tail then return m
      if (← tiedTest less elem next) then
        let (m, _) ← listRemove m next
        match duplicates with
        | some d =>
            let m ← listPushBack m d next
            uniqueLoop n m elem
        | none => uniqueLoop n m elem
      else uniqueLoop n m next

def listUnique (m : Links ν) (fuel : ℕ) : Option (Links ν) := do
  uniqueLoop less h duplicates fuel m (← listBegin m h)

end code

variable {less : ν → ν → Option Bool} {m m' : Links ν} {h d : Header ν}
  {duplicates : Option (Header ν × List ν)} {l ds l₁ l₂ pre run : List ν} {e x y : ν} {n fuel : ℕ}

/-! ### Runs of tied elements -/

/-- The maximal runs of adjacent tied elements. -/
def runs (less : ν → ν → Option Bool) (l : List ν) : List (List ν) :=
  l.splitBy fun a b => Tied less a b

/-- The first element of every run. -/
def firsts (less : ν → ν → Option Bool) (l : List ν) : List ν := (runs less l).filterMap List.head?

/-- The other elements. -/
def repeats (less : ν → ν → Option Bool) (l : List ν) : List ν := (runs less l).flatMap List.tail

/-- What the loop keeps after `e`. -/
def kept (less : ν → ν → Option Bool) : ν → List ν → List ν
  | _, [] => []
  | e, x :: l => if Tied less e x then kept less e l else x :: kept less x l

/-- What it removes. -/
def removed (less : ν → ν → Option Bool) : ν → List ν → List ν
  | _, [] => []
  | e, x :: l => if Tied less e x then x :: removed less e l else removed less x l

omit [DecidableEq ν] in
theorem runs_of_tied (hw : StrictWeak less (e :: run)) (ht : ∀ x ∈ run, Tied less e x) :
    runs less (e :: run) = [e :: run] := by
  have hpair : (e :: run).Pairwise (Tied less) := by
    refine List.pairwise_cons.mpr ⟨ht, List.pairwise_of_forall_mem_list fun x hx y hy => ?_⟩
    exact hw.tied x (List.mem_cons_of_mem e hx) e List.mem_cons_self y (List.mem_cons_of_mem e hy)
      (ht x hx).symm (ht y hy)
  refine List.splitBy_of_isChain (List.cons_ne_nil e run) ?_
  exact (hpair.imp fun h => decide_eq_true h).isChain

omit [DecidableEq ν] in
/-- The run that begins with `e`, as far as it is known, and the rest of the list. -/
theorem runs_append (hw : StrictWeak less (e :: run ++ l)) (ht : ∀ x ∈ run, Tied less e x) :
    firsts less (e :: run ++ l) = e :: kept less e l ∧
      repeats less (e :: run ++ l) = run ++ removed less e l := by
  induction l generalizing e run with
  | nil =>
      rw [List.append_nil] at hw ⊢
      unfold firsts repeats
      rw [runs_of_tied hw ht]
      exact ⟨rfl, rfl⟩
  | cons x l ih =>
      have hassoc : e :: run ++ x :: l = e :: (run ++ [x]) ++ l := by simp
      by_cases hx : Tied less e x
      · rw [hassoc] at hw ⊢
        obtain ⟨hf, hr⟩ := ih hw fun y hy => by
          rcases List.mem_append.mp hy with hy | hy
          · exact ht y hy
          · exact List.mem_singleton.mp hy ▸ hx
        rw [kept, if_pos hx, removed, if_pos hx]
        refine ⟨hf, hr.trans ?_⟩
        rw [List.append_assoc, List.singleton_append]
      · have hlast : ∀ y ∈ (e :: run).getLast?, decide (Tied less y x) = false := by
          intro y hy
          have hmem := List.mem_of_getLast? hy
          refine decide_eq_false fun hyx => hx ?_
          rcases List.mem_cons.mp hmem with rfl | hrun
          · exact hyx
          · exact hw.tied e (by simp) y (by simp [hrun]) x (by simp) (ht y hrun) hyx
        have hsplit : runs less (e :: run ++ x :: l) = [e :: run] ++ runs less (x :: l) := by
          rw [← runs_of_tied (hw.subset (List.subset_append_left _ _)) ht]
          exact List.splitBy_append_cons l hlast
        obtain ⟨hf, hr⟩ := @ih [] x (hw.subset (List.subset_append_right _ _)) (by simp)
        rw [firsts] at hf
        rw [repeats] at hr
        rw [firsts, repeats, hsplit, kept, if_neg hx, removed, if_neg hx]
        exact ⟨congrArg (e :: ·) hf, congrArg (run ++ ·) hr⟩

/-! ### The loop -/

/-- The list in memory, and the other list apart from it. -/
def Lists (m : Links ν) (h : Header ν) (l : List ν) : Option (Header ν × List ν) → Prop
  | none => Holds m h l
  | some (d, ds) => Holds m h l ∧ Holds m d ds ∧
      (h.head :: l ++ [h.tail]).Disjoint (d.head :: ds ++ [d.tail])

omit [DecidableEq ν] in
theorem Lists.holds (hm : Lists m h l duplicates) : Holds m h l := by
  cases duplicates with
  | none => exact hm
  | some d => exact hm.1

omit [DecidableEq ν] in
theorem tiedTest_eq (hw : StrictWeak less l) (he : e ∈ l) (hx : x ∈ l) :
    tiedTest less e x = some (decide (Tied less e x)) := by
  by_cases hex : less e x = some true
  · simp [tiedTest, Tied, hex]
  · have hex' := hw.some_false he hx hex
    by_cases hxe : less x e = some true
    · simp [tiedTest, Tied, hex', hxe]
    · have hxe' := hw.some_false hx he hxe
      simp [tiedTest, Tied, hex', hxe']

/-- An element goes from one list to the end of another. -/
theorem move_spec (hm : Holds m h (l₁ ++ x :: l₂)) (hd : Holds m d ds)
    (hdis : (h.head :: (l₁ ++ x :: l₂) ++ [h.tail]).Disjoint (d.head :: ds ++ [d.tail])) :
    ∃ m₁ m', listRemove m x = some (m₁, front l₂ h.tail) ∧ listPushBack m₁ d x = some m' ∧
      Lists m' h (l₁ ++ l₂) (some (d, ds ++ [x])) := by
  obtain ⟨m₁, hrem, hm₁, hframe⟩ := listRemove_spec hm
  have hperm := perm_around h l₁ l₂ x
  have hxmem : x ∈ h.head :: (l₁ ++ x :: l₂) ++ [h.tail] := hperm.mem_iff.mpr List.mem_cons_self
  have hxd : x ∉ d.head :: ds ++ [d.tail] := fun hmem => hdis hxmem hmem
  have hxl : x ∉ h.head :: (l₁ ++ l₂) ++ [h.tail] :=
    (List.nodup_cons.mp (hperm.nodup_iff.mp hm.nodup)).1
  have hsub {z : ν} (hz : z ∈ h.head :: (l₁ ++ l₂) ++ [h.tail]) :
      z ∈ h.head :: (l₁ ++ x :: l₂) ++ [h.tail] := hperm.mem_iff.mpr (List.mem_cons_of_mem x hz)
  have hd₁ : Holds m₁ d (ds ++ []) := by
    rw [List.append_nil]
    refine hd.congr (fun z hz => hframe.next z fun hmem => ?_) fun z hz =>
      hframe.prev z fun hmem => ?_
    · refine hdis (hsub ?_) hz
      rw [← List.cons_append]
      exact List.mem_append_left _ (List.mem_append_left l₂ hmem)
    · refine hdis (hsub ?_) hz
      rw [List.cons_append, List.append_assoc]
      exact List.mem_cons_of_mem _ (List.mem_append_right l₁ hmem)
  obtain ⟨m', hins, hm', hframe'⟩ := listInsert_spec hd₁ (by rwa [List.append_nil])
  refine ⟨m₁, m', hrem, hins, ?_, hm', ?_⟩
  · have hne {z : ν} (hz : z ∈ h.head :: (l₁ ++ l₂) ++ [h.tail]) : z ≠ x := fun he => hxl (he ▸ hz)
    refine hm₁.congr (fun z hz => hframe'.next z (fun hmem => ?_) (hne hz)) fun z hz =>
      hframe'.prev z (fun hmem => ?_) (hne hz)
    · exact hdis (hsub hz) (List.mem_append_left _ hmem)
    · exact hdis (hsub hz) (List.mem_append_right _ hmem)
  · intro z hz hz'
    have hperm' := perm_around d ds [] x
    rw [List.append_nil] at hperm'
    rcases List.mem_cons.mp (hperm'.mem_iff.mp hz') with rfl | hmem
    · exact hxl hz
    · exact hdis (hsub hz) hmem

theorem uniqueLoop_spec (hm : Lists m h (pre ++ e :: l) duplicates) (hw : StrictWeak less (e :: l))
    (hn : l.length < n) :
    ∃ m', uniqueLoop less h (duplicates.map Prod.fst) n m e = some m' ∧
      Lists m' h (pre ++ e :: kept less e l)
        (duplicates.map fun d => (d.1, d.2 ++ removed less e l)) := by
  induction l generalizing m pre e duplicates n with
  | nil =>
      obtain ⟨n, rfl⟩ := Nat.exists_eq_succ_of_ne_zero (by omega : n ≠ 0)
      refine ⟨m, ?_, ?_⟩
      · simp [uniqueLoop, listNext_eq, hm.holds.next]
      · cases duplicates with
        | none => exact hm
        | some d => simpa [removed, kept] using hm
  | cons x l ih =>
      obtain ⟨n, rfl⟩ := Nat.exists_eq_succ_of_ne_zero (by omega : n ≠ 0)
      have hmx : Holds m h (pre ++ [e] ++ x :: l) := by simpa using hm.holds
      have hnext : m.next e = some x := hm.holds.next
      have hxt : x ≠ h.tail := fun he => by
        have hnodup := hmx.nodup_after
        exact (List.nodup_cons.mp hnodup).1 (he ▸ List.mem_append_right l (List.mem_singleton_self _))
      have htest := tiedTest_eq hw (e := e) (x := x) (by simp) (by simp)
      simp only [List.length_cons] at hn
      by_cases hx : Tied less e x
      · -- `x` is removed
        rw [kept, if_pos hx, removed, if_pos hx]
        have hw' : StrictWeak less (e :: l) := hw.subset fun y hy => by
          rcases List.mem_cons.mp hy with rfl | hy
          · exact List.mem_cons_self
          · exact List.mem_cons_of_mem e (List.mem_cons_of_mem x hy)
        cases duplicates with
        | none =>
            obtain ⟨m₁, hrem, hm₁, -⟩ := listRemove_spec hmx
            have hm₁ : Lists m₁ h (pre ++ e :: l) none := by simpa [Lists] using hm₁
            obtain ⟨m', hloop, hm'⟩ := @ih m₁ none pre e n hm₁ hw' (by omega)
            refine ⟨m', ?_, hm'⟩
            simp only [Option.map_none] at hloop ⊢
            simp [uniqueLoop, listNext_eq, hnext, hxt, htest, hx, hrem, hloop]
        | some d =>
            obtain ⟨d, ds⟩ := d
            have hdis := hm.2.2
            rw [show pre ++ e :: x :: l = pre ++ [e] ++ x :: l by simp] at hdis
            obtain ⟨m₁, m₂, hrem, hpush, hm₂⟩ := move_spec hmx hm.2.1 hdis
            rw [show pre ++ [e] ++ l = pre ++ e :: l by simp] at hm₂
            obtain ⟨m', hloop, hm'⟩ := @ih m₂ (some (d, ds ++ [x])) pre e n hm₂ hw' (by omega)
            refine ⟨m', ?_, ?_⟩
            · simp only [Option.map_some] at hloop ⊢
              simp [uniqueLoop, listNext_eq, hnext, hxt, htest, hx, hrem, hpush, hloop]
            · simp only [Option.map_some, List.append_assoc, List.singleton_append] at hm' ⊢
              exact hm'
      · -- `x` begins a run
        rw [kept, if_neg hx, removed, if_neg hx]
        have hm₁ : Lists m h (pre ++ [e] ++ x :: l) duplicates := by simpa using hm
        obtain ⟨m', hloop, hm'⟩ :=
          @ih m duplicates (pre ++ [e]) x n hm₁ (hw.subset (List.subset_cons_self e _)) (by omega)
        refine ⟨m', ?_, by simpa using hm'⟩
        simp [uniqueLoop, listNext_eq, hnext, hxt, htest, hx, hloop]

/-- `list_unique` keeps the first element of every run in the list, and puts the others in their
order behind the elements of the other list. -/
def Unique (less : ν → ν → Option Bool) (m : Links ν) (fuel : ℕ) (h : Header ν) (l : List ν)
    (duplicates : Option (Header ν × List ν)) : Prop :=
  ∃ m', listUnique less h (duplicates.map Prod.fst) m fuel = some m' ∧
    Lists m' h (firsts less l) (duplicates.map fun d => (d.1, d.2 ++ repeats less l))

theorem unique_of_ne_nil (hm : Lists m h l duplicates) (hw : StrictWeak less l)
    (hf : l.length ≤ fuel) (hne : l ≠ []) : Unique less m fuel h l duplicates := by
  obtain ⟨e, l, rfl⟩ := List.exists_cons_of_ne_nil hne
  have hpre : Lists m h ([] ++ e :: l) duplicates := hm
  obtain ⟨m', hloop, hm'⟩ := uniqueLoop_spec hpre hw hf
  have hcons : StrictWeak less ([e] ++ l) := hw
  obtain ⟨hfirsts, hrepeats⟩ := runs_append hcons (by simp)
  have hfirsts : firsts less (e :: l) = e :: kept less e l := hfirsts
  have hrepeats : repeats less (e :: l) = removed less e l := hrepeats
  refine ⟨m', ?_, ?_⟩
  · simp [listUnique, hm.holds.begin_eq, hloop]
  · rw [hfirsts, hrepeats]
    exact hm'

theorem listUnique_nil (hm : Holds m h []) (d : Option (Header ν)) :
    listUnique less h d m fuel = none := by
  cases fuel with
  | zero => simp [listUnique, hm.begin_eq, uniqueLoop]
  | succ n => simp [listUnique, hm.begin_eq, uniqueLoop, listNext_eq, hm.last]

/-- **`list_unique` works on every list that is not empty**, and fails an assertion on that one. -/
theorem listUnique_iff (hm : Lists m h l duplicates) (hw : StrictWeak less l)
    (hf : l.length ≤ fuel) : Unique less m fuel h l duplicates ↔ l ≠ [] := by
  constructor
  · rintro ⟨m', hu, -⟩ rfl
    rw [listUnique_nil hm.holds] at hu
    cases hu
  · exact unique_of_ne_nil hm hw hf

theorem listUnique_iff_three :
    Unique (fun a b => some (decide (a < b))) three 3 ⟨0, 4⟩ [1, 2, 3] none ↔ [1, 2, 3] ≠ [] :=
  listUnique_iff holds_three ⟨by decide, by decide, by decide, by decide⟩ (by decide)

/-- The header elements 0 and 1 of an empty list. -/
def empty : Links ℕ where
  next x := if x = 0 then some 1 else none
  prev x := if x = 1 then some 0 else none

theorem listUnique_empty :
    Lists empty ⟨0, 1⟩ [] none ∧ StrictWeak (fun a b : ℕ => some (decide (a < b))) [] ∧
      ∀ fuel, ¬ Unique (fun a b => some (decide (a < b))) empty fuel ⟨0, 1⟩ [] none := by
  have hm : Holds empty ⟨0, 1⟩ [] := ⟨by decide, ⟨rfl, rfl⟩, rfl, rfl⟩
  refine ⟨hm, ⟨nofun, nofun, nofun, nofun⟩, fun fuel => ?_⟩
  rintro ⟨m', hu, -⟩
  rw [listUnique_nil hm] at hu
  cases hu

end CSE130.Lab2.ListLinks
