import CSE130.Lab2.ListLinks
import CSE130.Lab2.List
import Mathlib.Data.List.TakeWhile

/-! # Reversal and ordered insertion (`lib/kernel/list.c`)

`list_reverse` swaps the two links of every element on the way to the tail, which is then found in the link
backwards, and mends the four links between the elements and the header in two more swaps, also where the
list has one element only (`listReverse_spec`).

`list_insert_ordered` stops at the first element that is more than the new one.  A sorted list stays sorted,
and the new element comes after those that are equal to it (`listInsertOrdered_spec`). -/

namespace CSE130.Lab2.ListLinks

open Function (update)

variable {ν : Type} [DecidableEq ν]

/-! ### The functions -/

/-- `swap (&e->prev, &e->next)`. -/
def swapLinks (m : Links ν) (e : ν) : Links ν :=
  ⟨update m.next e (m.prev e), update m.prev e (m.next e)⟩

/-- The loop of `list_reverse`. -/
def reverseLoop (last : ν) : ℕ → Links ν → ν → Option (Links ν)
  | 0, _, _ => none
  | n + 1, m, e =>
      if e = last then some m
      else do
        let m := swapLinks m e
        reverseLoop last n m (← m.prev e)

/-- `list_reverse`; the loop has `n` rounds at most. -/
def listReverse (m : Links ν) (h : Header ν) (n : ℕ) : Option (Links ν) := do
  let e ← listBegin m h
  if e = h.tail then some m
  else
    let m ← reverseLoop h.tail n m e
    -- `swap (&list->head.next, &list->tail.prev)`
    let m : Links ν := ⟨update m.next h.head (m.prev h.tail), update m.prev h.tail (m.next h.head)⟩
    -- `swap (&list->head.next->prev, &list->tail.prev->next)`
    let x ← m.next h.head
    let y ← m.prev h.tail
    some ⟨update m.next y (m.prev x), update m.prev x (m.next y)⟩

/-- The loop of `list_insert_ordered`. -/
def insertPlace (less : ν → ν → Option Bool) (m : Links ν) (elem last : ν) : ℕ → ν → Option ν
  | 0, _ => none
  | n + 1, e =>
      if e = last then some e
      else do
        if (← less elem e) then some e else insertPlace less m elem last n (← listNext m e)

/-- `list_insert_ordered`. -/
def listInsertOrdered (less : ν → ν → Option Bool) (m : Links ν) (h : Header ν) (elem : ν) (n : ℕ) :
    Option (Links ν) := do
  let e ← insertPlace less m elem h.tail n (← listBegin m h)
  listInsert m e elem

/-! ### Reversal -/

variable {m m' : Links ν} {h : Header ν} {l r : List ν} {a b x y z : ν} {n : ℕ}

/-- Every element is followed by the next one. -/
def Forward (m : Links ν) (b : ν) : List ν → Prop
  | [] => True
  | x :: l => m.next x = some (front l b) ∧ Forward m b l

omit [DecidableEq ν] in
theorem Forward.congr (hl : Forward m b l) (hnext : ∀ z ∈ l, m'.next z = m.next z) : Forward m' b l := by
  induction l with
  | nil => trivial
  | cons x l ih =>
      exact ⟨(hnext x List.mem_cons_self).trans hl.1,
        ih hl.2 fun z hz => hnext z (List.mem_cons_of_mem x hz)⟩

omit [DecidableEq ν] in
theorem forward_of_linked (hl : Linked m a l b) : Forward m b l := by
  induction l generalizing a with
  | nil => trivial
  | cons x l ih => exact ⟨linked_next hl.2, ih hl.2⟩

/-- The links of the elements of `l` are swapped. -/
def flipped (m : Links ν) (l : List ν) : Links ν where
  next z := if z ∈ l then m.prev z else m.next z
  prev z := if z ∈ l then m.next z else m.prev z

theorem flipped_swapLinks (hx : x ∉ l) : flipped (swapLinks m x) l = flipped m (x :: l) := by
  unfold flipped swapLinks
  congr 1 <;> funext z <;> by_cases hz : z = x
  · subst hz
    simp [hx]
  · simp [hz]
  · subst hz
    simp [hx]
  · simp [hz]

theorem reverseLoop_eq (hl : Forward m b l) (hnodup : (l ++ [b]).Nodup) (hn : l.length < n) :
    reverseLoop b n m (front l b) = some (flipped m l) := by
  induction l generalizing m n with
  | nil =>
      cases n with
      | zero => omega
      | succ n => simp [reverseLoop, flipped]
  | cons x l ih =>
      cases n with
      | zero => omega
      | succ n =>
          rw [List.cons_append, List.nodup_cons] at hnodup
          rw [List.length_cons] at hn
          have hxb : x ≠ b := fun he => hnodup.1 (he ▸ List.mem_append_right l (List.mem_singleton_self x))
          have hxl : x ∉ l := fun hmem => hnodup.1 (List.mem_append_left _ hmem)
          have hprev : (swapLinks m x).prev x = some (front l b) := by
            rw [← hl.1]
            exact Function.update_self ..
          have hrest : Forward (swapLinks m x) b l := hl.2.congr fun z hz => by
            refine Function.update_of_ne ?_ ..
            rintro rfl
            exact hxl hz
          rw [front_cons, reverseLoop, if_neg hxb]
          dsimp only
          rw [hprev, Option.bind_eq_bind, Option.bind_some, ih hrest hnodup.2 (by omega),
            flipped_swapLinks hxl]

/-- What is left after the last two swaps of a list from `y` to `x`. -/
def mended (m : Links ν) (h : Header ν) (l : List ν) (x y : ν) : Links ν :=
  let m : Links ν := ⟨update (flipped m l).next h.head (some x), update (flipped m l).prev h.tail (some y)⟩
  ⟨update m.next y (some h.tail), update m.prev x (some h.head)⟩

/-- The links between a list and its header. -/
structure Ends (m : Links ν) (h : Header ν) (x y : ν) : Prop where
  next_head : m.next h.head = some y
  prev_first : m.prev y = some h.head
  next_last : m.next x = some h.tail
  prev_tail : m.prev h.tail = some x

omit [DecidableEq ν] in
theorem Holds.ends (hm : Holds m h l) (hy : l.head? = some y) (hx : l.getLast? = some x) : Ends m h x y := by
  obtain ⟨l₁, rfl⟩ := List.getLast?_eq_some_iff.mp hx
  obtain ⟨l₂, hl₂⟩ := List.head?_eq_some_iff.mp hy
  have hfirst := hm.linked
  rw [hl₂] at hfirst
  exact ⟨hfirst.1.1, hfirst.1.2, hm.after.1, hm.after.2⟩

omit [DecidableEq ν] in
theorem Holds.header (hm : Holds m h l) : h.head ∉ l ∧ h.tail ∉ l ∧ h.head ≠ h.tail ∧ l.Nodup := by
  have hnodup := hm.nodup
  rw [List.cons_append, List.nodup_cons, List.mem_append, not_or, List.mem_singleton] at hnodup
  obtain ⟨⟨hhead, hne⟩, hrest⟩ := hnodup
  obtain ⟨hl, -, hdisjoint⟩ := List.nodup_append.mp hrest
  exact ⟨hhead, fun hmem => hdisjoint _ hmem _ (List.mem_singleton_self _) rfl, hne, hl⟩

theorem listReverse_eq (hm : Holds m h l) (hy : l.head? = some y) (hx : l.getLast? = some x)
    (hn : l.length < n) : listReverse m h n = some (mended m h l x y) := by
  obtain ⟨hhead, htail, hne, -⟩ := hm.header
  obtain ⟨hnext, hfirst, hlast, hprev⟩ := hm.ends hy hx
  have hmem := List.mem_of_head? hy
  have hmem' := List.mem_of_getLast? hx
  have hfront : front l h.tail = y := by
    obtain ⟨l', rfl⟩ := List.head?_eq_some_iff.mp hy
    rfl
  have hloop := reverseLoop_eq (forward_of_linked hm.linked) (List.nodup_cons.mp hm.nodup).2 hn
  rw [hfront] at hloop
  have hytail : y ≠ h.tail := fun he => htail (he ▸ hmem)
  have hyhead : y ≠ h.head := fun he => hhead (he ▸ hmem)
  have hxtail : x ≠ h.tail := fun he => htail (he ▸ hmem')
  unfold listReverse
  rw [show listBegin m h = some y from hnext, Option.bind_eq_bind, Option.bind_some, if_neg hytail, hloop]
  simp [flipped, mended, hhead, htail, hmem, hmem', hnext, hprev, hfirst, hlast, hyhead, hxtail]

/-- **`list_reverse` reverses the list**, in both directions, and touches nothing else. -/
theorem listReverse_spec (hm : Holds m h l) (hn : l.length < n) :
    ∃ m', listReverse m h n = some m' ∧ Holds m' h l.reverse ∧
      ∀ z ∉ h.head :: l ++ [h.tail], m'.next z = m.next z ∧ m'.prev z = m.prev z := by
  obtain ⟨hhead, htail, hne, hnodup⟩ := hm.header
  rcases l with _ | ⟨y, l⟩
  · -- an empty list is left alone
    refine ⟨m, ?_, hm, fun z _ => ⟨rfl, rfl⟩⟩
    unfold listReverse
    rw [show listBegin m h = some h.tail from hm.linked.1]
    simp
  obtain ⟨x, hx⟩ : ∃ x, (y :: l).getLast? = some x := ⟨_, List.getLast?_cons⟩
  have hmem := List.mem_of_getLast? hx
  have hheady : h.head ≠ y := fun he => hhead (he ▸ List.mem_cons_self)
  have htaily : h.tail ≠ y := fun he => htail (he ▸ List.mem_cons_self)
  have hheadx : h.head ≠ x := fun he => hhead (he ▸ hmem)
  have htailx : h.tail ≠ x := fun he => htail (he ▸ hmem)
  refine ⟨_, listReverse_eq hm rfl hx hn, ⟨?_, ?_, ?_, ?_⟩, ?_⟩
  · exact (((List.reverse_perm _).append_right _).cons _).nodup_iff.mpr hm.nodup
  · obtain ⟨r, hr⟩ := List.head?_eq_some_iff.mp (List.head?_reverse.trans hx)
    have hperm : (x :: r).Perm (y :: l) := hr ▸ List.reverse_perm _
    have hend : (x :: r).getLast? = some y := by rw [← hr, List.getLast?_reverse, List.head?_cons]
    have hflip := hm.linked.flip
    have hxr := List.nodup_cons.mp (hperm.nodup_iff.mpr hnodup)
    rw [hr] at hflip ⊢
    refine hflip.reanchor hend (hperm.nodup_iff.mpr hnodup) ⟨?_, ?_⟩ ⟨?_, ?_⟩ (fun z hz hzy => ?_)
      fun z hz => ?_
    · simp [mended, hheady]
    · simp [mended]
    · simp [mended]
    · simp [mended, htailx]
    · have hz' := hperm.mem_iff.mp hz
      have hzhead : z ≠ h.head := fun he => hhead (he ▸ hz')
      simp only [mended, flipped, Function.update_of_ne hzy, Function.update_of_ne hzhead, if_pos hz']
    · have hz' := hperm.mem_iff.mp (List.mem_cons_of_mem x hz)
      have hztail : z ≠ h.tail := fun he => htail (he ▸ hz')
      have hzx : z ≠ x := fun he => hxr.1 (he ▸ hz)
      simp only [mended, flipped, Function.update_of_ne hzx, Function.update_of_ne hztail, if_pos hz']
  · simp only [mended, flipped, Function.update_of_ne hheadx, Function.update_of_ne hne, if_neg hhead, hm.first]
  · simp only [mended, flipped, Function.update_of_ne htaily, Function.update_of_ne hne.symm, if_neg htail,
      hm.last]
  · intro z hz
    rw [List.mem_append, List.mem_cons, List.mem_singleton, not_or, not_or] at hz
    obtain ⟨⟨hzhead, hzl⟩, hztail⟩ := hz
    have hzy : z ≠ y := fun he => hzl (he ▸ List.mem_cons_self)
    have hzx : z ≠ x := fun he => hzl (he ▸ hmem)
    simp only [mended, flipped, Function.update_of_ne hzy, Function.update_of_ne hzx,
      Function.update_of_ne hzhead, Function.update_of_ne hztail, if_neg hzl, and_self]

/-- A list of two elements. -/
def twoLinks : Links ℕ where
  next z := if z = 0 then some 2 else if z = 2 then some 3 else if z = 3 then some 1 else none
  prev z := if z = 1 then some 3 else if z = 3 then some 2 else if z = 2 then some 0 else none

theorem holds_twoLinks : Holds twoLinks ⟨0, 1⟩ [2, 3] :=
  ⟨by decide, ⟨⟨rfl, rfl⟩, ⟨rfl, rfl⟩, rfl, rfl⟩, rfl, rfl⟩

theorem listReverse_spec_two : ∃ m', listReverse twoLinks ⟨0, 1⟩ 3 = some m' ∧
    Holds m' ⟨0, 1⟩ [2, 3].reverse ∧
      ∀ z ∉ 0 :: [2, 3] ++ [1], m'.next z = twoLinks.next z ∧ m'.prev z = twoLinks.prev z :=
  listReverse_spec holds_twoLinks (by decide)

/-! ### Ordered insertion -/

open KernelList (lessBy)

variable {key : ν → ℤ}

theorem insertPlace_eq (x : ν) (key : ν → ℤ) (hl : Forward m b l) (hnodup : (l ++ [b]).Nodup)
    (hn : l.length < n) :
    insertPlace (lessBy fun z => some (key z)) m x b n (front l b) =
      some (front (l.dropWhile fun z => key z ≤ key x) b) := by
  induction l generalizing n with
  | nil =>
      cases n with
      | zero => omega
      | succ n => simp [insertPlace]
  | cons z l ih =>
      cases n with
      | zero => omega
      | succ n =>
          rw [List.cons_append, List.nodup_cons] at hnodup
          rw [List.length_cons] at hn
          have hzb : z ≠ b := fun he => hnodup.1 (he ▸ List.mem_append_right l (List.mem_singleton_self z))
          rw [front_cons, insertPlace, if_neg hzb, listNext_eq, hl.1]
          by_cases hz : key z ≤ key x
          · rw [List.dropWhile_cons_of_pos (by simpa using hz), ← ih (n := n) hl.2 hnodup.2 (by omega)]
            simp [lessBy, not_lt.mpr hz]
          · rw [List.dropWhile_cons_of_neg (by simpa using hz)]
            simp [lessBy, not_le.mp hz]

omit [DecidableEq ν] in
/-- In a sorted list all is more from the first element on that is. -/
theorem lt_of_mem_dropWhile (hsorted : l.Pairwise fun y z => key y ≤ key z)
    (hz : z ∈ l.dropWhile fun z => key z ≤ key x) : key x < key z := by
  have hfirst := List.head?_dropWhile_not (fun z => decide (key z ≤ key x)) l
  have hrest := hsorted.sublist (List.dropWhile_sublist fun z => decide (key z ≤ key x))
  cases hd : l.dropWhile fun z => decide (key z ≤ key x) with
  | nil => rw [hd] at hz; cases hz
  | cons y r =>
      rw [hd] at hz hfirst hrest
      have hy : key x < key y := by simpa using hfirst
      obtain rfl | hmem := List.mem_cons.mp hz
      · exact hy
      · exact hy.trans_le ((List.pairwise_cons.mp hrest).1 z hmem)

/-- **`list_insert_ordered` keeps a list sorted** and puts the new element behind those equal to it. -/
theorem listInsertOrdered_spec (hm : Holds m h l) (hx : x ∉ h.head :: l ++ [h.tail]) (hn : l.length < n)
    (hsorted : l.Pairwise fun y z => key y ≤ key z) :
    ∃ m' l₁ l₂, listInsertOrdered (lessBy fun z => some (key z)) m h x n = some m' ∧ l = l₁ ++ l₂ ∧
      Holds m' h (l₁ ++ x :: l₂) ∧ (∀ z ∈ l₁, key z ≤ key x) ∧ ∀ z ∈ l₂, key x < key z := by
  have hsplit : l = (l.takeWhile fun z => key z ≤ key x) ++ l.dropWhile fun z => key z ≤ key x :=
    (List.takeWhile_append_dropWhile).symm
  have hplace := insertPlace_eq x key (forward_of_linked hm.linked) (List.nodup_cons.mp hm.nodup).2 hn
  rw [hsplit] at hm hx
  obtain ⟨m', hinsert, hm', -⟩ := listInsert_spec hm hx
  refine ⟨m', _, _, ?_, hsplit, hm', fun z hz => by simpa using List.mem_takeWhile_imp hz,
    fun z hz => lt_of_mem_dropWhile hsorted hz⟩
  unfold listInsertOrdered
  rw [hm.begin_eq, Option.bind_eq_bind, Option.bind_some, ← hsplit, hplace, Option.bind_some]
  exact hinsert

theorem listInsertOrdered_spec_two : ∃ m' l₁ l₂,
    listInsertOrdered (lessBy fun z : ℕ => some (z : ℤ)) twoLinks ⟨0, 1⟩ 4 3 = some m' ∧ [2, 3] = l₁ ++ l₂ ∧
      Holds m' ⟨0, 1⟩ (l₁ ++ 4 :: l₂) ∧ (∀ z ∈ l₁, (z : ℤ) ≤ (4 : ℕ)) ∧ ∀ z ∈ l₂, ((4 : ℕ) : ℤ) < z :=
  listInsertOrdered_spec holds_twoLinks (by decide) (by decide) (by decide)

end CSE130.Lab2.ListLinks
