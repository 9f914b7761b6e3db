import CSE130.Lib.LinkedList
import Mathlib.Tactic.Tauto

/-! # The links of kernel lists (`lib/kernel/list.c`)

Here a list is what it is in memory: a head, a tail, and the links of all list elements.  The
functions are partial, as their assertions are about links: `none` is an assertion that fails.
`Holds` says that the links from head to tail, forwards and backwards, go through the elements of a
Lean list, which is the list of the models that leave the links out. -/

namespace CSE130.Lab2.ListLinks

open Function (update)

variable {ν : Type}

/-- `struct list`: the addresses of its two header elements. -/
structure Header (ν : Type) where
  head : ν
  tail : ν

/-! ### The functions -/

def isHead (m : Links ν) (e : ν) : Bool := (m.prev e).isNone && (m.next e).isSome

def isInterior (m : Links ν) (e : ν) : Bool := (m.prev e).isSome && (m.next e).isSome

def isTail (m : Links ν) (e : ν) : Bool := (m.prev e).isSome && (m.next e).isNone

def listBegin (m : Links ν) (h : Header ν) : Option ν := m.next h.head

def listNext (m : Links ν) (e : ν) : Option ν :=
  if isHead m e || isInterior m e then m.next e else none

def listPrev (m : Links ν) (e : ν) : Option ν :=
  if isInterior m e || isTail m e then m.prev e else none

variable [DecidableEq ν]

def listInsert (m : Links ν) (before elem : ν) : Option (Links ν) := do
  if isInterior m before || isTail m before then
    let p ← m.prev before
    let m := m.setPrev elem p
    let m := m.setNext elem before
    let p ← m.prev before
    let m := m.setNext p elem
    return m.setPrev before elem
  else none

def listPushBack (m : Links ν) (h : Header ν) (elem : ν) : Option (Links ν) :=
  listInsert m h.tail elem

/-- The links and the returned element. -/
def listRemove (m : Links ν) (elem : ν) : Option (Links ν × ν) := do
  if isInterior m elem then
    let p ← m.prev elem
    let q ← m.next elem
    let m := m.setNext p q
    let q ← m.next elem
    let p ← m.prev elem
    let m := m.setPrev q p
    return (m, ← m.next elem)
  else none

def listSplice (m : Links ν) (before first last : ν) : Option (Links ν) := do
  if isInterior m before || isTail m before then
    if first = last then return m
    let last ← listPrev m last
    if isInterior m first && isInterior m last then
      -- remove `first` to `last`
      let p ← m.prev first
      let q ← m.next last
      let m := m.setNext p q
      let q ← m.next last
      let p ← m.prev first
      let m := m.setPrev q p
      -- insert them before `before`
      let r ← m.prev before
      let m := m.setPrev first r
      let m := m.setNext last before
      let r ← m.prev before
      let m := m.setNext r first
      return m.setPrev before last
    else none
  else none

/-! ### Lists in memory -/

/-- The elements of the list are `l`. -/
structure Holds (m : Links ν) (h : Header ν) (l : List ν) : Prop where
  nodup : (h.head :: l ++ [h.tail]).Nodup
  linked : Linked m h.head l h.tail
  first : m.prev h.head = none
  last : m.next h.tail = none

/-- The first element of `l`, which is followed by `b`. -/
def front : List ν → ν → ν
  | [], b => b
  | x :: _, _ => x

omit [DecidableEq ν] in
@[simp] theorem front_nil (b : ν) : front [] b = b := rfl

omit [DecidableEq ν] in
@[simp] theorem front_cons (x : ν) (l : List ν) (b : ν) : front (x :: l) b = x := rfl

variable {m m' : Links ν} {h : Header ν} {l l₁ l₂ l₃ : List ν} {a b e p q x y : ν}

omit [DecidableEq ν] in
theorem listNext_eq (m : Links ν) (e : ν) : listNext m e = m.next e := by
  unfold listNext isHead isInterior
  cases m.next e <;> cases m.prev e <;> rfl

omit [DecidableEq ν] in
theorem listPrev_eq (m : Links ν) (e : ν) : listPrev m e = m.prev e := by
  unfold listPrev isTail isInterior
  cases m.next e <;> cases m.prev e <;> rfl

omit [DecidableEq ν] in
/-- An insertion needs an element before. -/
theorem insertable (hp : m.prev e = some p) : (isInterior m e || isTail m e) = true := by
  unfold isInterior isTail
  rw [hp]
  cases m.next e <;> rfl

omit [DecidableEq ν] in
theorem interior (hp : m.prev e = some p) (hq : m.next e = some q) : isInterior m e = true := by
  unfold isInterior
  rw [hp, hq]
  rfl

omit [DecidableEq ν] in
theorem linked_next (hl : Linked m a l b) : m.next a = some (front l b) := by
  cases l with
  | nil => exact hl.1
  | cons x l => exact hl.1.1

omit [DecidableEq ν] in
theorem front_mem (l : List ν) (b : ν) : front l b ∈ l ++ [b] := by
  cases l with
  | nil => exact List.mem_singleton_self b
  | cons x l => exact List.mem_cons_self

omit [DecidableEq ν] in
theorem front_prev (hl : Linked m a (l₁ ++ l₂) b) : ∃ p ∈ a :: l₁, m.prev (front l₂ b) = some p := by
  cases l₂ with
  | nil =>
      rw [List.append_nil] at hl
      exact hl.exists_prev
  | cons x l₂ => exact (linked_append.mp hl).1.exists_prev

omit [DecidableEq ν] in
theorem perm_around (h : Header ν) (l₁ l₂ : List ν) (x : ν) :
    (h.head :: (l₁ ++ x :: l₂) ++ [h.tail]).Perm (x :: (h.head :: (l₁ ++ l₂) ++ [h.tail])) := by
  simp only [List.cons_append, List.append_assoc]
  exact (List.perm_middle.cons h.head).trans (List.Perm.swap ..)

/-- `elem` is removed from between `p` and `q`. -/
theorem listRemove_eq (hp : m.prev x = some p) (hq : m.next x = some q) (hne : p ≠ x) :
    listRemove m x = some ((m.setNext p q).setPrev q p, q) := by
  have hq' : (m.setNext p q).next x = some q := by rwa [Links.setNext_next_of_ne hne.symm]
  simp [listRemove, interior hp hq, hp, hq, hq']

/-- `elem` is inserted between `p` and `before`. -/
theorem listInsert_eq (hp : m.prev y = some p) (hne : y ≠ x) :
    listInsert m y x = some ((((m.setPrev x p).setNext x y).setNext p x).setPrev y x) := by
  have hp' : (m.setPrev x p).prev y = some p := by rwa [Links.setPrev_prev_of_ne hne]
  simp [listInsert, insertable hp, hp, hp']

/-- What a removal does not touch. -/
structure RemoveFrame (m m' : Links ν) (h : Header ν) (l₁ l₂ : List ν) : Prop where
  next : ∀ z ∉ h.head :: l₁, m'.next z = m.next z
  prev : ∀ z ∉ l₂ ++ [h.tail], m'.prev z = m.prev z

theorem listRemove_spec (hm : Holds m h (l₁ ++ x :: l₂)) :
    ∃ m', listRemove m x = some (m', front l₂ h.tail) ∧ Holds m' h (l₁ ++ l₂) ∧
      RemoveFrame m m' h l₁ l₂ := by
  obtain ⟨p, hp, q, hq, hprev, hnext, hne, hl⟩ := hm.linked.exists_remove hm.nodup
  obtain ⟨hnodup₁, hx, hdisjoint⟩ := nodup_around hm.nodup
  have hqf : q = front l₂ h.tail := by
    have := linked_next (linked_append.mp hm.linked).2
    exact Option.some_inj.mp (hnext.symm.trans this)
  have hqmem : q ∈ l₂ ++ [h.tail] := hqf ▸ front_mem l₂ h.tail
  refine ⟨_, hqf ▸ listRemove_eq hprev hnext hne, ?_, ?_, ?_⟩
  · have hsub : (h.head :: (l₁ ++ l₂) ++ [h.tail]).Sublist
        (h.head :: (l₁ ++ x :: l₂) ++ [h.tail]) :=
      (((List.sublist_cons_self x l₂).append_left l₁).cons_cons h.head).append_right _
    refine ⟨hm.nodup.sublist hsub, hqf ▸ hl, ?_, ?_⟩
    · have hne' : h.head ≠ q := fun he =>
        hdisjoint h.head List.mem_cons_self (he ▸ List.mem_cons_of_mem x hqmem)
      rw [← hqf, Links.setPrev_prev_of_ne hne', Links.setNext_prev]
      exact hm.first
    · have hne' : h.tail ≠ p := by
        rintro he
        exact hdisjoint p hp (he ▸ List.mem_cons_of_mem x (List.mem_append_right l₂ (by simp)))
      rw [Links.setPrev_next, Links.setNext_next_of_ne hne']
      exact hm.last
  · intro z hz
    have hne' : z ≠ p := fun he => hz (he.symm ▸ hp)
    rw [Links.setPrev_next, Links.setNext_next_of_ne hne']
  · intro z hz
    have hne' : z ≠ q := fun he => hz (he.symm ▸ hqmem)
    rw [← hqf, Links.setPrev_prev_of_ne hne', Links.setNext_prev]

/-- What an insertion of `x` does not touch. -/
structure InsertFrame (m m' : Links ν) (h : Header ν) (l₁ l₂ : List ν) (x : ν) : Prop where
  next : ∀ z ∉ h.head :: l₁, z ≠ x → m'.next z = m.next z
  prev : ∀ z ∉ l₂ ++ [h.tail], z ≠ x → m'.prev z = m.prev z

theorem listInsert_spec (hm : Holds m h (l₁ ++ l₂)) (hx : x ∉ h.head :: (l₁ ++ l₂) ++ [h.tail]) :
    ∃ m', listInsert m (front l₂ h.tail) x = some m' ∧ Holds m' h (l₁ ++ x :: l₂) ∧
      InsertFrame m m' h l₁ l₂ x := by
  obtain ⟨p, hp, hprev⟩ := front_prev hm.linked
  set y := front l₂ h.tail with hy
  have hymem : y ∈ l₂ ++ [h.tail] := front_mem l₂ h.tail
  have hyne : y ≠ x := by
    rintro rfl
    exact hx (by
      rw [List.cons_append, List.append_assoc]
      exact List.mem_cons_of_mem _ (List.mem_append_right l₁ hymem))
  have hpne : p ≠ x := by
    rintro rfl
    exact hx (List.mem_append_left _ (by
      rw [← List.cons_append]
      exact List.mem_append_left l₂ hp))
  have hxhead : h.head ≠ x := by
    rintro rfl
    exact hx List.mem_cons_self
  have hxtail : h.tail ≠ x := by
    rintro rfl
    exact hx (List.mem_append_right _ (by simp))
  -- the stores into `x` are not seen in the list
  set m₁ := (m.setPrev x p).setNext x y with hm₁
  have hnext₁ (z : ν) (hz : z ≠ x) : m₁.next z = m.next z := by
    rw [hm₁, Links.setNext_next_of_ne hz, Links.setPrev_next]
  have hprev₁ (z : ν) (hz : z ≠ x) : m₁.prev z = m.prev z := by
    rw [hm₁, Links.setNext_prev, Links.setPrev_prev_of_ne hz]
  have hl₁ : Linked m₁ h.head (l₁ ++ l₂) h.tail := by
    refine hm.linked.congr (fun z hz => hnext₁ z fun he => ?_) fun z hz => hprev₁ z fun he => ?_
    · exact hx (he ▸ List.mem_append_left _ hz)
    · exact hx (he ▸ List.mem_cons_of_mem _ hz)
  have hxn : m₁.next x = some y := Links.setNext_next_self ..
  have hxp : m₁.prev x = some p := by
    rw [hm₁, Links.setNext_prev, Links.setPrev_prev_self]
  have hyp : m₁.prev y = some p := (hprev₁ y hyne).trans hprev
  have hl : Linked ((m₁.setNext p x).setPrev y x) h.head (l₁ ++ x :: l₂) h.tail := by
    cases l₂ with
    | nil =>
        rw [List.append_nil] at hl₁ hx
        have hnodup := hm.nodup
        rw [List.append_nil] at hnodup
        exact hl₁.insert hnodup hx hxn hxp hyp
    | cons z l₂ => exact hl₁.insert_before hm.nodup hx hxn hxp hyp
  refine ⟨_, listInsert_eq hprev hyne, ⟨?_, hl, ?_, ?_⟩, ?_, ?_⟩
  · exact (perm_around ..).nodup_iff.mpr (List.nodup_cons.mpr ⟨hx, hm.nodup⟩)
  · have hne : h.head ≠ y := by
      rintro he
      have hnodup := hm.nodup
      rw [List.cons_append, List.append_assoc] at hnodup
      exact (List.nodup_cons.mp hnodup).1 (he ▸ List.mem_append_right l₁ hymem)
    rw [Links.setPrev_prev_of_ne hne, Links.setNext_prev, hprev₁ _ hxhead]
    exact hm.first
  · have hne : h.tail ≠ p := by
      rintro he
      refine (List.nodup_append.mp hm.nodup).2.2 p ?_ h.tail (by simp) he.symm
      rw [← List.cons_append]
      exact List.mem_append_left l₂ hp
    rw [Links.setPrev_next, Links.setNext_next_of_ne hne, hnext₁ _ hxtail]
    exact hm.last
  · intro z hz hzx
    have hne : z ≠ p := fun he => hz (he.symm ▸ hp)
    rw [Links.setPrev_next, Links.setNext_next_of_ne hne, hnext₁ z hzx]
  · intro z hz hzx
    have hne : z ≠ y := fun he => hz (he.symm ▸ hymem)
    rw [Links.setPrev_prev_of_ne hne, Links.setNext_prev, hprev₁ z hzx]

/-- A splice of one element is its removal and an insertion. -/
theorem listSplice_one {r : ν} (hr : m.prev y = some r) (hp : m.prev x = some p)
    (hq : m.next x = some q) (hqx : m.prev q = some x) (hpx : p ≠ x) (hyx : y ≠ x) (hxq : x ≠ q)
    (hr' : ((m.setNext p q).setPrev q p).prev y = some e) :
    listSplice m y x q = listInsert ((m.setNext p q).setPrev q p) y x := by
  have hq' : (m.setNext p q).next x = some q := by rwa [Links.setNext_next_of_ne hpx.symm]
  have hr'' : (((m.setNext p q).setPrev q p).setPrev x e).prev y = some e := by
    rwa [Links.setPrev_prev_of_ne hyx]
  rw [listInsert_eq hr' hyx]
  simp [listSplice, insertable hr, hxq, listPrev_eq, hqx, interior hp hq, hp, hq, hq', hr', hr'']

/-- The element `x`, which comes after `y`, is moved in front of it. -/
theorem listSplice_spec (hm : Holds m h (l₁ ++ y :: (l₂ ++ x :: l₃))) :
    ∃ m', listSplice m y x (front l₃ h.tail) = some m' ∧ Holds m' h (l₁ ++ x :: y :: (l₂ ++ l₃)) := by
  have hassoc : l₁ ++ y :: (l₂ ++ x :: l₃) = (l₁ ++ y :: l₂) ++ x :: l₃ := by simp
  have hmx := hm
  rw [hassoc] at hmx
  obtain ⟨m₁, hrem, hm₁, -⟩ := listRemove_spec hmx
  obtain ⟨p, hp, q, hq, hprev, hnext, hpx, -⟩ := hmx.linked.exists_remove hmx.nodup
  obtain ⟨-, hx, hdisjoint⟩ := nodup_around hmx.nodup
  obtain ⟨r, -, hr⟩ := (linked_append.mp hm.linked).1.exists_prev
  have hrem' := listRemove_eq hprev hnext hpx
  rw [hrem, Option.some_inj, Prod.mk.injEq] at hrem'
  obtain ⟨rfl, rfl⟩ := hrem'
  have hm₁' : Holds ((m.setNext p (front l₃ h.tail)).setPrev (front l₃ h.tail) p) h
      (l₁ ++ y :: (l₂ ++ l₃)) := by
    rw [show l₁ ++ y :: (l₂ ++ l₃) = l₁ ++ y :: l₂ ++ l₃ by simp]
    exact hm₁
  obtain ⟨e, -, he⟩ := (linked_append.mp hm₁'.linked).1.exists_prev
  have hyx : y ≠ x := by
    rintro rfl
    exact hdisjoint y (by simp) (by simp)
  have hxq : x ≠ front l₃ h.tail := fun heq => hx (heq ▸ front_mem l₃ h.tail)
  have hqx : m.prev (front l₃ h.tail) = some x := by
    have hl := (linked_append.mp hmx.linked).2
    cases l₃ with
    | nil => exact hl.2
    | cons z l₃ => exact hl.1.2
  have hxnew : x ∉ h.head :: (l₁ ++ y :: (l₂ ++ l₃)) ++ [h.tail] := by
    have hnodup := (perm_around h (l₁ ++ y :: l₂) l₃ x).nodup_iff.mp hmx.nodup
    rw [show l₁ ++ y :: (l₂ ++ l₃) = l₁ ++ y :: l₂ ++ l₃ by simp]
    exact (List.nodup_cons.mp hnodup).1
  obtain ⟨m', hins, hm', -⟩ := listInsert_spec hm₁' hxnew
  exact ⟨m', (listSplice_one hr hprev hnext hqx hpx hyx hxq he).trans hins, hm'⟩

/-! ### What is next to an element -/

namespace Holds

omit [DecidableEq ν]

theorem begin_eq (hm : Holds m h l) : listBegin m h = some (front l h.tail) := linked_next hm.linked

theorem after (hm : Holds m h (l₁ ++ x :: l₂)) : Linked m x l₂ h.tail :=
  (linked_append.mp hm.linked).2

theorem next (hm : Holds m h (l₁ ++ x :: l₂)) : m.next x = some (front l₂ h.tail) :=
  linked_next hm.after

theorem prev_front (hm : Holds m h (l₁ ++ x :: l₂)) : m.prev (front l₂ h.tail) = some x := by
  have hl := hm.after
  cases l₂ with
  | nil => exact hl.2
  | cons y l₂ => exact hl.1.2

theorem nodup_after (hm : Holds m h (l₁ ++ l₂)) : (l₂ ++ [h.tail]).Nodup := by
  have hnodup := hm.nodup
  rw [List.cons_append, List.append_assoc] at hnodup
  exact (List.nodup_append.mp (List.nodup_cons.mp hnodup).2).2.1

/-- An element is not found again behind. -/
theorem ne_front (hm : Holds m h (l₁ ++ x :: (l₂ ++ l₃))) : x ≠ front l₃ h.tail := by
  rintro he
  have hnodup := hm.nodup_after
  rw [List.cons_append, List.append_assoc] at hnodup
  exact (List.nodup_cons.mp hnodup).1 (he ▸ List.mem_append_right l₂ (front_mem l₃ h.tail))

theorem congr (hm : Holds m h l) (hnext : ∀ z ∈ h.head :: l ++ [h.tail], m'.next z = m.next z)
    (hprev : ∀ z ∈ h.head :: l ++ [h.tail], m'.prev z = m.prev z) : Holds m' h l where
  nodup := hm.nodup
  linked := hm.linked.congr (fun z hz => hnext z (List.mem_append_left _ hz))
    fun z hz => hprev z (List.mem_cons_of_mem h.head hz)
  first := (hprev h.head List.mem_cons_self).trans hm.first
  last := (hnext h.tail (List.mem_append_right _ (List.mem_singleton_self _))).trans hm.last

end Holds

end CSE130.Lab2.ListLinks
