import Mathlib.Data.List.Nodup
import Mathlib.Logic.Function.Basic

/-! # Doubly linked lists

The links of all nodes are two partial functions, `next` and `prev`.  `Linked m a l b` says that the
nodes of `l` lie, in this order, between the nodes `a` and `b`, which may be the two ends of a list
or any two of its nodes.  A node is inserted by four stores and removed by two; what they do to
`Linked` does not depend on where in the list that is. -/

namespace CSE130

open Function (update)

variable {ν : Type*}

/-- The links of all nodes; `none` is a null pointer. -/
structure Links (ν : Type*) where
  next : ν → Option ν
  prev : ν → Option ν

namespace Links

variable [DecidableEq ν] (m : Links ν) (x y : ν)

/-- `x->next = y`. -/
def setNext : Links ν := { m with next := update m.next x (some y) }

/-- `x->prev = y`. -/
def setPrev : Links ν := { m with prev := update m.prev x (some y) }

@[simp] theorem setNext_prev : (m.setNext x y).prev = m.prev := rfl
@[simp] theorem setPrev_next : (m.setPrev x y).next = m.next := rfl

@[simp] theorem setNext_next_self : (m.setNext x y).next x = some y := Function.update_self ..
@[simp] theorem setPrev_prev_self : (m.setPrev x y).prev x = some y := Function.update_self ..

variable {m x y}

theorem setNext_next_of_ne {z : ν} (h : z ≠ x) : (m.setNext x y).next z = m.next z :=
  Function.update_of_ne h ..

theorem setPrev_prev_of_ne {z : ν} (h : z ≠ x) : (m.setPrev x y).prev z = m.prev z :=
  Function.update_of_ne h ..

end Links

/-- The nodes of `l` are linked one after the other, from `a` to `b`. -/
def Linked (m : Links ν) (a : ν) : List ν → ν → Prop
  | [], b => m.next a = some b ∧ m.prev b = some a
  | x :: l, b => (m.next a = some x ∧ m.prev x = some a) ∧ Linked m x l b

variable {m m' : Links ν} {a b x y p q : ν} {l l₁ l₂ : List ν}

theorem linked_append : Linked m a (l₁ ++ x :: l₂) b ↔ Linked m a l₁ x ∧ Linked m x l₂ b := by
  induction l₁ generalizing a with
  | nil => rfl
  | cons y l₁ ih => rw [List.cons_append, Linked, Linked, ih, and_assoc, and_assoc, and_assoc]

/-- What is linked depends on the links along the list only. -/
theorem Linked.congr (h : Linked m a l b) (hnext : ∀ z ∈ a :: l, m'.next z = m.next z)
    (hprev : ∀ z ∈ l ++ [b], m'.prev z = m.prev z) : Linked m' a l b := by
  induction l generalizing a with
  | nil => exact ⟨(hnext a (by simp)).trans h.1, (hprev b (by simp)).trans h.2⟩
  | cons x l ih =>
      refine ⟨⟨(hnext a (by simp)).trans h.1.1, (hprev x (by simp)).trans h.1.2⟩, ih h.2 ?_ ?_⟩
      · exact fun z hz => hnext z (List.mem_cons_of_mem a hz)
      · exact fun z hz => hprev z (List.mem_cons_of_mem x hz)

theorem Linked.next_eq (h : Linked m a l b) : m.next a = (l ++ [b]).head? := by
  cases l with
  | nil => exact h.1
  | cons x l => exact h.1.1

theorem Linked.exists_prev (h : Linked m a l b) : ∃ p ∈ a :: l, m.prev b = some p := by
  induction l generalizing a with
  | nil => exact ⟨a, by simp, h.2⟩
  | cons x l ih =>
      obtain ⟨p, hp, hprev⟩ := ih h.2
      exact ⟨p, List.mem_cons_of_mem a hp, hprev⟩

variable [DecidableEq ν]

/-- The last two stores of an insertion before `b`; the links of the new node `x` are set. -/
theorem Linked.insert (h : Linked m a l b) (hnodup : (a :: l ++ [b]).Nodup) (hx : x ∉ a :: l ++ [b])
    (hnext : m.next x = some b) (hprev : m.prev x = some p) (hp : m.prev b = some p) :
    Linked ((m.setNext p x).setPrev b x) a (l ++ [x]) b := by
  induction l generalizing a with
  | nil =>
      obtain rfl : a = p := Option.some.inj (h.2.symm.trans hp)
      simp only [List.cons_append, List.nil_append, List.mem_cons, List.not_mem_nil, or_false,
        not_or] at hx
      refine ⟨⟨?_, ?_⟩, ?_, ?_⟩
      · simp
      · rw [Links.setPrev_prev_of_ne hx.2]
        exact hprev
      · rw [Links.setPrev_next, Links.setNext_next_of_ne hx.1]
        exact hnext
      · simp
  | cons y l ih =>
      rw [List.cons_append, List.nodup_cons] at hnodup
      obtain ⟨p', hp', hprev'⟩ := h.2.exists_prev
      obtain rfl : p' = p := Option.some.inj (hprev'.symm.trans hp)
      have hap : a ≠ p' := fun ha => hnodup.1 (ha ▸ List.mem_append_left _ hp')
      have hyb : y ≠ b := fun hy => by
        have := (List.nodup_cons.mp hnodup.2).1
        exact this (by simp [hy])
      refine ⟨⟨?_, ?_⟩, ih h.2 hnodup.2 fun hmem => hx (List.mem_cons_of_mem a hmem)⟩
      · rw [Links.setPrev_next, Links.setNext_next_of_ne hap]
        exact h.1.1
      · rw [Links.setPrev_prev_of_ne hyb]
        exact h.1.2

omit [DecidableEq ν] in
theorem nodup_around (h : (a :: (l₁ ++ y :: l₂) ++ [b]).Nodup) :
    (a :: l₁ ++ [y]).Nodup ∧ y ∉ l₂ ++ [b] ∧ ∀ z ∈ a :: l₁, z ∉ y :: (l₂ ++ [b]) := by
  have hsplit : a :: (l₁ ++ y :: l₂) ++ [b] = (a :: l₁ ++ [y]) ++ (l₂ ++ [b]) := by simp
  have hsplit' : a :: (l₁ ++ y :: l₂) ++ [b] = (a :: l₁) ++ y :: (l₂ ++ [b]) := by simp
  refine ⟨?_, ?_, ?_⟩
  · rw [hsplit] at h
    exact (List.nodup_append.mp h).1
  · rw [hsplit'] at h
    exact (List.nodup_cons.mp (List.nodup_append.mp h).2.1).1
  · rw [hsplit'] at h
    exact fun z hz hz' => (List.nodup_append.mp h).2.2 z hz z hz' rfl

theorem Linked.insert_before (h : Linked m a (l₁ ++ y :: l₂) b)
    (hnodup : (a :: (l₁ ++ y :: l₂) ++ [b]).Nodup) (hx : x ∉ a :: (l₁ ++ y :: l₂) ++ [b])
    (hnext : m.next x = some y) (hprev : m.prev x = some p) (hp : m.prev y = some p) :
    Linked ((m.setNext p x).setPrev y x) a (l₁ ++ x :: y :: l₂) b := by
  obtain ⟨h₁, h₂⟩ := linked_append.mp h
  obtain ⟨hnodup₁, hy, hdisjoint⟩ := nodup_around hnodup
  obtain ⟨p', hp', hprev'⟩ := h₁.exists_prev
  obtain rfl : p' = p := Option.some.inj (hprev'.symm.trans hp)
  have hx₁ : x ∉ a :: l₁ ++ [y] := fun hmem => hx (by
    simp only [List.cons_append, List.mem_cons, List.mem_append, List.not_mem_nil, or_false] at hmem ⊢
    tauto)
  have hfirst := h₁.insert hnodup₁ hx₁ hnext hprev hp
  have hsecond : Linked ((m.setNext p' x).setPrev y x) y l₂ b := by
    refine h₂.congr (fun z hz => ?_) fun z hz => ?_
    · have hne : z ≠ p' := fun hzp => hdisjoint p' hp' (hzp ▸ by
        rw [← List.cons_append]
        exact List.mem_append_left _ hz)
      rw [Links.setPrev_next, Links.setNext_next_of_ne hne]
    · have hne : z ≠ y := by
        rintro rfl
        exact hy hz
      rw [Links.setPrev_prev_of_ne hne, Links.setNext_prev]
  rw [show l₁ ++ x :: y :: l₂ = (l₁ ++ [x]) ++ y :: l₂ by simp]
  exact linked_append.mpr ⟨hfirst, hsecond⟩

theorem Linked.retarget (h : Linked m a l x) (hnodup : (a :: l ++ [x]).Nodup) (hq : q ∉ l)
    (hp : m.prev x = some p) : Linked ((m.setNext p q).setPrev q p) a l q := by
  induction l generalizing a with
  | nil =>
      obtain rfl : a = p := Option.some.inj (h.2.symm.trans hp)
      exact ⟨by simp, by simp⟩
  | cons y l ih =>
      rw [List.cons_append, List.nodup_cons] at hnodup
      obtain ⟨p', hp', hprev'⟩ := h.2.exists_prev
      obtain rfl : p' = p := Option.some.inj (hprev'.symm.trans hp)
      have hap : a ≠ p' := fun ha => hnodup.1 (ha ▸ List.mem_append_left _ hp')
      rw [List.mem_cons, not_or] at hq
      refine ⟨⟨?_, ?_⟩, ih h.2 hnodup.2 hq.2⟩
      · rw [Links.setPrev_next, Links.setNext_next_of_ne hap]
        exact h.1.1
      · rw [Links.setPrev_prev_of_ne fun hyq => hq.1 hyq.symm]
        exact h.1.2

theorem Linked.remove (h : Linked m a (l₁ ++ x :: l₂) b)
    (hnodup : (a :: (l₁ ++ x :: l₂) ++ [b]).Nodup) (hp : m.prev x = some p)
    (hq : m.next x = some q) : Linked ((m.setNext p q).setPrev q p) a (l₁ ++ l₂) b := by
  obtain ⟨h₁, h₂⟩ := linked_append.mp h
  obtain ⟨hnodup₁, hx, hdisjoint⟩ := nodup_around hnodup
  obtain ⟨p', hp', hprev'⟩ := h₁.exists_prev
  obtain rfl : p' = p := Option.some.inj (hprev'.symm.trans hp)
  have hqmem : q ∈ l₂ ++ [b] := by
    have := h₂.next_eq
    rw [hq] at this
    exact List.mem_of_mem_head? this.symm
  have hql : q ∉ l₁ := fun hmem =>
    hdisjoint q (List.mem_cons_of_mem a hmem) (List.mem_cons_of_mem x hqmem)
  have hfirst := h₁.retarget hnodup₁ hql hp
  cases l₂ with
  | nil =>
      obtain rfl : q = b := Option.some.inj (hq.symm.trans h₂.1)
      rwa [List.append_nil]
  | cons z l₂ =>
      obtain rfl : q = z := Option.some.inj (hq.symm.trans h₂.1.1)
      refine linked_append.mpr ⟨hfirst, h₂.2.congr (fun z hz => ?_) fun z hz => ?_⟩
      · have hne : z ≠ p' := fun hzp => hdisjoint p' hp' (hzp ▸ List.mem_cons_of_mem x (by
          rw [List.cons_append, ← List.cons_append]
          exact List.mem_append_left _ hz))
        rw [Links.setPrev_next, Links.setNext_next_of_ne hne]
      · have hqz : q ∉ l₂ ++ [b] := by
          rw [show l₁ ++ x :: q :: l₂ = (l₁ ++ [x]) ++ q :: l₂ by simp] at hnodup
          exact (nodup_around hnodup).2.1
        have hne : z ≠ q := by
          rintro rfl
          exact hqz hz
        rw [Links.setPrev_prev_of_ne hne, Links.setNext_prev]

/-- What the two stores of a removal read, and what they lead to. -/
theorem Linked.exists_remove (h : Linked m a (l₁ ++ x :: l₂) b)
    (hnodup : (a :: (l₁ ++ x :: l₂) ++ [b]).Nodup) :
    ∃ p ∈ a :: l₁, ∃ q, (l₂ ++ [b]).head? = some q ∧ m.prev x = some p ∧ m.next x = some q ∧
      p ≠ x ∧ Linked ((m.setNext p q).setPrev q p) a (l₁ ++ l₂) b := by
  obtain ⟨h₁, h₂⟩ := linked_append.mp h
  obtain ⟨p, hp, hprev⟩ := h₁.exists_prev
  obtain ⟨q, hq⟩ : ∃ q, (l₂ ++ [b]).head? = some q :=
    Option.isSome_iff_exists.mp (by cases l₂ <;> rfl)
  have hnext : m.next x = some q := h₂.next_eq.trans hq
  have hne : p ≠ x := by
    rintro rfl
    exact (nodup_around hnodup).2.2 p hp List.mem_cons_self
  exact ⟨p, hp, q, hq, hprev, hnext, hne, h.remove hnodup hprev hnext⟩

omit [DecidableEq ν] in
theorem Linked.flip (hl : Linked m a l b) : Linked ⟨m.prev, m.next⟩ b l.reverse a := by
  induction l generalizing a with
  | nil => exact ⟨hl.2, hl.1⟩
  | cons x l ih =>
      rw [List.reverse_cons]
      exact linked_append.mpr ⟨ih hl.2, hl.1.2, hl.1.1⟩

omit [DecidableEq ν] in
/-- The nodes of a list are moved between two others. -/
theorem Linked.reanchor {a' b' : ν} (hl : Linked m a (x :: l) b) (hlast : (x :: l).getLast? = some y)
    (hnodup : (x :: l).Nodup) (hbegin : m'.next a' = some x ∧ m'.prev x = some a')
    (hend : m'.next y = some b' ∧ m'.prev b' = some y)
    (hnext : ∀ z ∈ x :: l, z ≠ y → m'.next z = m.next z) (hprev : ∀ z ∈ l, m'.prev z = m.prev z) :
    Linked m' a' (x :: l) b' := by
  induction l generalizing a a' x with
  | nil =>
      obtain rfl : x = y := Option.some.inj hlast
      exact ⟨hbegin, hend⟩
  | cons z l ih =>
      rw [List.getLast?_cons_cons] at hlast
      have hxy : x ≠ y := by
        rintro rfl
        exact (List.nodup_cons.mp hnodup).1 (List.mem_of_getLast? hlast)
      refine ⟨hbegin, ih hl.2 hlast (List.nodup_cons.mp hnodup).2 ⟨?_, ?_⟩
        (fun w hw => hnext w (List.mem_cons_of_mem x hw)) fun w hw => hprev w (List.mem_cons_of_mem z hw)⟩
      · exact (hnext x List.mem_cons_self hxy).trans hl.2.1.1
      · exact (hprev z List.mem_cons_self).trans hl.2.1.2

end CSE130
