import CSE130.Lib.Comparator

/-! # The contract of a queue

`Queue` is what the header of a queue promises: its operations, and what a queue contains after each of
them, from head to tail.  A comparator is a function into the integers, of which the signs count; `sort`
promises a permutation, and `Queue.Sorts` that it is sorted where the comparator is one. -/

namespace CSE130

open Comparator

/-- The operations of a queue; `items` is what a queue contains, from head to tail. -/
structure Queue (α : Type) where
  Q : Type
  items : Q → List α
  create : Q
  enqueue : Q → α → Q
  dequeue : Q → Option α × Q
  head : Q → Option α
  size : Q → ℕ
  find : Q → (α → Bool) → Option α
  sort : Q → (α → α → ℤ) → Q
  items_create : items create = []
  items_enqueue : ∀ q x, items (enqueue q x) = items q ++ [x]
  fst_dequeue : ∀ q, (dequeue q).1 = (items q).head?
  items_dequeue : ∀ q, items (dequeue q).2 = (items q).tail
  head_eq : ∀ q, head q = (items q).head?
  size_eq : ∀ q, size q = (items q).length
  find_eq : ∀ q f, find q f = (items q).find? f
  items_sort : ∀ q f, (items (sort q f)).Perm (items q)

/-- `sort` sorts. -/
def Queue.Sorts {α : Type} (lib : Queue α) : Prop :=
  ∀ q f, Consistent f (lib.items q) → (lib.items (lib.sort q f)).Pairwise fun a b => f a b ≤ 0

/-- Lists are queues. -/
def listQueue (α : Type) : Queue α where
  Q := List α
  items q := q
  create := []
  enqueue q x := q ++ [x]
  dequeue q := (q.head?, q.tail)
  head q := q.head?
  size q := q.length
  find q f := q.find? f
  sort q f := q.insertionSort fun a b => f a b ≤ 0
  items_create := rfl
  items_enqueue _ _ := rfl
  fst_dequeue _ := rfl
  items_dequeue _ := rfl
  head_eq _ := rfl
  size_eq _ := rfl
  find_eq _ _ := rfl
  items_sort q _ := List.perm_insertionSort _ q

theorem listQueue_sorts (α : Type) : (listQueue α).Sorts := fun _ _ h => h.pairwise_insertionSort

end CSE130
