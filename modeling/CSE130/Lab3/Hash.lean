import CSE130.Lib.Buckets
import Mathlib.Order.Defs.Unbundled
import Mathlib.Data.List.Flatten
import Mathlib.Data.List.Induction
import Mathlib.Data.Nat.Bits
import Mathlib.Algebra.Ring.Nat

/-! # The hash table

The chains are lists of elements.  An element is a structure of the caller with a `hash_elem` in it,
so that no count of elements or buckets reaches `2 ^ 32`; `hash` and `less` are the functions that
the table was made with.  `alloc` says for each call whether the `malloc` in `rehash` succeeds.

`hash_finite_set` states what the table is for: after any calls it holds the set that the calls
describe, with at most one element of each class of `less`, and finds and lists its elements. -/

namespace CSE130.Lab3

open Representatives

structure Hash (α : Type*) where
  elemCnt : ℕ
  bucketCnt : ℕ
  buckets : List (List α)

variable {α : Type*}

/-! ### Powers of two -/

def turnOffLeastOneBit (x : ℕ) : ℕ := x &&& (x - 1)

def isPowerOfTwo (x : ℕ) : Bool := x ≠ 0 ∧ turnOffLeastOneBit x = 0

theorem turnOffLeastOneBit_lt {x : ℕ} (hx : x ≠ 0) : turnOffLeastOneBit x < x :=
  Nat.lt_of_le_of_lt Nat.and_le_right (Nat.sub_one_lt hx)

/-- The loop of `rehash` that makes the number of buckets a power of two. -/
def roundToPower (x : ℕ) (hx : x ≠ 0) : ℕ :=
  if h : isPowerOfTwo x then x
  else roundToPower (turnOffLeastOneBit x) fun h0 => h (by simp [isPowerOfTwo, hx, h0])
termination_by x
decreasing_by exact turnOffLeastOneBit_lt hx

/-- If there is another bit, the highest bit stays. -/
theorem testBit_turnOffLeastOneBit {x : ℕ} (hx : x ≠ 0) (h : x ≠ 2 ^ x.log2) :
    (turnOffLeastOneBit x).testBit x.log2 = true := by
  have hle : 2 ^ x.log2 ≤ x - 1 := by
    have := Nat.log2_self_le hx
    omega
  have hlt : x < 2 ^ (x.log2 + 1) := Nat.lt_log2_self
  have hlog : (x - 1).log2 = x.log2 := by
    refine (Nat.log2_eq_iff ?_).mpr ⟨hle, by omega⟩
    have := Nat.two_pow_pos x.log2
    omega
  rw [turnOffLeastOneBit, Nat.testBit_and, Nat.testBit_log2 hx, Bool.true_and, ← hlog]
  refine Nat.testBit_log2 ?_
  have := Nat.two_pow_pos x.log2
  omega

theorem roundToPower_eq (x : ℕ) (hx : x ≠ 0) : roundToPower x hx = 2 ^ x.log2 := by
  induction x, hx using roundToPower.induct with
  | case1 x hx h =>
      rw [roundToPower, dif_pos h]
      by_contra hne
      have hbit := testBit_turnOffLeastOneBit hx hne
      simp only [isPowerOfTwo, decide_eq_true_iff] at h
      rw [h.2, Nat.zero_testBit] at hbit
      cases hbit
  | case2 x hx h ih =>
      rw [roundToPower, dif_neg h, ih]
      have hne : turnOffLeastOneBit x ≠ 0 := fun h0 => h (by simp [isPowerOfTwo, hx, h0])
      have hx' : x ≠ 2 ^ x.log2 := by
        intro hpow
        have hzero : turnOffLeastOneBit (2 ^ x.log2) = 0 := by
          rw [turnOffLeastOneBit, Nat.and_two_pow_sub_one_eq_mod, Nat.mod_self]
        rw [← hpow] at hzero
        exact hne hzero
      congr 1
      refine (Nat.log2_eq_iff hne).mpr ⟨?_, ?_⟩
      · exact Nat.ge_two_pow_of_testBit (testBit_turnOffLeastOneBit hx hx')
      · exact (turnOffLeastOneBit_lt hx).trans Nat.lt_log2_self

/-- The number of buckets that `rehash` wants. -/
def newBucketCnt (elemCnt : ℕ) : ℕ :=
  if h : elemCnt / 2 < 4 then 4 else roundToPower (elemCnt / 2) (by omega)

theorem newBucketCnt_eq (n : ℕ) : ∃ k, 2 ≤ k ∧ newBucketCnt n = 2 ^ k := by
  unfold newBucketCnt
  split
  · exact ⟨2, le_rfl, rfl⟩
  · rename_i h
    refine ⟨(n / 2).log2, ?_, roundToPower_eq ..⟩
    exact (Nat.le_log2 (by omega)).mpr (by omega)

/-! ### The operations -/

section operations

variable (hash : α → UInt32) (less : α → α → Bool)

/-- `hash_init`, with memory for the buckets. -/
def hashInit : Hash α := ⟨0, 4, List.replicate 4 []⟩

/-- The number of the bucket. -/
def findBucket (h : Hash α) (e : α) : ℕ := (hash e).toNat &&& (h.bucketCnt - 1)

def Hash.bucket (h : Hash α) (i : ℕ) : List α := h.buckets.getD i []

def findElem (e : α) : List α → Option α
  | [] => none
  | hi :: bucket => if !less hi e && !less e hi then some hi else findElem e bucket

def insertElem (h : Hash α) (i : ℕ) (e : α) : Hash α :=
  { h with elemCnt := h.elemCnt + 1, buckets := Buckets.push h.buckets i e }

/-- `list_remove` takes the element out of the list that it is in. -/
def removeElem [DecidableEq α] (h : Hash α) (e : α) : Hash α :=
  { h with elemCnt := h.elemCnt - 1, buckets := Buckets.remove h.buckets e }

def rehash (alloc : Bool) (h : Hash α) : Hash α :=
  let n := newBucketCnt h.elemCnt
  if n = h.bucketCnt then h
  else if alloc then
    let installed := { h with bucketCnt := n, buckets := List.replicate n [] }
    h.buckets.foldl (fun h bucket => bucket.foldl
      (fun h e => { h with buckets := Buckets.push h.buckets (findBucket hash h e) e }) h) installed
  else h

def hashFind (h : Hash α) (e : α) : Option α := findElem less e (h.bucket (findBucket hash h e))

def hashInsert (alloc : Bool) (h : Hash α) (new : α) : Hash α × Option α :=
  let bucket := findBucket hash h new
  let old := findElem less new (h.bucket bucket)
  (rehash hash alloc (if old.isNone then insertElem h bucket new else h), old)

variable [DecidableEq α]

def hashReplace (alloc : Bool) (h : Hash α) (new : α) : Hash α × Option α :=
  let bucket := findBucket hash h new
  let old := findElem less new (h.bucket bucket)
  let h := match old with
    | some old => removeElem h old
    | none => h
  (rehash hash alloc (insertElem h bucket new), old)

def hashDelete (alloc : Bool) (h : Hash α) (e : α) : Hash α × Option α :=
  match findElem less e (h.bucket (findBucket hash h e)) with
  | some found => (rehash hash alloc (removeElem h found), some found)
  | none => (h, none)

end operations

/-! ### Iterators -/

/-- Where an iterator is in its bucket; `none` is the null pointer at the end of the table. -/
inductive Cursor (α : Type*) where
  | head
  | elem (e : α)
  | none

structure HashIterator (α : Type*) where
  bucket : ℕ
  elem : Cursor α

def hashFirst : HashIterator α := ⟨0, .head⟩

/-- The while loop of `hash_next` at the end of the bucket `b`. -/
def nextBucket (h : Hash α) (b : ℕ) : HashIterator α :=
  if b + 1 ≥ h.bucketCnt then ⟨b + 1, .none⟩
  else
    match (h.bucket (b + 1)).head? with
    | some e => ⟨b + 1, .elem e⟩
    | none => nextBucket h (b + 1)
termination_by h.bucketCnt - b

/-- `list_next`; `none` is `list_end`. -/
def listNext [DecidableEq α] (bucket : List α) : Cursor α → Option α
  | .head => bucket.head?
  | .elem e => ((bucket.dropWhile fun x => x ≠ e).drop 1).head?
  | .none => none

def hashNext [DecidableEq α] (h : Hash α) (i : HashIterator α) : HashIterator α :=
  match listNext (h.bucket i.bucket) i.elem with
  | some e => { i with elem := .elem e }
  | none => nextBucket h i.bucket

/-- The loop `while (hash_next (&i))`: the elements that it comes to, unless it goes on for longer
than `fuel`. -/
def visit [DecidableEq α] (h : Hash α) : ℕ → HashIterator α → Option (List α)
  | 0, _ => none
  | fuel + 1, i =>
      match (hashNext h i).elem with
      | .elem e => (visit h fuel (hashNext h i)).map (e :: ·)
      | _ => some []

/-! ### The table as a set -/

/-- The elements in the table, in the order in which they are visited. -/
def Hash.elements (h : Hash α) : List α := h.buckets.flatten

/-- What holds of the table between two calls. -/
structure Table (hash : α → UInt32) (h : Hash α) : Prop where
  length : h.buckets.length = h.bucketCnt
  power : ∃ k, 2 ≤ k ∧ h.bucketCnt = 2 ^ k
  placed : Buckets.Placed (findBucket hash h) h.buckets
  count : h.elemCnt = h.elements.length
  nodup : h.elements.Nodup

variable {hash : α → UInt32} {less : α → α → Bool} {h : Hash α} {e x y : α} {b : List α}
  {alloc : Bool}

/-- Neither element is less than the other. -/
def Alike (less : α → α → Bool) (x y : α) : Prop := less x y = false ∧ less y x = false

theorem Alike.symm (hxy : Alike less x y) : Alike less y x := ⟨hxy.2, hxy.1⟩

theorem findElem_eq_some (hf : findElem less e b = some x) : x ∈ b ∧ Alike less x e := by
  induction b with
  | nil => cases hf
  | cons y b ih =>
      rw [findElem] at hf
      split at hf
      · rename_i hy
        rw [Bool.and_eq_true, Bool.not_eq_true', Bool.not_eq_true'] at hy
        obtain rfl := Option.some.inj hf
        exact ⟨List.mem_cons_self, hy⟩
      · exact ⟨List.mem_cons_of_mem y (ih hf).1, (ih hf).2⟩

theorem findElem_eq_none (hf : findElem less e b = none) : ∀ x ∈ b, ¬ Alike less x e := by
  induction b with
  | nil => nofun
  | cons y b ih =>
      rw [findElem] at hf
      split at hf
      · cases hf
      · rename_i hy
        rintro x hx halike
        obtain rfl | hx := List.mem_cons.mp hx
        · exact hy (by rw [halike.1, halike.2]; rfl)
        · exact ih hf x hx halike

theorem Table.findBucket_lt (ht : Table hash h) (e : α) : findBucket hash h e < h.buckets.length := by
  obtain ⟨k, -, hk⟩ := ht.power
  have hpos : 0 < h.bucketCnt := hk ▸ Nat.two_pow_pos k
  rw [ht.length]
  exact Nat.lt_of_le_of_lt Nat.and_le_right (Nat.sub_one_lt hpos.ne')

theorem hashInit_table : Table hash (hashInit : Hash α) where
  length := rfl
  power := ⟨2, le_rfl, rfl⟩
  placed := Buckets.placed_replicate 4
  count := rfl
  nodup := List.nodup_nil

theorem foldl_push (l : List α) : ∀ g : Hash α,
    l.foldl (fun g e => { g with buckets := Buckets.push g.buckets (findBucket hash g e) e }) g =
      { g with buckets := Buckets.spread (findBucket hash g) g.buckets l } := by
  induction l with
  | nil => exact fun _ => rfl
  | cons x l ih =>
      intro g
      rw [List.foldl_cons, ih]
      rfl

/-- `rehash` moves the elements, or leaves all as it is. -/
theorem Table.rehash (ht : Table hash h) :
    Table hash (rehash hash alloc h) ∧ (rehash hash alloc h).elements.Perm h.elements := by
  unfold Lab3.rehash
  dsimp only
  split
  · exact ⟨ht, List.Perm.refl _⟩
  cases alloc with
  | false => exact ⟨ht, List.Perm.refl _⟩
  | true =>
      rw [if_pos rfl, ← List.foldl_flatten, foldl_push]
      obtain ⟨k, hk, hn⟩ := newBucketCnt_eq h.elemCnt
      generalize newBucketCnt h.elemCnt = n at hn ⊢
      have hpos : 0 < n := hn ▸ Nat.two_pow_pos k
      have hlt : ∀ e ∈ h.buckets.flatten,
          (hash e).toNat &&& (n - 1) < (List.replicate n ([] : List α)).length := fun e _ => by
        rw [List.length_replicate]
        exact Nat.lt_of_le_of_lt Nat.and_le_right (Nat.sub_one_lt hpos.ne')
      have hreplicate : Buckets.Placed (fun e => (hash e).toNat &&& (n - 1)) (List.replicate n []) :=
        Buckets.placed_replicate n
      obtain ⟨hplaced, hlength, hperm⟩ := Buckets.spread_placed hreplicate hlt
      have hempty : (List.replicate n ([] : List α)).flatten = [] := by simp
      rw [hempty, List.append_nil] at hperm
      exact ⟨⟨hlength.trans List.length_replicate, ⟨k, hk, hn⟩, hplaced,
        ht.count.trans hperm.length_eq.symm, hperm.nodup_iff.mpr ht.nodup⟩, hperm⟩

theorem Table.insertElem (ht : Table hash h) (hx : x ∉ h.elements) :
    Table hash (insertElem h (findBucket hash h x) x) ∧
      (insertElem h (findBucket hash h x) x).elements.Perm (x :: h.elements) := by
  have hperm := Buckets.flatten_push (x := x) (ht.findBucket_lt x)
  refine ⟨⟨Buckets.length_push.trans ht.length, ht.power, ht.placed.push (ht.findBucket_lt x),
    ?_, ?_⟩, hperm⟩
  · exact (congrArg (· + 1) ht.count).trans hperm.length_eq.symm
  · exact hperm.nodup_iff.mpr (List.nodup_cons.mpr ⟨hx, ht.nodup⟩)

theorem Table.removeElem [DecidableEq α] (ht : Table hash h) (hx : x ∈ h.elements) :
    Table hash (removeElem h x) ∧ (removeElem h x).elements = h.elements.erase x := by
  have herase : (Lab3.removeElem h x).elements = h.elements.erase x :=
    Buckets.flatten_remove ht.nodup
  refine ⟨⟨(List.length_map _).trans ht.length, ht.power, ht.placed.remove, ?_, ?_⟩, herase⟩
  · rw [herase, List.length_erase_of_mem hx, ← ht.count]
    rfl
  · rw [herase]
    exact ht.nodup.erase x

/-! ### What is found -/

/-- The functions of the table agree: `less` is a strict weak order, and elements that are alike
have the same hash value. -/
structure Agree (hash : α → UInt32) (less : α → α → Bool) : Prop where
  order : IsStrictWeakOrder α fun x y => less x y = true
  hash : ∀ x y, Alike less x y → hash x = hash y

theorem Agree.refl (ha : Agree hash less) (x : α) : Alike less x x := by
  have := ha.order
  have hx : ¬ less x x = true := Std.Irrefl.irrefl (r := fun x y => less x y = true) x
  rw [Bool.not_eq_true] at hx
  exact ⟨hx, hx⟩

theorem Agree.trans {z : α} (ha : Agree hash less) (hxy : Alike less x y) (hyz : Alike less y z) :
    Alike less x z := by
  have h := ha.order.incomp_trans x y z
  simp only [Bool.not_eq_true] at h
  exact h hxy hyz

/-- The table holds the set `S`, which has at most one of any elements that are alike. -/
structure Represents (hash : α → UInt32) (less : α → α → Bool) (h : Hash α) (S : Set α) : Prop where
  table : Table hash h
  mem : ∀ x, x ∈ h.elements ↔ x ∈ S
  distinct : Distinct (Alike less) S

variable {S : Set α}

/-- An element that is alike to `e` is in the bucket of `e`. -/
theorem Represents.mem_bucket (ha : Agree hash less) (hr : Represents hash less h S) (hx : x ∈ S)
    (hxe : Alike less x e) : x ∈ h.bucket (findBucket hash h e) := by
  have hbucket : findBucket hash h e = findBucket hash h x := by
    rw [findBucket, findBucket, ha.hash x e hxe]
  rw [hbucket, Hash.bucket, hr.table.placed.mem_iff]
  exact (hr.mem x).mpr hx

/-- **Finding an element**: the one in the set that is alike, if there is one. -/
theorem Represents.hashFind (ha : Agree hash less) (hr : Represents hash less h S) :
    Lab3.hashFind hash less h e = some x ↔ x ∈ S ∧ Alike less x e := by
  have hmem : ∀ y ∈ h.bucket (findBucket hash h e), y ∈ S := fun y hy =>
    (hr.mem y).mp (Buckets.mem_flatten.mpr ⟨_, hy⟩)
  constructor
  · intro hf
    obtain ⟨hx, halike⟩ := findElem_eq_some hf
    exact ⟨hmem x hx, halike⟩
  · rintro ⟨hx, halike⟩
    cases hf : Lab3.hashFind hash less h e with
    | none => exact absurd halike (findElem_eq_none hf x (hr.mem_bucket ha hx halike))
    | some y =>
        obtain ⟨hy, halike'⟩ := findElem_eq_some hf
        rw [hr.distinct.eq (hmem y hy) hx (ha.trans halike' halike.symm)]

theorem Represents.hashFind_eq_none (ha : Agree hash less) (hr : Represents hash less h S) :
    Lab3.hashFind hash less h e = none ↔ ∀ x ∈ S, ¬ Alike less x e := by
  rw [Option.eq_none_iff_forall_ne_some]
  simp only [ne_eq, hr.hashFind ha, not_and]

/-! ### What the calls do -/

theorem Represents.rehash (hr : Represents hash less h S) :
    Represents hash less (rehash hash alloc h) S := by
  obtain ⟨htable, hperm⟩ : Table hash (Lab3.rehash hash alloc h) ∧
    (Lab3.rehash hash alloc h).elements.Perm h.elements := hr.table.rehash
  exact ⟨htable, fun x => hperm.mem_iff.trans (hr.mem x), hr.distinct⟩

theorem Represents.hashInsert (ha : Agree hash less) (hr : Represents hash less h S) :
    Represents hash less (hashInsert hash less alloc h x).1 (add (Alike less) S x) := by
  refine Represents.rehash ?_
  cases hf : findElem less x (h.bucket (findBucket hash h x)) with
  | none =>
      have hnone := (hr.hashFind_eq_none ha).mp hf
      have hx : x ∉ h.elements := fun hx => hnone x ((hr.mem x).mp hx) (ha.refl x)
      obtain ⟨htable, hperm⟩ := hr.table.insertElem hx
      refine ⟨htable, fun y => ?_, hr.distinct.add fun _ _ => Alike.symm⟩
      rw [Option.isNone_none, if_pos rfl, hperm.mem_iff, List.mem_cons, hr.mem]
      constructor
      · rintro (rfl | hy)
        · exact .inr ⟨rfl, hnone⟩
        · exact .inl hy
      · rintro (hy | ⟨rfl, -⟩)
        · exact .inr hy
        · exact .inl rfl
  | some old =>
      obtain ⟨hold, halike⟩ := (hr.hashFind ha).mp hf
      refine ⟨hr.table, fun y => ?_, hr.distinct.add fun _ _ => Alike.symm⟩
      refine (hr.mem y).trans ?_
      exact ⟨.inl, fun hy => hy.elim id fun h => absurd halike (h.2 old hold)⟩

variable [DecidableEq α]

/-- What `remove_elem` leaves of the set when it takes out what was found. -/
theorem Represents.removeElem (ha : Agree hash less) (hr : Represents hash less h S)
    (hf : Lab3.hashFind hash less h e = some x) :
    Represents hash less (removeElem h x) (drop (Alike less) S e) := by
  obtain ⟨hx, halike⟩ := (hr.hashFind ha).mp hf
  obtain ⟨htable, herase⟩ := hr.table.removeElem ((hr.mem x).mpr hx)
  refine ⟨htable, fun y => ?_, hr.distinct.drop⟩
  rw [herase, hr.table.nodup.mem_erase_iff, hr.mem]
  constructor
  · rintro ⟨hne, hy⟩
    exact ⟨hy, fun hye => hne (hr.distinct.eq hy hx (ha.trans hye halike.symm))⟩
  · rintro ⟨hy, hye⟩
    exact ⟨fun hyx => hye (hyx ▸ halike), hy⟩

omit [DecidableEq α] in
theorem drop_eq_self (hnone : ∀ x ∈ S, ¬ Alike less x e) : drop (Alike less) S e = S :=
  Set.ext fun x => ⟨fun h => h.1, fun h => ⟨h, hnone x h⟩⟩

theorem Represents.hashReplace (ha : Agree hash less) (hr : Represents hash less h S) :
    Represents hash less (hashReplace hash less alloc h x).1 (replace (Alike less) S x) := by
  refine Represents.rehash ?_
  -- the bucket was chosen before the removal, which leaves the number of buckets as it is
  have hinsert : ∀ {g : Hash α}, findBucket hash g x = findBucket hash h x →
      Represents hash less g (drop (Alike less) S x) →
      Represents hash less (insertElem g (findBucket hash h x) x) (replace (Alike less) S x) := by
    intro g hbucket hg
    have hx : x ∉ g.elements := fun hx => ((hg.mem x).mp hx).2 (ha.refl x)
    rw [← hbucket]
    obtain ⟨htable, hperm⟩ := hg.table.insertElem hx
    refine ⟨htable, fun y => ?_, hr.distinct.replace fun _ _ => Alike.symm⟩
    rw [hperm.mem_iff, List.mem_cons, hg.mem]
    rfl
  cases hf : findElem less x (h.bucket (findBucket hash h x)) with
  | none =>
      refine hinsert rfl ?_
      rwa [drop_eq_self ((hr.hashFind_eq_none ha).mp hf)]
  | some old => exact hinsert rfl (hr.removeElem ha hf)

theorem Represents.hashDelete (ha : Agree hash less) (hr : Represents hash less h S) :
    Represents hash less (hashDelete hash less alloc h e).1 (drop (Alike less) S e) := by
  unfold Lab3.hashDelete
  cases hf : findElem less e (h.bucket (findBucket hash h e)) with
  | none => rwa [drop_eq_self ((hr.hashFind_eq_none ha).mp hf)]
  | some found => exact (hr.removeElem ha hf).rehash

/-- A call, and whether the allocation in its `rehash` succeeds. -/
inductive HashCall (α : Type*) where
  | insert (new : α) (alloc : Bool)
  | replace (new : α) (alloc : Bool)
  | delete (e : α) (alloc : Bool)
  | find (e : α)

/-- The table after a call, and what the call returns. -/
def HashCall.run (hash : α → UInt32) (less : α → α → Bool) (h : Hash α) :
    HashCall α → Hash α × Option α
  | .insert new alloc => hashInsert hash less alloc h new
  | .replace new alloc => hashReplace hash less alloc h new
  | .delete e alloc => hashDelete hash less alloc h e
  | .find e => (h, hashFind hash less h e)

/-- The element that a call looks for. -/
def HashCall.key : HashCall α → α
  | .insert new _ => new
  | .replace new _ => new
  | .delete e _ => e
  | .find e => e

/-- What a call is for. -/
def HashCall.meaning (less : α → α → Bool) (S : Set α) : HashCall α → Set α
  | .insert new _ => add (Alike less) S new
  | .replace new _ => Representatives.replace (Alike less) S new
  | .delete e _ => drop (Alike less) S e
  | .find _ => S

variable {c : HashCall α}

/-- **One call.** -/
theorem Represents.call (ha : Agree hash less) (hr : Represents hash less h S) (c : HashCall α) :
    Represents hash less (c.run hash less h).1 (c.meaning less S) := by
  cases c with
  | insert new alloc => exact hr.hashInsert ha
  | replace new alloc => exact hr.hashReplace ha
  | delete e alloc => exact hr.hashDelete ha
  | find e => exact hr

/-- Every call returns the element that was alike to its own. -/
theorem Represents.call_returns (ha : Agree hash less) (hr : Represents hash less h S)
    (c : HashCall α) : (c.run hash less h).2 = some x ↔ x ∈ S ∧ Alike less x c.key := by
  rw [← hr.hashFind ha]
  cases c with
  | insert new alloc => rfl
  | replace new alloc => rfl
  | find e => rfl
  | delete e alloc =>
      simp only [HashCall.run, Lab3.hashDelete, Lab3.hashFind, HashCall.key]
      cases findElem less e (h.bucket (findBucket hash h e)) <;> rfl

/-! ### Traversal -/

/-- The iterator has still to come to the elements `l`. -/
def Ahead (h : Hash α) (i : HashIterator α) (l : List α) : Prop :=
  ∃ post, l = post ++ (h.buckets.drop (i.bucket + 1)).flatten ∧
    match i.elem with
    | .head => post = h.bucket i.bucket
    | .elem e => ∃ pre, h.bucket i.bucket = pre ++ e :: post
    | .none => False

/-- The iterator stands on the first of the elements `l`, or at the end of the table. -/
def At (h : Hash α) (i : HashIterator α) : List α → Prop
  | [] => i.elem = .none
  | e :: l => i.elem = .elem e ∧ Ahead h i l

variable {l : List α} {i : HashIterator α}

omit [DecidableEq α] in
theorem flatten_drop (b : ℕ) : (h.buckets.drop b).flatten =
    h.bucket b ++ (h.buckets.drop (b + 1)).flatten := by
  by_cases hb : b < h.buckets.length
  · rw [List.drop_eq_getElem_cons hb, List.flatten_cons, Hash.bucket, List.getD_eq_getElem _ _ hb]
  · rw [Hash.bucket, List.getD_eq_default _ _ (by omega), List.drop_eq_nil_of_le (by omega),
      List.drop_eq_nil_of_le (by omega)]
    rfl

omit [DecidableEq α] in
theorem nextBucket_at (ht : Table hash h) (b : ℕ) :
    At h (nextBucket h b) (h.buckets.drop (b + 1)).flatten := by
  induction b using nextBucket.induct h with
  | case1 b hb =>
      rw [nextBucket, if_pos hb, List.drop_eq_nil_of_le (by rw [ht.length]; exact hb)]
      rfl
  | case2 b hb e he =>
      obtain ⟨post, hpost⟩ := List.head?_eq_some_iff.mp he
      have hnext : nextBucket h b = ⟨b + 1, .elem e⟩ := by
        rw [nextBucket, if_neg hb, he]
      rw [flatten_drop, hpost, hnext]
      exact ⟨rfl, post, rfl, [], hpost⟩
  | case3 b hb he ih =>
      have hnext : nextBucket h b = nextBucket h (b + 1) := by
        rw [nextBucket, if_neg hb, he]
      rw [flatten_drop, List.head?_eq_none_iff.mp he, List.nil_append, hnext]
      exact ih

/-- The elements of a bucket that come after `e`. -/
theorem listNext_elem {pre post : List α} (hnodup : (pre ++ e :: post).Nodup) :
    listNext (pre ++ e :: post) (.elem e) = post.head? := by
  have hpre : e ∉ pre := fun he =>
    (List.nodup_append.mp hnodup).2.2 e he e List.mem_cons_self rfl
  have hall : ∀ x ∈ pre, decide (x ≠ e) = true := fun x hx =>
    decide_eq_true fun hxe => hpre (hxe ▸ hx)
  rw [listNext, List.dropWhile_append_of_pos hall, List.dropWhile_cons_of_neg (by simp)]
  rfl

omit [DecidableEq α] in
theorem Table.bucket_nodup (ht : Table hash h) (b : ℕ) : (h.bucket b).Nodup := by
  have hdrop : (h.buckets.drop b).flatten.Nodup :=
    ht.nodup.sublist (List.drop_sublist b h.buckets).flatten
  rw [flatten_drop] at hdrop
  exact (List.nodup_append.mp hdrop).1

theorem hashNext_at (ht : Table hash h) (hi : Ahead h i l) : At h (hashNext h i) l := by
  obtain ⟨post, rfl, hpost⟩ := hi
  have hnext : listNext (h.bucket i.bucket) i.elem = post.head? ∧
      ∃ pre, h.bucket i.bucket = pre ++ post := by
    obtain ⟨b, elem⟩ := i
    cases elem with
    | head => exact ⟨congrArg List.head? hpost.symm, [], hpost.symm⟩
    | none => exact hpost.elim
    | elem e =>
        obtain ⟨pre, hpre⟩ := hpost
        have hnodup := ht.bucket_nodup b
        refine ⟨?_, pre ++ [e], by simpa using hpre⟩
        rw [hpre] at hnodup ⊢
        exact listNext_elem hnodup
  obtain ⟨hlist, pre, hpre⟩ := hnext
  cases post with
  | nil =>
      have hend : hashNext h i = nextBucket h i.bucket := by
        rw [hashNext, hlist]
        rfl
      rw [hend]
      exact nextBucket_at ht i.bucket
  | cons e post =>
      have hin : hashNext h i = { i with elem := .elem e } := by
        rw [hashNext, hlist]
        rfl
      rw [hin]
      exact ⟨rfl, post, rfl, pre, hpre⟩

theorem visit_eq (ht : Table hash h) : ∀ (l : List α) (i : HashIterator α) (fuel : ℕ),
    Ahead h i l → l.length < fuel → visit h fuel i = some l := by
  intro l
  induction l with
  | nil =>
      intro i fuel hi hfuel
      obtain ⟨fuel, rfl⟩ := Nat.exists_eq_succ_of_ne_zero (Nat.pos_iff_ne_zero.mp hfuel)
      have hnext : (hashNext h i).elem = .none := hashNext_at ht hi
      rw [visit, hnext]
  | cons e l ih =>
      intro i fuel hi hfuel
      obtain ⟨fuel, rfl⟩ := Nat.exists_eq_succ_of_ne_zero (by omega : fuel ≠ 0)
      obtain ⟨helem, hnext⟩ := hashNext_at ht hi
      rw [visit, helem]
      simp only
      rw [ih _ fuel hnext (Nat.lt_of_succ_lt_succ hfuel)]
      rfl

/-- A traversal comes to the elements in the order of the buckets. -/
theorem visit_first (ht : Table hash h) {fuel : ℕ} (hfuel : h.elemCnt < fuel) :
    visit h fuel hashFirst = some h.elements := by
  refine visit_eq ht h.elements hashFirst fuel ⟨h.bucket 0, ?_, rfl⟩ (ht.count ▸ hfuel)
  have := flatten_drop (h := h) 0
  rwa [List.drop_zero] at this

/-! ### The table as a finite set -/

/-- The table `h` is the set `S`: where its elements are, what it counts, what calls return and what
a traversal comes to. -/
structure FiniteSet (hash : α → UInt32) (less : α → α → Bool) (h : Hash α) (S : Set α) : Prop where
  placed : ∀ i, ∀ e ∈ h.bucket i, findBucket hash h e = i
  distinct : h.elements.Pairwise fun x y => ¬ Alike less x y
  count : h.elemCnt = h.elements.length
  length : h.buckets.length = h.bucketCnt
  power : (∃ k, h.bucketCnt = 2 ^ k) ∧ 4 ≤ h.bucketCnt
  mem : ∀ x, x ∈ h.elements ↔ x ∈ S
  find : ∀ e x, hashFind hash less h e = some x ↔ x ∈ S ∧ Alike less x e
  returns : ∀ (c : HashCall α) x, (c.run hash less h).2 = some x ↔ x ∈ S ∧ Alike less x c.key
  traversal : ∀ fuel, h.elemCnt < fuel → ∃ l, visit h fuel hashFirst = some l ∧ l.Nodup ∧
    ∀ x, x ∈ l ↔ x ∈ S

theorem Represents.finiteSet (ha : Agree hash less) (hr : Represents hash less h S) :
    FiniteSet hash less h S where
  placed := hr.table.placed
  distinct := by
    refine hr.table.nodup.imp_of_mem fun {x y} hx hy hne halike => hne ?_
    exact hr.distinct.eq ((hr.mem x).mp hx) ((hr.mem y).mp hy) halike
  count := hr.table.count
  length := hr.table.length
  power := by
    obtain ⟨k, hk, hpow⟩ := hr.table.power
    exact ⟨⟨k, hpow⟩, hpow ▸ Nat.pow_le_pow_right Nat.two_pos hk⟩
  mem := hr.mem
  find _ _ := hr.hashFind ha
  returns c _ := hr.call_returns ha c
  traversal _ hfuel := ⟨h.elements, visit_first hr.table hfuel, hr.table.nodup, hr.mem⟩

/-- The table after some calls. -/
def runCalls (hash : α → UInt32) (less : α → α → Bool) (calls : List (HashCall α)) : Hash α :=
  calls.foldl (fun h c => (c.run hash less h).1) hashInit

theorem represents_runCalls (ha : Agree hash less) (calls : List (HashCall α)) :
    Represents hash less (runCalls hash less calls)
      (calls.foldl (HashCall.meaning less) ∅) := by
  induction calls using List.reverseRecOn with
  | nil => exact ⟨hashInit_table, fun x => by simp [runCalls, hashInit, Hash.elements],
      Set.pairwise_empty _⟩
  | append_singleton calls c ih =>
      rw [runCalls, List.foldl_append, List.foldl_append]
      exact ih.call ha c

/-- **The hash table is a finite set**, after any calls and whatever allocations fail. -/
theorem hash_finite_set (ha : Agree hash less) (calls : List (HashCall α)) :
    FiniteSet hash less (runCalls hash less calls) (calls.foldl (HashCall.meaning less) ∅) :=
  (represents_runCalls ha calls).finiteSet ha

/-- A hash function for numbers. -/
def lastDigit (n : ℕ) : UInt32 := (n % 10).toUInt32

theorem agree_lastDigit : Agree lastDigit fun m n => decide (m < n) where
  order :=
    { irrefl := by simp
      trans := by
        simp only [decide_eq_true_iff]
        exact fun _ _ _ => Nat.lt_trans
      incomp_trans := by
        simp only [decide_eq_true_iff]
        omega }
  hash x y h := by
    obtain ⟨hxy, hyx⟩ := h
    rw [decide_eq_false_iff_not] at hxy hyx
    rw [show x = y by omega]

theorem hash_finite_set_three :
    let less : ℕ → ℕ → Bool := fun m n => decide (m < n)
    let calls : List (HashCall ℕ) := [.insert 17 true, .replace 7 false, .delete 17 true]
    FiniteSet lastDigit less (runCalls lastDigit less calls)
      (calls.foldl (HashCall.meaning less) ∅) :=
  hash_finite_set agree_lastDigit _

end CSE130.Lab3
