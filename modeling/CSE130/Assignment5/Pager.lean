import CSE130.Lib.Transition
import CSE130.Lib.Queue
import Mathlib.Data.List.Perm.Basic
import Mathlib.Data.List.Nodup
import Mathlib.Tactic.SplitIfs

/-! # The pager of Assignment 5 (`pager.c`)

The simulator calls `pager_request` for every reference to a page.  The pages in physical memory
are in one queue, whatever the algorithm; an `int` is an `Int32`, and its arithmetic wraps around.

The queues are those of `queue.h`, which comes without its source.  A queue is a list, head first, with
the operations of the library's `listQueue`; `QueueSort` is what the header promises of `queue_sort`.  A
pager also keeps what can be seen of it from outside: the calls of `sim_get_page`, and what
`queue_dequeue` returned and `free` got. -/

namespace CSE130.Assignment5

open Transition

/-- `Page`. -/
structure Page where
  pageNum : UInt32
  lastRequest : Int32
  frequency : Int32
deriving DecidableEq

/-- `inner_equalitor`. -/
def innerEqualitor (outer : Page) (inner : UInt32) : Bool := outer.pageNum = inner

/-- `recent_comparator`. -/
def recentComparator (a b : Page) : Int32 := a.lastRequest - b.lastRequest

/-- `freq_comparator`. -/
def freqComparator (a b : Page) : Int32 :=
  let freq := a.frequency - b.frequency
  if freq = 0 ∧ 1 < a.frequency then b.lastRequest - a.lastRequest else freq

/-- The comparator is a comparator on a list: its signs are those of a total preorder. -/
structure Compares (comparator : Page → Page → Int32) (l : List Page) : Prop where
  swap : ∀ a ∈ l, ∀ b ∈ l, comparator a b < 0 ↔ 0 < comparator b a
  trans : ∀ a ∈ l, ∀ b ∈ l, ∀ c ∈ l,
    comparator a b ≤ 0 → comparator b c ≤ 0 → comparator a c ≤ 0

/-- The contract of `queue_sort`. -/
structure QueueSort where
  sort : (Page → Page → Int32) → List Page → List Page
  perm : ∀ comparator q, (sort comparator q).Perm q
  sorted : ∀ comparator q, Compares comparator q →
    (sort comparator q).Pairwise fun a b => comparator a b ≤ 0

theorem Compares.total {comparator : Page → Page → Int32} {l : List Page}
    (h : Compares comparator l) {a b : Page} (ha : a ∈ l) (hb : b ∈ l) :
    comparator a b ≤ 0 ∨ comparator b a ≤ 0 := by
  rcases Int32.le_total (comparator a b) 0 with hle | hle
  · exact .inl hle
  · by_cases hzero : comparator a b = 0
    · exact .inl (hzero ▸ Int32.le_refl 0)
    · exact .inr (Int32.le_of_lt ((h.swap b hb a ha).mpr
        (Int32.lt_of_le_of_ne hle fun h => hzero h.symm)))

/-- `queue_sort` may be a merge sort. -/
def QueueSort.mergeSort : QueueSort where
  sort comparator q := (q.attach.mergeSort fun a b => comparator a b ≤ 0).map Subtype.val
  perm comparator q := by
    have h := (List.mergeSort_perm q.attach fun a b => decide (comparator a b ≤ 0)).map Subtype.val
    rwa [List.attach_map_subtype_val] at h
  sorted comparator q h := by
    let le (a b : { x // x ∈ q }) : Bool := comparator a.1 b.1 ≤ 0
    have htrans : ∀ a b c, le a b = true → le b c = true → le a c = true := fun a b c hab hbc =>
      decide_eq_true (h.trans a.1 a.2 b.1 b.2 c.1 c.2 (of_decide_eq_true hab) (of_decide_eq_true hbc))
    have htotal : ∀ a b, (le a b || le b a) = true := fun a b => by
      simpa [le] using h.total a.2 b.2
    have hsorted := List.pairwise_mergeSort htrans htotal q.attach
    exact List.pairwise_map.mpr (hsorted.imp of_decide_eq_true)

/-- `enum algorithm`. -/
inductive Algorithm where
  | firstInFirstOut
  | leastRecentlyUsed
  | leastFrequentlyUsed
  | secondChance
  | circularQueue
deriving DecidableEq

/-- `page_queue`, and what has happened so far, oldest first. -/
structure Pager where
  pageQueue : List Page
  got : List UInt32
  dequeued : List (Option Page)
  freed : List Page

/-- `pager_init`. -/
def pagerInit : Pager := ⟨[], [], [], []⟩

/-- Write to the page that `queue_find` finds for `inner_equalitor`. -/
def writeFound (page : UInt32) (f : Page → Page) : List Page → List Page
  | [] => []
  | p :: q => if innerEqualitor p page then f p :: q else p :: writeFound page f q

namespace Pager

variable (st : Pager) (page : UInt32)

/-- `queue_find (page_queue, inner_equalitor, &page)`. -/
def find : Option Page := (listQueue Page).find st.pageQueue fun p => innerEqualitor p page

/-- Write to the page found. -/
def modify (f : Page → Page) : Pager := { st with pageQueue := writeFound page f st.pageQueue }

/-- `sim_get_page`. -/
def simGetPage : Pager := { st with got := st.got ++ [page] }

/-- `queue_enqueue`. -/
def enqueue (p : Page) : Pager := { st with pageQueue := (listQueue Page).enqueue st.pageQueue p }

/-- `queue_dequeue`; `none` is a null pointer. -/
def dequeue : Option Page × Pager :=
  let (p, q) := (listQueue Page).dequeue st.pageQueue
  (p, { st with pageQueue := q, dequeued := st.dequeued ++ [p] })

theorem find_eq : st.find page = st.pageQueue.find? fun p => innerEqualitor p page := rfl

theorem enqueue_eq (p : Page) : st.enqueue p = { st with pageQueue := st.pageQueue ++ [p] } := rfl

theorem dequeue_eq : st.dequeue = (st.pageQueue.head?,
    { st with pageQueue := st.pageQueue.tail, dequeued := st.dequeued ++ [st.pageQueue.head?] }) := rfl

/-- `queue_sort`. -/
def sort (lib : QueueSort) (comparator : Page → Page → Int32) : Pager :=
  { st with pageQueue := lib.sort comparator st.pageQueue }

/-- `free`; there is nothing to free at a null pointer. -/
def free (p : Option Page) : Pager := { st with freed := st.freed ++ p.toList }

/-- The page at the head of the queue is released. -/
def release : Pager := st.dequeue.2.free st.dequeue.1

/-- A page is released unless a frame is free. -/
def makeRoom (frame : ℕ) : Pager := if frame ≤ st.pageQueue.length then st.release else st

theorem head_append_tail {α : Type} (l : List α) : l.head?.toList ++ l.tail = l := by
  cases l <;> rfl

/-- The loop of the two clock algorithms, with `check` just dequeued; `none` if `check` is a null
pointer. -/
def sweep (check : Option Page) (st : Pager) : Option Pager :=
  match check with
  | none => none
  | some p =>
      if p.lastRequest = 1 then
        let st := st.enqueue { p with lastRequest := 0 }
        sweep st.dequeue.1 st.dequeue.2
      else some (st.free (some p))
termination_by (check.toList ++ st.pageQueue).countP fun p => p.lastRequest = 1
decreasing_by
  -- a set bit is cleared, and the pages are the same
  rename_i hbit
  simp only [dequeue_eq, enqueue_eq, head_append_tail]
  simp [hbit]

/-- A new page of the clock algorithms; `calloc` returns zeros. -/
def clockRequest (frame : ℕ) (bit : Int32) : Option Pager :=
  match st.find page with
  | none =>
      let st := st.simGetPage page
      (if frame ≤ st.pageQueue.length then sweep st.dequeue.1 st.dequeue.2 else some st).map
        fun st => st.enqueue ⟨page, bit, 0⟩
  | some _ => some (st.modify page fun p => { p with lastRequest := 1 })

end Pager

/-- `pager_request`, at the time `now`; `none` is an access through a null pointer. -/
def pagerRequest (lib : QueueSort) (algorithm : Algorithm) (frame : ℕ) (page : UInt32)
    (now : Int32) (st : Pager) : Option Pager :=
  match algorithm with
  | .firstInFirstOut =>
      match st.find page with
      | none =>
          some (((st.simGetPage page).makeRoom frame).enqueue ⟨page, 0, 0⟩)
      | some _ => some st
  | .leastRecentlyUsed =>
      match st.find page with
      | none =>
          some ((((st.simGetPage page).sort lib recentComparator).makeRoom frame).enqueue
            ⟨page, now, 0⟩)
      | some _ => some (st.modify page fun p => { p with lastRequest := now })
  | .leastFrequentlyUsed =>
      match st.find page with
      | none =>
          let st := (st.sort lib freqComparator).simGetPage page
          -- the released page is printed
          if frame ≤ st.pageQueue.length ∧ st.pageQueue = [] then none
          else some (((st.makeRoom frame).enqueue ⟨page, now, 1⟩).sort lib freqComparator)
      | some _ =>
          some (st.modify page fun p =>
            { p with frequency := p.frequency + 1, lastRequest := now })
  | .secondChance => st.clockRequest page frame 0
  | .circularQueue => st.clockRequest page frame 1

/-- A request and the time at which it is made. -/
abbrev Request : Type := UInt32 × Int32

/-- The pager after a list of requests. -/
def pagerRun (lib : QueueSort) (algorithm : Algorithm) (frame : ℕ) (rs : List Request) :
    Option Pager :=
  execute (fun r => pagerRequest lib algorithm frame r.1 r.2) rs pagerInit

/-! ### What a request does -/

/-- The numbers of the pages in memory. -/
def Pager.pages (st : Pager) : List UInt32 := st.pageQueue.map Page.pageNum

variable {st st' : Pager} {page : UInt32} {frame : ℕ} {lib : QueueSort} {now : Int32}
  {f : Page → Page}

theorem find_eq_none : st.find page = none ↔ page ∉ st.pages := by
  simp only [Pager.find_eq, Pager.pages, innerEqualitor, List.find?_eq_none, List.mem_map,
    decide_eq_true_eq, not_exists, not_and]

theorem mem_of_find {p : Page} (h : st.find page = some p) : page ∈ st.pages := by
  by_contra hne
  rw [find_eq_none.mpr hne] at h
  cases h

theorem writeFound_pages (hf : ∀ p, (f p).pageNum = p.pageNum) : ∀ q : List Page,
    (writeFound page f q).map Page.pageNum = q.map Page.pageNum
  | [] => rfl
  | p :: q => by
      rw [writeFound]
      split_ifs
      · rw [List.map_cons, List.map_cons, hf]
      · rw [List.map_cons, List.map_cons, writeFound_pages hf q]

theorem writeFound_of_not_mem : ∀ {q : List Page}, page ∉ q.map Page.pageNum →
    q.map (fun p => if p.pageNum = page then f p else p) = q
  | [], _ => rfl
  | p :: q, h => by
      rw [List.map_cons, List.mem_cons, not_or] at h
      rw [List.map_cons, if_neg (fun hp => h.1 hp.symm), writeFound_of_not_mem h.2]

/-- No page is in the queue twice, so it is the one that is written. -/
theorem writeFound_eq_map : ∀ {q : List Page}, (q.map Page.pageNum).Nodup →
    writeFound page f q = q.map fun p => if p.pageNum = page then f p else p
  | [], _ => rfl
  | p :: q, h => by
      rw [List.map_cons, List.nodup_cons] at h
      rw [writeFound, List.map_cons]
      by_cases hp : p.pageNum = page
      · have hfound : innerEqualitor p page = true := decide_eq_true hp
        rw [if_pos hfound, if_pos hp, writeFound_of_not_mem (hp ▸ h.1)]
      · rw [if_neg (by simpa [innerEqualitor] using hp), if_neg hp, writeFound_eq_map h.2]

/-- What a request for `page` can do: the page is there, or there is a frame left for it, or the
page `victim` makes place. -/
inductive Served (frame : ℕ) (page : UInt32) (st st' : Pager) : Prop
  | hit (hmem : page ∈ st.pages) (pages : st'.pages = st.pages) (got : st'.got = st.got)
      (dequeued : st'.dequeued = st.dequeued) (freed : st'.freed = st.freed)
  | fill (hmem : page ∉ st.pages) (hframe : st.pageQueue.length < frame)
      (pages : st'.pages.Perm (page :: st.pages)) (got : st'.got = st.got ++ [page])
      (dequeued : st'.dequeued = st.dequeued) (freed : st'.freed = st.freed)
  | evict (victim : Page) (rest : List UInt32) (ds : List (Option Page)) (hmem : page ∉ st.pages)
      (hframe : frame ≤ st.pageQueue.length)
      (before : st.pages.Perm (victim.pageNum :: rest)) (pages : st'.pages.Perm (page :: rest))
      (got : st'.got = st.got ++ [page])
      (dequeued : st'.dequeued = st.dequeued ++ ds) (hds : ∀ d ∈ ds, d.isSome)
      (freed : st'.freed = st.freed ++ [victim])

theorem mem_iff_find : page ∈ st.pages ↔ ∃ p, st.find page = some p := by
  constructor
  · intro hmem
    cases hfind : st.find page with
    | none => exact absurd hmem (find_eq_none.mp hfind)
    | some p => exact ⟨p, rfl⟩
  · rintro ⟨p, hp⟩
    exact mem_of_find hp

theorem modify_pages (hf : ∀ p, (f p).pageNum = p.pageNum) :
    (st.modify page f).pages = st.pages := writeFound_pages hf st.pageQueue

theorem enqueue_pages (st : Pager) (p : Page) : (st.enqueue p).pages.Perm (p.pageNum :: st.pages) := by
  simp only [Pager.pages, Pager.enqueue_eq, List.map_append, List.map_singleton]
  exact List.perm_append_singleton _ _

theorem dequeue_eq {p : Page} {q : List Page} (h : st.pageQueue = p :: q) :
    st.dequeue = (some p, ⟨q, st.got, st.dequeued ++ [some p], st.freed⟩) := by
  simp only [Pager.dequeue_eq, h, List.head?_cons, List.tail_cons]

theorem release_eq {p : Page} {q : List Page} (h : st.pageQueue = p :: q) : st.release =
    ⟨q, st.got, st.dequeued ++ [some p], st.freed ++ [p]⟩ := by
  simp only [Pager.release, dequeue_eq h, Pager.free, Option.toList_some]

/-- The head of a queue, which may have been sorted, makes place, if a place must be made. -/
theorem makeRoom_served (st₀ : Pager) (hmem : page ∉ st.pages) (hframe : 1 ≤ frame)
    (hqueue : st₀.pageQueue.Perm st.pageQueue) (got : st₀.got = st.got ++ [page])
    (dequeued : st₀.dequeued = st.dequeued) (freed : st₀.freed = st.freed)
    (hpages : st'.pages.Perm (page :: (st₀.makeRoom frame).pages))
    (hgot : st'.got = (st₀.makeRoom frame).got)
    (hdequeued : st'.dequeued = (st₀.makeRoom frame).dequeued)
    (hfreed : st'.freed = (st₀.makeRoom frame).freed) : Served frame page st st' := by
  have hpages₀ : st₀.pages.Perm st.pages := hqueue.map _
  by_cases hfull : frame ≤ st₀.pageQueue.length
  · obtain ⟨p, q, hq⟩ := List.exists_cons_of_length_pos (Nat.le_trans hframe hfull)
    rw [Pager.makeRoom, if_pos hfull, release_eq hq] at hpages hgot hdequeued hfreed
    refine .evict p (q.map Page.pageNum) [some p] hmem (hqueue.length_eq ▸ hfull) ?_ hpages
      (hgot.trans got) (hdequeued.trans ?_) (by simp) (hfreed.trans ?_)
    · rw [Pager.pages, hq, List.map_cons] at hpages₀
      exact hpages₀.symm
    · exact congrArg (· ++ [some p]) dequeued
    · exact congrArg (· ++ [p]) freed
  · rw [Pager.makeRoom, if_neg hfull] at hpages hgot hdequeued hfreed
    rw [hqueue.length_eq, Nat.not_le] at hfull
    exact .fill hmem hfull (hpages.trans (hpages₀.cons page)) (hgot.trans got)
      (hdequeued.trans dequeued) (hfreed.trans freed)

/-- The loop ends: it frees one of the pages, after as many turns as there are set bits. -/
theorem sweep_spec (p : Page) (st : Pager) : ∃ st' victim ds,
    Pager.sweep (some p) st = some st' ∧
    ((p :: st.pageQueue).map Page.pageNum).Perm (victim.pageNum :: st'.pages) ∧
    st'.got = st.got ∧ st'.dequeued = st.dequeued ++ ds ∧ (∀ d ∈ ds, d.isSome) ∧
    ds.length ≤ (p :: st.pageQueue).countP (fun p => p.lastRequest = 1) ∧
    st'.freed = st.freed ++ [victim] := by
  generalize hcheck : some p = check
  fun_induction Pager.sweep check st generalizing p with
  | case1 => cases hcheck
  | case2 st p' hbit st₁ ih =>
      -- the page goes to the tail with its bit cleared, and the next one is looked at
      obtain rfl : p = p' := Option.some.inj hcheck
      have hne : st₁.pageQueue ≠ [] := by simp [st₁, Pager.enqueue_eq]
      obtain ⟨next, q, hq⟩ := List.exists_cons_of_ne_nil hne
      have hqueue : next :: q = st.pageQueue ++ [{ p with lastRequest := 0 }] := hq.symm
      rw [dequeue_eq hq] at ih ⊢
      obtain ⟨st', victim, ds, hs, hpages, hgot, hdeq, hds, hlen, hfreed⟩ := ih next rfl
      refine ⟨st', victim, some next :: ds, hs, ?_, hgot, ?_, ?_, ?_, hfreed⟩
      · rw [hqueue, List.map_append] at hpages
        rw [List.map_cons]
        exact (List.perm_append_singleton _ _).symm.trans hpages
      · rw [hdeq, List.append_assoc]
        rfl
      · simpa using hds
      · rw [hqueue, List.countP_append] at hlen
        rw [List.countP_cons_of_pos (by simpa using hbit)]
        simpa using hlen
  | case3 st p' hbit =>
      obtain rfl : p = p' := Option.some.inj hcheck
      exact ⟨_, p, [], rfl, .refl _, rfl, (List.append_nil _).symm, by simp, Nat.zero_le _, rfl⟩

theorem clockRequest_hit {bit : Int32} (hmem : page ∈ st.pages) :
    st.clockRequest page frame bit =
      some (st.modify page fun p => { p with lastRequest := 1 }) := by
  obtain ⟨p, hp⟩ := mem_iff_find.mp hmem
  simp only [Pager.clockRequest, hp]

theorem clockRequest_fill {bit : Int32} (hmem : page ∉ st.pages)
    (hroom : st.pageQueue.length < frame) : st.clockRequest page frame bit =
      some ((st.simGetPage page).enqueue ⟨page, bit, 0⟩) := by
  have hroom' : ¬ frame ≤ (st.simGetPage page).pageQueue.length := Nat.not_le.mpr hroom
  simp only [Pager.clockRequest, find_eq_none.mpr hmem, if_neg hroom', Option.map_some]

theorem clockRequest_evict {bit : Int32} {p : Page} {q : List Page} (hmem : page ∉ st.pages)
    (hfull : frame ≤ st.pageQueue.length) (hq : st.pageQueue = p :: q) :
    st.clockRequest page frame bit =
      (Pager.sweep (some p) ⟨q, st.got ++ [page], st.dequeued ++ [some p], st.freed⟩).map fun st =>
        st.enqueue ⟨page, bit, 0⟩ := by
  have hq' : (st.simGetPage page).pageQueue = p :: q := hq
  have hfull' : frame ≤ (st.simGetPage page).pageQueue.length := hfull
  simp only [Pager.clockRequest, find_eq_none.mpr hmem, if_pos hfull', dequeue_eq hq']
  rfl

theorem clockRequest_served (page : UInt32) (bit : Int32) (st : Pager) (hframe : 1 ≤ frame) :
    ∃ st', st.clockRequest page frame bit = some st' ∧ Served frame page st st' := by
  by_cases hmem : page ∈ st.pages
  · exact ⟨_, clockRequest_hit hmem, .hit hmem (modify_pages fun _ => rfl) rfl rfl rfl⟩
  · rcases Nat.lt_or_ge st.pageQueue.length frame with hroom | hfull
    · exact ⟨_, clockRequest_fill hmem hroom, .fill hmem hroom (enqueue_pages _ _) rfl rfl rfl⟩
    · obtain ⟨p, q, hq⟩ := List.exists_cons_of_length_pos (Nat.le_trans hframe hfull)
      obtain ⟨st', victim, ds, hs, hpages, hgot, hdeq, hds, -, hfreed⟩ :=
        sweep_spec p ⟨q, st.got ++ [page], st.dequeued ++ [some p], st.freed⟩
      refine ⟨st'.enqueue ⟨page, bit, 0⟩, ?_, .evict victim st'.pages (some p :: ds) hmem hfull ?_
        (enqueue_pages _ _) hgot ?_ (by simpa using hds) hfreed⟩
      · rw [clockRequest_evict hmem hfull hq, hs, Option.map_some]
      · rw [Pager.pages, hq]
        exact hpages
      · exact hdeq.trans (List.append_assoc _ _ _)

theorem lru_hit (hmem : page ∈ st.pages) : pagerRequest lib .leastRecentlyUsed frame page now st =
    some (st.modify page fun p => { p with lastRequest := now }) := by
  obtain ⟨p, hp⟩ := mem_iff_find.mp hmem
  simp only [pagerRequest, hp]

theorem lru_fault (hmem : page ∉ st.pages) : pagerRequest lib .leastRecentlyUsed frame page now st =
    some ((((st.simGetPage page).sort lib recentComparator).makeRoom frame).enqueue
      ⟨page, now, 0⟩) := by
  simp only [pagerRequest, find_eq_none.mpr hmem]

theorem lfu_hit (hmem : page ∈ st.pages) : pagerRequest lib .leastFrequentlyUsed frame page now st =
    some (st.modify page fun p => { p with frequency := p.frequency + 1, lastRequest := now }) := by
  obtain ⟨p, hp⟩ := mem_iff_find.mp hmem
  simp only [pagerRequest, hp]

/-- A page that makes room is there to be printed. -/
theorem lfu_fault (hframe : 1 ≤ frame) (hmem : page ∉ st.pages) :
    pagerRequest lib .leastFrequentlyUsed frame page now st =
      some (((((st.sort lib freqComparator).simGetPage page).makeRoom frame).enqueue
        ⟨page, now, 1⟩).sort lib freqComparator) := by
  have hnull : ¬ (frame ≤ ((st.sort lib freqComparator).simGetPage page).pageQueue.length ∧
      ((st.sort lib freqComparator).simGetPage page).pageQueue = []) := by
    rintro ⟨hfull, hnil⟩
    rw [hnil, List.length_nil] at hfull
    omega
  simp only [pagerRequest, find_eq_none.mpr hmem, if_neg hnull]

/-- `pager_request` never follows a null pointer, and does one of three things. -/
theorem request_served (lib : QueueSort) (algorithm : Algorithm) (page : UInt32) (now : Int32)
    (st : Pager) (hframe : 1 ≤ frame) : ∃ st', pagerRequest lib algorithm frame page now st = some st' ∧
      Served frame page st st' := by
  have hhit : ∀ {f : Page → Page}, (∀ p, (f p).pageNum = p.pageNum) → page ∈ st.pages →
      Served frame page st (st.modify page f) := fun hf hmem =>
    .hit hmem (modify_pages hf) rfl rfl rfl
  cases algorithm with
  | firstInFirstOut =>
      by_cases hmem : page ∈ st.pages
      · obtain ⟨p, hp⟩ := mem_iff_find.mp hmem
        exact ⟨st, by simp only [pagerRequest, hp], .hit hmem rfl rfl rfl rfl⟩
      · refine ⟨_, by simp only [pagerRequest, find_eq_none.mpr hmem]; exact rfl, ?_⟩
        exact makeRoom_served (st.simGetPage page) hmem hframe (.refl _) rfl rfl rfl
          (enqueue_pages _ _) rfl rfl rfl
  | leastRecentlyUsed =>
      by_cases hmem : page ∈ st.pages
      · exact ⟨_, lru_hit hmem, hhit (fun _ => rfl) hmem⟩
      · refine ⟨_, lru_fault hmem, ?_⟩
        exact makeRoom_served ((st.simGetPage page).sort lib recentComparator) hmem hframe
          (lib.perm _ _) rfl rfl rfl (enqueue_pages _ _) rfl rfl rfl
  | leastFrequentlyUsed =>
      by_cases hmem : page ∈ st.pages
      · exact ⟨_, lfu_hit hmem, hhit (fun _ => rfl) hmem⟩
      · refine ⟨_, lfu_fault hframe hmem, ?_⟩
        exact makeRoom_served ((st.sort lib freqComparator).simGetPage page) hmem hframe
          (lib.perm _ _) rfl rfl rfl (((lib.perm _ _).map _).trans (enqueue_pages _ _)) rfl rfl rfl
  | secondChance => exact clockRequest_served page _ st hframe
  | circularQueue => exact clockRequest_served page _ st hframe

/-! ### Residency -/

/-- Every page is in memory once, and there are frames for all of them. -/
structure Pager.Within (frame : ℕ) (st : Pager) : Prop where
  nodup : st.pages.Nodup
  length : st.pages.length ≤ frame

theorem Served.mem (h : Served frame page st st') : page ∈ st'.pages := by
  cases h with
  | hit hmem pages => exact pages ▸ hmem
  | fill _ _ pages => exact pages.mem_iff.mpr List.mem_cons_self
  | evict _ _ _ _ _ _ pages => exact pages.mem_iff.mpr List.mem_cons_self

theorem Served.got (h : Served frame page st st') :
    st'.got = st.got ++ if page ∈ st.pages then [] else [page] := by
  cases h with
  | hit hmem _ got => rw [if_pos hmem, got, List.append_nil]
  | fill hmem _ _ got => rw [if_neg hmem, got]
  | evict _ _ _ hmem _ _ _ got => rw [if_neg hmem, got]

theorem Served.within (h : Served frame page st st') (hw : st.Within frame) : st'.Within frame := by
  cases h with
  | hit _ pages => exact ⟨pages ▸ hw.nodup, pages ▸ hw.length⟩
  | fill hmem hframe pages =>
      refine ⟨pages.nodup_iff.mpr (List.nodup_cons.mpr ⟨hmem, hw.nodup⟩), ?_⟩
      rw [pages.length_eq, List.length_cons, Pager.pages, List.length_map]
      exact hframe
  | evict victim rest _ hmem _ before pages =>
      have hnodup := List.nodup_cons.mp (before.nodup_iff.mp hw.nodup)
      have hrest : page ∉ rest := fun h => hmem (before.mem_iff.mpr (List.mem_cons_of_mem _ h))
      refine ⟨pages.nodup_iff.mpr (List.nodup_cons.mpr ⟨hrest, hnodup.2⟩), ?_⟩
      have hlength := hw.length
      rw [before.length_eq] at hlength
      rwa [pages.length_eq]

theorem execute_within (lib : QueueSort) (algorithm : Algorithm) (hframe : 1 ≤ frame) :
    ∀ (rs : List Request) (st : Pager), st.Within frame → ∃ st',
      execute (fun r => pagerRequest lib algorithm frame r.1 r.2) rs st = some st' ∧
        st'.Within frame
  | [], st, hw => ⟨st, rfl, hw⟩
  | r :: rs, st, hw => by
      obtain ⟨st₁, hst₁, hserved⟩ := request_served lib algorithm r.1 r.2 st hframe
      obtain ⟨st', hst', hw'⟩ := execute_within lib algorithm hframe rs st₁ (hserved.within hw)
      exact ⟨st', by rw [execute, hst₁, Option.bind_some, hst'], hw'⟩

theorem pagerRun_concat {algorithm : Algorithm} {rs : List Request}
    (h : pagerRun lib algorithm frame rs = some st) (r : Request) :
    pagerRun lib algorithm frame (rs ++ [r]) = pagerRequest lib algorithm frame r.1 r.2 st := by
  rw [pagerRun] at h ⊢
  rw [execute_concat, h, Option.bind_some]

theorem pagerRun_within (lib : QueueSort) (algorithm : Algorithm) (hframe : 1 ≤ frame) (rs : List Request) :
    ∃ st, pagerRun lib algorithm frame rs = some st ∧ st.Within frame :=
  execute_within lib algorithm hframe rs pagerInit ⟨List.nodup_nil, Nat.zero_le _⟩

/-- **Residency**: after any requests, every page in memory has one frame, and the next request
asks the simulator for its page if and only if the page is not there; then the page is there, and
for it one page is given up at most, when all frames are in use.  No page is taken from an empty
queue. -/
theorem pager_residency (lib : QueueSort) (algorithm : Algorithm) (frame : ℕ) (hframe : 1 ≤ frame)
    (rs : List Request) : ∃ st, pagerRun lib algorithm frame rs = some st ∧
      st.pages.Nodup ∧ st.pages.length ≤ frame ∧
      ∀ page now, ∃ st', pagerRequest lib algorithm frame page now st = some st' ∧
        st'.got = st.got ++ (if page ∈ st.pages then [] else [page]) ∧ page ∈ st'.pages ∧
        (∃ ds, st'.dequeued = st.dequeued ++ ds ∧ ∀ d ∈ ds, d.isSome) ∧
        ∃ gone : List Page, st'.freed = st.freed ++ gone ∧ gone.length ≤ 1 ∧
          (gone ≠ [] → st.pages.length = frame) ∧
          ∀ p, p ∈ gone.map Page.pageNum ↔ p ∈ st.pages ∧ p ∉ st'.pages := by
  obtain ⟨st, hst, hw⟩ := pagerRun_within lib algorithm hframe rs
  refine ⟨st, hst, hw.nodup, hw.length, fun page now => ?_⟩
  obtain ⟨st', hst', hserved⟩ := request_served lib algorithm page now st hframe
  refine ⟨st', hst', hserved.got, hserved.mem, ?_⟩
  cases hserved with
  | hit _ pages _ dequeued freed =>
      exact ⟨⟨[], by rw [dequeued, List.append_nil], by simp⟩, [], by rw [freed, List.append_nil],
        Nat.zero_le _, fun h => absurd rfl h, fun p => by simp [pages]⟩
  | fill _ _ pages _ dequeued freed =>
      exact ⟨⟨[], by rw [dequeued, List.append_nil], by simp⟩, [], by rw [freed, List.append_nil],
        Nat.zero_le _, fun h => absurd rfl h, fun p => by
          rw [pages.mem_iff]
          simp +contextual⟩
  | evict victim rest ds hmem hfull before pages _ dequeued hds freed =>
      refine ⟨⟨ds, dequeued, hds⟩, [victim], freed, Nat.le_refl 1, fun _ => ?_, fun p => ?_⟩
      · have hlength : st.pages.length = st.pageQueue.length := List.length_map _
        have := hw.length
        omega
      · have hnodup := List.nodup_cons.mp (before.nodup_iff.mp hw.nodup)
        rw [pages.mem_iff, before.mem_iff, List.map_singleton, List.mem_singleton, List.mem_cons,
          List.mem_cons, not_or]
        constructor
        · rintro rfl
          exact ⟨.inl rfl, fun h => hmem (before.mem_iff.mpr (h ▸ List.mem_cons_self)), hnodup.1⟩
        · rintro ⟨h, -, hp⟩
          exact h.resolve_right hp

/-- Two frames hold the pages 7, whose bit is set, and 8; the page 9 takes the frame of 8. -/
theorem pager_residency_two : ∃ st st', pagerRun .mergeSort .secondChance 2 [(7, 1), (8, 2), (7, 3)] = some st ∧
    st.pages = [7, 8] ∧ pagerRequest .mergeSort .secondChance 2 9 4 st = some st' ∧ st'.pages = [7, 9] ∧
    st'.got = st.got ++ [9] ∧ 9 ∈ st'.pages ∧
    ∃ gone : List Page, st'.freed = st.freed ++ gone ∧ gone.map Page.pageNum = [8] ∧ gone.length ≤ 1 := by
  obtain ⟨st, hst, -, -, hnext⟩ :=
    pager_residency .mergeSort .secondChance 2 (Nat.le_succ 1) [(7, 1), (8, 2), (7, 3)]
  obtain ⟨st', hst', hgot, hmem, -, gone, hfreed, hlength, -⟩ := hnext 9 4
  have hrun : pagerRun .mergeSort .secondChance 2 [(7, 1), (8, 2), (7, 3)] =
      some ⟨[⟨7, 1, 0⟩, ⟨8, 0, 0⟩], [7, 8], [], []⟩ := rfl
  obtain rfl := Option.some.inj (hst.symm.trans hrun)
  -- the bit of 7 is cleared, and 8 has none
  have hsweep : pagerRequest .mergeSort .secondChance 2 9 4 ⟨[⟨7, 1, 0⟩, ⟨8, 0, 0⟩], [7, 8], [], []⟩ = some
      ⟨[⟨7, 0, 0⟩, ⟨9, 0, 0⟩], [7, 8, 9], [some ⟨7, 1, 0⟩, some ⟨8, 0, 0⟩], [⟨8, 0, 0⟩]⟩ := by
    simp [pagerRequest, Pager.clockRequest, Pager.find_eq, innerEqualitor, Pager.simGetPage, Pager.dequeue_eq,
      Pager.sweep, Pager.enqueue_eq, Pager.free]
  obtain rfl := Option.some.inj (hst'.symm.trans hsweep)
  obtain rfl : gone = [⟨8, 0, 0⟩] := hfreed.symm
  exact ⟨_, _, hst, rfl, hst', rfl, hgot, hmem, _, hfreed, rfl, hlength⟩

end CSE130.Assignment5
