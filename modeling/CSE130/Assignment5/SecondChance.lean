import CSE130.Assignment5.Pager
import CSE130.Lib.Clock

/-! # The two clock algorithms

`SECOND_CHANCE` and `CIRCULAR_QUEUE` have no frames and no hand: a page that is passed goes from the
head of the queue to its tail.  The queue is the ring of the clock without the frames that are not
in use yet, which come first: the hand stays in front of them until all are filled. -/

namespace CSE130.Assignment5

open Transition

/-- What the clock has for a page of the queue. -/
def slot (p : Page) : Option (UInt32 × Bool) := some (p.pageNum, p.lastRequest = 1)

/-- The clock with the same pages, which has replaced the same pages. -/
structure Turns (frame : ℕ) (st : Pager) (c : Clock frame UInt32) : Prop where
  ring : c.ring = List.replicate (frame - st.pageQueue.length) none ++ st.pageQueue.map slot
  replaced : c.replaced = st.freed.map Page.pageNum

variable {frame : ℕ} {st st' : Pager} {c : Clock frame UInt32} {page : UInt32}
  {bit : Int32} {lib : QueueSort} {now : Int32}

theorem Turns.mem_iff (h : Turns frame st c) :
    some page ∈ c.ring.map (Option.map Prod.fst) ↔ page ∈ st.pages := by
  rw [h.ring, Pager.pages]
  simp [slot, Function.comp_def]

variable [NeZero frame]

theorem Turns.init : Turns frame pagerInit Clock.init where
  ring := by
    exact (List.ofFn_const frame none).trans (List.append_nil _).symm
  replaced := rfl

theorem sweep_turns (p : Page) (st : Pager) (hring : c.ring = (p :: st.pageQueue).map slot) :
    ∃ st' victim, Pager.sweep (some p) st = some st' ∧
      c.sweep.ring = (victim :: st'.pageQueue).map slot ∧ c.sweep.replaced = c.replaced ∧
      st'.freed = st.freed ++ [victim] := by
  generalize hcheck : some p = check
  fun_induction Pager.sweep check st generalizing p c with
  | case1 => cases hcheck
  | case2 st p' hbit st₁ =>
      rename_i ih
      obtain rfl : p = p' := Option.some.inj hcheck
      have hne : st₁.pageQueue ≠ [] := by simp [st₁, Pager.enqueue_eq]
      obtain ⟨next, q, hq⟩ := List.exists_cons_of_ne_nil hne
      have hqueue : next :: q = st.pageQueue ++ [{ p with lastRequest := 0 }] := hq.symm
      rw [dequeue_eq hq] at ih ⊢
      have hslot : slot p = some (p.pageNum, true) := by
        rw [slot, hbit]
        rfl
      rw [List.map_cons, hslot] at hring
      have hput : (c.put (some (p.pageNum, false))).ring = (next :: q).map slot := by
        rw [Clock.put_ring hring, hqueue, List.map_append]
        rfl
      rw [Clock.sweep_of_referenced hring]
      exact ih next hput rfl
  | case3 st p' hbit =>
      obtain rfl : p = p' := Option.some.inj hcheck
      rw [List.map_cons] at hring
      rw [Clock.sweep_of_not_referenced hring (by simpa [slot, Clock.referenced] using hbit)]
      exact ⟨_, p, rfl, hring, rfl, rfl⟩

/-- A request keeps the correspondence, if the bit of a new page is the one of the clock. -/
theorem Turns.request (page : UInt32) (bit : Int32) (h : Turns frame st c) (hw : st.Within frame) :
    ∃ st' ds, st.clockRequest page frame bit = some st' ∧
      Turns frame st' (c.request (bit = 1) page) ∧
      st'.dequeued = st.dequeued ++ ds ∧ ds.length ≤ st.pageQueue.length + 1 := by
  by_cases hmem : page ∈ st.pages
  · obtain ⟨hring, hreplaced⟩ := Clock.request_ring_of_mem (bit = 1) (h.mem_iff.mpr hmem)
    refine ⟨_, [], clockRequest_hit hmem, ⟨?_, hreplaced.trans h.replaced⟩,
      (List.append_nil _).symm, Nat.zero_le _⟩
    rw [hring, h.ring, Pager.modify, writeFound_eq_map hw.nodup, List.map_append, List.map_replicate,
      List.length_map, List.map_map, List.map_map]
    refine congrArg _ (List.map_congr_left fun p _ => ?_)
    by_cases hp : p.pageNum = page <;> simp [slot, hp]
  · have hmem' := fun hm => hmem (h.mem_iff.mp hm)
    rcases Nat.lt_or_ge st.pageQueue.length frame with hroom | hfull
    · -- the hand is at a frame that is not in use
      refine ⟨_, [], clockRequest_fill hmem hroom, ?_, (List.append_nil _).symm, Nat.zero_le _⟩
      obtain ⟨k, hk⟩ : ∃ k, frame - st.pageQueue.length = k + 1 :=
        ⟨frame - st.pageQueue.length - 1, by omega⟩
      have hring := h.ring
      rw [hk, List.replicate_succ, List.cons_append] at hring
      have hsweep := Clock.sweep_of_not_referenced hring rfl
      obtain ⟨hring', hreplaced⟩ :=
        Clock.request_ring_of_not_mem (bit = 1) hmem' (hsweep.symm ▸ hring)
      refine ⟨hring'.trans ?_, hreplaced.trans ((List.append_nil _).trans h.replaced)⟩
      have hk' : frame - (st.pageQueue.length + 1) = k := by omega
      simp [Pager.enqueue_eq, Pager.simGetPage, hk', slot]
    · have hpos : 0 < st.pageQueue.length := by
        have := NeZero.ne frame
        omega
      obtain ⟨p, q, hq⟩ := List.exists_cons_of_length_pos hpos
      have hring : c.ring = (p :: q).map slot := by
        rw [h.ring, Nat.sub_eq_zero_of_le hfull, hq]
        rfl
      obtain ⟨st₁, victim, hs, hsweep, hreplaced₁, hfreed⟩ := sweep_turns p
        ⟨q, st.got ++ [page], st.dequeued ++ [some p], st.freed⟩ hring
      obtain ⟨st₂, victim', ds, hs', hpages, -, hdeq, -, hcount, -⟩ :=
        sweep_spec p ⟨q, st.got ++ [page], st.dequeued ++ [some p], st.freed⟩
      obtain rfl : st₁ = st₂ := Option.some.inj (hs.symm.trans hs')
      obtain ⟨hring', hreplaced⟩ :=
        Clock.request_ring_of_not_mem (bit = 1) hmem' hsweep
      refine ⟨st₁.enqueue ⟨page, bit, 0⟩, some p :: ds, ?_, ⟨hring'.trans ?_, hreplaced.trans ?_⟩,
        ?_, ?_⟩
      · rw [clockRequest_evict hmem hfull hq, hs, Option.map_some]
      · have hlength : q.length + 1 = st₁.pageQueue.length + 1 := by
          simpa [Pager.pages] using hpages.length_eq
        have hfull' : frame ≤ st₁.pageQueue.length + 1 := by
          rw [hq, List.length_cons] at hfull
          omega
        simp [Pager.enqueue_eq, Nat.sub_eq_zero_of_le hfull', slot]
      · rw [h.replaced]
        simp [Pager.enqueue_eq, hfreed, slot]
      · exact hdeq.trans (List.append_assoc _ _ _)
      · have hall := hcount.trans List.countP_le_length
        rw [hq]
        exact Nat.succ_le_succ hall

/-- The bit with which a page comes in. -/
def Algorithm.newBit : Algorithm → Bool
  | .circularQueue => true
  | _ => false

/-- The clock after a list of requests. -/
def clockRun (bit : Bool) (frame : ℕ) [NeZero frame] (rs : List Request) : Clock frame UInt32 :=
  rs.foldl (fun c r => c.request bit r.1) Clock.init

omit [NeZero frame] in
theorem pagerRequest_eq (lib : QueueSort) (r : Request) (st : Pager) {algorithm : Algorithm}
    (ha : algorithm = .secondChance ∨ algorithm = .circularQueue) :
    ∃ bit : Int32, algorithm.newBit = decide (bit = 1) ∧
      pagerRequest lib algorithm frame r.1 r.2 st = st.clockRequest r.1 frame bit := by
  rcases ha with rfl | rfl
  · exact ⟨0, by decide, rfl⟩
  · exact ⟨1, by decide, rfl⟩

theorem Turns.pagerRequest (lib : QueueSort) {algorithm : Algorithm}
    (ha : algorithm = .secondChance ∨ algorithm = .circularQueue) (h : Turns frame st c)
    (hw : st.Within frame) (r : Request) :
    ∃ st' ds, pagerRequest lib algorithm frame r.1 r.2 st = some st' ∧ st'.Within frame ∧
      Turns frame st' (c.request algorithm.newBit r.1) ∧
      st'.dequeued = st.dequeued ++ ds ∧ ds.length ≤ st.pageQueue.length + 1 := by
  obtain ⟨bit, hbit, heq⟩ := pagerRequest_eq lib r st ha
  obtain ⟨st', ds, hst', hturns, hdeq, hds⟩ := h.request r.1 bit hw
  obtain ⟨st₁, hst₁, hserved⟩ := clockRequest_served r.1 bit st
    (Nat.one_le_iff_ne_zero.mpr (NeZero.ne frame))
  obtain rfl : st' = st₁ := Option.some.inj (hst'.symm.trans hst₁)
  refine ⟨st', ds, heq.trans hst', hserved.within hw, ?_, hdeq, hds⟩
  rw [hbit]
  exact hturns

theorem pagerRun_turns (lib : QueueSort) (frame : ℕ) [NeZero frame] {algorithm : Algorithm}
    (ha : algorithm = .secondChance ∨ algorithm = .circularQueue) (rs : List Request) :
    ∃ st, pagerRun lib algorithm frame rs = some st ∧ st.Within frame ∧
      Turns frame st (clockRun algorithm.newBit frame rs) := by
  induction rs using List.reverseRecOn with
  | nil => exact ⟨pagerInit, rfl, ⟨List.nodup_nil, Nat.zero_le _⟩, Turns.init⟩
  | append_singleton rs r ih =>
      obtain ⟨st, hst, hw, hturns⟩ := ih
      obtain ⟨st', -, hst', hw', hturns', -⟩ := hturns.pagerRequest lib ha hw r
      refine ⟨st', (pagerRun_concat hst r).trans hst', hw', ?_⟩
      rw [clockRun, List.foldl_append]
      exact hturns'

/-- **The clock**: `SECOND_CHANCE` and `CIRCULAR_QUEUE` have in memory, and give up, the pages of
the clock algorithm, where a new page has its bit clear and set respectively; and a request takes at
most one page more from the queue than the queue has. -/
theorem queue_is_clock (lib : QueueSort) (algorithm : Algorithm)
    (ha : algorithm = .secondChance ∨ algorithm = .circularQueue) (frame : ℕ) [NeZero frame]
    (rs : List Request) : ∃ st, pagerRun lib algorithm frame rs = some st ∧
      (∀ p, p ∈ st.pages ↔
        ∃ i, ((clockRun algorithm.newBit frame rs).frames i).map Prod.fst = some p) ∧
      st.freed.map Page.pageNum = (clockRun algorithm.newBit frame rs).replaced ∧
      ∀ page now, ∃ st' ds, pagerRequest lib algorithm frame page now st = some st' ∧
        st'.dequeued = st.dequeued ++ ds ∧ ds.length ≤ st.pageQueue.length + 1 := by
  obtain ⟨st, hst, hw, hturns⟩ := pagerRun_turns lib frame ha rs
  refine ⟨st, hst, fun p => ?_, hturns.replaced.symm, fun page now => ?_⟩
  · rw [Clock.exists_frame_iff, hturns.mem_iff]
  · obtain ⟨st', ds, hst', -, -, hdeq, hds⟩ := hturns.pagerRequest lib ha hw (page, now)
    exact ⟨st', ds, hst', hdeq, hds⟩

theorem queue_is_clock_two : ∃ st,
    pagerRun .mergeSort .secondChance 2 [(1, 0), (2, 1), (1, 2), (3, 3)] = some st ∧
    st.freed.map Page.pageNum = (clockRun false 2 [(1, 0), (2, 1), (1, 2), (3, 3)]).replaced := by
  obtain ⟨st, hst, -, hreplaced, -⟩ :=
    queue_is_clock .mergeSort .secondChance (.inl rfl) 2 [(1, 0), (2, 1), (1, 2), (3, 3)]
  exact ⟨st, hst, hreplaced⟩

end CSE130.Assignment5
