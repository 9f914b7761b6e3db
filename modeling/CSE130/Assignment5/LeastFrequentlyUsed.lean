import CSE130.Assignment5.LeastRecentlyUsed
import CSE130.Lib.Comparator
import Mathlib.Algebra.Ring.Nat

/-! # The least frequently used page

The count of the requests for a page is in its entry in the queue.  The entry is freed when the page
is given up, and a page that is loaded again starts at one.  So the page given up has the fewest
requests since it was loaded, and that is the history since `pager_init` only if the pages that
`freq_comparator` may put first have the fewest requests of all (`lfu_infinite_history_iff`). -/

namespace CSE130.Assignment5

open Transition Comparator

/-- The number of requests for a page since `pager_init`. -/
def requests (rs : List Request) (page : UInt32) : ℕ := (rs.map Prod.fst).count page

/-- `queue_sort` may put the page first: if the comparator is one, no page is before it. -/
def MayLead (comparator : Page → Page → Int32) (q : List Page) (v : Page) : Prop :=
  v ∈ q ∧ (Compares comparator q → ∀ u ∈ q, comparator v u ≤ 0)

/-- Infinite history: every page that is given up has the fewest requests of the pages in memory. -/
def EvictsFewest (lib : QueueSort) (frame : ℕ) (rs : List Request) : Prop :=
  ∀ before r after, rs = before ++ r :: after →
    ∀ st st', pagerRun lib .leastFrequentlyUsed frame before = some st →
      pagerRequest lib .leastFrequentlyUsed frame r.1 r.2 st = some st' →
      ∀ p ∈ st.pages, p ∉ st'.pages → ∀ u ∈ st.pages, requests before p ≤ requests before u

/-- Whenever a page must be given up, those that the sort may put first have the fewest requests. -/
def HistoryKept (lib : QueueSort) (frame : ℕ) (rs : List Request) : Prop :=
  ∀ before r after, rs = before ++ r :: after →
    ∀ st, pagerRun lib .leastFrequentlyUsed frame before = some st → r.1 ∉ st.pages →
      frame ≤ st.pageQueue.length → ∀ v, MayLead freqComparator st.pageQueue v →
      ∀ u ∈ st.pages, requests before v.pageNum ≤ requests before u

variable {rs : List Request} {st st' : Pager} {page : UInt32} {now x : Int32} {frame : ℕ}
  {lib : QueueSort} {comparator : Page → Page → Int32} {q q' l : List Page} {p v : Page}
  {f : Page → Page}

/-! ### The page that comes first -/

theorem Compares.subset (h : Compares comparator q) (hq : ∀ p ∈ q', p ∈ q) :
    Compares comparator q' where
  swap a ha b hb := h.swap a (hq a ha) b (hq b hb)
  trans a ha b hb c hc := h.trans a (hq a ha) b (hq b hb) c (hq c hc)

theorem MayLead.perm (h : MayLead comparator q v) (hq : q.Perm q') : MayLead comparator q' v := by
  refine ⟨hq.mem_iff.mp h.1, fun hc u hu => ?_⟩
  exact h.2 (hc.subset fun p hp => hq.mem_iff.mp hp) u (hq.mem_iff.mpr hu)

theorem mayLead_of_sort (hs : lib.sort comparator q = v :: l) : MayLead comparator q v := by
  have hperm := lib.perm comparator q
  rw [hs] at hperm
  have hv := hperm.mem_iff.mp List.mem_cons_self
  refine ⟨hv, fun hc u hu => ?_⟩
  have hsorted := lib.sorted comparator q hc
  rw [hs] at hsorted
  cases List.mem_cons.mp (hperm.mem_iff.mpr hu) with
  | inl heq =>
      subst heq
      cases hc.total hv hv with
      | inl hle => exact hle
      | inr hle => exact hle
  | inr hu => exact (List.pairwise_cons.mp hsorted).1 u hu

theorem Compares.consistent (h : Compares comparator q) :
    Consistent (fun a b => (comparator a b).toInt) q where
  swap a ha b hb := by
    rw [← Int32.toInt_zero, ← Int32.lt_iff_toInt_lt, ← Int32.lt_iff_toInt_lt]
    exact h.swap a ha b hb
  trans a ha b hb c hc := by
    rw [← Int32.toInt_zero, ← Int32.le_iff_toInt_le, ← Int32.le_iff_toInt_le, ← Int32.le_iff_toInt_le]
    exact h.trans a ha b hb c hc

/-- `queue_sort` may be an insertion sort. -/
def QueueSort.insertionSort : QueueSort where
  sort comparator q := q.insertionSort fun a b => (comparator a b).toInt ≤ 0
  perm _ q := List.perm_insertionSort _ q
  sorted _ _ h := h.consistent.pairwise_insertionSort.imp Int32.le_iff_toInt_le.mpr

open Classical in
/-- Another sort: on the lists that have the pages of `l` it puts `v` first, if it may. -/
noncomputable def QueueSort.favour (lib : QueueSort) (l : List Page) (v : Page) : QueueSort where
  sort comparator q :=
    if q.Perm l ∧ MayLead comparator q v then v :: lib.sort comparator (q.erase v)
    else lib.sort comparator q
  perm comparator q := by
    split_ifs with h
    · exact ((lib.perm _ _).cons v).trans (List.perm_cons_erase h.2.1).symm
    · exact lib.perm _ _
  sorted comparator q hc := by
    have herase : Compares comparator (q.erase v) := hc.subset fun p => List.mem_of_mem_erase
    split_ifs with h
    · refine List.pairwise_cons.mpr ⟨fun u hu => ?_, lib.sorted _ _ herase⟩
      exact h.2.2 hc u (List.mem_of_mem_erase ((lib.perm _ _).mem_iff.mp hu))
    · exact lib.sorted _ _ hc

theorem favour_first (lib : QueueSort) (hq : q.Perm l) (hv : MayLead comparator q v) :
    (lib.favour l v).sort comparator q = v :: lib.sort comparator (q.erase v) := if_pos ⟨hq, hv⟩

theorem favour_other (lib : QueueSort) (v : Page) (comparator : Page → Page → Int32)
    (hq : ¬q.Perm l) :
    (lib.favour l v).sort comparator q = lib.sort comparator q := if_neg fun h => hq h.1

/-! ### A request -/

/-- The state before the last sort, when the page is not there. -/
def Pager.install (st : Pager) (lib : QueueSort) (frame : ℕ) (page : UInt32) (now : Int32) : Pager :=
  (((st.sort lib freqComparator).simGetPage page).makeRoom frame).enqueue ⟨page, now, 1⟩

theorem lfu_install (hframe : 1 ≤ frame) (hmem : page ∉ st.pages) :
    pagerRequest lib .leastFrequentlyUsed frame page now st =
      some ((st.install lib frame page now).sort lib freqComparator) := lfu_fault hframe hmem

/-- The page that comes first makes room, if all frames are in use. -/
theorem install_queue (st : Pager) (lib : QueueSort) (frame : ℕ) (page : UInt32) (now : Int32) :
    (st.install lib frame page now).pageQueue =
      (if frame ≤ st.pageQueue.length then (lib.sort freqComparator st.pageQueue).tail
        else lib.sort freqComparator st.pageQueue) ++ [⟨page, now, 1⟩] := by
  have hlength : ((st.sort lib freqComparator).simGetPage page).pageQueue.length =
      st.pageQueue.length := (lib.perm _ _).length_eq
  unfold Pager.install Pager.makeRoom
  rw [hlength]
  split_ifs
  · rfl
  · rfl

theorem mem_install (hp : p ∈ (st.install lib frame page now).pageQueue) :
    p ∈ st.pageQueue ∨ p = ⟨page, now, 1⟩ := by
  rw [install_queue, List.mem_append, List.mem_singleton] at hp
  refine hp.imp_left fun hp => ?_
  apply (lib.perm freqComparator st.pageQueue).mem_iff.mp
  split_ifs at hp
  · exact List.mem_of_mem_tail hp
  · exact hp

theorem mem_writeFound : ∀ {q : List Page}, p ∈ writeFound page f q → p ∈ q ∨ ∃ p₀ ∈ q, f p₀ = p
  | [], h => nomatch h
  | p₀ :: q, h => by
      rw [writeFound] at h
      split_ifs at h
      · cases List.mem_cons.mp h with
        | inl heq => exact .inr ⟨p₀, List.mem_cons_self, heq.symm⟩
        | inr h => exact .inl (List.mem_cons_of_mem p₀ h)
      · cases List.mem_cons.mp h with
        | inl heq => exact .inl (heq ▸ List.mem_cons_self)
        | inr h =>
            refine (mem_writeFound h).imp (List.mem_cons_of_mem p₀) ?_
            rintro ⟨p₁, hp₁, heq⟩
            exact ⟨p₁, List.mem_cons_of_mem p₀ hp₁, heq⟩

theorem exists_writeFound : ∀ {q : List Page}, page ∈ q.map Page.pageNum →
    ∃ p₀, f p₀ ∈ writeFound page f q
  | [], h => nomatch h
  | p₀ :: q, h => by
      rw [writeFound]
      split_ifs with hfound
      · exact ⟨p₀, List.mem_cons_self⟩
      · have hne : page ≠ p₀.pageNum := fun heq => hfound (decide_eq_true heq.symm)
        obtain ⟨p₁, hp₁⟩ := exists_writeFound ((List.mem_cons.mp h).resolve_left hne)
        exact ⟨p₁, List.mem_cons_of_mem p₀ hp₁⟩

theorem request_times {P : Int32 → Prop} (hframe : 1 ≤ frame)
    (hqueue : ∀ p ∈ st.pageQueue, P p.lastRequest) (hnow : P now)
    (hs : pagerRequest lib .leastFrequentlyUsed frame page now st = some st') :
    ∀ p ∈ st'.pageQueue, P p.lastRequest := by
  intro p hp
  by_cases hmem : page ∈ st.pages
  · obtain rfl := Option.some.inj (hs.symm.trans (lfu_hit hmem))
    cases mem_writeFound hp with
    | inl hp => exact hqueue p hp
    | inr hp =>
        obtain ⟨p₀, -, rfl⟩ := hp
        exact hnow
  · obtain rfl := Option.some.inj (hs.symm.trans (lfu_install hframe hmem))
    cases mem_install ((lib.perm _ _).mem_iff.mp hp) with
    | inl hp => exact hqueue p hp
    | inr heq =>
        rw [heq]
        exact hnow

theorem request_now (hframe : 1 ≤ frame)
    (hs : pagerRequest lib .leastFrequentlyUsed frame page now st = some st') :
    ∃ p ∈ st'.pageQueue, p.lastRequest = now := by
  by_cases hmem : page ∈ st.pages
  · obtain rfl := Option.some.inj (hs.symm.trans (lfu_hit hmem))
    obtain ⟨p₀, hp₀⟩ := exists_writeFound
      (f := fun p => { p with frequency := p.frequency + 1, lastRequest := now }) hmem
    exact ⟨_, hp₀, rfl⟩
  · obtain rfl := Option.some.inj (hs.symm.trans (lfu_install hframe hmem))
    refine ⟨⟨page, now, 1⟩, (lib.perm _ _).mem_iff.mpr ?_, rfl⟩
    rw [install_queue]
    exact List.mem_append_right _ List.mem_cons_self

/-! ### A run with another sort -/

theorem run_times {P : Int32 → Prop} (hframe : 1 ≤ frame)
    (hs : pagerRun lib .leastFrequentlyUsed frame rs = some st) (hrs : ∀ r ∈ rs, P r.2) :
    ∀ p ∈ st.pageQueue, P p.lastRequest := by
  induction rs using List.reverseRecOn generalizing st with
  | nil =>
      obtain rfl := Option.some.inj hs
      nofun
  | append_singleton rs r ih =>
      obtain ⟨st₁, hst₁, -⟩ := pagerRun_within lib .leastFrequentlyUsed hframe rs
      rw [pagerRun_concat hst₁] at hs
      refine request_times hframe (ih hst₁ fun r hr => ?_) (hrs r ?_) hs
      · exact hrs r (List.mem_append_left _ hr)
      · exact List.mem_append_right _ List.mem_cons_self

theorem not_perm_of_before (hl : ∃ p ∈ l, p.lastRequest = x) (hq : ∀ p ∈ q, p.lastRequest < x) :
    ¬q.Perm l := by
  intro hperm
  obtain ⟨p, hp, heq⟩ := hl
  exact Int32.lt_irrefl (heq ▸ hq p (hperm.mem_iff.mpr hp))

theorem install_favour (lib : QueueSort) (v : Page) (frame : ℕ) (page : UInt32) (now : Int32)
    (hl : ∃ p ∈ l, p.lastRequest = x) (hst : ∀ p ∈ st.pageQueue, p.lastRequest < x) :
    st.install (lib.favour l v) frame page now = st.install lib frame page now := by
  have hsort := favour_other lib v freqComparator (not_perm_of_before hl hst)
  simp only [Pager.install, Pager.sort, hsort]

theorem pagerRun_favour (lib : QueueSort) (v : Page) (hframe : 1 ≤ frame)
    (hl : ∃ p ∈ l, p.lastRequest = x) (hrs : ∀ r ∈ rs, r.2 < x) :
    pagerRun (lib.favour l v) .leastFrequentlyUsed frame rs =
      pagerRun lib .leastFrequentlyUsed frame rs := by
  induction rs using List.reverseRecOn with
  | nil => rfl
  | append_singleton rs r ih =>
      have hpast : ∀ r ∈ rs, r.2 < x := fun r hr => hrs r (List.mem_append_left _ hr)
      have hr : r.2 < x := hrs r (List.mem_append_right _ List.mem_cons_self)
      obtain ⟨st, hst, -⟩ := pagerRun_within lib .leastFrequentlyUsed hframe rs
      rw [pagerRun_concat hst, pagerRun_concat ((ih hpast).trans hst)]
      by_cases hmem : r.1 ∈ st.pages
      · rw [lfu_hit hmem, lfu_hit hmem]
      · have hqueue := run_times (P := (· < x)) hframe hst hpast
        rw [lfu_install hframe hmem, lfu_install hframe hmem, install_favour lib v frame r.1 r.2 hl hqueue]
        -- the new page is as old as the request
        have hinstall : ∀ p ∈ (st.install lib frame r.1 r.2).pageQueue, p.lastRequest < x := by
          intro p hp
          cases mem_install hp with
          | inl hp => exact hqueue p hp
          | inr heq =>
              rw [heq]
              exact hr
        have hsort := favour_other lib v freqComparator (not_perm_of_before hl hinstall)
        simp only [Pager.sort, hsort]

/-- The other sort leads to the same pages, in another order. -/
theorem pagerRun_favour_perm (lib : QueueSort) (v : Page) (hframe : 1 ≤ frame)
    (hrs : rs.Pairwise fun a b => a.2 < b.2)
    (hs : pagerRun lib .leastFrequentlyUsed frame rs = some st) :
    ∃ st', pagerRun (lib.favour st.pageQueue v) .leastFrequentlyUsed frame rs = some st' ∧
      st'.pageQueue.Perm st.pageQueue := by
  induction rs using List.reverseRecOn with
  | nil =>
      obtain rfl := Option.some.inj hs
      exact ⟨pagerInit, rfl, .refl _⟩
  | append_singleton rs r _ =>
      obtain ⟨st₁, hst₁, -⟩ := pagerRun_within lib .leastFrequentlyUsed hframe rs
      rw [pagerRun_concat hst₁] at hs
      have hl := request_now hframe hs
      have hpast : ∀ s ∈ rs, s.2 < r.2 := fun s hs =>
        (List.pairwise_append.mp hrs).2.2 s hs r List.mem_cons_self
      rw [pagerRun_concat ((pagerRun_favour lib v hframe hl hpast).trans hst₁)]
      by_cases hmem : r.1 ∈ st₁.pages
      · rw [lfu_hit hmem] at hs ⊢
        exact ⟨st, hs, .refl _⟩
      · rw [lfu_install hframe hmem] at hs ⊢
        rw [install_favour lib v frame r.1 r.2 hl (run_times (P := (· < r.2)) hframe hst₁ hpast)]
        obtain rfl := Option.some.inj hs
        refine ⟨_, rfl, ?_⟩
        exact ((lib.favour _ v).perm freqComparator _).trans (lib.perm freqComparator _).symm

/-! ### Infinite history -/

/-- A page that is not there takes the frame of the one that comes first. -/
theorem lfu_evicts (now : Int32) (hframe : 1 ≤ frame) (hmem : page ∉ st.pages) (hfull : frame ≤ st.pageQueue.length)
    (hsort : lib.sort freqComparator st.pageQueue = v :: q) :
    ∃ st', pagerRequest lib .leastFrequentlyUsed frame page now st = some st' ∧
      st'.pages.Perm (page :: q.map Page.pageNum) := by
  refine ⟨_, lfu_install hframe hmem, ?_⟩
  have hperm := (lib.perm freqComparator (st.install lib frame page now).pageQueue).map Page.pageNum
  refine hperm.trans ?_
  rw [install_queue, if_pos hfull, hsort, List.tail_cons, List.map_append]
  exact List.perm_append_singleton page _

theorem evictsFewest_of_historyKept (hframe : 1 ≤ frame) (h : HistoryKept lib frame rs) :
    EvictsFewest lib frame rs := by
  intro before r after hrs st st' hst hs p hp hp' u hu
  obtain ⟨st₁, hst₁, hserved⟩ := request_served lib .leastFrequentlyUsed r.1 r.2 st hframe
  obtain rfl := Option.some.inj (hs.symm.trans hst₁)
  cases hserved with
  | hit _ pages => exact absurd (pages ▸ hp) hp'
  | fill _ _ pages => exact absurd (pages.mem_iff.mpr (List.mem_cons_of_mem _ hp)) hp'
  | evict _ _ _ hmem hfull =>
      have hperm := lib.perm freqComparator st.pageQueue
      have hpos : 0 < (lib.sort freqComparator st.pageQueue).length := by
        rw [hperm.length_eq]
        exact Nat.lt_of_lt_of_le hframe hfull
      obtain ⟨v, q, hsort⟩ := List.exists_cons_of_length_pos hpos
      obtain ⟨st₂, hst₂, hpages⟩ := lfu_evicts r.2 hframe hmem hfull hsort
      obtain rfl := Option.some.inj (hs.symm.trans hst₂)
      have hold : st.pages.Perm (v.pageNum :: q.map Page.pageNum) := by
        rw [hsort] at hperm
        exact hperm.symm.map _
      obtain rfl : p = v.pageNum := by
        refine (List.mem_cons.mp (hold.mem_iff.mp hp)).resolve_right fun hq => ?_
        exact hp' (hpages.mem_iff.mpr (List.mem_cons_of_mem _ hq))
      exact h before r after hrs st hst hmem hfull v (mayLead_of_sort hsort) u hu

/-! ### Pages that are loaded once -/

theorem toInt_freqComparator {a b : Page} (ha : 1 ≤ a.frequency ∧ 0 ≤ a.lastRequest)
    (hb : 1 ≤ b.frequency ∧ 0 ≤ b.lastRequest) : (freqComparator a b).toInt =
      if a.frequency.toInt = b.frequency.toInt ∧ 1 < a.frequency.toInt then
        b.lastRequest.toInt - a.lastRequest.toInt
      else a.frequency.toInt - b.frequency.toInt := by
  have hfreq : (a.frequency - b.frequency).toInt = a.frequency.toInt - b.frequency.toInt :=
    toInt_sub_of_nonneg (Int32.le_trans (by decide) ha.1) (Int32.le_trans (by decide) hb.1)
  have hzero : a.frequency - b.frequency = 0 ↔ a.frequency.toInt = b.frequency.toInt := by
    rw [← Int32.toInt_inj, hfreq, Int32.toInt_zero]
    omega
  have hlt : 1 < a.frequency ↔ 1 < a.frequency.toInt := by
    rw [Int32.lt_iff_toInt_lt, Int32.toInt_one]
  unfold freqComparator
  simp only [hzero, hlt]
  split_ifs
  · exact toInt_sub_of_nonneg hb.2 ha.2
  · exact hfreq

/-- The comparator orders the pages whose counts and times are in range. -/
theorem freq_compares (hq : ∀ p ∈ q, 1 ≤ p.frequency ∧ 0 ≤ p.lastRequest) :
    Compares freqComparator q where
  swap a ha b hb := by
    rw [Int32.lt_iff_toInt_lt, Int32.lt_iff_toInt_lt, toInt_freqComparator (hq a ha) (hq b hb),
      toInt_freqComparator (hq b hb) (hq a ha), Int32.toInt_zero]
    split_ifs <;> omega
  trans a ha b hb c hc := by
    rw [Int32.le_iff_toInt_le, Int32.le_iff_toInt_le, Int32.le_iff_toInt_le,
      toInt_freqComparator (hq a ha) (hq b hb), toInt_freqComparator (hq b hb) (hq c hc),
      toInt_freqComparator (hq a ha) (hq c hc), Int32.toInt_zero]
    split_ifs <;> omega

/-- The page that may come first: it has the fewest requests since it was loaded and, of several with
more than one, the latest. -/
theorem mayLead_iff (hq : ∀ p ∈ q, 1 ≤ p.frequency ∧ 0 ≤ p.lastRequest) :
    MayLead freqComparator q v ↔ v ∈ q ∧ ∀ u ∈ q, v.frequency < u.frequency ∨
      v.frequency = u.frequency ∧ (v.frequency = 1 ∨ u.lastRequest ≤ v.lastRequest) := by
  refine and_congr_right fun hv => ?_
  rw [imp_iff_right (freq_compares hq)]
  refine forall_congr' fun u => forall_congr' fun hu => ?_
  have hpos := Int32.le_iff_toInt_le.mp (hq v hv).1
  rw [Int32.toInt_one] at hpos
  rw [Int32.le_iff_toInt_le, toInt_freqComparator (hq v hv) (hq u hu), Int32.toInt_zero,
    Int32.lt_iff_toInt_lt, Int32.le_iff_toInt_le, ← Int32.toInt_inj, ← Int32.toInt_inj, Int32.toInt_one]
  split_ifs <;> omega

theorem requests_concat (rs : List Request) (r : Request) (page : UInt32) :
    requests (rs ++ [r]) page = requests rs page + if r.1 = page then 1 else 0 := by
  unfold requests
  rw [List.map_append, List.count_append, List.map_singleton, List.count_singleton]
  simp only [beq_iff_eq]

theorem requests_le_length (rs : List Request) (page : UInt32) : requests rs page ≤ rs.length := by
  have hle := List.count_le_length (a := page) (l := rs.map Prod.fst)
  rwa [List.length_map] at hle

/-- While every page is loaded once, its count is that of all requests for it. -/
structure Counts (rs : List Request) (st : Pager) : Prop where
  got : ∀ page, page ∈ st.got ↔ page ∈ rs.map Prod.fst
  pages : ∀ page ∈ st.pages, page ∈ st.got
  frequency : ∀ p ∈ st.pageQueue, p.frequency.toInt = requests rs p.pageNum

theorem toInt_add_one {x : Int32} {n : ℕ} (h : x.toInt = n) (hn : n + 1 < 2 ^ 31) :
    (x + 1).toInt = (n + 1 : ℕ) := by
  rw [Int32.toInt_add, Int32.toInt_one, Int.bmod_eq_of_le_mul_two (by omega) (by omega), h]
  rfl

namespace Counts

theorem hit (h : Counts rs st) (hnodup : st.pages.Nodup) (hmem : page ∈ st.pages)
    (hlength : rs.length + 1 < 2 ^ 31) : Counts (rs ++ [(page, now)])
      (st.modify page fun p => { p with frequency := p.frequency + 1, lastRequest := now }) where
  got u := by
    rw [List.map_append, List.mem_append, ← h.got, List.map_singleton, List.mem_singleton]
    refine (or_iff_left_of_imp ?_).symm
    rintro rfl
    exact h.pages u hmem
  pages u hu := by
    rw [modify_pages (by exact fun _ => rfl)] at hu
    exact h.pages u hu
  frequency p hp := by
    rw [Pager.modify, writeFound_eq_map hnodup] at hp
    obtain ⟨p₀, hp₀, rfl⟩ := List.mem_map.mp hp
    have hfreq := h.frequency p₀ hp₀
    have hle := requests_le_length rs p₀.pageNum
    by_cases hpage : p₀.pageNum = page
    · rw [if_pos hpage]
      dsimp only
      rw [requests_concat, if_pos hpage.symm]
      exact toInt_add_one hfreq (by omega)
    · rw [if_neg hpage, requests_concat, if_neg fun heq => hpage heq.symm]
      exact hfreq

theorem fault (h : Counts rs st) (hmem : page ∉ st.pages) (hgot : page ∉ st.got) :
    Counts (rs ++ [(page, now)]) ((st.install lib frame page now).sort lib freqComparator) := by
  have hqueue : ∀ p ∈ ((st.install lib frame page now).sort lib freqComparator).pageQueue,
      p ∈ st.pageQueue ∨ p = ⟨page, now, 1⟩ := fun p hp =>
    mem_install ((lib.perm _ _).mem_iff.mp hp)
  have hgot' : ((st.install lib frame page now).sort lib freqComparator).got = st.got ++ [page] := by
    unfold Pager.install Pager.makeRoom
    split_ifs
    · rfl
    · rfl
  refine ⟨fun u => ?_, fun u hu => ?_, fun p hp => ?_⟩
  · rw [hgot', List.map_append, List.mem_append, List.mem_append, h.got, List.map_singleton]
  · obtain ⟨p, hp, rfl⟩ := List.mem_map.mp hu
    rw [hgot', List.mem_append]
    refine (hqueue p hp).imp (fun hp => h.pages _ (List.mem_map_of_mem hp)) ?_
    rintro rfl
    exact List.mem_cons_self
  · rw [requests_concat]
    cases hqueue p hp with
    | inl hp =>
        have hne : page ≠ p.pageNum := fun heq => hmem (heq ▸ List.mem_map_of_mem hp)
        rw [if_neg hne]
        exact h.frequency p hp
    | inr heq =>
        subst heq
        have hnone : requests rs page = 0 :=
          List.count_eq_zero.mpr fun hm => hgot ((h.got page).mpr hm)
        rw [if_pos rfl, hnone]
        exact Int32.toInt_one

end Counts

theorem pagerRun_counts (hframe : 1 ≤ frame) (hlength : rs.length < 2 ^ 31)
    (hs : pagerRun lib .leastFrequentlyUsed frame rs = some st) (hnodup : st.got.Nodup) :
    Counts rs st := by
  induction rs using List.reverseRecOn generalizing st with
  | nil =>
      obtain rfl := Option.some.inj hs
      exact ⟨fun _ => Iff.rfl, nofun, nofun⟩
  | append_singleton rs r ih =>
      rw [List.length_append, List.length_singleton] at hlength
      obtain ⟨st₁, hst₁, hwithin⟩ := pagerRun_within lib .leastFrequentlyUsed hframe rs
      rw [pagerRun_concat hst₁] at hs
      obtain ⟨st₂, hst₂, hserved⟩ := request_served lib .leastFrequentlyUsed r.1 r.2 st₁ hframe
      obtain rfl := Option.some.inj (hs.symm.trans hst₂)
      have hgot := hserved.got
      have ih := ih (Nat.lt_of_succ_lt hlength) hst₁
        (hnodup.sublist (hgot ▸ List.sublist_append_left _ _))
      by_cases hmem : r.1 ∈ st₁.pages
      · obtain rfl := Option.some.inj (hs.symm.trans (lfu_hit hmem))
        exact ih.hit hwithin.nodup hmem hlength
      · rw [hgot, if_neg hmem, List.nodup_append] at hnodup
        obtain rfl := Option.some.inj (hs.symm.trans (lfu_install hframe hmem))
        exact ih.fault hmem fun hg => hnodup.2.2 _ hg _ List.mem_cons_self rfl

theorem got_sublist (hframe : 1 ≤ frame) {before after : List Request}
    (hs : pagerRun lib .leastFrequentlyUsed frame before = some st)
    (hs' : pagerRun lib .leastFrequentlyUsed frame (before ++ after) = some st') :
    st.got.Sublist st'.got := by
  induction after using List.reverseRecOn generalizing st' with
  | nil =>
      rw [List.append_nil] at hs'
      obtain rfl := Option.some.inj (hs.symm.trans hs')
      exact .refl _
  | append_singleton after r ih =>
      obtain ⟨st₁, hst₁, -⟩ := pagerRun_within lib .leastFrequentlyUsed hframe (before ++ after)
      rw [← List.append_assoc, pagerRun_concat hst₁] at hs'
      obtain ⟨st₂, hst₂, hserved⟩ := request_served lib .leastFrequentlyUsed r.1 r.2 st₁ hframe
      obtain rfl := Option.some.inj (hs'.symm.trans hst₂)
      rw [hserved.got]
      exact (ih hst₁).trans (List.sublist_append_left _ _)

theorem Timed.length_le (h : Timed rs) : rs.length ≤ 2 ^ 31 := by
  let times := rs.map fun r => r.2.toInt.toNat
  have hnodup : times.Nodup := by
    refine List.pairwise_map.mpr (h.increasing.imp_of_mem fun {a b} ha hb hlt heq => ?_)
    have ha := Int32.le_iff_toInt_le.mp (h.nonneg a ha)
    have hb := Int32.le_iff_toInt_le.mp (h.nonneg b hb)
    have hlt := Int32.lt_iff_toInt_lt.mp hlt
    rw [Int32.toInt_zero] at ha hb
    omega
  have hsubset : times ⊆ List.range (2 ^ 31) := by
    intro n hn
    obtain ⟨r, hr, rfl⟩ := List.mem_map.mp hn
    have hlt := r.2.toInt_lt
    rw [List.mem_range]
    omega
  have hle := (List.subperm_of_subset hnodup hsubset).length_le
  rwa [List.length_map, List.length_range] at hle

/-- **The count is the history while no page is loaded twice.** -/
theorem historyKept_of_loaded_once (hframe : 1 ≤ frame) (ht : Timed rs)
    (hs : pagerRun lib .leastFrequentlyUsed frame rs = some st) (hnodup : st.got.Nodup) :
    HistoryKept lib frame rs := by
  rintro before r after rfl st₁ hst₁ - - v hv u hu
  have hlength := ht.length_le
  rw [List.length_append, List.length_cons] at hlength
  have hcounts := pagerRun_counts hframe (by omega) hst₁
    (hnodup.sublist (got_sublist hframe hst₁ hs))
  have hrange : ∀ p ∈ st₁.pageQueue, 1 ≤ p.frequency ∧ 0 ≤ p.lastRequest := by
    intro p hp
    refine ⟨?_, run_times (P := (0 ≤ ·)) hframe hst₁ (fun r hr => ?_) p hp⟩
    · have hgot := (hcounts.got _).mp (hcounts.pages _ (List.mem_map_of_mem hp))
      have hpos : 0 < requests before p.pageNum := List.count_pos_iff.mpr hgot
      rw [Int32.le_iff_toInt_le, hcounts.frequency p hp, Int32.toInt_one]
      omega
    · exact ht.nonneg r (List.mem_append_left _ hr)
  obtain ⟨p, hp, rfl⟩ := List.mem_map.mp hu
  have hv' := ((mayLead_iff hrange).mp hv).2 p hp
  have hle : v.frequency ≤ p.frequency := by
    cases hv' with
    | inl hlt => exact Int32.le_of_lt hlt
    | inr heq => exact Int32.le_of_eq heq.1
  rw [Int32.le_iff_toInt_le, hcounts.frequency v hv.1, hcounts.frequency p hp] at hle
  exact Int.ofNat_le.mp hle

/-! ### All requests since `pager_init` -/

/-- **Infinite history.**  For every `queue_sort` the page given up has the fewest requests since
`pager_init` of the pages in memory, if and only if for every `queue_sort` the pages that may come
first do, whenever a page is given up. -/
theorem lfu_infinite_history_iff (frame : ℕ) (hframe : 1 ≤ frame) (rs : List Request)
    (hrs : rs.Pairwise fun a b => a.2 < b.2) :
    (∀ lib, EvictsFewest lib frame rs) ↔ ∀ lib, HistoryKept lib frame rs := by
  refine ⟨fun h lib before r after hsplit st hst hmem hfull v hv u hu => ?_,
    fun h lib => evictsFewest_of_historyKept hframe (h lib)⟩
  have hbefore : before.Pairwise fun a b => a.2 < b.2 :=
    (List.pairwise_append.mp (hsplit ▸ hrs)).1
  -- another sort leads here as well, and puts this page first
  obtain ⟨st₁, hst₁, hperm⟩ := pagerRun_favour_perm lib v hframe hbefore hst
  have hpages : st₁.pages.Perm st.pages := hperm.map _
  have hsort := favour_first lib hperm (hv.perm hperm.symm)
  obtain ⟨st', hst', hpages'⟩ := lfu_evicts r.2 hframe
    (fun hm => hmem (hpages.mem_iff.mp hm)) (hperm.length_eq ▸ hfull) hsort
  have hmem₁ : v ∈ st₁.pageQueue := hperm.mem_iff.mpr hv.1
  refine h _ before r after hsplit st₁ st' hst₁ hst' v.pageNum (List.mem_map_of_mem hmem₁) ?_ u
    (hpages.mem_iff.mpr hu)
  -- it is gone, since no page is there twice
  obtain ⟨st₂, hst₂, hwithin⟩ := pagerRun_within (lib.favour st.pageQueue v) .leastFrequentlyUsed
    hframe before
  obtain rfl := Option.some.inj (hst₁.symm.trans hst₂)
  have hold := ((lib.favour st.pageQueue v).perm freqComparator st₁.pageQueue).map Page.pageNum
  rw [hsort, List.map_cons] at hold
  intro hv'
  cases List.mem_cons.mp (hpages'.mem_iff.mp hv') with
  | inl heq => exact hmem (heq ▸ List.mem_map_of_mem hv.1)
  | inr hrest => exact (List.nodup_cons.mp (hold.nodup_iff.mpr hwithin.nodup)).1 hrest

/-- The page 7 is requested twice; the page 9 takes the frame of 8. -/
def loadedOnce : List Request := [(7, 0), (7, 1), (8, 2), (9, 3)]

theorem loadedOnce_got (lib : QueueSort) :
    ∃ st, pagerRun lib .leastFrequentlyUsed 2 loadedOnce = some st ∧ st.got = [7, 8, 9] := by
  have hnil : ∀ comparator, lib.sort comparator [] = [] := fun c => List.perm_nil.mp (lib.perm c [])
  have hone : ∀ comparator p, lib.sort comparator [p] = [p] := fun c p =>
    List.perm_singleton.mp (lib.perm c [p])
  have hrun : pagerRun lib .leastFrequentlyUsed 2 [(7, 0), (7, 1), (8, 2)] =
      some ⟨lib.sort freqComparator [⟨7, 1, 2⟩, ⟨8, 2, 1⟩], [7, 8], [], []⟩ := by
    simp [pagerRun, execute, pagerInit, pagerRequest, Pager.find_eq, innerEqualitor, Pager.modify, writeFound,
      Pager.sort, Pager.simGetPage, Pager.makeRoom, Pager.enqueue_eq, hnil, hone]
  obtain ⟨st, hst, hserved⟩ := request_served lib .leastFrequentlyUsed 9 3
    ⟨lib.sort freqComparator [⟨7, 1, 2⟩, ⟨8, 2, 1⟩], [7, 8], [], []⟩ (Nat.le_succ 1)
  have hpages := (lib.perm freqComparator [⟨7, 1, 2⟩, ⟨8, 2, 1⟩]).map Page.pageNum
  have hmem : 9 ∉ (lib.sort freqComparator [⟨7, 1, 2⟩, ⟨8, 2, 1⟩]).map Page.pageNum := fun h =>
    absurd (hpages.mem_iff.mp h) (by decide)
  exact ⟨st, (pagerRun_concat hrun (9, 3)).trans hst, hserved.got.trans (congrArg _ (if_neg hmem))⟩

/-- Of the pages 7, with two requests, and 8, with one, 8 is given up. -/
theorem lfu_infinite_history_three : EvictsFewest .insertionSort 2 loadedOnce ∧
    ∃ st, pagerRun .insertionSort .leastFrequentlyUsed 2 loadedOnce = some st ∧
      st.freed.map Page.pageNum = [8] := by
  refine ⟨(lfu_infinite_history_iff 2 (Nat.le_succ 1) loadedOnce (by decide)).mpr (fun lib => ?_)
    .insertionSort, _, rfl, rfl⟩
  obtain ⟨st, hst, hgot⟩ := loadedOnce_got lib
  exact historyKept_of_loaded_once (Nat.le_succ 1) ⟨by simp [loadedOnce], by simp [loadedOnce]⟩ hst
    (hgot ▸ by decide)

/-- The page 1 is requested twice, given up, and requested again; the page 2 is requested twice. -/
def reloaded : List Request := [(2, 0), (2, 1), (1, 2), (1, 3), (3, 4), (1, 5), (4, 6)]

/-- The last request takes the frame of the page 1, which was requested three times. -/
theorem lfu_forgets : ¬EvictsFewest .insertionSort 2 reloaded := by
  intro h
  have hle := h [(2, 0), (2, 1), (1, 2), (1, 3), (3, 4), (1, 5)] (4, 6) [] rfl _ _ rfl rfl
    1 (by decide) (by decide) 2 (by decide)
  exact absurd hle (by decide)

end CSE130.Assignment5
