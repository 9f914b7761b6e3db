import CSE130.Assignment5.Pager
import CSE130.Lib.Recency

/-! # The least recently used page

A page carries the time of its last request, and the queue is sorted by it only when a page is not
there.  After the requests `rs`, made at increasing times, the queue has, in some order, the first
`frame` entries of `recents rs`: the distinct pages, the last requested first. -/

namespace CSE130.Assignment5

open Transition Recency

/-- A page with the time of its last request. -/
def Page.entry (p : Page) : Request := (p.pageNum, p.lastRequest)

/-- The queue has the `frame` pages that were requested most recently. -/
def Tracks (frame : ℕ) (rs : List Request) (st : Pager) : Prop :=
  (st.pageQueue.map Page.entry).Perm ((recents Prod.fst rs).take frame)

/-- `sim_time ()` never repeats, and is not negative. -/
structure Timed (rs : List Request) : Prop where
  nonneg : ∀ r ∈ rs, 0 ≤ r.2
  increasing : rs.Pairwise fun a b => a.2 < b.2

/-- The time of the last request for a page. -/
def lastTime (rs : List Request) (page : UInt32) : Option Int32 :=
  (rs.reverse.find? fun r => r.1 = page).map Prod.snd

variable {rs : List Request} {st st' : Pager} {page : UInt32} {now : Int32} {frame : ℕ}
  {lib : QueueSort}

/-! ### Sorting by time -/

theorem toInt_sub_of_nonneg {a b : Int32} (ha : 0 ≤ a) (hb : 0 ≤ b) :
    (a - b).toInt = a.toInt - b.toInt := by
  have ha' : 0 ≤ a.toInt := Int32.le_iff_toInt_le.mp ha
  have hb' : 0 ≤ b.toInt := Int32.le_iff_toInt_le.mp hb
  have ha₁ := a.toInt_lt
  have hb₁ := b.toInt_lt
  rw [Int32.toInt_sub, Int.bmod_eq_of_le (by omega) (by omega)]

theorem recent_nonpos {a b : Page} (ha : 0 ≤ a.lastRequest) (hb : 0 ≤ b.lastRequest) :
    recentComparator a b ≤ 0 ↔ a.lastRequest ≤ b.lastRequest := by
  rw [Int32.le_iff_toInt_le, Int32.le_iff_toInt_le, recentComparator, toInt_sub_of_nonneg ha hb,
    Int32.toInt_zero]
  omega

theorem recent_neg {a b : Page} (ha : 0 ≤ a.lastRequest) (hb : 0 ≤ b.lastRequest) :
    recentComparator a b < 0 ↔ a.lastRequest < b.lastRequest := by
  rw [Int32.lt_iff_toInt_lt, Int32.lt_iff_toInt_lt, recentComparator, toInt_sub_of_nonneg ha hb,
    Int32.toInt_zero]
  omega

theorem recent_pos {a b : Page} (ha : 0 ≤ a.lastRequest) (hb : 0 ≤ b.lastRequest) :
    0 < recentComparator a b ↔ b.lastRequest < a.lastRequest := by
  rw [← Int32.not_le, recent_nonpos ha hb, Int32.not_le]

theorem recent_compares {q : List Page} (hq : ∀ p ∈ q, 0 ≤ p.lastRequest) :
    Compares recentComparator q where
  swap a ha b hb := by rw [recent_neg (hq a ha) (hq b hb), recent_pos (hq b hb) (hq a ha)]
  trans a ha b hb c hc := by
    rw [recent_nonpos (hq a ha) (hq b hb), recent_nonpos (hq b hb) (hq c hc),
      recent_nonpos (hq a ha) (hq c hc)]
    exact Int32.le_trans

/-- A sorted queue lists its entries by time, whatever order they were in. -/
theorem sort_entries (lib : QueueSort) {q : List Page} {l : List Request} (hq : (q.map Page.entry).Perm l)
    (hl : l.Pairwise fun a b => a.2 < b.2) (hnonneg : ∀ r ∈ l, 0 ≤ r.2) :
    (lib.sort recentComparator q).map Page.entry = l := by
  have hpos : ∀ p ∈ q, 0 ≤ p.lastRequest := fun p hp =>
    hnonneg p.entry (hq.subset (List.mem_map_of_mem hp))
  have hperm : ((lib.sort recentComparator q).map Page.entry).Perm l :=
    ((lib.perm _ _).map _).trans hq
  have hsorted : ((lib.sort recentComparator q).map Page.entry).Pairwise fun a b => a.2 ≤ b.2 := by
    refine List.pairwise_map.mpr ((lib.sorted _ _ (recent_compares hpos)).imp_of_mem ?_)
    intro a b ha hb hle
    have hmem := (lib.perm recentComparator q).subset
    exact (recent_nonpos (hpos a (hmem ha)) (hpos b (hmem hb))).mp hle
  have hlt : ∀ {a b : Request}, a.2 < b.2 → a.2 ≤ b.2 := Int32.le_of_lt
  refine List.Perm.eq_of_pairwise ?_ hsorted (hl.imp hlt) hperm
  -- two entries with one time are one entry
  intro a b ha hb hab hba
  have hnodup : (l.map Prod.snd).Nodup :=
    List.pairwise_map.mpr (hl.imp fun {a b} (hlt : a.2 < b.2) heq => Int32.lt_irrefl (heq ▸ hlt))
  exact List.inj_on_of_nodup_map hnodup (hperm.subset ha) hb (Int32.le_antisymm hab hba)

/-! ### The most recent pages -/

theorem Tracks.pages (h : Tracks frame rs st) :
    st.pages.Perm (((recents Prod.fst rs).take frame).map Prod.fst) := by
  have hmap : st.pages = (st.pageQueue.map Page.entry).map Prod.fst := by
    rw [List.map_map]
    rfl
  exact hmap ▸ h.map Prod.fst

theorem Tracks.nodup (h : Tracks frame rs st) : st.pages.Nodup :=
  h.pages.nodup_iff.mpr ((keys_nodup rs).sublist ((List.take_sublist _ _).map _))

theorem Timed.recents_increasing (h : Timed rs) :
    ((recents Prod.fst rs).take frame).reverse.Pairwise fun a b => a.2 < b.2 :=
  List.pairwise_reverse.mpr ((recents_pairwise h.increasing).sublist (List.take_sublist _ _))

theorem Timed.recents_nonneg (h : Timed rs) {r : Request}
    (hr : r ∈ ((recents Prod.fst rs).take frame).reverse) : 0 ≤ r.2 :=
  h.nonneg r (List.mem_reverse.mp
    ((recents_sublist rs).subset (List.mem_of_mem_take (List.mem_reverse.mp hr))))

theorem modify_entries (hnodup : st.pages.Nodup) :
    (st.modify page fun p => { p with lastRequest := now }).pageQueue.map Page.entry =
      (st.pageQueue.map Page.entry).map fun e => if e.1 = page then (page, now) else e := by
  rw [Pager.modify, writeFound_eq_map hnodup, List.map_map, List.map_map]
  refine List.map_congr_left fun p _ => ?_
  by_cases hp : p.pageNum = page <;> simp [Page.entry, hp]

/-- Sorted, a full queue starts with the page that was requested least recently. -/
theorem Tracks.sort (lib : QueueSort) (h : Tracks (frame + 1) rs st) (ht : Timed rs)
    (hfull : frame + 1 ≤ st.pageQueue.length) :
    ∃ v q, lib.sort recentComparator st.pageQueue = v :: q ∧
      (recents Prod.fst rs).take (frame + 1) = (recents Prod.fst rs).take frame ++ [v.entry] ∧
      q.map Page.entry = ((recents Prod.fst rs).take frame).reverse := by
  have hsort := sort_entries lib (h.trans (List.reverse_perm _).symm)
    ht.recents_increasing fun r hr => ht.recents_nonneg hr
  have hlength : frame < (recents Prod.fst rs).length := by
    have := h.length_eq
    rw [List.length_map, List.length_take] at this
    omega
  have htake : (recents Prod.fst rs).take (frame + 1) = (recents Prod.fst rs).take frame ++
      [(recents Prod.fst rs)[frame]] := (List.take_append_getElem hlength).symm
  rw [htake, List.reverse_append, List.reverse_singleton, List.singleton_append,
    List.map_eq_cons_iff] at hsort
  obtain ⟨v, q, hq, hv, hrest⟩ := hsort
  exact ⟨v, q, hq, hv ▸ htake, hrest⟩

/-- A request keeps the most recent pages; the page freed is the last of them. -/
theorem Tracks.request (lib : QueueSort) (page : UInt32) (now : Int32) (h : Tracks frame rs st)
    (hframe : 1 ≤ frame) (ht : Timed rs) : ∃ st', pagerRequest lib .leastRecentlyUsed frame page now st = some st' ∧
      Tracks frame (rs ++ [(page, now)]) st' ∧
      (st'.freed = st.freed ∨ ∃ v, st'.freed = st.freed ++ [v] ∧
        (recents Prod.fst rs).take frame =
          (recents Prod.fst rs).take (frame - 1) ++ [v.entry]) := by
  obtain ⟨n, rfl⟩ : ∃ n, frame = n + 1 := ⟨frame - 1, by omega⟩
  by_cases hmem : page ∈ st.pages
  · refine ⟨_, lru_hit hmem, ?_, .inl rfl⟩
    have hkey := h.pages.mem_iff.mp hmem
    rw [Tracks, modify_entries h.nodup, recents_concat, take_touch_of_mem (keys_nodup rs) hkey]
    exact (h.map _).trans (map_perm_touch (a := (page, now)) (h.pages.nodup_iff.mp h.nodup) hkey)
  · have hkey := fun hkey => hmem (h.pages.mem_iff.mpr hkey)
    refine ⟨_, lru_fault hmem, ?_⟩
    rw [Tracks, recents_concat, take_touch_of_not_mem hkey]
    rcases Nat.lt_or_ge st.pageQueue.length (n + 1) with hroom | hfull
    · -- all pages requested so far are in the queue, and there is a frame left
      have hlength : (recents Prod.fst rs).length ≤ n := by
        have := h.length_eq
        rw [List.length_map, List.length_take] at this
        omega
      have hroom' : ¬ n + 1 ≤ ((st.simGetPage page).sort lib recentComparator).pageQueue.length := by
        rw [Pager.sort, (lib.perm _ _).length_eq]
        exact Nat.not_le.mpr hroom
      rw [Pager.makeRoom, if_neg hroom', List.take_of_length_le hlength]
      refine ⟨?_, .inl rfl⟩
      have hqueue : (st.pageQueue.map Page.entry).Perm (recents Prod.fst rs) := by
        rw [← List.take_of_length_le (Nat.le_succ_of_le hlength)]
        exact h
      rw [Pager.enqueue_eq, List.map_append]
      exact (List.perm_append_singleton _ _).trans
        ((((lib.perm _ _).map _).trans hqueue).cons (page, now))
    · obtain ⟨v, q, hq, htake, hrest⟩ := h.sort lib ht hfull
      have hfull' : n + 1 ≤ ((st.simGetPage page).sort lib recentComparator).pageQueue.length := by
        rw [Pager.sort, (lib.perm _ _).length_eq]
        exact hfull
      rw [Pager.makeRoom, if_pos hfull', release_eq hq]
      refine ⟨?_, .inr ⟨v, rfl, htake⟩⟩
      rw [Pager.enqueue_eq, List.map_append, hrest]
      exact (List.perm_append_singleton _ _).trans ((List.reverse_perm _).cons (page, now))

theorem tracks_nil (frame : ℕ) : Tracks frame [] pagerInit := by
  simp [Tracks, pagerInit]

theorem Timed.of_concat {r : Request} (ht : Timed (rs ++ [r])) : Timed rs where
  nonneg s hs := ht.nonneg s (List.mem_append_left _ hs)
  increasing := (List.pairwise_append.mp ht.increasing).1

theorem pagerRun_tracks (lib : QueueSort) (hframe : 1 ≤ frame) (ht : Timed rs) :
    ∃ st, pagerRun lib .leastRecentlyUsed frame rs = some st ∧ Tracks frame rs st := by
  induction rs using List.reverseRecOn with
  | nil => exact ⟨pagerInit, rfl, tracks_nil frame⟩
  | append_singleton rs r ih =>
      obtain ⟨st, hst, htracks⟩ := ih ht.of_concat
      obtain ⟨st', hst', htracks', -⟩ :=
        htracks.request lib r.1 r.2 hframe ht.of_concat
      exact ⟨st', (pagerRun_concat hst r).trans hst', htracks'⟩

theorem lastTime_of_mem {r : Request} (hr : r ∈ recents Prod.fst rs) :
    lastTime rs r.1 = some r.2 := by
  rw [lastTime, find_of_mem hr, Option.map_some]

/-- **The least recently used page**: after any requests at increasing times the pages in memory
are the `frame` distinct pages that were requested last, and a page that is given up was requested
before every other page in memory. -/
theorem lru_least_recent (lib : QueueSort) (frame : ℕ) (hframe : 1 ≤ frame) (rs : List Request)
    (ht : Timed rs) : ∃ st, pagerRun lib .leastRecentlyUsed frame rs = some st ∧
      st.pages.Perm ((rs.map Prod.fst).dedup.reverse.take frame) ∧
      st.pages.length = min frame (rs.map Prod.fst).dedup.length ∧
      ∀ page now, ∃ st' gone, pagerRequest lib .leastRecentlyUsed frame page now st = some st' ∧
        st'.freed = st.freed ++ gone ∧
        ∀ v ∈ gone, v.pageNum ∈ st.pages ∧
          ∀ u ∈ st.pages, u ≠ v.pageNum → ∃ tv tu,
            lastTime rs v.pageNum = some tv ∧ lastTime rs u = some tu ∧ tv < tu := by
  obtain ⟨st, hst, h⟩ := pagerRun_tracks lib hframe ht
  have hpages : st.pages.Perm ((rs.map Prod.fst).dedup.reverse.take frame) := by
    rw [← keys_recents, ← List.map_take]
    exact h.pages
  refine ⟨st, hst, hpages, ?_, fun page now => ?_⟩
  · rw [hpages.length_eq, List.length_take, List.length_reverse]
  · obtain ⟨st', hst', -, hfreed⟩ := h.request lib page now hframe ht
    rcases hfreed with hfreed | ⟨v, hfreed, htake⟩
    · exact ⟨st', [], hst', by rw [hfreed, List.append_nil], by simp⟩
    · refine ⟨st', [v], hst', hfreed, fun w hw => ?_⟩
      obtain rfl := List.mem_singleton.mp hw
      have hpages' := h.pages
      rw [htake, List.map_append] at hpages'
      have hv : w.entry ∈ (recents Prod.fst rs).take frame := by
        rw [htake]
        exact List.mem_append_right _ List.mem_cons_self
      refine ⟨hpages'.mem_iff.mpr (List.mem_append_right _ List.mem_cons_self), fun u hu hne => ?_⟩
      -- `u` is among the pages that were requested after the page given up
      have hu' := (List.mem_append.mp (hpages'.mem_iff.mp hu)).resolve_right
        fun h => hne (List.mem_singleton.mp h)
      obtain ⟨r, hr, rfl⟩ := List.mem_map.mp hu'
      have horder : ((recents Prod.fst rs).take frame).Pairwise fun a b => b.2 < a.2 :=
        (recents_pairwise ht.increasing).sublist (List.take_sublist _ _)
      rw [htake] at horder
      have hlt : w.entry.2 < r.2 :=
        (List.pairwise_append.mp horder).2.2 r hr _ List.mem_cons_self
      exact ⟨w.entry.2, r.2, lastTime_of_mem (r := w.entry) (List.mem_of_mem_take hv),
        lastTime_of_mem (List.mem_of_mem_take hr), hlt⟩

theorem lru_least_recent_two : ∃ st,
    pagerRun .mergeSort .leastRecentlyUsed 2 [(4, 0), (9, 5)] = some st ∧ st.pages.length = 2 := by
  obtain ⟨st, hst, -, hlength, -⟩ := lru_least_recent .mergeSort 2 (by decide) [(4, 0), (9, 5)]
    ⟨by simp, by simp⟩
  exact ⟨st, hst, hlength⟩

/-! ### One more frame -/

/-- What `n` frames have, `n + 1` frames have as well. -/
theorem Tracks.subset {n : ℕ} (h : Tracks n rs st) (h' : Tracks (n + 1) rs st')
    (hmem : page ∈ st.pages) : page ∈ st'.pages :=
  h'.pages.mem_iff.mpr (List.map_subset _ (List.take_sublist_take_left (Nat.le_succ n)).subset
    (h.pages.mem_iff.mp hmem))

theorem Tracks.request_served (lib : QueueSort) (h : Tracks frame rs st) (hframe : 1 ≤ frame)
    (ht : Timed rs) (r : Request) : ∃ st', pagerRequest lib .leastRecentlyUsed frame r.1 r.2 st = some st' ∧
      Tracks frame (rs ++ [r]) st' ∧ Served frame r.1 st st' := by
  obtain ⟨st', hst', htracks, -⟩ := h.request lib r.1 r.2 hframe ht
  obtain ⟨st₁, hst₁, hserved⟩ := CSE130.Assignment5.request_served lib .leastRecentlyUsed
    r.1 r.2 st hframe
  obtain rfl : st' = st₁ := Option.some.inj (hst'.symm.trans hst₁)
  exact ⟨st', hst', htracks, hserved⟩

theorem Tracks.got_le {n : ℕ} {st₁ st₁' : Pager} (h : Tracks n rs st) (h' : Tracks (n + 1) rs st')
    (hle : st'.got.length ≤ st.got.length) (hserved : Served n page st st₁)
    (hserved' : Served (n + 1) page st' st₁') : st₁'.got.length ≤ st₁.got.length := by
  rw [hserved.got, hserved'.got, List.length_append, List.length_append]
  by_cases hmem : page ∈ st.pages
  · rw [if_pos hmem, if_pos (h.subset h' hmem)]
    omega
  · rw [if_neg hmem]
    split_ifs <;> simp only [List.length_nil, List.length_singleton] <;> omega

/-- **The stack property**: one more frame has the same pages in memory and perhaps one more, and
the simulator is asked for a page no more often. -/
theorem lru_stack (lib : QueueSort) (n : ℕ) (hn : 1 ≤ n) (rs : List Request) (ht : Timed rs) :
    ∃ st st', pagerRun lib .leastRecentlyUsed n rs = some st ∧
      pagerRun lib .leastRecentlyUsed (n + 1) rs = some st' ∧
      (∀ p ∈ st.pages, p ∈ st'.pages) ∧ st'.got.length ≤ st.got.length := by
  suffices h : ∃ st st', pagerRun lib .leastRecentlyUsed n rs = some st ∧
      pagerRun lib .leastRecentlyUsed (n + 1) rs = some st' ∧
      Tracks n rs st ∧ Tracks (n + 1) rs st' ∧ st'.got.length ≤ st.got.length by
    obtain ⟨st, st', hst, hst', htracks, htracks', hle⟩ := h
    exact ⟨st, st', hst, hst', fun p => htracks.subset htracks', hle⟩
  induction rs using List.reverseRecOn with
  | nil =>
      exact ⟨pagerInit, pagerInit, rfl, rfl, tracks_nil n, tracks_nil (n + 1), Nat.le_refl _⟩
  | append_singleton rs r ih =>
      obtain ⟨st, st', hst, hst', htracks, htracks', hle⟩ := ih ht.of_concat
      obtain ⟨st₁, hst₁, htracks₁, hserved⟩ := htracks.request_served lib hn ht.of_concat r
      obtain ⟨st₁', hst₁', htracks₁', hserved'⟩ :=
        htracks'.request_served lib (Nat.le_succ_of_le hn) ht.of_concat r
      exact ⟨st₁, st₁', (pagerRun_concat hst r).trans hst₁, (pagerRun_concat hst' r).trans hst₁',
        htracks₁, htracks₁', htracks.got_le htracks' hle hserved hserved'⟩

theorem lru_stack_one : ∃ st st',
    pagerRun .mergeSort .leastRecentlyUsed 1 [(4, 0), (9, 5), (4, 6)] = some st ∧
    pagerRun .mergeSort .leastRecentlyUsed 2 [(4, 0), (9, 5), (4, 6)] = some st' ∧
    st'.got.length ≤ st.got.length := by
  obtain ⟨st, st', hst, hst', -, hle⟩ :=
    lru_stack .mergeSort 1 (by decide) [(4, 0), (9, 5), (4, 6)] ⟨by simp, by simp⟩
  exact ⟨st, st', hst, hst', hle⟩

end CSE130.Assignment5
