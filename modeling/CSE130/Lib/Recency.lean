import Mathlib.Data.List.Dedup
import Mathlib.Data.List.Induction

/-! # What was requested most recently

`recents key h` lists the requests of a history `h` (oldest first) that are the last of their key,
the most recent first.  A cache with `n` places that gives up the least recently used key holds the
first `n` of them: a request moves to the front (`touch`), and `take_touch_of_mem` and
`take_touch_of_not_mem` say what that does to the first `n`.  The caches of `n` and of `n + 1`
places differ by one key at most. -/

namespace CSE130.Recency

variable {α κ : Type*} [DecidableEq κ] (key : α → κ)

/-- The request `a` is now the most recent one, and the only one of its key. -/
def touch (l : List α) (a : α) : List α := a :: l.filter fun b => key b ≠ key a

/-- The last request of every key, most recent first. -/
def recents (h : List α) : List α := h.foldl (touch key) []

variable {key} {h l : List α} {a : α} {n : ℕ}

@[simp] theorem recents_nil : recents key [] = [] := rfl

theorem recents_concat (h : List α) (a : α) :
    recents key (h ++ [a]) = touch key (recents key h) a := by
  rw [recents, List.foldl_append]
  rfl

theorem touch_keys (l : List α) (a : α) :
    (touch key l a).map key = key a :: (l.map key).filter (· ≠ key a) := by
  rw [touch, List.map_cons, List.filter_map]
  rfl

theorem recents_sublist (h : List α) : (recents key h).Sublist h.reverse := by
  induction h using List.reverseRecOn with
  | nil => exact .slnil
  | append_singleton h a ih =>
      rw [recents_concat, List.reverse_concat]
      exact (List.filter_sublist.trans ih).cons_cons a

theorem recents_pairwise {r : α → α → Prop} (hr : h.Pairwise r) :
    (recents key h).Pairwise fun a b => r b a :=
  (List.pairwise_reverse.mpr hr).sublist (recents_sublist h)

theorem keys_nodup (h : List α) : ((recents key h).map key).Nodup := by
  induction h using List.reverseRecOn with
  | nil => exact List.nodup_nil
  | append_singleton h a ih =>
      rw [recents_concat, touch_keys]
      exact List.nodup_cons.mpr ⟨by simp, ih.filter _⟩

theorem dedup_concat (ks : List κ) (k : κ) :
    (ks ++ [k]).dedup = ks.dedup.filter (· ≠ k) ++ [k] := by
  induction ks with
  | nil => simp
  | cons k' ks ih =>
      rw [List.cons_append, List.dedup_cons, List.dedup_cons, ih]
      by_cases hmem : k' ∈ ks
      · rw [if_pos hmem, if_pos (List.mem_append_left _ hmem)]
      · by_cases hk : k' = k
        · rw [if_neg hmem, if_pos (by simp [hk]), List.filter_cons_of_neg (by simpa using hk)]
        · rw [if_neg hmem, if_neg (by simp [hmem, hk]), List.filter_cons_of_pos (by simpa using hk),
            List.cons_append]

/-- The keys are the distinct keys of the history, the last requested first. -/
theorem keys_recents (h : List α) : (recents key h).map key = (h.map key).dedup.reverse := by
  induction h using List.reverseRecOn with
  | nil => rfl
  | append_singleton h a ih =>
      rw [recents_concat, touch_keys, ih, List.map_append, List.map_singleton, dedup_concat,
        List.reverse_append, List.filter_reverse]
      rfl

theorem find_of_mem (ha : a ∈ recents key h) :
    h.reverse.find? (fun b => key b = key a) = some a := by
  induction h using List.reverseRecOn with
  | nil => cases ha
  | append_singleton h b ih =>
      rw [recents_concat, touch] at ha
      rw [List.reverse_concat]
      rcases List.mem_cons.mp ha with rfl | ha
      · exact List.find?_cons_of_pos (by simp)
      · have hne := List.of_mem_filter ha
        rw [List.find?_cons_of_neg (by simpa using fun h => (by simpa using hne : ¬ key a = key b) h.symm)]
        exact ih (List.mem_of_mem_filter ha)

theorem filter_eq_self {k : κ} (hk : k ∉ l.map key) : l.filter (fun b => key b ≠ k) = l := by
  refine List.filter_eq_self.mpr fun b hb => ?_
  have hne : key b ≠ k := fun h => hk (h ▸ List.mem_map_of_mem hb)
  simpa using hne

/-- A request written over the one of its key, where that one is. -/
theorem map_perm_touch : ∀ {l : List α}, (l.map key).Nodup → key a ∈ l.map key →
    (l.map fun b => if key b = key a then a else b).Perm (touch key l a)
  | [], _, ha => by simp at ha
  | b :: l, hl, ha => by
      rw [List.map_cons, List.nodup_cons] at hl
      rw [List.map_cons, touch]
      by_cases hb : key b = key a
      · have hne : ∀ c ∈ l, (if key c = key a then a else c) = c := by
          intro c hc
          rw [if_neg]
          intro hkey
          exact hl.1 (hb.trans hkey.symm ▸ List.mem_map_of_mem hc)
        rw [if_pos hb, List.filter_cons_of_neg (by simpa using hb), filter_eq_self (hb ▸ hl.1),
          List.map_congr_left hne, List.map_id']
      · have ha' : key a ∈ l.map key := (List.mem_cons.mp ha).resolve_left fun h => hb h.symm
        rw [if_neg hb, List.filter_cons_of_pos (by simpa using hb)]
        exact ((map_perm_touch hl.2 ha').cons b).trans (.swap a b _)

/-! ### The first `n` -/

/-- Without one of its first `n + 1` keys, a list has `n` of them left. -/
theorem take_filter {k : κ} : ∀ {l : List α} {n : ℕ}, (l.map key).Nodup →
    k ∈ (l.take (n + 1)).map key →
    (l.filter fun b => key b ≠ k).take n = (l.take (n + 1)).filter fun b => key b ≠ k
  | [], n, _, hk => by simp at hk
  | b :: l, n, hl, hk => by
      rw [List.map_cons, List.nodup_cons] at hl
      rw [List.take_succ_cons] at hk ⊢
      by_cases hb : key b = k
      · have hrest : k ∉ (l.take n).map key := fun h =>
          hl.1 (hb ▸ List.map_subset key (List.take_subset n l) h)
        rw [List.filter_cons_of_neg (by simpa using hb), List.filter_cons_of_neg (by simpa using hb),
          filter_eq_self (hb ▸ hl.1), filter_eq_self hrest]
      · rw [List.filter_cons_of_pos (by simpa using hb), List.filter_cons_of_pos (by simpa using hb)]
        have hk' : k ∈ (l.take n).map key := by
          rcases List.mem_cons.mp hk with h | h
          · exact absurd h.symm hb
          · exact h
        cases n with
        | zero => simp at hk'
        | succ n => rw [List.take_succ_cons, take_filter hl.2 hk']

theorem take_touch_of_mem (hl : (l.map key).Nodup) (ha : key a ∈ (l.take n).map key) :
    (touch key l a).take n = touch key (l.take n) a := by
  cases n with
  | zero => simp at ha
  | succ n => rw [touch, touch, List.take_succ_cons, take_filter hl ha]

theorem take_filter_of_not_mem {k : κ} : ∀ {l : List α} {n : ℕ}, k ∉ (l.take n).map key →
    (l.filter fun b => key b ≠ k).take n = l.take n
  | [], n, _ => rfl
  | b :: l, 0, _ => by simp
  | b :: l, n + 1, hk => by
      rw [List.take_succ_cons, List.map_cons, List.mem_cons, not_or] at hk
      have hb : key b ≠ k := fun h => hk.1 h.symm
      rw [List.filter_cons_of_pos (by simpa using hb), List.take_succ_cons, List.take_succ_cons,
        take_filter_of_not_mem hk.2]

/-- A request for another key: the last of the first `n + 1` leaves. -/
theorem take_touch_of_not_mem (ha : key a ∉ (l.take (n + 1)).map key) :
    (touch key l a).take (n + 1) = a :: l.take n := by
  have hn : key a ∉ (l.take n).map key := fun h =>
    ha (List.map_subset key ((List.take_sublist_take_left (Nat.le_succ n)).subset) h)
  rw [touch, List.take_succ_cons, take_filter_of_not_mem hn]

end CSE130.Recency
