import Mathlib.Data.Finset.Card
import Mathlib.Data.Finset.Filter
import Mathlib.Order.Basic

/-! # Raising along a chain of pointers

Every node points to at most one other node, and has a value.  The walk sets the value of a node to
`v`, goes on to the next node while that one is below `v`, and so on.  The pointers may form a
cycle: as the nodes behind have the value `v` by then, none is visited twice, and with finitely many
nodes the walk ends.  It visits what can be reached through nodes below `v`. -/

namespace CSE130

open Function (update)

variable {α β : Type*} [DecidableEq α] {next : α → Option α} {v : β} {p : α → β} {t g x : α}
  {ts : List α}

/-- The values after the walk. -/
def raised (v : β) (p : α → β) (ts : List α) : α → β := fun x => if x ∈ ts then v else p x

theorem raised_update : raised v (update p t v) ts = raised v p (t :: ts) := by
  funext x
  unfold raised
  by_cases hx : x ∈ ts
  · rw [if_pos hx, if_pos (List.mem_cons_of_mem t hx)]
  · rw [if_neg hx, Function.update_apply]
    simp only [List.mem_cons, hx, or_false]

variable [LinearOrder β]

/-- From `t` on the values `p` are raised to `v`, at the nodes `ts`. -/
inductive Raises (next : α → Option α) (v : β) : (α → β) → α → List α → Prop
  | stop {p : α → β} {t : α} (h : ∀ g, next t = some g → ¬ update p t v g < v) :
      Raises next v p t [t]
  | next {p : α → β} {t g : α} {ts : List α} (hg : next t = some g) (hlt : update p t v g < v)
      (h : Raises next v (update p t v) g ts) : Raises next v p t (t :: ts)

/-- What can be reached from `t` through nodes below `v`. -/
inductive Reached (next : α → Option α) (v : β) (p : α → β) (t : α) : α → Prop
  | start : Reached next v p t t
  | next {x g : α} : Reached next v p t x → next x = some g → p g < v → Reached next v p t g

theorem lt_of_update_lt (h : update p t v x < v) : x ≠ t ∧ p x < v := by
  have hne : x ≠ t := by
    rintro rfl
    rw [Function.update_self] at h
    exact lt_irrefl v h
  rw [Function.update_of_ne hne] at h
  exact ⟨hne, h⟩

theorem le_raised (h : ∀ x ∈ ts, p x ≤ v) (x : α) : p x ≤ raised v p ts x := by
  unfold raised
  split
  · rename_i hx
    exact h x hx
  · exact le_rfl

/-- A node that has the value `v` already is passed on the way, or it is the first. -/
theorem Reached.of_update (hfirst : Reached next v p t g)
    (h : Reached next v (update p t v) g x) : Reached next v p t x := by
  induction h with
  | start => exact hfirst
  | next _ hg hlt ih => exact .next ih hg (lt_of_update_lt hlt).2

namespace Raises

theorem start_mem (h : Raises next v p t ts) : t ∈ ts := by
  cases h with
  | stop => exact List.mem_singleton_self t
  | next => exact List.mem_cons_self

theorem lt_of_mem (h : Raises next v p t ts) (hx : x ∈ ts) : x = t ∨ p x < v := by
  induction h with
  | stop => exact Or.inl (List.mem_singleton.mp hx)
  | @next p t g ts hg hlt h ih =>
      rcases List.mem_cons.mp hx with rfl | hx
      · exact Or.inl rfl
      · rcases ih hx with rfl | hlt'
        · exact Or.inr (lt_of_update_lt hlt).2
        · exact Or.inr (lt_of_update_lt hlt').2

theorem nodup (h : Raises next v p t ts) : ts.Nodup := by
  induction h with
  | stop => exact List.nodup_singleton _
  | @next p t g ts hg hlt h ih =>
      refine List.nodup_cons.mpr ⟨fun ht => ?_, ih⟩
      rcases h.lt_of_mem ht with rfl | hlt'
      · exact (lt_of_update_lt hlt).1 rfl
      · exact (lt_of_update_lt hlt').1 rfl

/-- The walk does not stop before a node below `v`. -/
theorem closed (h : Raises next v p t ts) (hx : x ∈ ts) (hg : next x = some g) (hlt : p g < v) :
    g ∈ ts := by
  induction h with
  | @stop p t hstop =>
      obtain rfl := List.mem_singleton.mp hx
      by_cases hgx : g = x
      · exact List.mem_singleton.mpr hgx
      · refine absurd ?_ (hstop g hg)
        rwa [Function.update_of_ne hgx]
  | @next p t g' ts hg' hlt' h ih =>
      by_cases hgt : g = t
      · exact hgt ▸ List.mem_cons_self
      · rcases List.mem_cons.mp hx with rfl | hx
        · obtain rfl : g' = g := Option.some_inj.mp (hg'.symm.trans hg)
          exact List.mem_cons_of_mem _ h.start_mem
        · refine List.mem_cons_of_mem _ (ih hx ?_)
          rwa [Function.update_of_ne hgt]

theorem mem_of_reached (h : Raises next v p t ts) (hx : Reached next v p t x) : x ∈ ts := by
  induction hx with
  | start => exact h.start_mem
  | next _ hg hlt ih => exact h.closed ih hg hlt

theorem reached_of_mem (h : Raises next v p t ts) (hx : x ∈ ts) : Reached next v p t x := by
  induction h with
  | stop =>
      obtain rfl := List.mem_singleton.mp hx
      exact .start
  | @next p t g ts hg hlt h ih =>
      have hfirst : Reached next v p t g := .next .start hg (lt_of_update_lt hlt).2
      rcases List.mem_cons.mp hx with rfl | hx
      · exact .start
      · exact hfirst.of_update (ih hx)

theorem mem_iff (h : Raises next v p t ts) : x ∈ ts ↔ Reached next v p t x :=
  ⟨h.reached_of_mem, h.mem_of_reached⟩

end Raises

/-- **The walk ends**: the measure is the number of nodes below `v`. -/
theorem exists_raises (F : Finset α) (hF : ∀ t g, next t = some g → g ∈ F) (p : α → β) (t : α) :
    ∃ ts, Raises next v p t ts := by
  generalize hn : (F.filter (update p t v · < v)).card = n
  induction n using Nat.strong_induction_on generalizing p t with
  | _ n ih =>
      by_cases hgo : ∃ g, next t = some g ∧ update p t v g < v
      · obtain ⟨g, hg, hlt⟩ := hgo
        have hless : (F.filter (update (update p t v) g v · < v)).card < n := by
          rw [← hn]
          refine Finset.card_lt_card ⟨fun x hx => ?_, fun hsub => ?_⟩
          · obtain ⟨hxF, hx⟩ := Finset.mem_filter.mp hx
            exact Finset.mem_filter.mpr ⟨hxF, (lt_of_update_lt hx).2⟩
          · have hx := (Finset.mem_filter.mp (hsub (Finset.mem_filter.mpr ⟨hF t g hg, hlt⟩))).2
            exact (lt_of_update_lt hx).1 rfl
        obtain ⟨ts, hts⟩ := ih _ hless (update p t v) g rfl
        exact ⟨_, .next hg hlt hts⟩
      · exact ⟨_, .stop fun g hg hlt => hgo ⟨g, hg, hlt⟩⟩

end CSE130
