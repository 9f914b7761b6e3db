import CSE130.Lab2.Mutex

/-! # `lock_acquire` under preemption

From its test `lock->holder != NULL` to its last use of the holder, `lock_acquire` reads the field
again and again and links the lock in the holder's `donators`, with interrupts on.  In `turn` the
timer may hand the processor to any ready thread between two statements: `switch p` is a
`thread_yield` in which the next thread is chosen by `p` in place of the priorities.

A thread is in the *window* of a lock while it relies on the holder (`Frame.reads`).  The window is
left alone (`Undisturbed`) if nobody clears `holder` while another thread is in it, and if no two
threads are between `list_contains` and `list_push_back` with the same lock.  Then the holder is
there at every use and the lock is linked once (`AcquireSafe`). -/

namespace CSE130.Lab2

open Function (update)
open Transition

variable {k k' : Kernel} {f g : Frame} {fs st : List Frame} {l m : Lock} {t u : Thread}
  {v : ℕ → BitVec 32} {h : List Event}

/-! ### Switches to any ready thread -/

/-- What may happen next: a statement, a call or a switch. -/
inductive Turn where
  | act (a : Action)
  | switch (p : Thread → ℤ)

/-- The kernel with other priorities. -/
def Kernel.prefer (k : Kernel) (p : Thread → ℤ) : Kernel := { k with priority := p }

/-- One step.  Statements are atomic, so nothing damages the lists. -/
def turn : Turn → Kernel → Option Kernel
  | .act (.race _ _), _ => none
  | .act a, k => step a k
  | .switch p, k =>
      if intrOff k then none
      else (k.prefer p).threadYield.map fun k' => k'.prefer k.priority

theorem turn_act {a : Action} (h : turn (.act a) k = some k') :
    step a k = some k' ∧ ∀ d p, a ≠ .race d p := by
  cases a with
  | race => cases h
  | _ => exact ⟨h, nofun⟩

theorem turn_switch {p : Thread → ℤ} (h : turn (.switch p) k = some k') :
    intrOff k = false ∧ ∃ t ready, NextThread (k.prefer p).yielding t ready ∧
      (k.prefer p).threadYield = some ((k.prefer p).yielding.dispatch t ready) ∧
      k' = k.yielding.dispatch t ready := by
  simp only [turn] at h
  split at h
  · cases h
  · rename_i hoff
    obtain ⟨k₁, h₁, rfl⟩ := Option.map_eq_some_iff.mp h
    obtain ⟨t, ready, hn, rfl⟩ := threadYield_spec h₁
    exact ⟨by simpa using hoff, t, ready, hn, h₁, rfl⟩

/-- Every state is also reached by the steps of `step`, with other priorities for the time of a
switch. -/
theorem reachable_turn {G : Kernel → Turn → Prop} (hr : Reachable turn G (boot v) k) :
    Reachable step anyAction (boot v) k := by
  refine hr.invariant .refl fun k b k' _ hi _ hs => ?_
  have hany (k : Kernel) (a : Action) : anyAction k a := trivial
  cases b with
  | act a => exact hi.tail (hany _ _) (turn_act hs).1
  | switch p =>
      obtain ⟨hoff, t, ready, -, hy, rfl⟩ := turn_switch hs
      have hfake : step (.race k.donators p) k = some (k.prefer p) := rfl
      have htimer : step .timer (k.prefer p) = some ((k.prefer p).yielding.dispatch t ready) := by
        have hoff' : intrOff (k.prefer p) = false := hoff
        simp only [step, hoff', Bool.false_eq_true, if_false, hy]
      exact ((hi.tail (hany _ _) hfake).tail (hany _ _) htimer).tail
        (hany _ (.race k.donators k.priority)) rfl

/-! ### The window -/

/-- The lock on whose holder the rest of `lock_acquire` or `donate` relies. -/
def Frame.reads : Frame → Option Lock
  | .lockAcquireContains l | .lockAcquirePush l | .lockAcquireDonator l => some l
  | .lockAcquireCompare l | .lockAcquireBlocker l | .donate l | .donateNext l => some l
  | _ => none

namespace Kernel

/-- `f` is the next statement of `t`. -/
def At (k : Kernel) (t : Thread) (f : Frame) : Prop := (k.stack t).head? = some f

/-- `t` is in the window of `l`. -/
def Reads (k : Kernel) (t : Thread) (l : Lock) : Prop := ∃ f, k.At t f ∧ f.reads = some l

instance : Decidable (k.At t f) := by
  unfold At
  infer_instance

instance : Decidable (k.Reads t l) :=
  decidable_of_iff ((k.stack t).head?.bind Frame.reads = some l) Option.bind_eq_some_iff

end Kernel

/-- The lock whose `holder` is cleared. -/
def Frame.clears : Frame → Option Lock
  | .lockRelease l => some l
  | _ => none

/-- The lock that is looked for in the holder's list. -/
def Frame.searches : Frame → Option Lock
  | .lockAcquireContains l => some l
  | _ => none

/-- The statement that is executed. -/
def Turn.frame (b : Turn) (k : Kernel) : Option Frame :=
  match b with
  | .act .run => k.code.head?
  | _ => none

/-- `lock_release(l)` clears `holder` only with nobody in the window of `l`, and `list_contains` comes
out false only with nobody about to push the same lock. -/
def Undisturbed (k : Kernel) (b : Turn) : Prop :=
  (∀ l ∈ (b.frame k).bind Frame.clears, ∀ t < k.threads, ¬ k.Reads t l) ∧
  ∀ l ∈ (b.frame k).bind Frame.searches, (∀ t ∈ k.holder l, l ∉ k.donators t) →
    ∀ t < k.threads, ¬ k.At t (.lockAcquirePush l)

instance (b : Turn) : Decidable (Undisturbed k b) := by
  unfold Undisturbed
  infer_instance

/-- The next statement dereferences `lock->holder` only if there is a holder, and links the lock
only in the holder's list, if it is in no list. -/
def AcquireSafe (k : Kernel) : Prop :=
  ∀ f l, k.At k.current f → f.reads = some l → (∃ t, k.holder l = some t) ∧
    (f = .lockAcquirePush l → ∀ t, l ∉ k.donators t)

/-- The invariant. -/
structure Acquiring (k : Kernel) : Prop where
  holder : ∀ t l, k.Reads t l → k.holder l ≠ none
  listed : ∀ t l, l ∈ k.donators t →
    k.holder l = some t ∨ k.At t (.lockReleaseRevoke l)
  nodup : ∀ t, (k.donators t).Nodup
  pushing : ∀ t l, k.At t (.lockAcquirePush l) → ∀ u, l ∉ k.donators u
  once : ∀ t u l, k.At t (.lockAcquirePush l) → k.At u (.lockAcquirePush l) → t = u
  donator : ∀ t l, l ∈ k.donators t →
    (∃ u, k.At u (.lockAcquireDonator l)) ∨ k.donator l ≠ none
  revoking : ∀ t l, k.At t (.lockReleaseRevoke l) → k.holder l = none ∧ ∀ u, ¬ k.Reads u l

theorem Acquiring.safe (hl : Acquiring k) : AcquireSafe k := fun f l hf hr =>
  ⟨Option.ne_none_iff_exists'.mp (hl.holder _ l ⟨f, hf, hr⟩),
    fun he => hl.pushing _ l (he ▸ hf)⟩

theorem boot_at (v : ℕ → BitVec 32) (h : (boot v).At t f) : f = .idle := by
  simp only [Kernel.At, boot] at h
  split at h
  · exact (Option.some.inj h).symm
  · cases h

theorem boot_acquiring (v : ℕ → BitVec 32) : Acquiring (boot v) where
  holder t l h := by
    obtain ⟨f, hf, hr⟩ := h
    rw [boot_at v hf] at hr
    cases hr
  listed := nofun
  nodup _ := List.nodup_nil
  pushing t l _ := nofun
  once t u l h := by cases boot_at v h
  donator := nofun
  revoking t l h := by cases boot_at v h

/-! ### One step -/

theorem WellStacked.below (hw : WellStacked (f :: st)) (hg : st.head? = some g) :
    g.reads = none ∧ ∀ l, g ≠ .lockReleaseRevoke l := by
  rcases Below.mem hw (List.mem_of_head? hg) with h | ⟨l, rfl | ⟨rfl, -⟩⟩
  · cases g <;> first | exact h.elim | exact ⟨rfl, nofun⟩
  · exact ⟨rfl, nofun⟩
  · exact ⟨rfl, nofun⟩

theorem Flow.reads (hf : Flow k f fs) (hw : WellStacked (f :: st)) (hr : f.reads = none)
    (ha : ∀ l, f ≠ .lockAcquire l) (hrel : ∀ l, f ≠ .lockRelease l)
    (hg : (fs ++ st).head? = some g) : g.reads = none ∧ ∀ l, g ≠ .lockReleaseRevoke l := by
  cases hf with
  | ret => exact hw.below hg
  | acquireFree l | acquireHeld l => exact absurd rfl (ha l)
  | release l => exact absurd rfl (hrel l)
  | containsTrue | containsFalse | push | donator | compareTrue | compareFalse | blocker
  | donate | donateNext => cases hr
  | _ =>
      cases hg
      exact ⟨rfl, nofun⟩

/-- The running thread goes to its next statement; fields are left alone, set where the window
does not look, or cleared with nothing linked. -/
theorem Acquiring.move (hl : Acquiring k) (hst : ∀ u, u ≠ k.current → k'.stack u = k.stack u)
    (hh : ∀ l, k.holder l ≠ none → k'.holder l = k.holder l)
    (hfree : ∀ t l, t ≠ k.current → k.At t (.lockReleaseRevoke l) → k'.holder l = none)
    (hd : ∀ t, k'.donators t ⊆ k.donators t) (hnd : ∀ t, (k'.donators t).Nodup)
    (hn : ∀ t l, l ∈ k'.donators t →
      k.donator l ≠ none ∨ k.At k.current (.lockAcquireDonator l) → k'.donator l ≠ none)
    (hr : ∀ l, k'.Reads k.current l → k.holder l ≠ none)
    (hp : ∀ l, k'.At k.current (.lockAcquirePush l) → (∀ u, l ∉ k.donators u) ∧
      ∀ u, u ≠ k.current → ¬ k.At u (.lockAcquirePush l))
    (hv : ∀ l, k.At k.current (.lockReleaseRevoke l) → l ∉ k'.donators k.current)
    (hv' : ∀ l, ¬ k'.At k.current (.lockReleaseRevoke l)) : Acquiring k' := by
  have hat {u : Thread} {f : Frame} (hu : u ≠ k.current) : k'.At u f ↔ k.At u f := by
    unfold Kernel.At
    rw [hst u hu]
  have hreads {u : Thread} {l : Lock} (hu : k'.Reads u l) : k.holder l ≠ none := by
    by_cases he : u = k.current
    · exact hr l (he ▸ hu)
    · obtain ⟨f, hf, hfl⟩ := hu
      exact hl.holder u l ⟨f, (hat he).mp hf, hfl⟩
  refine ⟨fun t l ht => ?_, fun t l ht => ?_, hnd, fun t l ht u hu => ?_, fun t u l ht hu => ?_,
    fun t l ht => ?_, fun t l ht => ?_⟩
  · rw [hh l (hreads ht)]
    exact hreads ht
  · rcases hl.listed t l (hd t ht) with h | h
    · left
      rw [hh l (by rw [h]; nofun), h]
    · by_cases he : t = k.current
      · subst he
        exact absurd ht (hv l h)
      · exact .inr ((hat he).mpr h)
  · by_cases he : t = k.current
    · exact (hp l (he ▸ ht)).1 u (hd u hu)
    · exact hl.pushing t l ((hat he).mp ht) u (hd u hu)
  · by_cases he : t = k.current
    · by_cases he' : u = k.current
      · rw [he, he']
      · exact absurd ((hat he').mp hu) ((hp l (he ▸ ht)).2 u he')
    · by_cases he' : u = k.current
      · exact absurd ((hat he).mp ht) ((hp l (he' ▸ hu)).2 t he)
      · exact hl.once t u l ((hat he).mp ht) ((hat he').mp hu)
  · rcases hl.donator t l (hd t ht) with ⟨u, hu⟩ | h
    · by_cases he : u = k.current
      · exact .inr (hn t l ht (.inr (he ▸ hu)))
      · exact .inl ⟨u, (hat he).mpr hu⟩
    · exact .inr (hn t l ht (.inl h))
  · by_cases he : t = k.current
    · subst he
      exact absurd ht (hv' l)
    · have ht := (hat he).mp ht
      exact ⟨hfree t l he ht, fun u hu => hreads hu (hl.revoking t l ht).1⟩

theorem at_update (hst : k'.stack = update k.stack k.current (g :: fs)) :
    k'.At t f ↔ if t = k.current then f = g else k.At t f := by
  unfold Kernel.At
  rw [hst, Function.update_apply]
  split
  · rw [List.head?_cons, Option.some.injEq, eq_comm]
  · rfl

theorem push_popped (k : Kernel) (st : List Frame) (g : Frame) :
    ((k.popped st).push g).stack = update k.stack k.current (g :: st) := by simp

theorem push_push_popped (k : Kernel) (st : List Frame) (g f : Frame) :
    (((k.popped st).push g).push f).stack = update k.stack k.current (f :: g :: st) := by simp

theorem at_code (hcode : k.code = f :: st) : k.At k.current g ↔ g = f := by
  have hcode : k.stack k.current = f :: st := hcode
  rw [Kernel.At, hcode, List.head?_cons, Option.some.injEq, eq_comm]

namespace Acquiring

theorem goto (hl : Acquiring k) (hcode : k.code = f :: st)
    (hst : k'.stack = update k.stack k.current (g :: fs)) (hh : k'.holder = k.holder)
    (hd : k'.donators = k.donators)
    (hn : ∀ l, k.donator l ≠ none ∨ f = .lockAcquireDonator l → k'.donator l ≠ none)
    (hf : ∀ l, f ≠ .lockReleaseRevoke l) (hg : ∀ l, g ≠ .lockReleaseRevoke l)
    (hr : ∀ l, g.reads = some l → k.holder l ≠ none)
    (hp : ∀ l, g = .lockAcquirePush l → (∀ u, l ∉ k.donators u) ∧
      ∀ u, u ≠ k.current → ¬ k.At u (.lockAcquirePush l)) : Acquiring k' := by
  have htop (f' : Frame) : k'.At k.current f' ↔ f' = g := by rw [at_update hst, if_pos rfl]
  refine hl.move (fun u hu => by rw [hst, Function.update_of_ne hu]) (fun l _ => by rw [hh])
    (fun t l _ ht => by rw [hh]; exact (hl.revoking t l ht).1) (fun t => hd ▸ List.Subset.refl _)
    (fun t => by rw [hd]; exact hl.nodup t) (fun t l _ h => ?_) (fun l ⟨f', hf', hfl⟩ => ?_)
    (fun l h => hp l ((htop _).mp h).symm) (fun l h => ?_) fun l h => hg l ((htop _).mp h).symm
  · exact hn l (h.imp_right fun h => ((at_code hcode).mp h).symm)
  · rw [(htop f').mp hf'] at hfl
    exact hr l hfl
  · exact absurd ((at_code hcode).mp h).symm (hf l)

/-- A statement that goes on to `g`, in the window of a lock that has a holder. -/
theorem into (hl : Acquiring k) (hcode : k.code = f :: st) (ho : k.holder l ≠ none)
    (hst : k'.stack = update k.stack k.current (g :: fs)) (hh : k'.holder = k.holder)
    (hd : k'.donators = k.donators) (hn : k'.donator = k.donator) (hr : g.reads = some l)
    (hf : ∀ l, f ≠ .lockAcquireDonator l ∧ f ≠ .lockReleaseRevoke l)
    (hg : ∀ l, g ≠ .lockAcquirePush l) : Acquiring k' := by
  refine hl.goto hcode hst hh hd (fun m h => ?_) (fun m => (hf m).2) (fun m h => ?_) (fun m h => ?_)
    fun m h => absurd h (hg m)
  · rw [hn]
    exact h.resolve_right (hf m).1
  · rw [h] at hr
    cases hr
  · rw [hr, Option.some.injEq] at h
    exact h ▸ ho

/-- A statement outside the window; `holder` may be set by the owner of the lock. -/
theorem plain (hl : Acquiring k) (hcode : k.code = f :: st)
    (hst : k'.stack = update k.stack k.current (fs ++ st))
    (hh : ∀ l, k'.holder l = k.holder l ∨
      k.holder l = none ∧ ∀ t, ¬ k.At t (.lockReleaseRevoke l))
    (hd : ∀ t, k'.donators t = k.donators t ∨ k'.donators t = []) (hn : k'.donator = k.donator)
    (hf : ∀ l, f ≠ .lockAcquireDonator l ∧ f ≠ .lockReleaseRevoke l)
    (hg : ∀ g, (fs ++ st).head? = some g → g.reads = none ∧ ∀ l, g ≠ .lockReleaseRevoke l) :
    Acquiring k' := by
  have htop {g : Frame} (h : k'.At k.current g) :
      g.reads = none ∧ ∀ l, g ≠ .lockReleaseRevoke l := by
    apply hg
    rwa [Kernel.At, hst, Function.update_self] at h
  refine hl.move (fun u hu => by rw [hst, Function.update_of_ne hu]) (fun l h => ?_)
    (fun t l _ ht => ?_) (fun t => ?_) (fun t => ?_) (fun t l _ h => ?_)
    (fun l ⟨g, hg, hgl⟩ => ?_) (fun l h => ?_) (fun l h => ?_) fun l h => (htop h).2 l rfl
  · exact (hh l).resolve_right fun h' => h h'.1
  · rw [(hh l).resolve_right fun h' => h'.2 t ht]
    exact (hl.revoking t l ht).1
  · rcases hd t with h | h <;> simp [h]
  · rcases hd t with h | h <;> simp [h, hl.nodup t]
  · rw [hn]
    exact h.resolve_right fun h => (hf l).1 ((at_code hcode).mp h).symm
  · rw [(htop hg).1] at hgl
    cases hgl
  · cases (htop h).1
  · exact absurd ((at_code hcode).mp h).symm (hf l).2

theorem link (hl : Acquiring k) (hcode : k.code = .lockAcquirePush l :: st)
    (ho : k.holder l = some t)
    (hst : k'.stack = update k.stack k.current (.lockAcquireDonator l :: st))
    (hh : k'.holder = k.holder) (hd : k'.donators = update k.donators t (k.donators t ++ [l]))
    (hn : k'.donator = k.donator) : Acquiring k' := by
  have hcur : k.At k.current (.lockAcquirePush l) := (at_code hcode).mpr rfl
  have hlinked := hl.pushing _ _ hcur
  have hmem {u : Thread} {m : Lock} (h : m ∈ k'.donators u) :
      m ∈ k.donators u ∨ (u = t ∧ m = l) := by
    rw [hd, Function.update_apply] at h
    split at h
    · rename_i he
      subst he
      rcases List.mem_append.mp h with h | h
      · exact .inl h
      · exact .inr ⟨rfl, List.mem_singleton.mp h⟩
    · exact .inl h
  -- nobody else is at a statement of this kind
  have hold {u : Thread} {f : Frame} (h : k'.At u f)
      (hne : f ≠ .lockAcquireDonator l) : u ≠ k.current ∧ k.At u f := by
    rw [at_update hst] at h
    split at h
    · exact absurd h hne
    · rename_i he
      exact ⟨he, h⟩
  have hkeep {u : Thread} {f : Frame} (hne : f ≠ .lockAcquirePush l) (h : k.At u f) :
      k'.At u f := by
    rw [at_update hst, if_neg]
    · exact h
    · rintro rfl
      exact hne ((at_code hcode).mp h)
  have hreads {u : Thread} {m : Lock} (h : k'.Reads u m) : m = l ∨ k.Reads u m := by
    obtain ⟨f, hf, hfm⟩ := h
    by_cases he : f = .lockAcquireDonator l
    · rw [he] at hfm
      exact .inl (Option.some.inj hfm).symm
    · exact .inr ⟨f, (hold hf he).2, hfm⟩
  refine ⟨fun u m h => ?_, fun u m h => ?_, fun u => ?_, fun u m h w hw => ?_,
    fun u w m h h' => ?_, fun u m h => ?_, fun u m h => ?_⟩
  · rw [hh]
    rcases hreads h with rfl | h
    · rw [ho]
      nofun
    · exact hl.holder u m h
  · rw [hh]
    rcases hmem h with h | ⟨rfl, rfl⟩
    · exact (hl.listed u m h).imp_right (hkeep nofun)
    · exact .inl ho
  · rw [hd, Function.update_apply]
    split
    · rename_i he
      subst he
      refine List.nodup_append.mpr ⟨hl.nodup u, List.nodup_singleton l, fun a ha b hb => ?_⟩
      rw [List.mem_singleton.mp hb]
      rintro rfl
      exact hlinked u ha
    · exact hl.nodup u
  · obtain ⟨hu, h⟩ := hold h nofun
    rcases hmem hw with hw | ⟨-, rfl⟩
    · exact hl.pushing u m h w hw
    · exact hu (hl.once u _ m h hcur)
  · exact hl.once u w m (hold h nofun).2 (hold h' nofun).2
  · rw [hn]
    rcases hmem h with h | ⟨-, rfl⟩
    · exact (hl.donator u m h).imp_left fun ⟨w, hw⟩ => ⟨w, hkeep nofun hw⟩
    · exact .inl ⟨k.current, by rw [at_update hst, if_pos rfl]⟩
  · obtain ⟨hnone, hno⟩ := hl.revoking u m (hold h nofun).2
    refine ⟨hh ▸ hnone, fun w hw => ?_⟩
    rcases hreads hw with rfl | hw
    · rw [ho] at hnone
      cases hnone
    · exact hno w hw

theorem clear (hl : Acquiring k) (hcode : k.code = .lockRelease l :: st)
    (ho : k.holder l = some k.current)
    (hst : k'.stack = update k.stack k.current (.lockReleaseRevoke l :: st))
    (hh : k'.holder = update k.holder l none) (hd : k'.donators = k.donators)
    (hn : k'.donator = k.donator) (hq : ∀ t, ¬ k.Reads t l) : Acquiring k' := by
  have hold {u : Thread} {f : Frame} (h : k'.At u f) (hne : f ≠ .lockReleaseRevoke l) :
      k.At u f := by
    rw [at_update hst] at h
    split at h
    · exact absurd h hne
    · exact h
  have hkeep {u : Thread} {f : Frame} (hne : f ≠ .lockRelease l) (h : k.At u f) : k'.At u f := by
    rw [at_update hst, if_neg]
    · exact h
    · rintro rfl
      exact hne ((at_code hcode).mp h)
  have hreads {u : Thread} {m : Lock} (h : k'.Reads u m) : k.Reads u m := by
    obtain ⟨f, hf, hfm⟩ := h
    refine ⟨f, hold hf ?_, hfm⟩
    rintro rfl
    cases hfm
  have hholder {m : Lock} (h : m ≠ l) : k'.holder m = k.holder m := by
    rw [hh, Function.update_of_ne h]
  refine ⟨fun u m h => ?_, fun u m h => ?_, fun u => hd ▸ hl.nodup u, fun u m h => ?_,
    fun u w m h h' => hl.once u w m (hold h nofun) (hold h' nofun), fun u m h => ?_,
    fun u m h => ?_⟩
  · have h := hreads h
    rw [hholder (by rintro rfl; exact hq u h)]
    exact hl.holder u m h
  · rw [hd] at h
    by_cases he : m = l
    · subst he
      rcases hl.listed u m h with h | h
      · rw [ho, Option.some.injEq] at h
        exact .inr (by rw [at_update hst, if_pos h.symm])
      · exact .inr (hkeep nofun h)
    · rw [hholder he]
      exact (hl.listed u m h).imp_right (hkeep nofun)
  · rw [hd]
    exact hl.pushing u m (hold h nofun)
  · rw [hd] at h
    rw [hn]
    exact (hl.donator u m h).imp_left fun ⟨w, hw⟩ => ⟨w, hkeep nofun hw⟩
  · by_cases he : m = l
    · subst he
      exact ⟨by rw [hh, Function.update_self], fun w hw => hq w (hreads hw)⟩
    · obtain ⟨hnone, hno⟩ := hl.revoking u m (hold h fun h' => he (by injection h'))
      exact ⟨(hholder he).trans hnone, fun w hw => hno w (hreads hw)⟩

theorem revoked (hl : Acquiring k) (hcode : k.code = .lockReleaseRevoke l :: st)
    (hst : k'.stack = update k.stack k.current (.semaphoreUp (.lock l) :: st))
    (hh : k'.holder = k.holder) (hn : k'.donator = update k.donator l none)
    (hd : k'.donators = k.donators ∧ k.donator l = none ∨
      ∃ ds, k'.donators = update (fun t => (k.donators t).erase l) k.current ds ∧
        List.Perm ds ((k.donators k.current).erase l)) : Acquiring k' := by
  have hcur : k.At k.current (.lockReleaseRevoke l) := (at_code hcode).mpr rfl
  have herase {t : Thread} {ds : List Lock}
      (h : k'.donators = update (fun t => (k.donators t).erase l) k.current ds)
      (hp : List.Perm ds ((k.donators k.current).erase l)) :
      List.Perm (k'.donators t) ((k.donators t).erase l) := by
    rw [h, Function.update_apply]
    split
    · rename_i he
      rw [he]
      exact hp
    · rfl
  have hgone (t : Thread) : l ∉ k'.donators t := by
    rcases hd with ⟨h, hnone⟩ | ⟨ds, h, hp⟩
    · -- it is in none: nobody is about to set `lock->donator`
      rw [h]
      intro hmem
      rcases hl.donator t l hmem with ⟨u, hu⟩ | hsome
      · exact (hl.revoking _ l hcur).2 u ⟨_, hu, rfl⟩
      · exact hsome hnone
    · intro hmem
      exact (hl.nodup t).not_mem_erase ((herase h hp).subset hmem)
  refine hl.move (fun u hu => by rw [hst, Function.update_of_ne hu]) (fun l _ => by rw [hh])
    (fun t l _ ht => by rw [hh]; exact (hl.revoking t l ht).1) (fun t => ?_) (fun t => ?_)
    (fun t m hm h => ?_) (fun m ⟨f, hf, hfm⟩ => ?_) (fun m h => ?_) (fun m h => ?_) fun m h => ?_
  · rcases hd with ⟨h, -⟩ | ⟨ds, h, hp⟩
    · rw [h]
      exact List.Subset.refl _
    · exact fun m hm => List.mem_of_mem_erase ((herase h hp).subset hm)
  · rcases hd with ⟨h, -⟩ | ⟨ds, h, hp⟩
    · rw [h]
      exact hl.nodup t
    · exact (herase h hp).nodup_iff.mpr ((hl.nodup t).erase l)
  · have hne : m ≠ l := by
      rintro rfl
      exact hgone t hm
    rw [hn, Function.update_of_ne hne]
    exact h.resolve_right fun h => by cases (at_code hcode).mp h
  · rw [at_update hst, if_pos rfl] at hf
    rw [hf] at hfm
    cases hfm
  · rw [at_update hst, if_pos rfl] at h
    cases h
  · cases (at_code hcode).mp h
    exact hgone _
  · rw [at_update hst, if_pos rfl] at h
    cases h

theorem exec (hl : Acquiring k) (hk : Consistent k) (hg : ∀ l, ∃ h, Guarded l h k)
    (hq : Undisturbed k (.act .run)) (hcode : k.code = f :: st)
    (hx : Exec f (k.popped st) k') : Acquiring k' := by
  have hw : WellStacked (f :: st) := hcode ▸ hk.control.shape k.current
  obtain ⟨fs, hf, hst⟩ := hx.flow (hk.control.fresh _ le_rfl) hk.threads.current_lt.ne
  have hplain (hr : f.reads = none) (ha : ∀ l, f ≠ .lockAcquire l)
      (hrel : ∀ l, f ≠ .lockRelease l) (g : Frame) (hg : (fs ++ st).head? = some g) :
      g.reads = none ∧ ∀ l, g ≠ .lockReleaseRevoke l := hf.reads hw hr ha hrel hg
  have hret : (k.popped st).stack = update k.stack k.current ([] ++ st) := rfl
  have hfree {l : Lock} {t : Thread} (ho : k.holder l = some t) : k.holder l ≠ none := by
    rw [ho]
    simp
  have hlt {u : Thread} {f : Frame} (hu : k.At u f) : u < k.threads := by
    by_contra hge
    rw [Kernel.At, hk.control.fresh u (not_lt.mp hge)] at hu
    cases hu
  have hframe : (Turn.act .run).frame k = some f := by
    rw [Turn.frame, hcode, List.head?_cons]
  rw [Undisturbed, hframe] at hq
  cases hx with
  | @acquireFree _ l ho =>
      exact hl.goto (g := .lockAcquireDown l) hcode (push_popped ..) rfl rfl
        (fun _ h => h.resolve_right (by simp)) (by simp) (by simp) (by simp [Frame.reads]) (by simp)
  | acquireHeld ho =>
      exact hl.into hcode (hfree ho) (push_popped ..) rfl rfl rfl rfl
        (fun _ => ⟨by simp, by simp⟩) (by simp)
  | @containsTrue _ _ _ ho =>
      exact hl.into hcode (hfree ho) (push_popped ..) rfl rfl rfl rfl
        (fun _ => ⟨by simp, by simp⟩) (by simp)
  | @containsFalse _ l o ho hm =>
      refine hl.goto (g := .lockAcquirePush l) hcode (push_popped ..) rfl rfl
        (fun _ h => h.resolve_right (by simp)) (by simp) (by simp)
        (fun _ h => by cases h; exact hfree ho)
        fun m h => ?_
      cases h
      have ho : k.holder l = some o := ho
      refine ⟨fun u hu => ?_, fun u _ hu => hq.2 l rfl (fun t ht => ?_) u (hlt hu) hu⟩
      · rcases hl.listed u l hu with h | h
        · rw [ho, Option.some.injEq] at h
          exact hm (h ▸ hu)
        · exact hfree ho (hl.revoking u l h).1
      · rw [ho, Option.mem_some_iff] at ht
        exact ht ▸ hm
  | push ho => exact hl.link hcode ho (push_popped ..) rfl rfl rfl
  | @donator _ l =>
      refine hl.goto (g := .lockAcquireCompare l) hcode (push_popped ..) rfl rfl
        (fun m h => ?_) (by simp) (by simp) (fun _ h => ?_) (by simp)
      · simp only [Kernel.push, Function.update_apply]
        split
        · simp
        · rename_i hne
          exact h.resolve_right fun h => hne (by cases h; rfl)
      · cases h
        exact hl.holder _ l ⟨_, (at_code hcode).mpr rfl, rfl⟩
  | compareTrue ho =>
      exact hl.into hcode (hfree ho) (push_popped ..) rfl rfl rfl rfl
        (fun _ => ⟨by simp, by simp⟩) (by simp)
  | @compareFalse _ l _ ho =>
      exact hl.goto (g := .lockAcquireDown l) hcode (push_popped ..) rfl rfl
        (fun _ h => h.resolve_right (by simp)) (by simp) (by simp) (by simp [Frame.reads]) (by simp)
  | @blocker _ l =>
      have ho := hl.holder _ l ⟨_, (at_code hcode).mpr rfl, rfl⟩
      exact hl.into hcode ho (push_push_popped ..) rfl rfl rfl rfl
        (fun _ => ⟨by simp, by simp⟩) (by simp)
  | donate ho =>
      exact hl.into hcode (hfree ho) (push_popped ..) rfl rfl rfl rfl
        (fun _ => ⟨by simp, by simp⟩) (by simp)
  | @donateNext _ _ m _ _ _ _ hm =>
      exact hl.into hcode (hfree hm) (push_popped ..) rfl rfl rfl rfl
        (fun _ => ⟨by simp, by simp⟩) (by simp)
  | donateEnd | donateStop =>
      exact hl.plain hcode hret (fun _ => .inl rfl) (fun _ => .inl rfl) rfl
        (fun _ => ⟨by simp, by simp⟩) fun g hg => hw.below hg
  | @hold _ l =>
      refine hl.plain hcode hst (fun m => ?_) (fun _ => .inl rfl) rfl (fun _ => ⟨by simp, by simp⟩)
        (hplain rfl (by simp) (by simp))
      by_cases he : m = l
      · subst he
        -- the running thread is the owner
        obtain ⟨h, hg⟩ := hg m
        obtain ⟨hown, hnone⟩ := hg.inside k.current ⟨st, .inl hcode⟩
        refine .inr ⟨hnone, fun t ht => ?_⟩
        obtain ⟨st', hst'⟩ := List.head?_eq_some_iff.mp ht
        rw [(hg.inside t ⟨st', .inr (.inl hst')⟩).1, List.singleton_inj] at hown
        rw [hown, at_code hcode] at ht
        cases ht
      · exact .inl (Function.update_of_ne he ..)
  | @release _ l ho =>
      exact hl.clear hcode ho (push_popped ..) rfl rfl rfl fun u hu => by
        obtain ⟨f, hf, hr⟩ := hu
        exact hq.1 l rfl u (hlt hf) ⟨f, hf, hr⟩
  | revokeNone hd => exact hl.revoked hcode (push_popped ..) rfl rfl (.inl ⟨rfl, hd⟩)
  | revoke _ hp => exact hl.revoked hcode (push_popped ..) rfl rfl (.inr ⟨_, rfl, hp⟩)
  | create =>
      refine hl.plain hcode hst (fun _ => .inl rfl) (fun t => ?_) rfl (fun _ => ⟨by simp, by simp⟩)
        (hplain rfl (by simp) (by simp))
      by_cases he : t = k.threads
      · exact .inr (by rw [he]; exact Function.update_self ..)
      · exact .inl (Function.update_of_ne he ..)
  | take h =>
      rcases h with rfl | rfl <;>
        exact hl.plain hcode hst (fun _ => .inl rfl) (fun _ => .inl rfl) rfl
          (fun _ => ⟨by simp, by simp⟩) (hplain rfl (by simp) (by simp))
  | switch hp =>
      cases hp with
      | block h =>
          rcases h with rfl | rfl <;>
            exact hl.plain hcode hst (fun _ => .inl rfl) (fun _ => .inl rfl) rfl
              (fun _ => ⟨by simp, by simp⟩) (hplain rfl (by simp) (by simp))
      | _ =>
          exact hl.plain hcode hst (fun _ => .inl rfl) (fun _ => .inl rfl) rfl
            (fun _ => ⟨by simp, by simp⟩) (hplain rfl (by simp) (by simp))
  | _ =>
      exact hl.plain hcode hst (fun _ => .inl rfl) (fun _ => .inl rfl) rfl
        (fun _ => ⟨by simp, by simp⟩) (hplain rfl (by simp) (by simp))

theorem call (hl : Acquiring k) (hcode : k.code = []) (c : Call) :
    Acquiring (k.push c.frame) := by
  have hcur {f : Frame} : ¬ k.At k.current f := fun h => by
    have hcode : k.stack k.current = [] := hcode
    rw [Kernel.At, hcode] at h
    cases h
  have htop {f : Frame} (h : (k.push c.frame).At k.current f) :
      f.reads = none ∧ ∀ l, f ≠ .lockReleaseRevoke l := by
    rw [at_update (Kernel.push_stack ..), if_pos rfl] at h
    subst h
    cases c <;> exact ⟨rfl, nofun⟩
  refine hl.move (fun u hu => Function.update_of_ne hu ..) (fun _ _ => rfl)
    (fun t l _ ht => (hl.revoking t l ht).1) (fun _ => List.Subset.refl _) hl.nodup
    (fun _ _ _ h => h.resolve_right hcur) (fun l ⟨f, hf, hfl⟩ => ?_) (fun l h => ?_)
    (fun l h => absurd h hcur) fun l h => (htop h).2 l rfl
  · rw [(htop hf).1] at hfl
    cases hfl
  · cases (htop h).1

theorem switch (hl : Acquiring k) (t : Thread) (ready : List Thread) :
    Acquiring (k.yielding.dispatch t ready) :=
  ⟨hl.holder, hl.listed, hl.nodup, hl.pushing, hl.once, hl.donator, hl.revoking⟩

end Acquiring

theorem reachable_acquiring (hr : Reachable turn Undisturbed (boot v) k) : Acquiring k := by
  refine hr.invariant (boot_acquiring v) fun k b k' hr hl hq hs => ?_
  have hrs := reachable_turn hr
  cases b with
  | act a =>
      obtain ⟨hs, hrace⟩ := turn_act hs
      cases step_inv hs with
      | call c hcode => exact hl.call hcode c
      | run hcode hx =>
          obtain ⟨h, hrun⟩ := hrs
          exact hl.exec (reachable_consistent ⟨h, hrun⟩) (fun l => ⟨h, run_guarded hrun l⟩) hq
            hcode hx
      | timer => exact hl.switch _ _
      | race d p => exact absurd rfl (hrace d p)
  | switch p =>
      obtain ⟨-, t, ready, -, -, rfl⟩ := turn_switch hs
      exact hl.switch t ready

/-- **When `lock_acquire` tolerates preemption.** -/
theorem acquire_tolerates_preemption (hr : Reachable turn Undisturbed (boot v) k) :
    AcquireSafe k :=
  (reachable_acquiring hr).safe

/-! ### Runs -/

/-- Switch to `t`. -/
def Turn.to (t : Thread) : Turn := .switch fun u => if u = t then 1 else 0

/-- The initial thread holds lock `0`; threads `2` and `3` are ready. -/
def holding : List Turn :=
  (Call.steps (.threadCreate 31) 11 ++ Call.steps (.threadCreate 31) 11 ++
    Call.steps (.lockAcquire 0) 4).map .act

/-- Thread `2` is about to link the lock, with its time slice over twice. -/
theorem acquire_tolerates_preemption_push :
    ∃ k, Reachable turn Undisturbed (boot fun _ => 0) k ∧
      k.At k.current (.lockAcquirePush (.user 0)) ∧ AcquireSafe k := by
  have hex : (execute (checked (fun k b => Undisturbed k b) turn) (holding ++ [Turn.to 2] ++
      (Call.steps (.lockAcquire 0) 1).map .act ++ [Turn.to 3, Turn.to 2, .act .run, Turn.to 3,
        Turn.to 2]) (boot fun _ => 0)).any fun k =>
          k.At k.current (.lockAcquirePush (.user 0)) := by
    decide +kernel
  obtain ⟨k, hk, he⟩ := (Option.any_eq_true _ _).mp hex
  have hrun := (execute_run (G := fun _ _ => True) (fun _ _ _ => trivial) .nil hk).of_checked
  have hr : Reachable turn Undisturbed (boot fun _ => 0) k :=
    ⟨_, hrun.mono fun _ _ h => of_decide_eq_true h.1⟩
  exact ⟨k, hr, of_decide_eq_true he, acquire_tolerates_preemption hr⟩

/-- Thread `2` has found a holder when its time slice ends, and the initial thread releases the
lock: thread `2` goes on with a null pointer.  Or threads `2` and `3` both find that the lock is
not linked, and both link it. -/
theorem acquire_preempted :
    (∃ k, Reachable turn (fun _ _ => True) (boot fun _ => 0) k ∧
      k.At k.current (.lockAcquireContains (.user 0)) ∧ k.holder (.user 0) = none ∧
      turn (.act .run) k = none ∧ ¬ AcquireSafe k) ∧
    ∃ k k', Reachable turn (fun _ _ => True) (boot fun _ => 0) k ∧
      k.At k.current (.lockAcquirePush (.user 0)) ∧ k.donators 0 = [.user 0] ∧
      turn (.act .run) k = some k' ∧ k'.donators 0 = [.user 0, .user 0] ∧ ¬ AcquireSafe k := by
  have hex : (execute turn (holding ++ [Turn.to 2] ++ (Call.steps (.lockAcquire 0) 1).map .act ++
      [Turn.to 0] ++ (Call.steps (.lockRelease 0) 1).map .act ++ [Turn.to 2])
        (boot fun _ => 0)).any fun k => k.At k.current (.lockAcquireContains (.user 0)) ∧
          k.holder (.user 0) = none ∧ (turn (.act .run) k).isNone := by
    decide +kernel
  have hex' : (execute turn (holding ++ [Turn.to 2] ++ (Call.steps (.lockAcquire 0) 2).map .act ++
      [Turn.to 3] ++ (Call.steps (.lockAcquire 0) 3).map .act ++ [Turn.to 2])
        (boot fun _ => 0)).any fun k => k.At k.current (.lockAcquirePush (.user 0)) ∧
          k.donators 0 = [.user 0] ∧
          (turn (.act .run) k).any fun k' => k'.donators 0 = [.user 0, .user 0] := by
    decide +kernel
  constructor
  · obtain ⟨k, hk, he⟩ := (Option.any_eq_true _ _).mp hex
    obtain ⟨hat, hnone, hstop⟩ := of_decide_eq_true he
    refine ⟨k, execute_reachable (fun _ _ _ => trivial) .refl hk, hat, hnone,
      Option.isNone_iff_eq_none.mp hstop, fun hs => ?_⟩
    obtain ⟨t, ht⟩ := (hs _ _ hat rfl).1
    rw [hnone] at ht
    cases ht
  · obtain ⟨k, hk, he⟩ := (Option.any_eq_true _ _).mp hex'
    obtain ⟨hat, hd, hrun⟩ := of_decide_eq_true he
    obtain ⟨k', hk', hd'⟩ := (Option.any_eq_true _ _).mp hrun
    refine ⟨k, k', execute_reachable (fun _ _ _ => trivial) .refl hk, hat, hd, hk',
      of_decide_eq_true hd', fun hs => ?_⟩
    exact (hs _ _ hat rfl).2 rfl 0 (hd ▸ List.mem_cons_self)

end CSE130.Lab2
