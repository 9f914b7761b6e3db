import CSE130.Lab3.Nesting

/-! # The pointers between parent and child

`parent` and `child_lock` point from one thread page into another, and nothing clears them.

* `parent`: a process calls `sys_exit` while it is on the stack of processes, so the next one
  below, its parent, is alive (`sysExit_parent`).
* `child_lock`: `process_exit` calls `semaphore_up` once, for two calls of `semaphore_down`.  The
  pointer is good for as long as the page is not freed under a parent that is inside one of
  these calls, and is not used later (`Timely`, `uses_valid`); the call in `process_wait` never
  gets by on the child's page (`waitDown_blocks`). -/

namespace CSE130.Lab3

open Function (update)
open Transition

/-- No restriction on the actions of a run. -/
def anyAction (_ : Kernel) (_ : Action) : Prop := True

variable {k k' : Kernel} {a : Action} {p q top : Page} {t u t' : Thread} {s : Statement}
  {m : Page → Contents} {c : Contents} {w : Page → UInt32} {h : List (Kernel × Action)}

/-! ### `parent` -/

/-- The step assigns to `thread_current()->parent->child_exit`, and the parent is no longer
there. -/
def WritesFreedParent (k : Kernel) (a : Action) : Prop := (∃ e, a = .sysExit e) ∧
  ¬ ∃ t q u, k.page k.current = .thread t ∧ t.parent = some q ∧ k.page q = .thread u ∧
    Alive u ∧ u.childLock = some k.current

/-! ### `child_lock` -/

/-- The step is inside a `semaphore_down(thread_current()->child_lock)`, and the pointer is not
into the page of a thread that the caller has started. -/
def UsesFreed (k : Kernel) (a : Action) : Prop := a = .run ∧ ∃ t s,
  k.page k.current = .thread t ∧ Downs t s ∧
    ¬ ∃ p u, t.childLock = some p ∧ k.page p = .thread u ∧ u.parent = some k.current

/-- The thread is blocked in `semaphore_down(thread_current()->child_lock)`, and the page of the
child is gone. -/
def Stuck (k : Kernel) (q : Page) : Prop := k.status q = .blocked ∧ ∃ t s p,
  k.page q = .thread t ∧ Downs t s ∧ t.childLock = some p ∧
    ¬ ∃ u, k.page p = .thread u ∧ u.parent = some q

/-- The thread is in `process_execute`, or in the `semaphore_down` of `process_wait`. -/
def Inside (t : Thread) : Prop := Executing t ∨ ∃ tid, t.next = .waitDown tid

/-- `child_lock` points to a thread. -/
def LockHeld (m : Page → Contents) (t : Thread) : Prop :=
  ∃ p u, t.childLock = some p ∧ m p = .thread u

/-- The page of a child is not freed while its parent is inside `process_execute` or the
`semaphore_down` of `process_wait`, and the parent does not wait for it afterwards, nor goes
without a new child into another `semaphore_down`. -/
def Timely (k : Kernel) (a : Action) : Prop := ∀ t, k.page k.current = .thread t →
  (a = .run → t.next = .exitSchedule →
    ∀ q u, k.page q = .thread u → u.childLock = some k.current → ¬ Inside u) ∧
  (a = .wait t.childTid → LockHeld k.page t) ∧
  (a = .execute .noThread → LockHeld k.page t)

/-- The pointers that are in use are good. -/
def LocksHeld (m : Page → Contents) : Prop := ∀ q t, m q = .thread t → Inside t → LockHeld m t

theorem Downs.inside (hd : Downs t s) : Inside t := by
  cases hd with
  | execute hn => exact .inl ⟨_, .inr (.inr hn)⟩
  | wait hn => exact .inr ⟨_, hn⟩

theorem LockHeld.update (hl : LockHeld m t) (p : Page) (u : Thread) :
    LockHeld (update m p (.thread u)) t := by
  obtain ⟨r, v, hr, hv⟩ := hl
  refine ⟨r, if r = p then u else v, hr, ?_⟩
  rw [Function.update_apply]
  split
  · rfl
  · exact hv

theorem LocksHeld.update (hl : LocksHeld m) (ht : Inside t' → LockHeld (update m p (.thread t')) t') :
    LocksHeld (update m p (.thread t')) := by
  intro q u hu hin
  rw [Function.update_apply] at hu
  split at hu
  · cases hu
    exact ht hin
  · exact (hl q u hu hin).update p t'

theorem LocksHeld.assign (hl : LocksHeld m) (ht : m p = .thread t) (hin : Inside t' → Inside t)
    (hc : t'.childLock = t.childLock) : LocksHeld (Function.update m p (.thread t')) := by
  refine hl.update fun h => ?_
  obtain ⟨r, v, hr, hv⟩ := hl p t ht (hin h)
  exact LockHeld.update ⟨r, v, hc.trans hr, hv⟩ p t'

theorem LocksHeld.scribble {v v' : UInt32} (hl : LocksHeld m) (hp : m p = .other v) :
    LocksHeld (Function.update m p (.other v')) := by
  intro q u hu hin
  rw [Function.update_apply] at hu
  split at hu
  · cases hu
  · obtain ⟨r, x, hr, hx⟩ := hl q u hu hin
    refine ⟨r, x, hr, ?_⟩
    rw [Function.update_of_ne, hx]
    rintro rfl
    cases hp.symm.trans hx

theorem locksHeld_move (hl : LocksHeld k.page) (hg : Timely k a)
    (ht : k.page k.current = .thread t) (hm : Moves k t a k') : LocksHeld k'.page := by
  obtain ⟨hexit, hwait, hexecute⟩ := hg t ht
  cases hm with
  | noCopy => exact hl
  | noWait => exact hl
  | @goes a s hgo hne =>
      refine hl.update fun hin => ?_
      have hheld : LockHeld k.page t := by
        cases hgo with
        | noThread => exact hexecute rfl
        | wait _ he => exact hwait (by rw [he])
        | _ => simp [Inside, Executing] at hin
      exact hheld.update _ _
  | @create p w hn hp =>
      have hne : p ≠ k.current := by
        rintro rfl
        cases hp.symm.trans ht
      refine LocksHeld.update (LocksHeld.update hl ?_) ?_
      · simp [Inside, Executing, newThread]
      · intro _
        refine ⟨p, newThread k.nextTid k.current, rfl, ?_⟩
        rw [Function.update_of_ne hne]
        exact Function.update_self ..
  | unblock hn => exact hl.assign ht (fun _ => .inl ⟨_, .inl ⟨_, hn⟩⟩) rfl
  | setChildTid hn => exact hl.assign ht (fun _ => .inl ⟨_, .inr (.inl hn)⟩) rfl
  | take hd _ hu =>
      refine LocksHeld.update (hl.assign hu id rfl) fun hin => ?_
      cases hd <;> simp [Inside, Executing] at hin
  | takeFreed hd _ hw =>
      refine LocksHeld.update (hl.scribble hw) fun hin => ?_
      cases hd <;> simp [Inside, Executing] at hin
  | block _ _ hu _ hs =>
      rw [(schedule_page hs).1]
      exact hl.assign hu id rfl
  | waitReset => exact hl.update fun hin => by simp [Inside, Executing] at hin
  | sysExit _ _ _ hu =>
      exact LocksHeld.update (hl.assign hu id rfl) fun hin => by simp [Inside, Executing] at hin
  | sysExitFreed => exact hl.update fun hin => by simp [Inside, Executing] at hin
  | up => exact hl.update fun hin => by simp [Inside, Executing] at hin
  | upWake => exact hl.update fun hin => by simp [Inside, Executing] at hin
  | exit hn hs =>
      intro q u hu hin
      dsimp only at hu
      rw [(schedule_page hs).1, Function.update_apply] at hu
      dsimp only
      split at hu
      · cases hu
      · obtain ⟨r, x, hr, hx⟩ := hl q u hu hin
        refine ⟨r, x, hr, ?_⟩
        rw [(schedule_page hs).1, Function.update_of_ne, hx]
        rintro rfl
        exact hexit rfl hn q u hu hr hin
  | idle _ hs =>
      rw [(schedule_page hs).1]
      exact hl
  | sleep _ hs =>
      rw [(schedule_page hs).1]
      exact hl

theorem locksHeld_step (hi : Inv k.page top) (hl : LocksHeld k.page) (hg : Timely k a)
    (hs : step a k = some k') : LocksHeld k'.page := by
  rcases step_inv hi.irreflexive hs with he | ⟨t, ht, hm⟩
  · cases he with
    | timer hs =>
        rw [(threadYield_page hs).1]
        exact hl
    | wake => exact hl
    | scribble hw => exact hl.scribble hw
  · exact locksHeld_move hl hg ht hm

/-! ### The value of the semaphore -/

/-- A child's semaphore has a unit only between its `semaphore_up` and the return of its parent's
`process_execute`. -/
def Counted (m : Page → Contents) : Prop := ∀ q t p u, m q = .thread t → Alive t →
  t.childLock = some p → m p = .thread u →
    u.parentLock.value = 0 ∨ u.parentLock.value = 1 ∧ Executing t

/-- What a thread is after an assignment to one of them. -/
theorem update_thread (hu : update m p (.thread t') q = .thread u) :
    q = p ∧ u = t' ∨ q ≠ p ∧ m q = .thread u := by
  rw [Function.update_apply] at hu
  split at hu
  · rename_i he
    cases hu
    exact .inl ⟨he, rfl⟩
  · rename_i hne
    exact .inr ⟨hne, hu⟩

theorem Counted.assign (hc : Counted m) (ht : m p = .thread t) (ha : Alive t' → Alive t)
    (hl : t'.childLock = t.childLock) (hv : t'.parentLock.value = t.parentLock.value)
    (he : Executing t → Executing t' ∨
      ∀ r y, t.childLock = some r → m r = .thread y → y.parentLock.value = 0) :
    Counted (Function.update m p (.thread t')) := by
  intro q x r y hx hax hr hy
  have hy' : ∃ y', m r = .thread y' ∧ y.parentLock.value = y'.parentLock.value := by
    rcases update_thread hy with ⟨rfl, rfl⟩ | ⟨-, hy⟩
    · exact ⟨t, ht, hv⟩
    · exact ⟨y, hy, rfl⟩
  obtain ⟨y', hy', hvy⟩ := hy'
  rw [hvy]
  rcases update_thread hx with ⟨rfl, rfl⟩ | ⟨-, hx⟩
  · rcases hc q t r y' ht (ha hax) (hl ▸ hr) hy' with h₀ | ⟨h₁, hex⟩
    · exact .inl h₀
    · rcases he hex with hex | hzero
      · exact .inr ⟨h₁, hex⟩
      · exact .inl (hzero r y' (hl ▸ hr) hy')
  · exact hc q x r y' hx hax hr hy'

theorem Counted.other {v' : UInt32} (hc : Counted m) : Counted (Function.update m p (.other v')) := by
  intro q x r y hx ha hr hy
  rw [Function.update_apply] at hx hy
  split at hx
  · cases hx
  · split at hy
    · cases hy
    · exact hc q x r y hx ha hr hy

theorem Counted.setValue {v : Thread} (hc : Counted m) (hu : m p = .thread u)
    (hn : v.next = u.next) (hl : v.childLock = u.childLock)
    (hv : ∀ q t, m q = .thread t → Alive t →
      t.childLock = some p → v.parentLock.value = 0 ∨ v.parentLock.value = 1 ∧ Executing t) :
    Counted (Function.update m p (.thread v)) := by
  have ha : Alive v ↔ Alive u := by
    unfold Alive
    rw [hn]
  have he : Executing v ↔ Executing u := by
    unfold Executing
    rw [hn]
  have hback {q : Page} {x : Thread} (hx : Function.update m p (.thread v) q = .thread x) :
      ∃ x', m q = .thread x' ∧ (Alive x → Alive x') ∧ x.childLock = x'.childLock ∧
        (Executing x' → Executing x) := by
    rcases update_thread hx with ⟨rfl, rfl⟩ | ⟨-, hx⟩
    · exact ⟨u, hu, ha.mp, hl, he.mpr⟩
    · exact ⟨x, hx, id, rfl, id⟩
  intro q x r y hx hax hr hy
  obtain ⟨x', hx', hax', hlx, hex⟩ := hback hx
  rcases update_thread hy with ⟨rfl, rfl⟩ | ⟨-, hy⟩
  · exact (hv q x' hx' (hax' hax) (hlx ▸ hr)).imp_right (And.imp_right hex)
  · exact (hc q x' r y hx' (hax' hax) (hlx ▸ hr) hy).imp_right (And.imp_right hex)

theorem Counted.create {v : UInt32} {tid : ℤ} (hc : Counted m) (hn : Nest m top)
    (ht : m top = .thread t) (hp : m p = .other v) (hl : t'.childLock = some p)
    (hv : t'.parentLock = t.parentLock) : Counted
      (Function.update (Function.update m p (.thread (newThread tid top))) top (.thread t')) := by
  have hne : p ≠ top := by
    rintro rfl
    cases hp.symm.trans ht
  intro q x r y hx hax hr hy
  rcases update_thread hx with ⟨rfl, rfl⟩ | ⟨hqt, hx⟩
  · cases hl.symm.trans hr
    rw [Function.update_of_ne hne, Function.update_self] at hy
    cases hy
    exact .inl rfl
  · rcases update_thread hx with ⟨rfl, rfl⟩ | ⟨-, hmx⟩
    · cases hr
    · obtain ⟨z, hz, hzv⟩ : ∃ z, m r = .thread z ∧ y.parentLock = z.parentLock := by
        rcases update_thread hy with ⟨rfl, rfl⟩ | ⟨-, hy⟩
        · exact ⟨t, ht, hv⟩
        · rcases update_thread hy with ⟨rfl, rfl⟩ | ⟨-, hy⟩
          · obtain ⟨d, z, hd, hz, -⟩ := hn.child q x hmx hax hqt
            cases hd.symm.trans hr
            cases hp.symm.trans hz
          · exact ⟨y, hy, rfl⟩
      rw [hzv]
      exact hc q x r z hmx hax hr hz

theorem Counted.up (hc : Counted m) (hi : Inv m top) (ht : m top = .thread t) (ha : ¬ Alive t')
    (hv : t'.parentLock.value = t.parentLock.value + 1) :
    Counted (Function.update m top (.thread t')) := by
  obtain ⟨t₁, ht₁, hat⟩ := hi.nest.summit
  cases ht.symm.trans ht₁
  intro q x r y hx hax hr hy
  rcases update_thread hx with ⟨rfl, rfl⟩ | ⟨hqt, hmx⟩
  · exact (ha hax).elim
  · rcases update_thread hy with ⟨rfl, rfl⟩ | ⟨-, hy⟩
    · -- the parent is still waiting, and the value was zero
      obtain ⟨d, z, hd, hz, -, -, hzero⟩ := hi.nest.child q x hmx hax hqt
      cases hd.symm.trans hr
      cases ht.symm.trans hz
      rw [hv, hzero]
      exact .inr ⟨rfl, hi.below q x hmx hax hqt⟩
    · exact hc q x r y hmx hax hr hy

theorem counted_move (hi : Inv k.page top) (hc : Counted k.page)
    (ht : k.page k.current = .thread t) (hm : Moves k t a k') : Counted k'.page := by
  cases hm with
  | noCopy => exact hc
  | noWait => exact hc
  | goes hgo =>
      obtain ⟨ha, hne⟩ := goes_alive hgo
      exact hc.assign ht (fun _ => ha) rfl rfl fun he => (hne he).elim
  | @create p w hn hp =>
      have ha : Alive t := by simp [Alive, hn]
      obtain rfl := hi.eq_top ht ha (by simp [Executing, hn])
      exact hc.create hi.nest ht hp rfl rfl
  | unblock hn =>
      exact hc.assign ht (fun _ => by simp [Alive, hn]) rfl rfl fun _ => .inl ⟨_, .inr (.inl rfl)⟩
  | setChildTid hn =>
      exact hc.assign ht (fun _ => by simp [Alive, hn]) rfl rfl fun _ => .inl ⟨_, .inr (.inr rfl)⟩
  | @take s p u hd hl hu hv =>
      have hne : k.current ≠ p := by
        rintro rfl
        exact (hi.irreflexive _ t ht).2 s hd hl
      have hzero : u.parentLock.value - 1 = 0 := by
        rcases hc _ t p u ht hd.alive hl hu with h₀ | ⟨h₁, -⟩
        · exact (hv h₀).elim
        · rw [h₁]
          rfl
      have hc₁ := hc.setValue (v := { u with
        parentLock := ⟨u.parentLock.value - 1, u.parentLock.waiters⟩ }) hu rfl rfl
          fun _ _ _ _ _ => .inl hzero
      refine hc₁.assign ((Function.update_of_ne hne ..).trans ht) (fun _ => hd.alive) rfl rfl
        fun _ => .inr fun r y hr hy => ?_
      cases hl.symm.trans hr
      rw [Function.update_self] at hy
      cases hy
      exact hzero
  | @takeFreed s p w hd hl hw hv =>
      have hne : k.current ≠ p := by
        rintro rfl
        cases hw.symm.trans ht
      refine Counted.assign (hc.other (p := p)) ((Function.update_of_ne hne ..).trans ht)
        (fun _ => hd.alive) rfl rfl fun _ => .inr fun r y hr hy => ?_
      cases hl.symm.trans hr
      dsimp only at hy
      rw [Function.update_self] at hy
      cases hy
  | block _ _ hu hv hs =>
      rw [(schedule_page hs).1]
      exact hc.setValue hu rfl rfl fun _ _ _ _ _ => .inl rfl
  | waitReset hn =>
      exact hc.assign ht (fun _ => by simp [Alive, hn]) rfl rfl fun he => by
        simp [Executing, hn] at he
  | @sysExit e q u hn _ hq hu =>
      have hne : k.current ≠ q := by
        rintro rfl
        exact hi.nest.irrefl _ t ht hq
      refine Counted.assign (t := t) (hc.assign hu id rfl rfl .inl)
        ((Function.update_of_ne hne ..).trans ht) (fun _ => by simp [Alive, hn]) rfl rfl
          fun he => by simp [Executing, hn] at he
  | sysExitFreed hn =>
      exact hc.assign ht (fun _ => by simp [Alive, hn]) rfl rfl fun he => by
        simp [Executing, hn] at he
  | up hn =>
      obtain rfl := hi.eq_top ht (by simp [Alive, hn]) (by simp [Executing, hn])
      exact hc.up hi ht (by simp [Alive]) rfl
  | upWake hn =>
      obtain rfl := hi.eq_top ht (by simp [Alive, hn]) (by simp [Executing, hn])
      exact hc.up hi ht (by simp [Alive]) rfl
  | exit hn hs =>
      dsimp only
      rw [(schedule_page hs).1]
      exact hc.other
  | idle hn hs =>
      rw [(schedule_page hs).1]
      exact hc
  | sleep hn hs =>
      rw [(schedule_page hs).1]
      exact hc

/-! ### Runs -/

theorem reachable_counted (hr : Reachable step anyAction (boot w) k) :
    ∃ top, Inv k.page top ∧ Counted k.page := by
  refine hr.invariant (I := fun k => ∃ top, Inv k.page top ∧ Counted k.page)
    ⟨_, inv_boot w, ?_⟩ ?_
  · intro q t p u ht ha hl hu
    rcases boot_page hu with ⟨-, rfl⟩ | ⟨-, rfl⟩ <;> exact .inl rfl
  · rintro k a k' - ⟨top, hi, hc⟩ - hs
    obtain ⟨top', hi'⟩ := inv_step hi hs
    refine ⟨top', hi', ?_⟩
    rcases step_inv hi.irreflexive hs with he | ⟨t, ht, hm⟩
    · cases he with
      | timer hs =>
          rw [(threadYield_page hs).1]
          exact hc
      | wake => exact hc
      | scribble => exact hc.other
    · exact counted_move hi hc ht hm

/-- A run whose steps are timely uses no pointer into a freed page. -/
theorem reachable_locksHeld (hr : Reachable step Timely (boot w) k) : LocksHeld k.page := by
  refine hr.invariant (I := fun k => LocksHeld k.page) ?_ ?_
  · intro q t ht hin
    rcases boot_page ht with ⟨-, rfl⟩ | ⟨-, rfl⟩ <;> simp [Inside, Executing] at hin
  · intro k a k' hr hl hg hs
    obtain ⟨top, hi⟩ := reachable_inv hr
    exact locksHeld_step hi hl hg hs

theorem not_usesFreed (hi : Inv k.page top) (hl : LocksHeld k.page) : ¬ UsesFreed k a := by
  rintro ⟨-, t, s, ht, hd, hne⟩
  obtain ⟨p, u, hp, hu⟩ := hl _ t ht hd.inside
  exact hne ⟨p, u, hp, hu, hi.nest.lock _ t p u ht hd.alive hp hu⟩

theorem sysExit_parent {e : ℤ} (hi : Inv k.page top) (hs : step (.sysExit e) k = some k') :
    ¬ WritesFreedParent k (.sysExit e) := by
  rintro ⟨-, hne⟩
  rcases step_inv hi.irreflexive hs with he | ⟨t, ht, hm⟩
  · cases he
  · obtain ⟨hn, hcur⟩ : t.next = .outside ∧ k.current ≠ initialThread := by
      cases hm with
      | goes hg => cases hg
      | sysExit hn hcur => exact ⟨hn, hcur⟩
      | sysExitFreed hn hcur => exact ⟨hn, hcur⟩
    obtain ⟨q, u, hq, -, hu, ha, hl⟩ := hi.nest.parent _ t ht (by simp [Alive, hn]) hcur
    exact hne ⟨t, q, u, ht, hq, hu, ha, hl⟩

/-- `semaphore_down` in `process_wait`: the page of the child has been freed, or its value is
zero and the child has made its only `semaphore_up`. -/
theorem waitDown_blocks {tid : ℤ} (hi : Inv k.page top) (hc : Counted k.page)
    (ht : k.page k.current = .thread t) (hn : t.next = .waitDown tid) :
    UsesFreed k .run ∨ ∃ p u, t.childLock = some p ∧ k.page p = .thread u ∧
      u.parentLock.value = 0 ∧ ¬ Alive u := by
  have hd : Downs t (.waitRead tid) := .wait hn
  have hex : ¬ Executing t := by simp [Executing, hn]
  by_cases hl : LockHeld k.page t
  · obtain ⟨p, u, hp, hu⟩ := hl
    refine .inr ⟨p, u, hp, hu, ?_, ?_⟩
    · exact (hc _ t p u ht hd.alive hp hu).resolve_right fun h => hex h.2
    · obtain rfl := hi.eq_top ht hd.alive hex
      exact hi.lock_dead ht hp hu
  · refine .inl ⟨rfl, t, _, ht, hd, ?_⟩
    rintro ⟨p, u, hp, hu, -⟩
    exact hl ⟨p, u, hp, hu⟩

/-- **Parent pointers.**  No run writes an exit code into a freed page; the pointer to the child's
semaphore is good in runs whose steps are timely. -/
theorem parent_pointers_valid (hr : Run step anyAction (boot w) h k) :
    (∀ x ∈ h, ¬ WritesFreedParent x.1 x.2) ∧
      ((∀ x ∈ h, Timely x.1 x.2) → ∀ x ∈ h, ¬ UsesFreed x.1 x.2) := by
  refine ⟨?_, fun hg => ?_⟩
  · rintro ⟨k₁, a⟩ hx hw
    obtain ⟨hr₁, -, k', hs⟩ := hr.of_mem hx
    obtain ⟨top, hi⟩ := reachable_inv hr₁
    obtain ⟨⟨e, rfl⟩, -⟩ := id hw
    exact sysExit_parent hi hs hw
  · rintro ⟨k₁, a⟩ hx
    obtain ⟨hr₁, -⟩ := (hr.guard hg).of_mem hx
    obtain ⟨top, hi⟩ := reachable_inv hr₁
    exact not_usesFreed hi (reachable_locksHeld hr₁)

/-- **The child's semaphore.**  In a run whose steps are timely it is not used after its page was
freed, and nobody is blocked on it then.  In every run, when the parent has called
`process_wait` and tests the value, the page was freed or the child cannot wake it any more. -/
theorem child_lock_lifetime (hr : Run step anyAction (boot w) h k) :
    ((∀ x ∈ h, Timely x.1 x.2) → (∀ x ∈ h, ¬ UsesFreed x.1 x.2) ∧ ∀ q, ¬ Stuck k q) ∧
      ∀ t tid, k.page k.current = .thread t → t.next = .waitDown tid → UsesFreed k .run ∨
        ∃ p u, t.childLock = some p ∧ k.page p = .thread u ∧ u.parentLock.value = 0 ∧ ¬ Alive u := by
  refine ⟨fun hg => ⟨?_, ?_⟩, ?_⟩
  · rintro ⟨k₁, a⟩ hx
    obtain ⟨hr₁, -⟩ := (hr.guard hg).of_mem hx
    obtain ⟨top, hi⟩ := reachable_inv hr₁
    exact not_usesFreed hi (reachable_locksHeld hr₁)
  · rintro q ⟨-, t, s, p, ht, hd, hp, hfree⟩
    obtain ⟨top, hi⟩ := reachable_inv ⟨_, hr⟩
    obtain ⟨r, u, hr', hu⟩ := reachable_locksHeld ⟨_, hr.guard hg⟩ q t ht hd.inside
    cases hp.symm.trans hr'
    exact hfree ⟨u, hu, hi.nest.lock q t p u ht hd.alive hp hu⟩
  · intro t tid ht hn
    obtain ⟨top, hi, hc⟩ := reachable_counted ⟨_, hr⟩
    exact waitDown_blocks hi hc ht hn

/-! ### Runs of the initial thread and a process in page 2 -/

/-- `process_execute` up to its `semaphore_down`; the process is loaded and calls `sys_exit`. -/
def startAndExit (p : Page) : List Action :=
  [.execute (.thread p), .run, .run, .run, .loaded, .sysExit 0]

/-- The process is preempted after its `semaphore_up`, and `process_execute` returns. -/
def startAndReturn (p : Page) : List Action := startAndExit p ++ [.run, .timer, .run]

/-- Steps that are timely at first sight. -/
def calm (k : Kernel) : Action → Bool
  | .run => (k.thread? k.current).map Thread.next != some .exitSchedule
  | .wait _ => false
  | .execute .noThread => false
  | _ => true

theorem timely_of_calm (hg : calm k a = true) : Timely k a := by
  intro t ht
  refine ⟨?_, ?_, ?_⟩
  · rintro rfl hn
    unfold calm at hg
    rw [Kernel.thread?_eq.mpr ht, Option.map_some, hn] at hg
    simp at hg
  · rintro rfl
    cases hg
  · rintro rfl
    cases hg

theorem startAndReturn_run : ∃ h k, Run step anyAction (boot fun _ => 0) h k ∧
    (∀ x ∈ h, Timely x.1 x.2) ∧ k.current = 0 := by
  have hex : (execute (checked calm step) (startAndReturn 2) (boot fun _ => 0)).map
      (fun k => k.current) = some 0 := by decide +kernel
  obtain ⟨k, hk, hc⟩ := Option.map_eq_some_iff.mp hex
  have hrun := (execute_run (G := anyAction) (fun _ _ _ => trivial) Run.nil hk).of_checked
  exact ⟨_, k, hrun.mono fun _ _ _ => trivial,
    fun x hx => timely_of_calm (hrun.of_mem hx).2.1.1, hc⟩

theorem parent_pointers_valid_window : ∃ h k, Run step anyAction (boot fun _ => 0) h k ∧
    k.current = 0 ∧ ∀ x ∈ h, ¬ UsesFreed x.1 x.2 := by
  obtain ⟨h, k, hr, hg, hc⟩ := startAndReturn_run
  exact ⟨h, k, hr, hc, (parent_pointers_valid hr).2 hg⟩

/-- The parent tests the value again when the page is already free. -/
theorem parent_pointers_stale : ∃ h k, Run step anyAction (boot fun _ => 0) h k ∧
    ∃ x ∈ h, UsesFreed x.1 x.2 := by
  have hex : (execute step (startAndExit 2 ++ [.run, .run]) (boot fun _ => 0)).map
      (fun k => ((k.thread? k.current).map fun t => (t.next, t.childLock), k.page 2,
        (step .run k).isSome)) =
      some (some (.executeDown 3, some 2), .other freedWord, true) := by decide +kernel
  obtain ⟨k, hk, hv⟩ := Option.map_eq_some_iff.mp hex
  simp only [Prod.mk.injEq, Option.map_eq_some_iff] at hv
  obtain ⟨⟨t, ht, hn, hl⟩, hpage, hsome⟩ := hv
  obtain ⟨k', hs⟩ := Option.isSome_iff_exists.mp hsome
  have hrun := execute_run (G := anyAction) (fun _ _ _ => trivial) Run.nil hk
  refine ⟨_, k', hrun.cons trivial hs, _, List.mem_cons_self, rfl, t, _,
    Kernel.thread?_eq.mp ht, .execute hn, ?_⟩
  rintro ⟨p, u, hp, hu, -⟩
  cases hl.symm.trans hp
  cases hpage.symm.trans hu

theorem child_lock_lifetime_window : ∃ h k, Run step anyAction (boot fun _ => 0) h k ∧
    k.current = 0 ∧ (∀ x ∈ h, ¬ UsesFreed x.1 x.2) ∧ ∀ q, ¬ Stuck k q := by
  obtain ⟨h, k, hr, hg, hc⟩ := startAndReturn_run
  exact ⟨h, k, hr, hc, (child_lock_lifetime hr).1 hg⟩

/-- In the window the parent goes on to `process_wait`, and blocks for good. -/
theorem child_lock_stuck : ∃ h k, Run step anyAction (boot fun _ => 0) h k ∧ Stuck k 0 := by
  have hex : (execute step (startAndReturn 2 ++ [.wait 3, .run, .run]) (boot fun _ => 0)).map
      (fun k => (k.status 0, (k.thread? 0).map fun t => (t.next, t.childLock), k.page 2)) =
      some (.blocked, some (.waitDown 3, some 2), .other freedWord) := by decide +kernel
  obtain ⟨k, hk, hv⟩ := Option.map_eq_some_iff.mp hex
  simp only [Prod.mk.injEq, Option.map_eq_some_iff] at hv
  obtain ⟨hb, ⟨t, ht, hn, hl⟩, hpage⟩ := hv
  refine ⟨_, k, execute_run (G := anyAction) (fun _ _ _ => trivial) Run.nil hk, hb, t, _, 2,
    Kernel.thread?_eq.mp ht, .wait hn, hl, ?_⟩
  rintro ⟨u, hu, -⟩
  cases hpage.symm.trans hu

end CSE130.Lab3
