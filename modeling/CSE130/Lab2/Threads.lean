import CSE130.Lab2.Stacks

/-! # Threads, the ready list and the waiters lists

`Threads k` says how the status of every thread fits the lists it is linked in: a thread on the
ready list is ready, a thread on the waiters list of a semaphore is blocked in its
`semaphore_down`, a thread that `thread_create` is still working on is blocked and has nothing
to execute.  It holds in every reachable state whatever the order of the steps, and together
with `Stacks` it makes up `Consistent`, from which the results about locks, semaphores and
priorities start.

A statement that switches parks the running thread first (`Scheduled.park`) and dispatches then
(`Threads.dispatch`). -/

namespace CSE130.Lab2

open Function (update)
open Transition

variable {k k' : Kernel} {f g : Frame} {fs st : List Frame} {s : Semaphore} {t u w : Thread}
  {ready ws : List Thread} {x : ThreadStatus}

/-- The lists and the statuses fit. -/
structure Threads (k : Kernel) : Prop where
  idle : k.stack k.idleThread = [.idle]
  idle_lt : k.idleThread < k.threads
  ready : ∀ t ∈ k.readyList, k.status t = .ready
  ready_lt : ∀ t ∈ k.readyList, t < k.threads
  ready_nodup : k.readyList.Nodup
  idle_not_ready : k.idleThread ∉ k.readyList
  waiting : ∀ s, ∀ t ∈ k.waiters s,
    k.status t = .blocked ∧ ∃ st, k.stack t = .semaphoreDownLoop s :: st
  waiting_lt : ∀ s, ∀ t ∈ k.waiters s, t < k.threads
  waiting_nodup : ∀ s, (k.waiters s).Nodup
  creating : ∀ t u, k.Owns t (.thread u) → k.status u = .blocked ∧ k.stack u = []

/-- The same while a thread runs. -/
structure Scheduled (k : Kernel) : Prop extends Threads k where
  running : k.status k.current = .running
  current_lt : k.current < k.threads

/-- The invariant of every reachable state. -/
structure Consistent (k : Kernel) : Prop where
  control : Stacks k
  threads : Scheduled k

theorem boot_scheduled (v : ℕ → BitVec 32) : Scheduled (boot v) where
  idle := rfl
  idle_lt := Nat.one_lt_two
  ready := nofun
  ready_lt := nofun
  ready_nodup := List.nodup_nil
  idle_not_ready := nofun
  waiting := nofun
  waiting_lt := nofun
  waiting_nodup _ := List.nodup_nil
  creating t u h := by
    obtain ⟨f, hf, hx⟩ := h
    simp only [boot] at hf
    split at hf <;> simp_all [Frame.token]
  running := rfl
  current_lt := Nat.two_pos

/-! ### Dispatching -/

/-- What `next_thread_to_run` returns is not on the list that it leaves. -/
theorem Threads.next (hk : Threads k) (hn : NextThread k t ready) :
    t ∉ ready ∧ ready.Nodup ∧ t < k.threads ∧ (t = k.idleThread ∨ k.status t = .ready) := by
  obtain ⟨-, rfl, rfl⟩ | ⟨hp, -⟩ := hn
  · exact ⟨List.not_mem_nil, List.nodup_nil, hk.idle_lt, .inl rfl⟩
  · have hnd := hp.nodup_iff.mpr hk.ready_nodup
    have ht := hp.subset List.mem_cons_self
    exact ⟨(List.nodup_cons.mp hnd).1, (List.nodup_cons.mp hnd).2, hk.ready_lt t ht,
      .inr (hk.ready t ht)⟩

/-- A blocked thread other than the idle thread is not dispatched. -/
theorem Threads.next_ne (hk : Threads k) (hn : NextThread k t ready)
    (hb : k.status u = .blocked) (hu : k.stack u ≠ [.idle]) : u ≠ t := by
  rintro rfl
  rcases (hk.next hn).2.2.2 with h | h
  · exact hu (h ▸ hk.idle)
  · rw [hb] at h
    cases h

theorem Threads.dispatch (hk : Threads k) (hn : NextThread k t ready) :
    Scheduled (k.dispatch t ready) := by
  obtain ⟨hnt, hnd, hlt, -⟩ := hk.next hn
  have hstatus {u : Thread} (hne : u ≠ t) : (k.dispatch t ready).status u = k.status u :=
    Function.update_of_ne hne _ _
  refine ⟨⟨hk.idle, hk.idle_lt, fun u hu => ?_, fun u hu => hk.ready_lt u (hn.mem hu), hnd,
    fun hi => hk.idle_not_ready (hn.mem hi), fun s u hu => ?_, hk.waiting_lt,
    hk.waiting_nodup, fun u v h => ?_⟩, Function.update_self .., hlt⟩
  · rw [hstatus fun he => hnt (he ▸ hu)]
    exact hk.ready u (hn.mem hu)
  · obtain ⟨hb, st, hst⟩ := hk.waiting s u hu
    rw [hstatus (hk.next_ne hn hb (by rw [hst]; nofun))]
    exact ⟨hb, st, hst⟩
  · obtain ⟨hb, hst⟩ := hk.creating u v h
    rw [hstatus (hk.next_ne hn hb (by rw [hst]; nofun))]
    exact ⟨hb, hst⟩

/-! ### The effects of a statement on the lists -/

namespace Scheduled

theorem ne_of_blocked (hk : Scheduled k) (hb : k.status t = .blocked) : t ≠ k.current := by
  rintro rfl
  rw [hk.running] at hb
  cases hb

/-- A waiting thread is not the running one, and not the idle thread. -/
theorem ne_of_waiting (hk : Scheduled k) (ht : t ∈ k.waiters s) :
    t ≠ k.current ∧ t ≠ k.idleThread := by
  obtain ⟨hb, st, hst⟩ := hk.waiting s t ht
  refine ⟨hk.ne_of_blocked hb, ?_⟩
  rintro rfl
  rw [hk.idle] at hst
  cases hst

theorem not_ready_of_blocked (hk : Scheduled k) (hb : k.status t = .blocked) :
    t ∉ k.readyList := fun h => by
  rw [hk.ready t h] at hb
  cases hb

theorem control (hk : Scheduled k) (hst : k'.stack = update k.stack k.current fs)
    (hs : k'.status = k.status) (hr : k'.readyList = k.readyList)
    (hw : ∀ s, k'.waiters s = k.waiters s) (hc : k'.current = k.current)
    (hi : k'.idleThread = k.idleThread) (hm : k'.threads = k.threads)
    (hidle : k.current ≠ k.idleThread)
    (ht : ∀ u, k'.Owns k.current (.thread u) → k.Owns k.current (.thread u)) :
    Scheduled k' := by
  have hne {t : Thread} (h : k.status t = .blocked) : k'.stack t = k.stack t := by
    rw [hst, Function.update_of_ne (hk.ne_of_blocked h)]
  refine ⟨⟨?_, ?_, ?_, ?_, ?_, ?_, fun s t h => ?_, fun s t h => ?_, fun s => ?_,
    fun t u h => ?_⟩, ?_, ?_⟩
  · rw [hi, hst, Function.update_of_ne hidle.symm]
    exact hk.idle
  · rw [hi, hm]
    exact hk.idle_lt
  · rw [hr, hs]
    exact hk.ready
  · rw [hr, hm]
    exact hk.ready_lt
  · rw [hr]
    exact hk.ready_nodup
  · rw [hr, hi]
    exact hk.idle_not_ready
  · rw [hw] at h
    obtain ⟨hb, st, hst'⟩ := hk.waiting s t h
    exact ⟨by rw [hs, hb], st, by rw [hne hb, hst']⟩
  · rw [hw] at h
    rw [hm]
    exact hk.waiting_lt s t h
  · rw [hw]
    exact hk.waiting_nodup s
  · have ho : k.Owns t (.thread u) := by
      by_cases he : t = k.current
      · subst he
        exact ht u h
      · obtain ⟨g, hg, hx⟩ := h
        rw [hst, Function.update_of_ne he] at hg
        exact ⟨g, hg, hx⟩
    obtain ⟨hb, he⟩ := hk.creating t u ho
    exact ⟨by rw [hs, hb], by rw [hne hb, he]⟩
  · rw [hc, hs]
    exact hk.running
  · rw [hc, hm]
    exact hk.current_lt

/-- `thread_unblock` on a blocked thread that is on no waiters list any more. -/
theorem unblock (hk : Scheduled k) (hb : k.status t = .blocked) (hlt : t < k.threads)
    (hi : t ≠ k.idleThread) (hst : k'.stack = k.stack)
    (hs : k'.status = update k.status t .ready) (hr : k'.readyList = k.readyList ++ [t])
    (hsub : ∀ s, k'.waiters s = k.waiters s ∨ List.Perm (t :: k'.waiters s) (k.waiters s))
    (hw : ∀ s, t ∉ k'.waiters s) (hc : k'.current = k.current)
    (hi' : k'.idleThread = k.idleThread) (hm : k'.threads = k.threads)
    (ht : ∀ u, ¬ k.Owns u (.thread t)) : Scheduled k' := by
  have hmem {s : Semaphore} {u : Thread} (h : u ∈ k'.waiters s) : u ∈ k.waiters s := by
    rcases hsub s with h' | h'
    · exact h' ▸ h
    · exact h'.subset (List.mem_cons_of_mem t h)
  have hstatus {u : Thread} (hne : u ≠ t) : k'.status u = k.status u := by
    rw [hs, Function.update_of_ne hne]
  refine ⟨⟨?_, ?_, fun u h => ?_, fun u h => ?_, ?_, ?_, fun s u h => ?_, fun s u h => ?_,
    fun s => ?_, fun u v h => ?_⟩, ?_, ?_⟩
  · rw [hi', hst]
    exact hk.idle
  · rw [hi', hm]
    exact hk.idle_lt
  · rw [hr, List.mem_append, List.mem_singleton] at h
    rcases h with h | rfl
    · rw [hstatus (by rintro rfl; exact hk.not_ready_of_blocked hb h)]
      exact hk.ready u h
    · rw [hs, Function.update_self]
  · rw [hr, List.mem_append, List.mem_singleton] at h
    rw [hm]
    rcases h with h | rfl
    · exact hk.ready_lt u h
    · exact hlt
  · rw [hr, List.nodup_append]
    refine ⟨hk.ready_nodup, List.nodup_singleton t, fun a ha b hb' => ?_⟩
    rw [List.mem_singleton] at hb'
    rintro rfl
    exact hk.not_ready_of_blocked hb (hb' ▸ ha)
  · rw [hr, hi', List.mem_append, List.mem_singleton]
    rintro (h | h)
    · exact hk.idle_not_ready h
    · exact hi h.symm
  · obtain ⟨hb', st, hst'⟩ := hk.waiting s u (hmem h)
    rw [hstatus (by rintro rfl; exact hw s h), hst]
    exact ⟨hb', st, hst'⟩
  · rw [hm]
    exact hk.waiting_lt s u (hmem h)
  · rcases hsub s with h' | h'
    · exact h' ▸ hk.waiting_nodup s
    · exact (List.nodup_cons.mp (h'.nodup_iff.mpr (hk.waiting_nodup s))).2
  · obtain ⟨g, hg, hx⟩ := h
    rw [hst] at hg
    have ho : k.Owns u (.thread v) := ⟨g, hg, hx⟩
    rw [hstatus (by rintro rfl; exact ht u ho), hst]
    exact hk.creating u v ho
  · rw [hc, hstatus (hk.ne_of_blocked hb).symm]
    exact hk.running
  · rw [hc, hm]
    exact hk.current_lt

/-- The running thread has gone back to the ready list. -/
theorem yielding (hk : Scheduled k) : Threads k.yielding := by
  have hne {t : Thread} (h : t ≠ k.current) : k.yielding.status t = k.status t :=
    Function.update_of_ne h _ _
  have hcur : k.current ∉ k.readyList := fun h => by
    have hr := hk.ready _ h
    rw [hk.running] at hr
    cases hr
  have hmem {t : Thread} (h : t ∈ k.yielding.readyList) :
      t ∈ k.readyList ∨ t = k.current ∧ t ≠ k.idleThread := by
    simp only [Kernel.yielding] at h
    split at h
    · exact .inl h
    · rename_i hi
      rcases List.mem_cons.mp h with rfl | h
      · exact .inr ⟨rfl, hi⟩
      · exact .inl h
  refine ⟨hk.idle, hk.idle_lt, fun t h => ?_, fun t h => ?_, ?_, fun h => ?_, fun s t h => ?_,
    hk.waiting_lt, hk.waiting_nodup, fun t u h => ?_⟩
  · rcases hmem h with h | ⟨rfl, -⟩
    · rw [hne (by rintro rfl; exact hcur h)]
      exact hk.ready t h
    · exact Function.update_self ..
  · rcases hmem h with h | ⟨rfl, -⟩
    · exact hk.ready_lt t h
    · exact hk.current_lt
  · simp only [Kernel.yielding]
    split
    · exact hk.ready_nodup
    · exact List.nodup_cons.mpr ⟨hcur, hk.ready_nodup⟩
  · rcases hmem h with h | ⟨-, h⟩
    · exact hk.idle_not_ready h
    · exact h rfl
  · rw [hne (hk.ne_of_waiting h).1]
    exact hk.waiting s t h
  · obtain ⟨hb, hst⟩ := hk.creating t u h
    rw [hne (hk.ne_of_blocked hb)]
    exact ⟨hb, hst⟩

/-- The running thread has stopped running: it waits on a semaphore, or is on no list. -/
theorem stopped (hk : Scheduled k) (hst : k'.stack = update k.stack k.current fs)
    (hs : k'.status = update k.status k.current x) (hr : k'.readyList = k.readyList)
    (hw : k'.waiters = k.waiters ∨ ∃ s st, k'.waiters = update k.waiters s
      (k.current :: k.waiters s) ∧ x = .blocked ∧ fs = .semaphoreDownLoop s :: st)
    (hi : k'.idleThread = k.idleThread) (hm : k'.threads = k.threads)
    (hidle : k.current = k.idleThread → fs = [.idle])
    (ht : ∀ u, k'.Owns k.current (.thread u) → k.Owns k.current (.thread u)) : Threads k' := by
  have hne {t : Thread} (h : t ≠ k.current) : k'.status t = k.status t ∧ k'.stack t = k.stack t :=
    ⟨by rw [hs, Function.update_of_ne h], by rw [hst, Function.update_of_ne h]⟩
  have hcur (s : Semaphore) : k.current ∉ k.waiters s := fun h => (hk.ne_of_waiting h).1 rfl
  have hmem {s : Semaphore} {t : Thread} (h : t ∈ k'.waiters s) : t ∈ k.waiters s ∨
      t = k.current ∧ x = .blocked ∧ ∃ st, fs = .semaphoreDownLoop s :: st := by
    rcases hw with hw | ⟨s', st, hw, hx, hfs⟩
    · exact .inl (hw ▸ h)
    · rw [hw, Function.update_apply] at h
      split at h
      · rename_i he
        subst he
        rcases List.mem_cons.mp h with rfl | h
        · exact .inr ⟨rfl, hx, st, hfs⟩
        · exact .inl h
      · exact .inl h
  refine ⟨?_, ?_, fun t h => ?_, fun t h => ?_, ?_, ?_, fun s t h => ?_, fun s t h => ?_,
    fun s => ?_, fun t u h => ?_⟩
  · rw [hi, hst, Function.update_apply]
    split
    · rename_i he
      exact hidle he.symm
    · exact hk.idle
  · rw [hi, hm]
    exact hk.idle_lt
  · rw [hr] at h
    have hready := hk.ready t h
    rw [(hne (by rintro rfl; rw [hk.running] at hready; cases hready)).1, hready]
  · rw [hr] at h
    rw [hm]
    exact hk.ready_lt t h
  · rw [hr]
    exact hk.ready_nodup
  · rw [hr, hi]
    exact hk.idle_not_ready
  · rcases hmem h with h | ⟨rfl, rfl, st, rfl⟩
    · have h' := hne (hk.ne_of_waiting h).1
      rw [h'.1, h'.2]
      exact hk.waiting s t h
    · exact ⟨by rw [hs, Function.update_self], st, by rw [hst, Function.update_self]⟩
  · rw [hm]
    rcases hmem h with h | ⟨rfl, -⟩
    · exact hk.waiting_lt s t h
    · exact hk.current_lt
  · rcases hw with hw | ⟨s', st, hw, -⟩
    · exact hw ▸ hk.waiting_nodup s
    · rw [hw, Function.update_apply]
      split
      · exact List.nodup_cons.mpr ⟨hcur s', hk.waiting_nodup s'⟩
      · exact hk.waiting_nodup s
  · have ho : k.Owns t (.thread u) := by
      by_cases he : t = k.current
      · subst he
        exact ht u h
      · obtain ⟨g, hg, hx⟩ := h
        rw [(hne he).2] at hg
        exact ⟨g, hg, hx⟩
    obtain ⟨hb, he⟩ := hk.creating t u ho
    have h' := hne (hk.ne_of_blocked hb)
    exact ⟨by rw [h'.1, hb], by rw [h'.2, he]⟩

theorem popped (hk : Scheduled k) (hcode : k.code = f :: st) (hf : f ≠ .idle) :
    Scheduled (k.popped st) := by
  refine hk.control rfl rfl rfl (fun _ => rfl) rfl rfl rfl (fun he => ?_)
    fun u h => ?_
  · rw [Kernel.code, he, hk.idle] at hcode
    cases hcode
    exact hf rfl
  · obtain ⟨g, hg, hx⟩ := h
    rw [popped_stack, Function.update_self] at hg
    refine ⟨g, ?_, hx⟩
    show g ∈ k.code
    rw [hcode]
    exact List.mem_cons_of_mem f hg

theorem woken (hk : Scheduled k) (hp : List.Perm (w :: ws) (k.waiters s)) :
    Scheduled (k.woken s w ws) := by
  have hw := hp.subset List.mem_cons_self
  obtain ⟨hb, st, hst⟩ := hk.waiting s w hw
  have hother {s' : Semaphore} (h : s' ≠ s) : (k.woken s w ws).waiters s' = k.waiters s' :=
    Function.update_of_ne h _ _
  refine hk.unblock hb (hk.waiting_lt s w hw) (hk.ne_of_waiting hw).2 rfl rfl rfl
    (fun s' => ?_) (fun s' h => ?_) rfl rfl rfl fun u h => ?_
  · by_cases he : s' = s
    · subst he
      refine .inr ?_
      simp only [Kernel.woken, Function.update_self]
      exact hp
    · exact .inl (hother he)
  · by_cases he : s' = s
    · subst he
      simp only [Kernel.woken, Function.update_self] at h
      exact (List.nodup_cons.mp (hp.nodup_iff.mpr (hk.waiting_nodup s'))).1 h
    · -- the thread is blocked in one semaphore only
      rw [hother he] at h
      obtain ⟨-, st', hst'⟩ := hk.waiting s' w h
      rw [hst] at hst'
      cases hst'
      exact he rfl
  · have he := (hk.creating u w h).2
    rw [hst] at he
    cases he

theorem create (hk : Scheduled k) (hfresh : k.stack k.threads = [])
    (hst : k'.stack = update k.stack k.current fs)
    (hs : k'.status = update k.status k.threads .blocked) (hr : k'.readyList = k.readyList)
    (hw : k'.waiters = k.waiters) (hc : k'.current = k.current)
    (hi : k'.idleThread = k.idleThread) (hm : k'.threads = k.threads + 1)
    (hidle : k.current ≠ k.idleThread)
    (ht : ∀ u, k'.Owns k.current (.thread u) → k.Owns k.current (.thread u) ∨ u = k.threads) :
    Scheduled k' := by
  have hstatus {t : Thread} (h : t < k.threads) : k'.status t = k.status t := by
    rw [hs, Function.update_of_ne h.ne]
  have hstack {t : Thread} (h : t ≠ k.current) : k'.stack t = k.stack t := by
    rw [hst, Function.update_of_ne h]
  refine ⟨⟨?_, ?_, fun t h => ?_, fun t h => ?_, ?_, ?_, fun s t h => ?_, fun s t h => ?_,
    fun s => ?_, fun t u h => ?_⟩, ?_, ?_⟩
  · rw [hi, hstack hidle.symm]
    exact hk.idle
  · rw [hi, hm]
    exact hk.idle_lt.trans (Nat.lt_succ_self _)
  · rw [hr] at h
    rw [hstatus (hk.ready_lt t h)]
    exact hk.ready t h
  · rw [hr] at h
    rw [hm]
    exact (hk.ready_lt t h).trans (Nat.lt_succ_self _)
  · rw [hr]
    exact hk.ready_nodup
  · rw [hr, hi]
    exact hk.idle_not_ready
  · rw [hw] at h
    rw [hstatus (hk.waiting_lt s t h), hstack (hk.ne_of_waiting h).1]
    exact hk.waiting s t h
  · rw [hw] at h
    rw [hm]
    exact (hk.waiting_lt s t h).trans (Nat.lt_succ_self _)
  · rw [hw]
    exact hk.waiting_nodup s
  · have ho : k.Owns t (.thread u) ∨ u = k.threads := by
      by_cases he : t = k.current
      · subst he
        exact ht u h
      · obtain ⟨g, hg, hx⟩ := h
        rw [hstack he] at hg
        exact .inl ⟨g, hg, hx⟩
    by_cases hu : u = k.threads
    · subst hu
      exact ⟨by rw [hs, Function.update_self], by rw [hstack hk.current_lt.ne', hfresh]⟩
    · obtain ⟨hb, he⟩ := hk.creating t u (ho.resolve_right hu)
      exact ⟨by rw [hs, Function.update_of_ne hu, hb], by rw [hstack (hk.ne_of_blocked hb), he]⟩
  · rw [hc, hstatus hk.current_lt]
    exact hk.running
  · rw [hc, hm]
    exact hk.current_lt.trans (Nat.lt_succ_self _)

end Scheduled

/-! ### Every reachable state -/

namespace Consistent

/-- A `waiter` semaphore that `condvar_wait` has not put on a stack yet has no waiters. -/
theorem waiters_fresh (hk : Consistent k) {w : ℕ} (hw : k.frames ≤ w) :
    k.waiters (.waiter w) = [] := by
  rw [List.eq_nil_iff_forall_not_mem]
  intro t ht
  obtain ⟨-, st, hst⟩ := hk.threads.waiting _ t ht
  have hs := hk.control.shape t
  rw [hst] at hs
  obtain ⟨l, rfl⟩ := hs
  have hlt : w < k.frames :=
    hk.control.owned t (.waiter w) ⟨.condvarWaitAcquire l w, by simp [hst], rfl⟩
  omega

theorem exec (hk : Consistent k) (hcode : k.code = f :: st) (hx : Exec f (k.popped st) k') :
    Consistent k' := by
  have hs := hk.threads
  refine ⟨hk.control.exec hs.current_lt hcode hx, ?_⟩
  obtain ⟨fs, hf, hst⟩ := hx.flow (hk.control.fresh _ le_rfl) hs.current_lt.ne
  have hne (h : f ≠ .idle) : k.current ≠ k.idleThread := hk.control.ne_idle (by
    rw [hcode]
    rintro he
    cases he
    exact h rfl)
  have hown' (u : Thread) (ho : k'.Owns k.current (.thread u)) : k.Owns k.current (.thread u) ∨
      (u = k.threads ∧ ∃ p, f = .threadCreate p) := by
    rcases hk.control.owns_of hs.current_lt hcode hx ho with h | ⟨-, ⟨h, -⟩ | ⟨h, h'⟩⟩
    · exact .inl h
    · cases h
    · cases h
      exact .inr ⟨rfl, h'⟩
  have hown (h : ∀ p, f ≠ .threadCreate p) (u : Thread) (ho : k'.Owns k.current (.thread u)) :
      k.Owns k.current (.thread u) := by
    rcases hown' u ho with ho | ⟨-, p, hp⟩
    · exact ho
    · exact (h p hp).elim
  cases hx with
  | take h =>
      have hni : f ≠ .idle := by rcases h with rfl | rfl <;> simp
      have hnc (p : ℤ) : f ≠ .threadCreate p := by rcases h with rfl | rfl <;> simp
      exact hs.control hst rfl rfl (fun _ => rfl) rfl rfl rfl (hne hni) (hown hnc)
  | upNone => exact hs.control hst rfl rfl (fun _ => rfl) rfl rfl rfl (hne (by simp)) (hown (by simp))
  | upStay hp => exact (hs.popped hcode (by simp)).woken hp
  | wait =>
      refine hs.control hst rfl rfl (fun s => ?_) rfl rfl rfl (hne (by simp)) (hown (by simp))
      simp only [Kernel.push, Kernel.popped, Function.update_apply]
      split
      · rename_i he
        rw [he, hk.waiters_fresh le_rfl]
      · rfl
  | create =>
      refine hs.create (hk.control.fresh _ le_rfl) hst rfl rfl rfl rfl rfl rfl (hne (by simp))
        fun u ho => (hown' u ho).imp_right And.left
  | @unblock _ t hb =>
      obtain ⟨ho, ho'⟩ : k.Owns k.current (.thread t) ∧ st = [] := by
        have h := hk.control.shape k.current
        rw [← Kernel.code, hcode] at h
        refine ⟨⟨.threadCreateUnblock t, ?_, rfl⟩, h.1 trivial⟩
        show _ ∈ k.code
        rw [hcode]
        exact List.mem_cons_self
      subst ho'
      obtain ⟨hbt, het⟩ := hs.creating _ t ho
      have hs' : Scheduled ((k.popped []).push (.threadCreatePreempt t)) := by
        have hst' : ((k.popped []).push (.threadCreatePreempt t)).stack =
            update k.stack k.current [.threadCreatePreempt t] := by simp
        exact hs.control hst' rfl rfl (fun _ => rfl) rfl rfl rfl (hne (by simp)) (hown (by simp))
      refine hs'.unblock hbt (hk.control.owned _ _ ho) ?_ rfl rfl rfl (fun _ => .inl rfl)
        (fun s h => ?_) rfl rfl rfl fun u h => ?_
      · intro he
        have hi : k.stack t = [.idle] := he ▸ hs.idle
        rw [het] at hi
        cases hi
      · obtain ⟨-, st, hst⟩ := hs.waiting s t h
        rw [het] at hst
        cases hst
      · -- nobody else was creating the thread
        obtain ⟨g, hg, hgx⟩ := h
        by_cases hu : u = k.current
        · subst hu
          simp only [Kernel.push, popped_stack, popped_current, Function.update_self,
            List.mem_singleton] at hg
          subst hg
          cases hgx
        · simp only [Kernel.push, popped_stack, popped_current, Function.update_idem,
            Function.update_of_ne hu] at hg
          exact hu (hk.control.unique u _ _ ⟨g, hg, hgx⟩ ho)
  | switch hp hn =>
      refine Threads.dispatch ?_ hn
      cases hp with
      | @block _ _ s h hv =>
          have hni : f ≠ .idle := by rcases h with rfl | rfl <;> simp
          have hnc (p : ℤ) : f ≠ .threadCreate p := by rcases h with rfl | rfl <;> simp
          refine hs.stopped ?_ rfl rfl (.inr ⟨s, st, rfl, rfl, rfl⟩) rfl rfl
            (fun h' => (hne hni h').elim) (hown hnc)
          simp [Kernel.blockedOn]
      | up hp => exact ((hs.popped hcode (by simp)).woken hp).yielding
      | preempt | set | yield => exact (hs.popped hcode (by simp)).yielding
      | exit =>
          exact hs.stopped rfl rfl rfl (.inl rfl) rfl rfl
            (fun h => (hne (by simp) h).elim) (hown (by simp))
      | idle =>
          have hst' : ((k.popped st).push .idle).stack =
              update k.stack k.current (.idle :: st) := by simp
          refine hs.stopped hst' rfl rfl (.inl rfl) rfl rfl (fun h => ?_) (hown (by simp))
          have hst := hs.idle
          rw [← h] at hst
          rw [← hst, ← hcode]
          rfl
  | _ => exact hs.control hst rfl rfl (fun _ => rfl) rfl rfl rfl (hne (by simp)) (hown (by simp))

theorem call (hk : Consistent k) (hcode : k.code = []) (c : Call) :
    Consistent (k.push c.frame) := by
  refine ⟨hk.control.call hk.threads.current_lt hcode c, ?_⟩
  have hidle := hk.control.ne_idle (by rw [hcode]; nofun)
  refine hk.threads.control rfl rfl rfl (fun _ => rfl) rfl rfl rfl hidle fun u h => ?_
  obtain ⟨g, hg, hx⟩ := h
  have hg : g ∈ c.frame :: k.code := by simpa [Kernel.push, Kernel.code] using hg
  rw [hcode, List.mem_singleton] at hg
  rw [hg, token_frame] at hx
  cases hx

theorem step {a : Action} (hk : Consistent k) (h : step a k = some k') : Consistent k' := by
  cases step_inv h with
  | call c hcode =>
      exact hk.call hcode c
  | @run _ _ f st hcode hx =>
      exact hk.exec hcode hx
  | @timer _ t ready hn =>
      exact ⟨⟨hk.control.shape, hk.control.idle, hk.control.fresh, hk.control.owned,
        hk.control.unique⟩, hk.threads.yielding.dispatch hn⟩
  | race =>
      exact ⟨⟨hk.control.shape, hk.control.idle, hk.control.fresh, hk.control.owned,
        hk.control.unique⟩, ⟨⟨hk.threads.idle, hk.threads.idle_lt, hk.threads.ready,
        hk.threads.ready_lt, hk.threads.ready_nodup, hk.threads.idle_not_ready,
        hk.threads.waiting, hk.threads.waiting_lt, hk.threads.waiting_nodup,
        hk.threads.creating⟩, hk.threads.running, hk.threads.current_lt⟩⟩

end Consistent

theorem reachable_consistent {G : Kernel → Action → Prop} {v : ℕ → BitVec 32}
    (h : Reachable step G (boot v) k) : Consistent k :=
  h.invariant ⟨boot_stacks v, boot_scheduled v⟩ fun _ _ _ _ hk _ hs => hk.step hs

/-! ### Without preemption -/

/-- The invariant when control moves only in `schedule()`: all threads but the running one are
parked. -/
structure Cooperative (k : Kernel) : Prop extends Consistent k where
  parked : ∀ t, t ≠ k.current → Parked (k.stack t)

namespace Cooperative

theorem wellStacked (hk : Cooperative k) (hcode : k.code = f :: st) : WellStacked (f :: st) := by
  rw [← hcode]
  exact hk.control.shape _

/-- Whoever is dispatched after a switch is parked. -/
theorem parks (hk : Cooperative k) (hcode : k.code = f :: st) (hp : Parks f (k.popped st) k') :
    ∀ t, Parked (k'.stack t) := by
  intro t
  by_cases ht : t = k.current
  · rw [ht]
    exact hp.parked (hk.wellStacked hcode)
  · rw [hp.stack_ne ht]
    exact hk.parked t ht

theorem step {a : Action} (hk : Cooperative k) (ha : coop k a) (h : step a k = some k') :
    Cooperative k' := by
  refine ⟨hk.toConsistent.step h, fun t ht => ?_⟩
  cases step_inv h with
  | call =>
      rw [Kernel.push_current] at ht
      rw [Kernel.push_stack, Function.update_of_ne ht]
      exact hk.parked t ht
  | @run _ _ f st hcode hx =>
      obtain ⟨fs, -, hst⟩ := hx.flow (hk.control.fresh _ le_rfl) hk.threads.current_lt.ne
      have hstay (hc : k'.current = k.current) : Parked (k'.stack t) := by
        rw [hc] at ht
        rw [hst, Function.update_of_ne ht]
        exact hk.parked t ht
      cases hx with
      | switch hp => exact hk.parks hcode hp t
      | _ => exact hstay rfl
  | timer => exact ha.elim
  | race => exact ha.elim

end Cooperative

theorem boot_cooperative (v : ℕ → BitVec 32) : Cooperative (boot v) where
  control := boot_stacks v
  threads := boot_scheduled v
  parked t _ := by
    simp only [boot]
    split
    · exact .inr (.inl rfl)
    · exact .inl (.inl rfl)

theorem reachable_cooperative {G : Kernel → Action → Prop} {v : ℕ → BitVec 32}
    (hG : ∀ k a, G k a → coop k a) (h : Reachable step G (boot v) k) : Cooperative k :=
  h.invariant (boot_cooperative v) fun _ _ _ _ hk hg hs => hk.step (hG _ _ hg) hs

/-! ### Phases

An invariant that depends on where the running thread is: `P k f st` at the statement `f` with
`st` below it, and `B k` outside the functions. -/

/-- The phase invariant of `B` and `P`. -/
def Phase (B : Kernel → Prop) (P : Kernel → Frame → List Frame → Prop) (k : Kernel) : Prop :=
  match k.code with
  | [] => B k
  | f :: st => P k f st

/-- The frames at which a thread is after a switch, or after a return from a function other than
`donate`. -/
def Frame.resumes : Frame → Prop
  | .lockAcquireHold _ | .semaphoreDownLoop _ | .idle => True
  | f => f.isOuter

namespace Phase

variable {B : Kernel → Prop} {P : Kernel → Frame → List Frame → Prop}

theorem nil (hcode : k.code = []) : Phase B P k ↔ B k := by
  rw [Phase, hcode]

theorem cons (hcode : k.code = f :: st) : Phase B P k ↔ P k f st := by
  rw [Phase, hcode]

theorem push (h : P (k.push f) f k.code) : Phase B P (k.push f) :=
  (cons (Kernel.push_code k f)).mpr h

theorem pushed (hcode : k.code = st) (h : P (k.push f) f st) : Phase B P (k.push f) :=
  push (hcode.symm ▸ h)

theorem isOuter_resumes (h : f.isOuter) : f.resumes := by
  cases f <;> first | exact h | trivial

theorem ret (hw : WellStacked (f :: st)) (hd : ¬ f.isDonate) (hcode : k.code = st) (hB : B k)
    (hP : ∀ g st', g.resumes → P k g st') : Phase B P k := by
  cases st with
  | nil => exact (nil hcode).mpr hB
  | cons g st' =>
      refine (cons hcode).mpr (hP g st' ?_)
      rcases Below.mem hw List.mem_cons_self with h | ⟨l, rfl | ⟨rfl, h⟩⟩
      · exact isOuter_resumes h
      · trivial
      · exact (hd h).elim

theorem ret_donate {l : Lock} (hw : WellStacked (.donateNext l :: st)) (hcode : k.code = st)
    (hP : ∀ m st', st = .lockAcquireDown m :: st' → P k (.lockAcquireDown m) st') :
    Phase B P k := by
  obtain ⟨m, st', rfl, -⟩ := hw
  exact (cons hcode).mpr (hP m st' rfl)

theorem parked (hp : Parked k.code) (hB : B k) (hP : ∀ g st', g.resumes → P k g st') :
    Phase B P k := by
  rcases hp with (h | ⟨f, h, hf⟩) | h | ⟨s, st', h⟩
  · exact (nil h).mpr hB
  · exact (cons h).mpr (hP _ _ (isOuter_resumes hf))
  · exact (cons h).mpr (hP _ _ trivial)
  · exact (cons h).mpr (hP _ _ trivial)

/-- **The run rule for phases**: without preemption, what holds at boot, at the first statement of
a call and after every statement holds of every reachable state. -/
theorem reachable {G : Kernel → Action → Prop} {v : ℕ → BitVec 32}
    (hG : ∀ k a, G k a → coop k a) (hboot : B (boot v))
    (hcall : ∀ k c, B k → P (k.push (Call.frame c)) c.frame [])
    (hexec : ∀ k f st k', Reachable step G (boot v) k → Cooperative k → Phase B P k → G k .run →
      k.code = f :: st → Exec f (k.popped st) k' → Phase B P k')
    (hr : Reachable step G (boot v) k) : Phase B P k := by
  refine hr.invariant ((nil rfl).mpr hboot) fun k a k' hr ht hg hs => ?_
  cases step_inv hs with
  | call c hcode =>
      exact pushed hcode (hcall k c ((nil hcode).mp ht))
  | run hcode hx =>
      exact hexec _ _ _ _ hr (reachable_cooperative hG hr) ht hg hcode hx
  | timer | race => exact (hG _ _ hg).elim

end Phase

end CSE130.Lab2
