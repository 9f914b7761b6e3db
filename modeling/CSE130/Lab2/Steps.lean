import CSE130.Lab2.Code

/-! # What a step of the Lab 2 kernel can do

One inversion lemma for every function that sorts, blocks or switches, and from them
`exec_inv`: `Exec f k k'` lists the outcomes of every statement, with what has been tested on
the way.  Every invariant of the kernel is proved by cases on `Exec`.

`NextThread k t ready` is what `next_thread_to_run` promises: the idle thread if nobody is
ready, else a ready thread of maximal priority. -/

namespace CSE130.Lab2

open Function (update)
open KernelList

variable {k k' : Kernel}

/-- `t` may be dispatched next, leaving `ready` as the ready list. -/
def NextThread (k : Kernel) (t : Thread) (ready : List Thread) : Prop :=
  (k.readyList = [] ∧ t = k.idleThread ∧ ready = []) ∨
    (List.Perm (t :: ready) k.readyList ∧ ∀ u ∈ ready, k.priority u ≤ k.priority t)

theorem NextThread.mem {t u : Thread} {ready : List Thread} (h : NextThread k t ready)
    (hu : u ∈ ready) : u ∈ k.readyList := by
  obtain ⟨-, -, rfl⟩ | ⟨hp, -⟩ := h
  · cases hu
  · exact hp.subset (List.mem_cons_of_mem t hu)

theorem NextThread.le {t u : Thread} {ready : List Thread} (h : NextThread k t ready)
    (hu : u ∈ ready) : k.priority u ≤ k.priority t := by
  obtain ⟨-, -, rfl⟩ | ⟨-, hle⟩ := h
  · cases hu
  · exact hle u hu

/-! ### Sorting by priority and taking the back -/

theorem threadPriorityLess_compares (k : Kernel) (l : List Thread) :
    Compares k.threadPriorityLess k.priority l := by
  intro a _ b _
  simp [Kernel.threadPriorityLess, lessBy]

/-- Sorting a list of threads and popping the back takes a thread of maximal priority. -/
theorem pop_back_spec {l sorted : List Thread} {t : Thread}
    (hs : listSort k.threadPriorityLess l = some sorted) (ht : sorted.getLast? = some t) :
    List.Perm (t :: sorted.dropLast) l ∧ ∀ u ∈ sorted.dropLast, k.priority u ≤ k.priority t := by
  have ho := listSort_ordered (threadPriorityLess_compares k l) hs
  refine ⟨?_, fun u hu => ho.le_getLast ht u (List.dropLast_subset sorted hu)⟩
  obtain ⟨init, rfl⟩ := List.getLast?_eq_some_iff.mp ht
  rw [List.dropLast_concat]
  exact (List.perm_append_singleton t init).symm.trans (listSort_perm hs)

/-- A list of threads that is not empty has a back once it is sorted. -/
theorem exists_back {l : List Thread} (hne : l ≠ []) : ∃ sorted t,
    listSort k.threadPriorityLess l = some sorted ∧ sorted.getLast? = some t := by
  obtain ⟨sorted, hs⟩ := Option.isSome_iff_exists.mp
    (listSort_isSome (threadPriorityLess_compares k l))
  have hsorted : sorted ≠ [] := by
    rintro rfl
    exact hne (List.nil_perm.mp (listSort_perm hs))
  obtain ⟨t, ht⟩ := Option.isSome_iff_exists.mp (List.getLast?_isSome.mpr hsorted)
  exact ⟨sorted, t, hs, ht⟩

/-! ### Switching

A statement that reaches `schedule()` first parks the running thread (`blockedOn`, `yielding`)
and then dispatches another. -/

/-- Thread `t` runs, and `ready` is left on the ready list. -/
def Kernel.dispatch (k : Kernel) (t : Thread) (ready : List Thread) : Kernel :=
  { k with readyList := ready, current := t, status := update k.status t .running }

theorem schedule_spec (h : k.schedule = some k') :
    ∃ t ready, NextThread k t ready ∧ k' = k.dispatch t ready := by
  simp only [Kernel.schedule, Kernel.nextThreadToRun, Option.bind_eq_bind,
    Option.bind_eq_some_iff, Option.some.injEq] at h
  obtain ⟨⟨t, ready⟩, hn, rfl⟩ := h
  refine ⟨t, ready, ?_, rfl⟩
  split at hn
  · rename_i he
    simp only [Option.some.injEq, Prod.mk.injEq] at hn
    exact .inl ⟨he, hn.1.symm, hn.2.symm⟩
  · simp only [Option.bind_eq_some_iff, Option.some.injEq, Prod.mk.injEq] at hn
    obtain ⟨sorted, hs, t', ht, rfl, rfl⟩ := hn
    exact .inr (pop_back_spec hs ht)

theorem exists_schedule (k : Kernel) : ∃ k', k.schedule = some k' := by
  unfold Kernel.schedule Kernel.nextThreadToRun
  by_cases he : k.readyList = []
  · simp [he]
  · obtain ⟨sorted, t, hs, ht⟩ := exists_back (k := k) he
    simp [he, hs, ht]

/-- The running thread has gone back to the ready list; the idle thread is not kept there. -/
def Kernel.yielding (k : Kernel) : Kernel :=
  { k with
    readyList := if k.current = k.idleThread then k.readyList else k.current :: k.readyList
    status := update k.status k.current .ready }

theorem threadYield_spec (h : k.threadYield = some k') :
    ∃ t ready, NextThread k.yielding t ready ∧ k' = k.yielding.dispatch t ready :=
  schedule_spec h

/-- The running thread waits on `s`. -/
def Kernel.blockedOn (k : Kernel) (s : Semaphore) : Kernel :=
  { k with
    waiters := update k.waiters s (k.current :: k.waiters s)
    stack := update k.stack k.current (.semaphoreDownLoop s :: k.stack k.current)
    status := update k.status k.current .blocked }

/-! ### Semaphores -/

theorem semaphoreDown_spec {s : Semaphore} (h : k.semaphoreDown s = some k') :
    (k.value s ≠ 0 ∧ k' = { k with value := update k.value s (k.value s - 1) }) ∨
    (k.value s = 0 ∧ ∃ t ready, NextThread (k.blockedOn s) t ready ∧
      k' = (k.blockedOn s).dispatch t ready) := by
  unfold Kernel.semaphoreDown at h
  split at h
  · rename_i hv
    exact .inr ⟨hv, schedule_spec h⟩
  · rename_i hv
    cases h
    exact .inl ⟨hv, rfl⟩

/-- The kernel after `semaphore_up` has moved waiter `w` to the ready list, leaving `ws`. -/
def Kernel.woken (k : Kernel) (s : Semaphore) (w : Thread) (ws : List Thread) : Kernel :=
  { k with
    value := update k.value s ((k.value s + 1) % unsignedSize)
    waiters := update k.waiters s ws
    readyList := k.readyList ++ [w]
    status := update k.status w .ready }

/-- `semaphore_up` adds a unit; if somebody waits, a waiter of maximal priority becomes ready,
and the caller yields if that waiter has a higher priority. -/
theorem semaphoreUp_spec {s : Semaphore} (h : k.semaphoreUp s = some k') :
    (k.waiters s = [] ∧
      k' = { k with value := update k.value s ((k.value s + 1) % unsignedSize) }) ∨
    (∃ w ws, List.Perm (w :: ws) (k.waiters s) ∧ (∀ u ∈ ws, k.priority u ≤ k.priority w) ∧
      k.status w = .blocked ∧
      ((k.priority w ≤ k.priority k.current ∧ k' = k.woken s w ws) ∨
       (k.priority w > k.priority k.current ∧ ∃ t ready,
          NextThread (k.woken s w ws).yielding t ready ∧
          k' = (k.woken s w ws).yielding.dispatch t ready))) := by
  unfold Kernel.semaphoreUp at h
  dsimp only at h
  split at h
  · rename_i hw
    cases h
    exact .inl ⟨hw, rfl⟩
  · right
    simp only [Option.bind_eq_bind, Option.bind_eq_some_iff] at h
    obtain ⟨sorted, hs, w, hw, k₁, hu, h⟩ := h
    obtain ⟨hperm, hle⟩ := pop_back_spec (k := k) hs hw
    unfold Kernel.threadUnblock at hu
    split at hu
    · rename_i hb
      cases hu
      refine ⟨w, sorted.dropLast, hperm, hle, hb, ?_⟩
      split at h
      · rename_i hp
        exact .inr ⟨hp, threadYield_spec h⟩
      · rename_i hp
        cases h
        exact .inl ⟨by simpa using hp, rfl⟩
    · cases hu

/-! ### Locks -/

/-- `q` is the highest of `p` and the priorities of the donators of the locks in `ls`. -/
def IsMaxDonation (k : Kernel) (p : ℤ) (ls : List Lock) (q : ℤ) : Prop :=
  p ≤ q ∧ (∀ l ∈ ls, ∃ d, k.donator l = some d ∧ k.priority d ≤ q) ∧
    (q = p ∨ ∃ l ∈ ls, ∃ d, k.donator l = some d ∧ k.priority d = q)

/-- The donator of the back of a sorted list of locks has the highest priority. -/
theorem donators_back_spec {ls sorted : List Lock} {back : Lock} {d : Thread}
    (hs : listSort k.lockDonatorLess ls = some sorted) (hb : sorted.getLast? = some back)
    (hd : k.donator back = some d) :
    ∀ l ∈ sorted, ∃ e, k.donator l = some e ∧ k.priority e ≤ k.priority d := by
  intro l hl
  have hp := listSort_perm hs
  have hsome := listSort_lessBy_isSome_iff.mp (Option.isSome_iff_exists.mpr ⟨sorted, hs⟩)
  rcases hsome with hlen | hkey
  · -- a single lock is its own back
    rw [← hp.length_eq] at hlen
    match sorted, hlen with
    | [m], _ =>
        rw [List.mem_singleton] at hl
        rw [List.getLast?_singleton, Option.some.injEq] at hb
        exact ⟨d, by rw [hl, hb, hd], le_rfl⟩
  · have ho := listSort_ordered (lessBy_compares hkey) hs
    have hle := ho.le_getLast hb l hl
    obtain ⟨x, hx⟩ := Option.isSome_iff_exists.mp (hkey l (hp.subset hl))
    obtain ⟨e, he, rfl⟩ := Option.map_eq_some_iff.mp hx
    refine ⟨e, he, ?_⟩
    simpa [he, hd] using hle

/-- `lock_release` gives the running thread the highest of `priority_old` and the priorities of
the donators of the locks left on its `donators` list. -/
theorem revoke_spec {l : Lock} (h : k.revoke l = some k') : ∃ ds q,
    k' = { k with
      donators := update (fun t => (k.donators t).erase l) k.current ds
      donator := update k.donator l none
      priority := update k.priority k.current q } ∧
    List.Perm ds ((k.donators k.current).erase l) ∧
    IsMaxDonation { k with donator := update k.donator l none } (k.priorityOld k.current) ds q := by
  simp only [Kernel.revoke, Option.bind_eq_bind, Option.bind_eq_some_iff] at h
  obtain ⟨k₁, hr, h⟩ := h
  unfold Kernel.removeLockelem at hr
  split at hr
  · cases hr
    split at h
    · rename_i he
      have he : (k.donators k.current).erase l = [] := he
      cases h
      refine ⟨[], k.priorityOld k.current, ?_, by rw [he], le_rfl, by simp, .inl rfl⟩
      rw [← he]
      simp
    · simp only [Option.bind_eq_some_iff, Option.some.injEq] at h
      obtain ⟨sorted, hs, back, hb, d, hd, rfl⟩ := h
      have hmax := donators_back_spec hs hb hd
      refine ⟨sorted, _, rfl, listSort_perm hs, ?_, ?_, ?_⟩
      · split <;> omega
      · intro n hn
        obtain ⟨e, he, hle⟩ := hmax n hn
        refine ⟨e, he, le_trans hle ?_⟩
        dsimp only
        split <;> omega
      · split
        · exact .inr ⟨back, List.mem_of_getLast? hb, d, hd, rfl⟩
        · exact .inl rfl
  · cases hr

/-- A thread of priority `p` is not above the running thread once that has released `l`: the
priority left is the highest of `priority_old` and the priorities of the donators of the other
locks on its `donators` list. -/
def Kernel.Remains (k : Kernel) (l : Lock) (p : ℤ) : Prop :=
  p ≤ k.priorityOld k.current ∨ ∃ n ∈ k.donators k.current, n ≠ l ∧
    ∃ d ∈ k.donator n, p ≤ k.priority d

instance (k : Kernel) (l : Lock) (p : ℤ) : Decidable (k.Remains l p) := by
  unfold Kernel.Remains
  infer_instance

theorem remains_iff {l : Lock} {ds : List Lock} {p q : ℤ}
    (hp : List.Perm ds ((k.donators k.current).erase l))
    (hq : IsMaxDonation { k with donator := update k.donator l none } (k.priorityOld k.current)
      ds q) : k.Remains l p ↔ p ≤ q := by
  obtain ⟨hold, hall, hmax⟩ := hq
  have hmem {n : Lock} (hn : n ≠ l) : n ∈ ds ↔ n ∈ k.donators k.current := by
    rw [hp.mem_iff, List.mem_erase_of_ne hn]
  have hdon {n : Lock} {d : Thread} (h : update k.donator l none n = some d) :
      n ≠ l ∧ k.donator n = some d := by
    rw [Function.update_apply] at h
    split at h
    · cases h
    · rename_i hn
      exact ⟨hn, h⟩
  constructor
  · rintro (h | ⟨n, hn, hne, d, hd, h⟩)
    · exact h.trans hold
    · obtain ⟨e, he, hle⟩ := hall n ((hmem hne).mpr hn)
      rw [(hdon he).2] at hd
      cases hd
      exact h.trans hle
  · intro h
    rcases hmax with rfl | ⟨n, hn, d, hd, rfl⟩
    · exact .inl h
    · obtain ⟨hne, hd⟩ := hdon hd
      exact .inr ⟨n, (hmem hne).mp hn, hne, d, hd, h⟩

/-- The part of `lock_release` between `lock->holder = NULL` and `semaphore_up`: nothing if the
lock has no donator, else the revocation. -/
theorem lockReleaseRevoke_spec {l : Lock} (h : k.lockReleaseRevoke l = some k') :
    (k.donator l = none ∧
      k' = { k with donator := update k.donator l none }.push (.semaphoreUp (.lock l))) ∨
    (k.donator l ≠ none ∧ ∃ ds q,
      k' = { k with
        donators := update (fun t => (k.donators t).erase l) k.current ds
        donator := update k.donator l none
        priority := update k.priority k.current q }.push (.semaphoreUp (.lock l)) ∧
      List.Perm ds ((k.donators k.current).erase l) ∧
      IsMaxDonation { k with donator := update k.donator l none } (k.priorityOld k.current)
        ds q) := by
  simp only [Kernel.lockReleaseRevoke, Option.map_eq_some_iff] at h
  obtain ⟨k₁, h₁, rfl⟩ := h
  split at h₁
  · rename_i hd
    cases h₁
    exact .inl ⟨hd, rfl⟩
  · rename_i hd
    obtain ⟨ds, q, rfl, hp, hq⟩ := revoke_spec h₁
    exact .inr ⟨hd, ds, q, by simp, hp, hq⟩

/-! ### Condition variables and priorities -/

/-- The waiter that `condvar_signal` chooses: the back of the sorted list. -/
def Kernel.signalled (k : Kernel) (c : Condvar) : Option ℕ :=
  (listSort k.semaphorePriorityLess (k.condWaiters c)).bind List.getLast?

theorem condvarSignal_spec {c : Condvar} {l : Lock} (h : k.condvarSignal c l = some k') :
    k.holder l = some k.current ∧ ((k.condWaiters c = [] ∧ k' = k) ∨
      ∃ w ws, k.signalled c = some w ∧ List.Perm (w :: ws) (k.condWaiters c) ∧
        k' = { k with condWaiters := update k.condWaiters c ws }.push
          (.semaphoreUp (.waiter w))) := by
  unfold Kernel.condvarSignal at h
  split at h
  · rename_i hh
    refine ⟨hh, ?_⟩
    split at h
    · rename_i he
      cases h
      exact .inl ⟨he, rfl⟩
    · simp only [Option.bind_eq_bind, Option.bind_eq_some_iff, Option.some.injEq] at h
      obtain ⟨sorted, hs, w, hw, rfl⟩ := h
      refine .inr ⟨w, sorted.dropLast, by rw [Kernel.signalled, hs, Option.bind_some, hw], ?_, rfl⟩
      obtain ⟨init, rfl⟩ := List.getLast?_eq_some_iff.mp hw
      rw [List.dropLast_concat]
      exact (List.perm_append_singleton w init).symm.trans (listSort_perm hs)
  · cases h

theorem readyMaxPriority_spec {g m : ℤ} (h : k.readyMaxPriority g = some m) :
    ∀ t ∈ k.readyList, k.priority t ≤ m := by
  unfold Kernel.readyMaxPriority at h
  cases hr : k.readyList with
  | nil => simp
  | cons t l =>
      simp only [hr, Option.bind_eq_bind, Option.bind_eq_some_iff, Option.some.injEq] at h
      obtain ⟨u, hu, rfl⟩ := h
      obtain ⟨u', hu', -, hmax⟩ := listMax_spec (threadPriorityLess_compares k (t :: l))
      rw [hu, Option.some.injEq] at hu'
      exact hu' ▸ hmax

/-! ### The outcomes of a statement -/

/-- The statements that switch: executing `f` in `k`, where `f` is already off the stack, parks
the running thread and leaves the dispatcher `k'`. -/
inductive Parks : Frame → Kernel → Kernel → Prop
  | block {k : Kernel} {f : Frame} {s : Semaphore} :
      f = .semaphoreDown s ∨ f = .semaphoreDownLoop s → k.value s = 0 → Parks f k (k.blockedOn s)
  | up {k : Kernel} {s : Semaphore} {w : Thread} {ws : List Thread} :
      List.Perm (w :: ws) (k.waiters s) → (∀ u ∈ ws, k.priority u ≤ k.priority w) →
      k.status w = .blocked → k.priority k.current < k.priority w →
      Parks (.semaphoreUp s) k (k.woken s w ws).yielding
  | preempt {k : Kernel} {t : Thread} : k.priority k.current < k.priority t →
      Parks (.threadCreatePreempt t) k k.yielding
  | set {k : Kernel} {n g : ℤ} : Parks (.threadSetPriorityPreempt n g) k k.yielding
  | yield {k : Kernel} : Parks .threadYield k k.yielding
  | exit {k : Kernel} :
      Parks .threadExit k { k with status := update k.status k.current .dying }
  | idle {k : Kernel} :
      Parks .idle k { k.push .idle with status := update k.status k.current .blocked }

/-- The outcomes of executing `f` in `k`, where `f` is already off the stack. -/
inductive Exec : Frame → Kernel → Kernel → Prop
  | acquireFree {k : Kernel} {l : Lock} : k.holder l = none →
      Exec (.lockAcquire l) k (k.push (.lockAcquireDown l))
  | acquireHeld {k : Kernel} {l : Lock} {h : Thread} : k.holder l = some h → h ≠ k.current →
      Exec (.lockAcquire l) k (k.push (.lockAcquireContains l))
  | containsTrue {k : Kernel} {l : Lock} {h : Thread} : k.holder l = some h →
      l ∈ k.donators h → Exec (.lockAcquireContains l) k (k.push (.lockAcquireDonator l))
  | containsFalse {k : Kernel} {l : Lock} {h : Thread} : k.holder l = some h →
      l ∉ k.donators h → Exec (.lockAcquireContains l) k (k.push (.lockAcquirePush l))
  | push {k : Kernel} {l : Lock} {h : Thread} : k.holder l = some h →
      Exec (.lockAcquirePush l) k
        ({ k with donators := update k.donators h (k.donators h ++ [l]) }.push
          (.lockAcquireDonator l))
  | donator {k : Kernel} {l : Lock} : Exec (.lockAcquireDonator l) k
      ({ k with donator := update k.donator l (some k.current) }.push (.lockAcquireCompare l))
  | compareTrue {k : Kernel} {l : Lock} {h : Thread} : k.holder l = some h →
      k.priority h < k.priority k.current →
      Exec (.lockAcquireCompare l) k (k.push (.lockAcquireBlocker l))
  | compareFalse {k : Kernel} {l : Lock} {h : Thread} : k.holder l = some h →
      k.priority k.current ≤ k.priority h →
      Exec (.lockAcquireCompare l) k (k.push (.lockAcquireDown l))
  | blocker {k : Kernel} {l : Lock} : Exec (.lockAcquireBlocker l) k
      (({ k with blocker := update k.blocker k.current (some l) }.push
        (.lockAcquireDown l)).push (.donate l))
  | down {k : Kernel} {l : Lock} : Exec (.lockAcquireDown l) k
      ((k.push (.lockAcquireHold l)).push (.semaphoreDown (.lock l)))
  | hold {k : Kernel} {l : Lock} : Exec (.lockAcquireHold l) k
      { k with holder := update k.holder l (some k.current) }
  | donate {k : Kernel} {l : Lock} {h : Thread} : k.holder l = some h →
      Exec (.donate l) k
        ({ k with priority := update k.priority h (k.priority k.current) }.push (.donateNext l))
  | donateEnd {k : Kernel} {l : Lock} {h : Thread} : k.holder l = some h →
      k.blocker h = none → Exec (.donateNext l) k k
  | donateStop {k : Kernel} {l m : Lock} {h g : Thread} : k.holder l = some h →
      k.blocker h = some m → k.holder m = some g → k.priority k.current ≤ k.priority g →
      Exec (.donateNext l) k k
  | donateNext {k : Kernel} {l m : Lock} {h g : Thread} : k.holder l = some h →
      k.blocker h = some m → k.holder m = some g → k.priority g < k.priority k.current →
      Exec (.donateNext l) k (k.push (.donate m))
  | release {k : Kernel} {l : Lock} : k.holder l = some k.current →
      Exec (.lockRelease l) k
        ({ k with holder := update k.holder l none }.push (.lockReleaseRevoke l))
  | revokeNone {k : Kernel} {l : Lock} : k.donator l = none →
      Exec (.lockReleaseRevoke l) k
        ({ k with donator := update k.donator l none }.push (.semaphoreUp (.lock l)))
  | revoke {k : Kernel} {l : Lock} {ds : List Lock} {q : ℤ} : k.donator l ≠ none →
      List.Perm ds ((k.donators k.current).erase l) →
      IsMaxDonation { k with donator := update k.donator l none } (k.priorityOld k.current)
        ds q →
      Exec (.lockReleaseRevoke l) k ({ k with
        donators := update (fun t => (k.donators t).erase l) k.current ds
        donator := update k.donator l none
        priority := update k.priority k.current q }.push (.semaphoreUp (.lock l)))
  | take {k : Kernel} {f : Frame} {s : Semaphore} :
      f = .semaphoreDown s ∨ f = .semaphoreDownLoop s → k.value s ≠ 0 →
      Exec f k { k with value := update k.value s (k.value s - 1) }
  | upNone {k : Kernel} {s : Semaphore} : k.waiters s = [] →
      Exec (.semaphoreUp s) k
        { k with value := update k.value s ((k.value s + 1) % unsignedSize) }
  | upStay {k : Kernel} {s : Semaphore} {w : Thread} {ws : List Thread} :
      List.Perm (w :: ws) (k.waiters s) → (∀ u ∈ ws, k.priority u ≤ k.priority w) →
      k.status w = .blocked → k.priority w ≤ k.priority k.current →
      Exec (.semaphoreUp s) k (k.woken s w ws)
  | wait {k : Kernel} {c : Condvar} {l : Lock} : k.holder l = some k.current →
      Exec (.condvarWait c l) k (({ k with
        frames := k.frames + 1
        value := update k.value (.waiter k.frames) 0
        waiters := update k.waiters (.waiter k.frames) []
        condWaiters := update k.condWaiters c (k.condWaiters c ++ [k.frames]) }.push
          (.condvarWaitDown c l k.frames)).push (.lockRelease l))
  | waitDown {k : Kernel} {c : Condvar} {l : Lock} {w : ℕ} : Exec (.condvarWaitDown c l w) k
      ((k.push (.condvarWaitAcquire l w)).push (.semaphoreDown (.waiter w)))
  | waitAcquire {k : Kernel} {l : Lock} {w : ℕ} : Exec (.condvarWaitAcquire l w) k
      ((k.push (.condvarWaitReturn w)).push (.lockAcquire l))
  | waitReturn {k : Kernel} {w : ℕ} : Exec (.condvarWaitReturn w) k k
  | signalNone {k : Kernel} {c : Condvar} {l : Lock} : k.holder l = some k.current →
      k.condWaiters c = [] → Exec (.condvarSignal c l) k k
  | signal {k : Kernel} {c : Condvar} {l : Lock} {w : ℕ} {ws : List ℕ} :
      k.holder l = some k.current → k.signalled c = some w →
      List.Perm (w :: ws) (k.condWaiters c) → Exec (.condvarSignal c l) k
        ({ k with condWaiters := update k.condWaiters c ws }.push (.semaphoreUp (.waiter w)))
  | broadcastEnd {k : Kernel} {c : Condvar} {l : Lock} : k.condWaiters c = [] →
      Exec (.condvarBroadcast c l) k k
  | broadcast {k : Kernel} {c : Condvar} {l : Lock} : k.condWaiters c ≠ [] →
      Exec (.condvarBroadcast c l) k
        ((k.push (.condvarBroadcast c l)).push (.condvarSignal c l))
  | create {k : Kernel} {p : ℤ} : priMin ≤ p → p ≤ priMax →
      Exec (.threadCreate p) k
        (((k.initThread p).push (.allocateTid k.threads)).push (.lockAcquire .tid))
  | allocate {k : Kernel} {t : Thread} : Exec (.allocateTid t) k (k.allocateTid t)
  | unblock {k : Kernel} {t : Thread} : k.status t = .blocked →
      Exec (.threadCreateUnblock t) k
        ({ k with readyList := k.readyList ++ [t], status := update k.status t .ready }.push
          (.threadCreatePreempt t))
  | preemptStay {k : Kernel} {t : Thread} : k.priority t ≤ k.priority k.current →
      Exec (.threadCreatePreempt t) k k
  | setPriority {k : Kernel} {n g : ℤ} : k.priorityOld k.current = k.priority k.current →
      Exec (.threadSetPriority n g) k ({ k with
        priority := update k.priority k.current n
        priorityOld := update k.priorityOld k.current n }.push (.threadSetPriorityPreempt n g))
  | setOld {k : Kernel} {n g : ℤ} : k.priorityOld k.current ≠ k.priority k.current →
      Exec (.threadSetPriority n g) k
        { k with priorityOld := update k.priorityOld k.current n }
  | setStay {k : Kernel} {n g : ℤ} : (∀ t ∈ k.readyList, k.priority t ≤ n) →
      Exec (.threadSetPriorityPreempt n g) k k
  | switch {k k₁ : Kernel} {f : Frame} {t : Thread} {ready : List Thread} :
      Parks f k k₁ → NextThread k₁ t ready → Exec f k (k₁.dispatch t ready)

theorem exec_inv {f : Frame} (h : exec f k = some k') : Exec f k k' := by
  cases f with
  | lockAcquire l =>
      simp only [exec] at h
      split at h
      · cases h
      · rename_i hne
        split at h <;> cases h
        · rename_i hn
          exact .acquireFree hn
        · rename_i hn
          obtain ⟨o, ho⟩ := Option.ne_none_iff_exists'.mp hn
          exact .acquireHeld ho fun he => hne (by rw [ho, he])
  | lockAcquireContains l =>
      simp only [exec, Option.bind_eq_bind, Option.bind_eq_some_iff] at h
      obtain ⟨o, ho, h⟩ := h
      split at h <;> cases h
      · rename_i hm
        exact .containsTrue ho hm
      · rename_i hm
        exact .containsFalse ho hm
  | lockAcquirePush l =>
      simp only [exec, Option.bind_eq_bind, Option.bind_eq_some_iff, Option.some.injEq] at h
      obtain ⟨o, ho, rfl⟩ := h
      exact .push ho
  | lockAcquireDonator l => cases h; exact .donator
  | lockAcquireCompare l =>
      simp only [exec, Option.bind_eq_bind, Option.bind_eq_some_iff] at h
      obtain ⟨o, ho, h⟩ := h
      split at h <;> cases h
      · rename_i hp
        exact .compareTrue ho hp
      · rename_i hp
        exact .compareFalse ho (not_lt.mp hp)
  | lockAcquireBlocker l => cases h; exact .blocker
  | lockAcquireDown l => cases h; exact .down
  | lockAcquireHold l => cases h; exact .hold
  | donate l =>
      simp only [exec, Option.bind_eq_bind, Option.bind_eq_some_iff, Option.some.injEq] at h
      obtain ⟨o, ho, rfl⟩ := h
      exact .donate ho
  | donateNext l =>
      simp only [exec, Option.bind_eq_bind, Option.bind_eq_some_iff] at h
      obtain ⟨o, ho, h⟩ := h
      split at h
      · rename_i hb
        cases h
        exact .donateEnd ho hb
      · rename_i m hb
        simp only [Option.bind_eq_some_iff] at h
        obtain ⟨g, hg, h⟩ := h
        split at h <;> cases h
        · rename_i hp
          exact .donateNext ho hb hg hp
        · rename_i hp
          exact .donateStop ho hb hg (not_lt.mp hp)
  | lockRelease l =>
      simp only [exec] at h
      split at h <;> cases h
      rename_i hh
      exact .release hh
  | lockReleaseRevoke l =>
      obtain ⟨hd, rfl⟩ | ⟨hd, ds, q, rfl, hp, hq⟩ := lockReleaseRevoke_spec h
      · exact .revokeNone hd
      · exact .revoke hd hp hq
  | semaphoreDown s =>
      obtain ⟨hv, rfl⟩ | ⟨hv, t, ready, hn, rfl⟩ := semaphoreDown_spec h
      · exact .take (.inl rfl) hv
      · exact .switch (.block (.inl rfl) hv) hn
  | semaphoreDownLoop s =>
      obtain ⟨hv, rfl⟩ | ⟨hv, t, ready, hn, rfl⟩ := semaphoreDown_spec h
      · exact .take (.inr rfl) hv
      · exact .switch (.block (.inr rfl) hv) hn
  | semaphoreUp s =>
      obtain ⟨hw, rfl⟩ | ⟨w, ws, hp, hle, hb, ⟨hle', rfl⟩ | ⟨hlt, h⟩⟩ := semaphoreUp_spec h
      · exact .upNone hw
      · exact .upStay hp hle hb hle'
      · obtain ⟨t, ready, hn, rfl⟩ := h
        exact .switch (.up hp hle hb hlt) hn
  | condvarWait c l =>
      simp only [exec, Kernel.condvarWait] at h
      split at h <;> cases h
      rename_i hh
      exact .wait hh
  | condvarWaitDown c l w => cases h; exact .waitDown
  | condvarWaitAcquire l w => cases h; exact .waitAcquire
  | condvarWaitReturn w => cases h; exact .waitReturn
  | condvarSignal c l =>
      obtain ⟨hh, ⟨he, rfl⟩ | ⟨w, ws, hw, hp, rfl⟩⟩ := condvarSignal_spec h
      · exact .signalNone hh he
      · exact .signal hh hw hp
  | condvarBroadcast c l =>
      simp only [exec] at h
      split at h <;> cases h
      · rename_i he
        exact .broadcastEnd he
      · rename_i he
        exact .broadcast he
  | threadCreate p =>
      simp only [exec, Kernel.threadCreate] at h
      split at h <;> cases h
      rename_i hp
      exact .create hp.1 hp.2
  | allocateTid t => cases h; exact .allocate
  | threadCreateUnblock t =>
      simp only [exec, Kernel.threadUnblock, Option.bind_eq_bind, Option.bind_eq_some_iff,
        Option.some.injEq] at h
      obtain ⟨k₁, h₁, rfl⟩ := h
      split at h₁ <;> cases h₁
      rename_i hb
      exact .unblock hb
  | threadCreatePreempt t =>
      simp only [exec] at h
      split at h
      · rename_i hp
        obtain ⟨u, ready, hn, rfl⟩ := threadYield_spec h
        exact .switch (.preempt hp) hn
      · rename_i hp
        cases h
        exact .preemptStay (not_lt.mp hp)
  | threadSetPriority n g =>
      simp only [exec, Kernel.threadSetPriority, Option.some.injEq] at h
      split at h <;> cases h
      · rename_i he
        exact .setPriority he
      · rename_i he
        exact .setOld he
  | threadSetPriorityPreempt n g =>
      simp only [exec, Option.bind_eq_bind, Option.bind_eq_some_iff] at h
      obtain ⟨m, hm, h⟩ := h
      split at h
      · obtain ⟨t, ready, hn, rfl⟩ := threadYield_spec h
        exact .switch .set hn
      · rename_i hp
        cases h
        exact .setStay fun t ht => (readyMaxPriority_spec hm t ht).trans (not_lt.mp hp)
  | threadYield =>
      obtain ⟨t, ready, hn, rfl⟩ := threadYield_spec h
      exact .switch .yield hn
  | threadExit =>
      obtain ⟨t, ready, hn, rfl⟩ := schedule_spec h
      exact .switch .exit hn
  | idle =>
      obtain ⟨t, ready, hn, rfl⟩ := schedule_spec h
      exact .switch .idle hn

/-- Taking the next statement off the running thread's stack. -/
def Kernel.popped (k : Kernel) (st : List Frame) : Kernel :=
  { k with stack := update k.stack k.current st }

@[simp] theorem popped_stack (k : Kernel) (st : List Frame) :
    (k.popped st).stack = update k.stack k.current st := rfl

@[simp] theorem popped_current (k : Kernel) (st : List Frame) :
    (k.popped st).current = k.current := rfl

@[simp] theorem popped_code (k : Kernel) (st : List Frame) : (k.popped st).code = st := by
  simp [Kernel.popped, Kernel.code]

theorem stepRun_inv (h : stepRun k = some k') :
    ∃ f st, k.code = f :: st ∧ Exec f (k.popped st) k' := by
  unfold stepRun at h
  split at h
  · cases h
  · rename_i f st hc
    exact ⟨f, st, hc, exec_inv h⟩

/-- What an action can do. -/
inductive Moves : Action → Kernel → Kernel → Prop
  | call {k : Kernel} (c : Call) : k.code = [] → Moves (.call c) k (k.push c.frame)
  | run {k k' : Kernel} {f : Frame} {st : List Frame} : k.code = f :: st →
      Exec f (k.popped st) k' → Moves .run k k'
  | timer {k : Kernel} {t : Thread} {ready : List Thread} : NextThread k.yielding t ready →
      Moves .timer k (k.yielding.dispatch t ready)
  | race {k : Kernel} (d : Thread → List Lock) (p : Thread → ℤ) :
      Moves (.race d p) k { k with donators := d, priority := p }

theorem step_inv {a : Action} (h : step a k = some k') : Moves a k k' := by
  cases a with
  | call c =>
      simp only [step] at h
      split at h <;> cases h
      rename_i hcode
      exact .call c hcode
  | run =>
      obtain ⟨f, st, hcode, hx⟩ := stepRun_inv h
      exact .run hcode hx
  | timer =>
      simp only [step] at h
      split at h
      · cases h
      · obtain ⟨t, ready, hn, rfl⟩ := threadYield_spec h
        exact .timer hn
  | race d p =>
      cases h
      exact .race d p

end CSE130.Lab2
