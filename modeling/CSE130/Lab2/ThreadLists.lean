import CSE130.Lab2.Threads

/-! # The lists that threads are linked in

A thread has one list element, `sharedelem`, for the ready list and for the waiters lists of all
semaphores.  `ListsConsistent` says how the status of a thread and these lists fit, and `SoundAt`
what the next statement relies on: `list_push_front` and `list_push_back` get an element that is
in no list, `list_pop_back` one that is in its list, and the assertions of `thread_current`,
`thread_unblock` and `schedule` hold.

On top of `Consistent` this takes that only the running thread has the status for it, and that a
thread which is ready is not forgotten (`Queued`). -/

namespace CSE130.Lab2

open Function (update)
open KernelList
open Transition

variable {k k' k₁ : Kernel} {f : Frame} {fs st : List Frame} {s : Semaphore} {t u w : Thread}
  {ready ws : List Thread}

/-- The lists for `sharedelem`. -/
inductive Queue where
  | ready
  | waiters (s : Semaphore)
  deriving DecidableEq

def Kernel.queue (k : Kernel) : Queue → List Thread
  | .ready => k.readyList
  | .waiters s => k.waiters s

/-- `sharedelem` is in no list. -/
def Kernel.Unlinked (k : Kernel) (t : Thread) : Prop := ∀ q, t ∉ k.queue q

structure ListsConsistent (k : Kernel) : Prop where
  running : ∃! t, k.status t = .running
  once : ∀ t q, (k.queue q).count t ≤ 1
  one : ∀ t q q', t ∈ k.queue q → t ∈ k.queue q' → q = q'
  ready : ∀ t, t ≠ k.idleThread → (k.status t = .ready ↔ t ∈ k.readyList)
  blocked : ∀ t, k.status t = .blocked → t ∉ k.readyList
  unlinked : ∀ t, k.status t = .running ∨ k.status t = .dying → k.Unlinked t

/-! ### What the statements rely on -/

namespace Kernel

variable (k)

/-- `is_thread`: the page of a thread is freed when it has exited. -/
def IsThread (t : Thread) : Prop := t < k.threads ∧ k.status t ≠ .dying

/-- The assertions of `thread_current`. -/
def CurrentOk : Prop := k.IsThread k.current ∧ k.status k.current = .running

/-- `schedule`: the running thread is not running any more, the next one is a thread, and the
element that `list_pop_back` unlinks is in the ready list. -/
def ScheduleOk : Prop := k.status k.current ≠ .running ∧ ∃ t ready,
  k.nextThreadToRun = some (t, ready) ∧ k.IsThread t ∧ (k.readyList ≠ [] → t ∈ k.readyList)

/-- `thread_block`. -/
def BlockOk : Prop :=
  k.CurrentOk ∧ ScheduleOk { k with status := update k.status k.current .blocked }

/-- `thread_unblock`. -/
def UnblockOk (t : Thread) : Prop := k.IsThread t ∧ k.status t = .blocked ∧ k.Unlinked t

/-- `thread_yield`. -/
def YieldOk : Prop :=
  k.CurrentOk ∧ (k.current ≠ k.idleThread → k.Unlinked k.current) ∧ k.yielding.ScheduleOk

/-- The loop of `semaphore_down`. -/
def DownOk (s : Semaphore) : Prop := k.CurrentOk ∧ (k.value s = 0 → k.Unlinked k.current ∧
  BlockOk { k with waiters := update k.waiters s (k.current :: k.waiters s) })

/-- `semaphore_up`: the waiter at the back is unlinked from the waiters list, then unblocked. -/
def UpOk (s : Semaphore) : Prop := k.CurrentOk ∧ (k.waiters s ≠ [] → ∃ sorted w,
  listSort k.threadPriorityLess (k.waiters s) = some sorted ∧ sorted.getLast? = some w ∧
    w ∈ k.waiters s ∧
    UnblockOk { k with waiters := update k.waiters s sorted.dropLast } w ∧
    (k.priority k.current < k.priority w → (k.woken s w sorted.dropLast).YieldOk))

/-- The statement `f`, taken off the stack already. -/
def SoundAt : Frame → Prop
  | .semaphoreDown s | .semaphoreDownLoop s => k.DownOk s
  | .semaphoreUp s => k.UpOk s
  | .threadCreateUnblock t => k.UnblockOk t
  | .threadCreatePreempt _ | .threadSetPriorityPreempt _ _ | .threadYield => k.YieldOk
  | .threadExit =>
      k.CurrentOk ∧ ScheduleOk { k with status := update k.status k.current .dying }
  | .idle => k.BlockOk
  | _ => k.CurrentOk

end Kernel

/-! ### Threads that are ready -/

/-- No thread that is ready is forgotten, and the idle thread never exits. -/
structure Queued (k : Kernel) : Prop where
  ready : ∀ t, k.status t = .ready → t ≠ k.idleThread → t ∈ k.readyList
  idle : k.status k.idleThread ≠ .dying

/-- Only the running thread has the status for it. -/
def Sole (k : Kernel) : Prop := ∀ t, k.status t = .running → t = k.current

theorem Queued.of_same (hq : Queued k) (hs : k'.status = k.status)
    (hr : k'.readyList = k.readyList) (hi : k'.idleThread = k.idleThread) : Queued k' := by
  refine ⟨fun t ht => ?_, ?_⟩
  · rw [hs] at ht
    rw [hr, hi]
    exact hq.ready t ht
  · rw [hs, hi]
    exact hq.idle

theorem Sole.of_same (h : Sole k) (hs : k'.status = k.status) (hc : k'.current = k.current) :
    Sole k' := by
  intro t ht
  rw [hs] at ht
  rw [hc]
  exact h t ht

theorem Queued.update {x : ThreadStatus} (hq : Queued k)
    (hs : k'.status = update k.status t x) (hi : k'.idleThread = k.idleThread)
    (hr : ∀ u, u ∈ k.readyList → u ∈ k'.readyList)
    (ht : x = .ready → t ≠ k.idleThread → t ∈ k'.readyList)
    (hx : x = .dying → t ≠ k.idleThread) : Queued k' := by
  refine ⟨fun u hu hne => ?_, fun hd => ?_⟩
  · rw [hi] at hne
    rw [hs, Function.update_apply] at hu
    split at hu
    · rename_i he
      subst he
      exact ht hu hne
    · exact hr u (hq.ready u hu hne)
  · rw [hi, hs, Function.update_apply] at hd
    split at hd
    · rename_i he
      exact hx hd he.symm
    · exact hq.idle hd

theorem Sole.stop {x : ThreadStatus} (h : Sole k) (hs : k'.status = Function.update k.status k.current x)
    (hx : x ≠ .running) : ∀ t, k'.status t ≠ .running := by
  intro t ht
  rw [hs, Function.update_apply] at ht
  split at ht
  · exact hx ht
  · rename_i hne
    exact hne (h t ht)

theorem Queued.yielding (hq : Queued k) : Queued k.yielding := by
  refine hq.update (t := k.current) (x := .ready) rfl rfl (fun u hu => ?_) (fun _ hne => ?_) nofun
  · unfold Kernel.yielding
    dsimp only
    split
    · exact hu
    · exact List.mem_cons_of_mem _ hu
  · unfold Kernel.yielding
    rw [if_neg hne]
    exact List.mem_cons_self

theorem Queued.woken (hq : Queued k) : Queued (k.woken s w ws) :=
  hq.update (t := w) (x := .ready) rfl rfl (fun _ hu => List.mem_append_left _ hu)
    (fun _ _ => List.mem_append_right _ (List.mem_singleton_self w)) nofun

theorem Sole.woken (h : Sole k) : Sole (k.woken s w ws) := by
  intro t ht
  unfold Kernel.woken at ht
  dsimp only at ht
  rw [Function.update_apply] at ht
  split at ht
  · cases ht
  · exact h t ht

/-- The dispatched thread is the only one that runs. -/
theorem Queued.dispatch (hq : Queued k) (h : ∀ t, k.status t ≠ .running)
    (hn : NextThread k t ready) : Queued (k.dispatch t ready) ∧ Sole (k.dispatch t ready) := by
  have hstatus (u : Thread) : (k.dispatch t ready).status u =
      if u = t then .running else k.status u := Function.update_apply ..
  refine ⟨⟨fun u hu hne => ?_, fun hd => ?_⟩, fun u hu => ?_⟩
  · rw [hstatus] at hu
    split at hu
    · cases hu
    · rename_i hut
      have hmem := hq.ready u hu hne
      obtain ⟨he, -, -⟩ | ⟨hp, -⟩ := hn
      · rw [he] at hmem
        cases hmem
      · exact (List.mem_cons.mp (hp.mem_iff.mpr hmem)).resolve_left hut
  · rw [hstatus] at hd
    split at hd
    · cases hd
    · exact hq.idle hd
  · rw [hstatus] at hu
    split at hu
    · assumption
    · exact absurd hu (h u)

theorem Parks.queued (hp : Parks f k k₁) (hq : Queued k) (hl : Sole k)
    (hexit : f = .threadExit → k.current ≠ k.idleThread) :
    Queued k₁ ∧ ∀ t, k₁.status t ≠ .running := by
  cases hp with
  | block =>
      exact ⟨hq.update (t := k.current) (x := .blocked) rfl rfl (fun _ => id) nofun nofun,
        hl.stop (x := .blocked) rfl nofun⟩
  | up =>
      exact ⟨hq.woken.yielding, hl.woken.stop (x := .ready) rfl nofun⟩
  | preempt => exact ⟨hq.yielding, hl.stop (x := .ready) rfl nofun⟩
  | set => exact ⟨hq.yielding, hl.stop (x := .ready) rfl nofun⟩
  | yield => exact ⟨hq.yielding, hl.stop (x := .ready) rfl nofun⟩
  | exit =>
      exact ⟨hq.update (t := k.current) (x := .dying) rfl rfl (fun _ => id) nofun
        fun _ => hexit rfl, hl.stop (x := .dying) rfl nofun⟩
  | idle =>
      exact ⟨hq.update (t := k.current) (x := .blocked) rfl rfl (fun _ => id) nofun nofun,
        hl.stop (x := .blocked) rfl nofun⟩

theorem Exec.queued (hx : Exec f k k') (hq : Queued k) (hl : Sole k)
    (hexit : f = .threadExit → k.current ≠ k.idleThread) : Queued k' ∧ Sole k' := by
  cases hx with
  | upStay => exact ⟨hq.woken, hl.woken⟩
  | create =>
      refine ⟨hq.update (t := k.threads) (x := .blocked) rfl rfl (fun _ => id) nofun nofun,
        fun t ht => ?_⟩
      change update k.status k.threads .blocked t = .running at ht
      rw [Function.update_apply] at ht
      split at ht
      · cases ht
      · exact hl t ht
  | @unblock _ u =>
      refine ⟨hq.update (t := u) (x := .ready) rfl rfl (fun _ hu => List.mem_append_left _ hu)
        (fun _ _ => List.mem_append_right _ (List.mem_singleton_self u)) nofun, fun t ht => ?_⟩
      change update k.status u .ready t = .running at ht
      rw [Function.update_apply] at ht
      split at ht
      · cases ht
      · exact hl t ht
  | switch hp hn =>
      obtain ⟨hq₁, hnone⟩ := hp.queued hq hl hexit
      exact hq₁.dispatch hnone hn
  | _ => exact ⟨hq.of_same rfl rfl rfl, hl.of_same rfl rfl⟩

/-- `thread_exit` is not called by the idle thread. -/
theorem Consistent.not_idle (hk : Consistent k) (hcode : k.code = f :: st) (hf : f ≠ .idle) :
    k.current ≠ k.idleThread := by
  intro he
  have h := hk.threads.idle
  rw [← he] at h
  rw [Kernel.code, h] at hcode
  cases hcode
  exact hf rfl

theorem queued_step {a : Action} (hk : Consistent k) (hq : Queued k) (hl : Sole k)
    (hs : step a k = some k') : Queued k' ∧ Sole k' := by
  cases step_inv hs with
  | call => exact ⟨hq.of_same rfl rfl rfl, hl.of_same rfl rfl⟩
  | run hcode hx =>
      refine hx.queued (hq.of_same rfl rfl rfl) (hl.of_same rfl rfl) fun hf => ?_
      subst hf
      exact hk.not_idle hcode nofun
  | timer hn => exact hq.yielding.dispatch (hl.stop (x := .ready) rfl nofun) hn
  | race => exact ⟨hq.of_same rfl rfl rfl, hl.of_same rfl rfl⟩

theorem reachable_queued {G : Kernel → Action → Prop} {v : ℕ → BitVec 32}
    (hr : Reachable step G (boot v) k) : Queued k ∧ Sole k := by
  refine hr.invariant (I := fun k => Queued k ∧ Sole k) ⟨⟨fun t ht => ?_, by simp [boot]⟩, fun t ht => ?_⟩
    fun k a k' hr ⟨hq, hl⟩ _ hs => queued_step (reachable_consistent hr) hq hl hs
  · simp only [boot] at ht
    split at ht <;> cases ht
  · simp only [boot] at ht
    split at ht
    · assumption
    · cases ht

/-! ### The lists and the statuses -/

theorem Scheduled.unlinked (hk : Scheduled k)
    (h : k.status t ≠ .ready ∧ k.status t ≠ .blocked) : k.Unlinked t := by
  intro q hq
  cases q with
  | ready => exact h.1 (hk.ready t hq)
  | waiters s => exact h.2 (hk.waiting s t hq).1

theorem listsConsistent (hk : Consistent k) (hq : Queued k) (hl : Sole k) : ListsConsistent k where
  running := ⟨k.current, hk.threads.running, fun t ht => hl t ht⟩
  once t q := by
    cases q with
    | ready => exact List.nodup_iff_count_le_one.mp hk.threads.ready_nodup t
    | waiters s => exact List.nodup_iff_count_le_one.mp (hk.threads.waiting_nodup s) t
  one t q q' h h' := by
    cases q with
    | ready =>
        have hready := hk.threads.ready t h
        cases q' with
        | ready => rfl
        | waiters s =>
            have hb := (hk.threads.waiting s t h').1
            rw [hready] at hb
            cases hb
    | waiters s =>
        obtain ⟨hb, st, hst⟩ := hk.threads.waiting s t h
        cases q' with
        | ready =>
            have hready := hk.threads.ready t h'
            rw [hb] at hready
            cases hready
        | waiters s' =>
            obtain ⟨-, st', hst'⟩ := hk.threads.waiting s' t h'
            rw [hst] at hst'
            cases hst'
            rfl
  ready t hne := ⟨fun h => hq.ready t h hne, hk.threads.ready t⟩
  blocked t hb := hk.threads.not_ready_of_blocked hb
  unlinked t h := by
    refine hk.threads.unlinked ?_
    rcases h with h | h <;> rw [h] <;> exact ⟨nofun, nofun⟩

/-! ### The statements are sound -/

theorem Scheduled.currentOk (hk : Scheduled k) : k.CurrentOk :=
  ⟨⟨hk.current_lt, by rw [hk.running]; nofun⟩, hk.running⟩

theorem Scheduled.unlinked_current (hk : Scheduled k) : k.Unlinked k.current :=
  hk.unlinked (by rw [hk.running]; exact ⟨nofun, nofun⟩)

/-- The next thread is the idle thread or the back of the sorted ready list. -/
theorem scheduleOk (hcur : k.status k.current ≠ .running)
    (hready : ∀ t, t ∈ k.readyList → k.IsThread t) (hidle : k.IsThread k.idleThread) :
    k.ScheduleOk := by
  refine ⟨hcur, ?_⟩
  unfold Kernel.nextThreadToRun
  by_cases he : k.readyList = []
  · rw [if_pos he]
    exact ⟨k.idleThread, [], rfl, hidle, fun h => absurd he h⟩
  · rw [if_neg he]
    obtain ⟨sorted, t, hs, ht⟩ := exists_back (k := k) he
    have hmem : t ∈ k.readyList := (pop_back_spec hs ht).1.subset List.mem_cons_self
    refine ⟨t, sorted.dropLast, ?_, hready t hmem, fun _ => hmem⟩
    rw [hs, Option.bind_eq_bind, Option.bind_some, ht]
    rfl

/-- `schedule` after the running thread has got another status. -/
theorem Scheduled.scheduleOk {x : ThreadStatus} (hk : Scheduled k)
    (hi : k.status k.idleThread ≠ .dying) (hx : x ≠ .running)
    (hd : x = .dying → k.current ≠ k.idleThread) :
    Kernel.ScheduleOk { k with status := update k.status k.current x } := by
  refine CSE130.Lab2.scheduleOk ?_ (fun t ht => ⟨hk.ready_lt t ht, ?_⟩) ⟨hk.idle_lt, ?_⟩
  · dsimp only
    rw [Function.update_self]
    exact hx
  · have hready := hk.ready t ht
    dsimp only
    rw [Function.update_of_ne, hready]
    · nofun
    · rintro rfl
      rw [hk.running] at hready
      cases hready
  · dsimp only
    rw [Function.update_apply]
    split
    · rename_i he
      exact fun hxd => hd hxd he.symm
    · exact hi

theorem Scheduled.yieldOk (hk : Scheduled k) (hi : k.status k.idleThread ≠ .dying) :
    k.YieldOk := by
  have ht := hk.yielding
  refine ⟨hk.currentOk, fun _ => hk.unlinked_current, CSE130.Lab2.scheduleOk ?_
    (fun t hmem => ⟨ht.ready_lt t hmem, by rw [ht.ready t hmem]; nofun⟩) ⟨ht.idle_lt, ?_⟩⟩
  · change update k.status k.current .ready k.current ≠ .running
    rw [Function.update_self]
    nofun
  · change update k.status k.current .ready k.idleThread ≠ .dying
    rw [Function.update_apply]
    split
    · nofun
    · exact hi

/-- A waiter that has been unlinked is in no list. -/
theorem Scheduled.unblockOk (hk : Scheduled k) (hp : List.Perm (w :: ws) (k.waiters s)) :
    Kernel.UnblockOk { k with waiters := update k.waiters s ws } w := by
  have hmem := hp.subset List.mem_cons_self
  obtain ⟨hb, st, hst⟩ := hk.waiting s w hmem
  refine ⟨⟨hk.waiting_lt s w hmem, by rw [hb]; nofun⟩, hb, fun q hq => ?_⟩
  cases q with
  | ready => exact hk.not_ready_of_blocked hb hq
  | waiters s' =>
      change w ∈ update k.waiters s ws s' at hq
      rw [Function.update_apply] at hq
      split at hq
      · exact (List.nodup_cons.mp (hp.nodup_iff.mpr (hk.waiting_nodup s))).1 hq
      · rename_i hne
        -- the stack of the waiter names one semaphore
        obtain ⟨-, st', hst'⟩ := hk.waiting s' w hq
        rw [hst] at hst'
        cases hst'
        exact hne rfl

theorem Scheduled.upOk (hk : Scheduled k) (hi : k.status k.idleThread ≠ .dying)
    (s : Semaphore) : k.UpOk s := by
  refine ⟨hk.currentOk, fun hne => ?_⟩
  obtain ⟨sorted, w, hs, hw⟩ := exists_back (k := k) hne
  obtain ⟨hp, -⟩ := pop_back_spec hs hw
  have hmem := hp.subset List.mem_cons_self
  refine ⟨sorted, w, hs, hw, hmem, hk.unblockOk hp, fun _ => (hk.woken hp).yieldOk ?_⟩
  change update k.status w .ready k.idleThread ≠ .dying
  rw [Function.update_of_ne (hk.ne_of_waiting hmem).2.symm]
  exact hi

/-- The new thread is in no list before `thread_unblock`. -/
theorem Consistent.unblockOk (hk : Consistent k) (hcode : k.code = .threadCreateUnblock t :: st) :
    k.UnblockOk t := by
  have howns : k.Owns k.current (.thread t) :=
    ⟨.threadCreateUnblock t, by rw [← Kernel.code, hcode]; exact List.mem_cons_self, rfl⟩
  obtain ⟨hb, hempty⟩ := hk.threads.creating _ _ howns
  refine ⟨⟨hk.control.owned _ _ howns, by rw [hb]; simp⟩, hb, fun q hq => ?_⟩
  cases q with
  | ready => exact hk.threads.not_ready_of_blocked hb hq
  | waiters s =>
      obtain ⟨-, st, hst⟩ := hk.threads.waiting s t hq
      rw [hempty] at hst
      cases hst

theorem Consistent.soundAt (hk : Consistent k) (hi : k.status k.idleThread ≠ .dying)
    (hcode : k.code = f :: st) : (k.popped st).SoundAt f := by
  have hdown (s : Semaphore) : k.DownOk s :=
    ⟨hk.threads.currentOk, fun _ => ⟨hk.threads.unlinked_current, hk.threads.currentOk,
      hk.threads.scheduleOk hi (x := .blocked) nofun nofun⟩⟩
  cases f with
  | semaphoreDown s => exact hdown s
  | semaphoreDownLoop s => exact hdown s
  | semaphoreUp s => exact hk.threads.upOk hi s
  | threadCreateUnblock t => exact hk.unblockOk hcode
  | threadCreatePreempt t => exact hk.threads.yieldOk hi
  | threadSetPriorityPreempt n g => exact hk.threads.yieldOk hi
  | threadYield => exact hk.threads.yieldOk hi
  | threadExit =>
      exact ⟨hk.threads.currentOk,
        hk.threads.scheduleOk hi (x := .dying) nofun fun _ => hk.not_idle hcode nofun⟩
  | idle =>
      exact ⟨hk.threads.currentOk, hk.threads.scheduleOk hi (x := .blocked) nofun nofun⟩
  | _ => exact hk.threads.currentOk

/-- **The thread lists.**  In every reachable state the lists and the statuses fit, and the next
statement finds every element linked or not as its list operations need, and its assertions
true. -/
theorem thread_lists {v : ℕ → BitVec 32} (hr : Reachable step coop (boot v) k) :
    ListsConsistent k ∧ k.CurrentOk ∧
      ∀ f st, k.code = f :: st → (k.popped st).SoundAt f := by
  have hk := reachable_consistent hr
  obtain ⟨hq, hl⟩ := reachable_queued hr
  exact ⟨listsConsistent hk hq hl, hk.threads.currentOk, fun f st hcode =>
    hk.soundAt hq.idle hcode⟩

/-- Thread `2` has blocked on a semaphore, and the initial thread is about to wake it. -/
def upWaiting : List Action :=
  Call.steps (.threadCreate 40) 11 ++ Call.steps (.semaphoreDown 0) 1 ++ [.call (.semaphoreUp 0)]

theorem thread_lists_upWaiting : ∃ k, Reachable step coop (boot fun _ => 0) k ∧
    k.waiters (.sema 0) = [2] ∧ ListsConsistent k ∧ (k.popped []).UpOk (.sema 0) := by
  have hex : (execute step upWaiting (boot fun _ => 0)).any fun k =>
      k.waiters (.sema 0) = [2] ∧ k.code = [.semaphoreUp (.sema 0)] := by
    decide +kernel
  obtain ⟨k, hk, he⟩ := (Option.any_eq_true _ _).mp hex
  obtain ⟨hw, hcode⟩ := of_decide_eq_true he
  have hr : Reachable step coop (boot fun _ => 0) k :=
    execute_reachable (coop_of_call_run (by simp [upWaiting, Call.steps])) .refl hk
  obtain ⟨hlists, -, hsound⟩ := thread_lists hr
  exact ⟨k, hr, hw, hlists, hsound _ _ hcode⟩

end CSE130.Lab2
