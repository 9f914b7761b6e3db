import CSE130.Lab2.Semaphores

/-! # Preemptive priority scheduling

Whenever a call returns, the running thread should have the highest priority (`Top`).  Every
operation keeps this but one: `lock_release` lowers the priority of its caller when it revokes a
donation, and compares it then only with the waiter that its `semaphore_up` wakes.  The
condition `comparesEnough` says of each such `lock_release` that this comparison is enough, and
`top_of_comparesEnough` is the result on runs.

`AtTop` is the invariant by phases: where a statement has lowered the running thread or readied
another one, the comparison is still to come. -/

namespace CSE130.Lab2

open Function (update)
open Transition

variable {k k' : Kernel} {f g : Frame} {st : List Frame} {l : Lock} {t u : Thread} {p q : ℤ}
  {v : ℕ → BitVec 32} {a : Action}

/-- No ready thread has a higher priority than the running one. -/
def Top (k : Kernel) : Prop := ∀ t ∈ k.readyList, k.priority t ≤ k.priority k.current

/-- Control moves only in `schedule()`, and when `lock_release(l)` revokes a donation, one of
these holds: `l` has a waiter above the priority that remains, for which `semaphore_up` yields;
or no ready thread is above it; or the caller is `condvar_wait`, which blocks next. -/
def comparesEnough (k : Kernel) (a : Action) : Prop :=
  coop k a ∧
  match a, k.code with
  | .run, .lockReleaseRevoke l :: st => k.donator l ≠ none →
      (∃ w ∈ k.waiters (.lock l), ¬ k.Remains l (k.priority w)) ∨
      (∀ t ∈ k.readyList, k.Remains l (k.priority t)) ∨
      ∃ c w, st = [.condvarWaitDown c l w]
  | _, _ => True

/-- The caller of a `lock_release` is `condvar_wait`, and will block. -/
def Sleeps (k : Kernel) (st : List Frame) : Prop :=
  ∃ c l w, st = [.condvarWaitDown c l w] ∧ k.value (.waiter w) = 0

/-- What is known at each statement. -/
def TopAt (k : Kernel) : Frame → List Frame → Prop
  | .semaphoreUp s, st => Top k ∨ (∃ w ∈ k.waiters s, k.priority k.current < k.priority w) ∨
      ((∃ l, s = .lock l) ∧ Sleeps k st)
  | .threadCreatePreempt t, _ =>
      ∀ u ∈ k.readyList, k.priority u ≤ k.priority k.current ∨ u = t
  | .threadSetPriorityPreempt n _, _ => k.priority k.current = n
  | .condvarWaitDown _ _ w, _ => Top k ∨ k.value (.waiter w) = 0
  | .semaphoreDown s, _ => Top k ∨ k.value s = 0
  | .lockRelease _, st | .lockReleaseRevoke _, st =>
      Top k ∧ ∀ c l w, st = [.condvarWaitDown c l w] → k.value (.waiter w) = 0
  | _, _ => Top k

/-- The invariant by phases. -/
def AtTop : Kernel → Prop := Phase Top TopAt

theorem Top.resumes (h : Top k) (g : Frame) (st : List Frame) (hg : g.resumes) : TopAt k g st := by
  cases g <;> first | exact h | exact .inl h | exact hg.elim

theorem NextThread.top {ready : List Thread} (hn : NextThread k t ready) :
    Top (k.dispatch t ready) := fun _ hu => hn.le hu

theorem AtTop.revoke {ds : List Lock} (ht : AtTop k) (hg : comparesEnough k .run)
    (hcode : k.code = .lockReleaseRevoke l :: st) (hd : k.donator l ≠ none)
    (hp : List.Perm ds ((k.donators k.current).erase l))
    (hq : IsMaxDonation { k with donator := update k.donator l none } (k.priorityOld k.current)
      ds q) (hr : k'.readyList = k.readyList) (hw : k'.waiters = k.waiters)
    (hv : k'.value = k.value) (hpr : k'.priority = update k.priority k.current q)
    (hc : k'.current = k.current) (hw' : ∀ u ∈ k.readyList, u ≠ k.current)
    (hw'' : ∀ u ∈ k.waiters (.lock l), u ≠ k.current) : TopAt k' (.semaphoreUp (.lock l)) st := by
  have hcur : k'.priority k'.current = q := by rw [hc, hpr, Function.update_self]
  have hother {u : Thread} (hu : u ≠ k.current) : k'.priority u = k.priority u := by
    rw [hpr, Function.update_of_ne hu]
  obtain ⟨-, hsleep⟩ := (Phase.cons hcode).mp ht
  have hg := hg.2
  rw [hcode] at hg
  rcases hg hd with ⟨w, hwm, hgt⟩ | hle | ⟨c, w, rfl⟩
  · refine .inr (.inl ⟨w, hw ▸ hwm, ?_⟩)
    rw [hcur, hother (hw'' w hwm)]
    exact not_le.mp (mt (remains_iff hp hq).mpr hgt)
  · refine .inl fun u hu => ?_
    rw [hr] at hu
    rw [hcur, hother (hw' u hu)]
    exact (remains_iff hp hq).mp (hle u hu)
  · refine .inr (.inr ⟨⟨l, rfl⟩, c, l, w, rfl, ?_⟩)
    rw [hv]
    exact hsleep c l w rfl

theorem AtTop.exec (hk : Cooperative k) (ht : AtTop k) (hg : comparesEnough k .run)
    (hcode : k.code = f :: st) (hx : Exec f (k.popped st) k') : AtTop k' := by
  have hP : TopAt k f st := (Phase.cons hcode).mp ht
  have hw : WellStacked (f :: st) := hk.wellStacked hcode
  have hcur {u : Thread} (hu : u ∈ k.readyList) : u ≠ k.current := by
    rintro rfl
    have := hk.threads.ready _ hu
    rw [hk.threads.running] at this
    cases this
  have hret {X : Kernel} (hd : ¬ f.isDonate) (hc : X.code = st) (h : Top X) : AtTop X :=
    Phase.ret hw hd hc h h.resumes
  have hstay : (k.popped st).code = st := popped_code k st
  have hsleep {X : Kernel} (c : Condvar) (l : Lock) (w : ℕ)
      (hc : X.code = [.condvarWaitDown c l w])
      (hv : X.value (.waiter w) = k.value (.waiter w)) (hz : k.value (.waiter w) = 0) :
      AtTop X := (Phase.cons hc).mpr (.inr (hv.trans hz))
  have hother {X : Kernel} {x : ℕ} (l : Lock) (w : ℕ)
      (hX : X.value = update k.value (.lock l) x) : X.value (.waiter w) = k.value (.waiter w) := by
    rw [hX, Function.update_of_ne (by simp)]
  cases hx with
  | acquireFree | acquireHeld | containsTrue | containsFalse | compareTrue | compareFalse =>
      exact Phase.push hP
  | push | donator | donateNext | broadcast | blocker | waitAcquire => exact Phase.push hP
  | down | signal => exact Phase.push (.inl hP)
  | waitDown => exact Phase.push hP
  | hold => exact hret id hstay hP
  | @donate _ l h hh =>
      -- the holder is raised to the running thread's priority
      refine Phase.push fun u hu => ?_
      have := hP u hu
      simp only [Kernel.push, Kernel.popped, Function.update_apply]
      split <;> split <;> simp_all
  | donateEnd | donateStop => exact Phase.ret_donate hw hstay fun _ _ _ => hP
  | waitReturn | signalNone | broadcastEnd => exact hret id hstay hP
  | release =>
      refine Phase.push ⟨hP.1, fun c l w h => hP.2 c l w ?_⟩
      simpa [Kernel.code] using h
  | revokeNone => exact Phase.push (.inl hP.1)
  | @revoke _ l ds q hd hp hq =>
      refine Phase.pushed hstay ?_
      exact ht.revoke hg hcode hd hp hq rfl rfl rfl rfl rfl (fun u => hcur)
        fun u hu => (hk.threads.ne_of_waiting hu).1
  | @take _ _ s hf hv =>
      have hv : k.value s ≠ 0 := hv
      have htop : Top k := by
        rcases hf with rfl | rfl
        · exact hP.resolve_right hv
        · exact hP
      have hd : ¬ f.isDonate := by rcases hf with rfl | rfl <;> exact id
      exact hret hd (by simp [Kernel.code]) htop
  | @upNone _ s hw' =>
      have hw' : k.waiters s = [] := hw'
      rcases hP with hP | ⟨w, hmem, -⟩ | ⟨⟨l, rfl⟩, c, l', w, rfl, hz⟩
      · exact hret id (by simp [Kernel.code]) hP
      · rw [hw'] at hmem
        cases hmem
      · -- back in `condvar_wait`, which finds its semaphore down
        exact hsleep c l' w (by simp [Kernel.code]) (hother l w rfl) hz
  | @upStay _ s w ws hp hle hb hpr =>
      have hpr : k.priority w ≤ k.priority k.current := hpr
      rcases hP with hP | ⟨u, hmem, hlt⟩ | ⟨⟨l, rfl⟩, c, l', u, rfl, hz⟩
      · refine hret id (by simp [Kernel.code, Kernel.woken]) fun u hu => ?_
        rcases List.mem_append.mp hu with hu | hu
        · exact hP u hu
        · rw [List.mem_singleton.mp hu]
          exact hpr
      · -- the waiter of the highest priority is above the running thread
        have hmax : k.priority u ≤ k.priority w := by
          rcases List.mem_cons.mp (hp.symm.subset hmem) with rfl | hu
          · exact le_rfl
          · exact hle u hu
        omega
      · exact hsleep c l' u (by simp [Kernel.code, Kernel.woken]) (hother l u rfl) hz
  | @wait _ c l hh =>
      refine Phase.push ⟨hP, fun c' l' w h => ?_⟩
      simp only [Kernel.push_code, List.cons.injEq, Frame.condvarWaitDown.injEq] at h
      rw [← h.1.2.2]
      exact Function.update_self ..
  | create =>
      -- the page of the new thread is not one of the threads compared
      refine Phase.push fun u hu => ?_
      have hu' : u ≠ k.threads := (hk.threads.ready_lt u hu).ne
      have hc : k.current ≠ k.threads := hk.threads.current_lt.ne
      show update k.priority k.threads _ u ≤ update k.priority k.threads _ k.current
      rw [Function.update_of_ne hu', Function.update_of_ne hc]
      exact hP u hu
  | allocate => exact Phase.push ⟨hP, fun c l w h => by simp [Kernel.code] at h⟩
  | unblock =>
      refine Phase.push fun u hu => ?_
      rcases List.mem_append.mp hu with hu | hu
      · exact .inl (hP u hu)
      · exact .inr (List.mem_singleton.mp hu)
  | @preemptStay _ t hle =>
      refine hret id hstay fun u hu => ?_
      rcases hP u hu with h | rfl
      · exact h
      · exact hle
  | setPriority => exact Phase.push (Function.update_self ..)
  | setOld => exact hret id hstay hP
  | setStay h =>
      refine hret id hstay fun u hu => (h u hu).trans_eq ?_
      exact hP.symm
  | switch hp hn => exact Phase.parked (hk.parks hcode hp _) hn.top hn.top.resumes

theorem reachable_atTop (hr : Reachable step comparesEnough (boot v) k) : AtTop k := by
  refine Phase.reachable (fun _ _ hg => hg.1) (fun t ht => by cases ht) (fun k c hB => ?_)
    (fun k f st k' _ hk ht hg hcode hx => AtTop.exec hk ht hg hcode hx) hr
  cases c with
  | semaphoreDown | semaphoreUp => exact .inl hB
  | lockRelease => exact ⟨hB, by simp⟩
  | _ => exact hB

/-- **Preemptive priority scheduling**: if every `lock_release` that revokes a donation
compares enough, then whenever the running thread is back from a call, no ready thread has a
higher priority. -/
theorem top_of_comparesEnough (h : Reachable step comparesEnough (boot v) k)
    (hcode : k.code = []) : Top k :=
  (Phase.nil hcode).mp (reachable_atTop h)

-- A thread that is created below the running one stays ready.
example : (execute step (Call.steps (.threadCreate 20) 11) (boot fun _ => 0)).any fun k =>
    k.code = [] ∧ k.current = 0 ∧ k.readyList = [2] := by
  decide +kernel

/-- A thread of priority `40` waits for the lock of the initial thread, which releases it. -/
def releaseToWaiter : List Action :=
  Call.steps (.lockAcquire 0) 4 ++ Call.steps (.threadCreate 40) 11 ++
  Call.steps (.lockAcquire 0) 10 ++ Call.steps (.lockRelease 0) 5

/-- The revocation of a donation to a thread with a higher waiter. -/
def revokesBelow (k : Kernel) (_ : Action) : Bool :=
  match k.code with
  | .lockReleaseRevoke l :: _ =>
      k.donator l = none ∨ ∃ w ∈ k.waiters (.lock l), ¬ k.Remains l (k.priority w)
  | _ => true

theorem comparesEnough_of_revokesBelow (hc : coop k a) (h : revokesBelow k a) :
    comparesEnough k a := by
  refine ⟨hc, ?_⟩
  unfold revokesBelow at h
  split
  · rename_i hcode
    rw [hcode] at h
    exact fun hd => .inl ((of_decide_eq_true h).resolve_left hd)
  · trivial

theorem top_of_comparesEnough_release : ∃ k, Reachable step comparesEnough (boot fun _ => 0) k ∧
    k.code = [] ∧ k.current = 2 ∧ k.readyList = [0] ∧ Top k := by
  have hex : (execute (checked revokesBelow step) releaseToWaiter (boot fun _ => 0)).any
      fun k => k.code = [] ∧ k.current = 2 ∧ k.readyList = [0] := by
    decide +kernel
  obtain ⟨k, hk, he⟩ := (Option.any_eq_true _ _).mp hex
  obtain ⟨hcode, hcur, hready⟩ := of_decide_eq_true he
  have hrun := execute_run (G := coop)
    (coop_of_call_run (by simp [releaseToWaiter, Call.steps])) .nil hk
  have hr : Reachable step comparesEnough (boot fun _ => 0) k :=
    ⟨_, hrun.of_checked.mono fun _ _ h => comparesEnough_of_revokesBelow h.2 h.1⟩
  exact ⟨k, hr, hcode, hcur, hready, top_of_comparesEnough hr hcode⟩

/-- The initial thread holds two locks.  Threads of priority `40` and `35` want the first one, in
this order, and one of priority `32` the second; the initial thread sleeps while the last two
come to their `lock_acquire`.  Woken by a fourth thread, it creates one of priority `38`, and
releases the second lock. -/
def releaseBelowReady : List Action :=
  Call.steps (.lockAcquire 0) 4 ++ Call.steps (.lockAcquire 1) 4 ++
  Call.steps (.threadCreate 40) 11 ++ Call.steps (.lockAcquire 0) 10 ++
  Call.steps (.threadCreate 35) 11 ++ Call.steps (.threadCreate 32) 11 ++
  Call.steps (.threadCreate 20) 11 ++ Call.steps (.semaphoreDown 0) 1 ++
  Call.steps (.lockAcquire 0) 6 ++ Call.steps (.lockAcquire 1) 7 ++
  Call.steps (.semaphoreUp 0) 2 ++ Call.steps (.threadCreate 38) 11 ++
  Call.steps (.lockRelease 1) 3

/-- `lock_release` returns to a thread of priority `35` while one of priority `38` is ready. -/
theorem lock_release_below_ready : ∃ k, Reachable step coop (boot fun _ => 0) k ∧
    k.code = [] ∧ k.priority k.current = 35 ∧ 6 ∈ k.readyList ∧ k.priority 6 = 38 ∧
    ¬ Top k := by
  have hex : (execute step releaseBelowReady (boot fun _ => 0)).any fun k =>
      k.code = [] ∧ k.priority k.current = 35 ∧ 6 ∈ k.readyList ∧ k.priority 6 = 38 := by
    decide +kernel
  obtain ⟨k, hk, he⟩ := (Option.any_eq_true _ _).mp hex
  obtain ⟨hcode, hcur, hready, hpr⟩ := of_decide_eq_true he
  have hr := execute_reachable (G := coop)
    (coop_of_call_run (by simp [releaseBelowReady, Call.steps])) .refl hk
  refine ⟨k, hr, hcode, hcur, hready, hpr, fun htop => ?_⟩
  have := htop 6 hready
  omega

end CSE130.Lab2
