import CSE130.Lab2.Mutex

/-! # Condition variables

Three results about `condvar_wait`, `condvar_signal` and `condvar_broadcast`.

* Every signal is delivered once (`condvar_delivery`): for every `waiter` semaphore the history
  counts the signals that have chosen it, and `Delivery` ties this count to the list it is
  linked in, the `semaphore_up` that is still to come, its value and the place of its owner.
* `condvar_broadcast` ends after a bounded number of its own statements and ups exactly the
  waiters that were linked when it was called (`Broadcasting`), if every condition variable is
  used with one lock (`paired`).
* `condvar_signal` compares the priorities of the threads that wait on two linked semaphores;
  it finds one on each of them unless an owner is between the `lock_release` and the
  `semaphore_down` of its `condvar_wait` (`condvar_signal_safe`). -/

namespace CSE130.Lab2

open Function (update)
open Transition

variable {k k' : Kernel} {f g : Frame} {fs st : List Frame} {c : Condvar} {l : Lock}
  {t u : Thread} {w : ℕ} {v : ℕ → BitVec 32} {h : List Event} {a : Action}

/-! ### The life of a waiter semaphore -/

/-- The event is a `condvar_signal` that chooses `w`. -/
def chooses (w : ℕ) : Event → Bool
  | (k, .run) =>
      match k.code.head? with
      | some (.condvarSignal c _) => k.signalled c = some w
      | _ => false
  | _ => false

/-- The signals that have chosen `w`. -/
def chosen (w : ℕ) (h : List Event) : ℕ := h.countP (chooses w)

/-- The statements of `condvar_wait`, with `waiter` number `w`, from the call of
`semaphore_down(&waiter)` to its end. -/
def Frame.waits (w : ℕ) : Frame → Prop
  | .condvarWaitDown _ _ w' => w' = w
  | .semaphoreDown (.waiter w') | .semaphoreDownLoop (.waiter w') => w' = w
  | _ => False

/-- The thread with this stack has not got through its `semaphore_down(&waiter)`. -/
def Waits (w : ℕ) (st : List Frame) : Prop := ∃ f ∈ st, f.waits w

/-- Some thread is at that point. -/
def Kernel.Waiting (k : Kernel) (w : ℕ) : Prop := ∃ t, Waits w (k.stack t)

/-- The signal of `t` has chosen `w` and has not upped it yet. -/
def Kernel.Pending (k : Kernel) (t : Thread) (w : ℕ) : Prop :=
  .semaphoreUp (.waiter w) ∈ k.stack t

/-- Where a `waiter` semaphore is between its signal and its owner. -/
structure Delivery (w : ℕ) (h : List Event) (k : Kernel) : Prop where
  le : chosen w h ≤ 1
  fresh : k.frames ≤ w → chosen w h = 0
  linked : ∀ c, w ∈ k.condWaiters c → chosen w h = 0 ∧ k.Waiting w
  pending : ∀ t, k.Pending t w → chosen w h = 1 ∧ ups (.waiter w) h = 0 ∧
    k.value (.waiter w) = 0 ∧ k.Waiting w ∧ ∀ u, k.Pending u w → u = t
  owed : k.value (.waiter w) ≠ 0 → chosen w h = 1 ∧ k.value (.waiter w) = 1 ∧ k.Waiting w ∧
    ∀ t, ¬ k.Pending t w
  passed : ∀ t, k.Owns t (.waiter w) → ¬ Waits w (k.stack t) → chosen w h = 1
  delivered : (∀ t, ¬ k.Pending t w) → ups (.waiter w) h = chosen w h

theorem Flow.waits (hf : Flow k f fs) (hg : g ∈ fs) (hw : g.waits w) :
    f.waits w ∨ ((∃ c l, f = .condvarWait c l) ∧ w = k.frames) := by
  cases hf with
  | block s hs =>
      rw [List.mem_singleton] at hg
      subst hg
      rcases hs with rfl | rfl <;> cases s <;> exact .inl hw
  | _ =>
      simp at hg
      try rcases hg with rfl | rfl
      all_goals simp_all [Frame.waits]

theorem Consistent.waits_of (hk : Consistent k) (hcode : k.code = f :: st)
    (hx : Exec f (k.popped st) k') (hw : Waits w (k'.stack t)) : Waits w (k.stack t) ∨
      (t = k.current ∧ (∃ c l, f = .condvarWait c l) ∧ w = k.frames) := by
  obtain ⟨fs, hf, hst⟩ := hx.flow (hk.control.fresh _ le_rfl) hk.threads.current_lt.ne
  rw [hst, Function.update_apply] at hw
  split at hw
  · rename_i he
    subst he
    have hcode : k.stack k.current = f :: st := hcode
    rw [hcode]
    obtain ⟨g, hg, hgw⟩ := hw
    rcases List.mem_append.mp hg with hg | hg
    · rcases hf.waits hg hgw with h | h
      · exact .inl ⟨f, List.mem_cons_self, h⟩
      · exact .inr ⟨rfl, h⟩
    · exact .inl ⟨g, List.mem_cons_of_mem f hg, hgw⟩
  · exact .inl hw

theorem Frame.waits.cases (hf : f.waits w) : (∃ c l, f = .condvarWaitDown c l w) ∨
    f.downs = some (.waiter w) := by
  cases f with
  | condvarWaitDown c l w' => exact .inl ⟨c, l, hf ▸ rfl⟩
  | semaphoreDown s | semaphoreDownLoop s =>
      cases s with
      | waiter w' => exact .inr (hf ▸ rfl)
      | _ => exact hf.elim
  | _ => exact hf.elim

theorem Consistent.waits (hk : Consistent k) (hcode : k.code = f :: st)
    (hx : Exec f (k.popped st) k') (hw : Waits w (k.stack t)) : Waits w (k'.stack t) ∨
      (t = k.current ∧ f.downs = some (.waiter w) ∧ k.value (.waiter w) ≠ 0) := by
  obtain ⟨fs, hf, hst⟩ := hx.flow (hk.control.fresh _ le_rfl) hk.threads.current_lt.ne
  by_cases ht : t = k.current
  · subst ht
    have hcode' : k.stack k.current = f :: st := hcode
    rw [hcode'] at hw
    obtain ⟨g, hg, hgw⟩ := hw
    rcases List.mem_cons.mp hg with rfl | hg
    · rcases hgw.cases with ⟨c, l, rfl⟩ | hd
      · refine .inl ⟨.semaphoreDown (.waiter w), ?_, rfl⟩
        cases hx with
        | take h => rcases h with h | h <;> cases h
        | waitDown => simp
        | switch hp => cases hp with
          | block h => rcases h with h | h <;> cases h
      · by_cases hv : k.value (.waiter w) = 0
        · have hmem : k.current ∈ k'.waiters (.waiter w) := by
            cases hx.outcome (.waiter w) with
            | take _ hne => exact (hne hv).elim
            | wait _ _ _ hw => exact hw ▸ List.mem_cons_self
            | upNone hu | up _ hu => cases g <;> simp_all [Frame.downs, Frame.ups]
            | init h' => obtain ⟨c, l, rfl⟩ := h'; cases hd
            | none hd' => exact (hd' hd).elim
          obtain ⟨-, st', hst'⟩ := (hk.exec hcode hx).threads.waiting _ _ hmem
          exact .inl ⟨.semaphoreDownLoop (.waiter w), by rw [hst']; exact List.mem_cons_self, rfl⟩
        · exact .inr ⟨rfl, hd, hv⟩
    · refine .inl ⟨g, ?_, hgw⟩
      rw [hst, Function.update_self]
      exact List.mem_append_right _ hg
  · rw [hst, Function.update_of_ne ht]
    exact .inl hw

theorem Consistent.owns_of_waits (hk : Consistent k) (hw : Waits w (k.stack t)) :
    k.Owns t (.waiter w) := by
  obtain ⟨f, hf, hfw⟩ := hw
  rcases hfw.cases with ⟨c, l, rfl⟩ | hd
  · exact ⟨_, hf, rfl⟩
  · -- a frame of `semaphore_down` is on top
    have hs := hk.control.shape t
    cases hst : k.stack t with
    | nil =>
        rw [hst] at hf
        cases hf
    | cons g st =>
        rw [hst] at hs hf
        rcases List.mem_cons.mp hf with rfl | hf
        · obtain ⟨l, rfl⟩ : ∃ l, st = [.condvarWaitAcquire l w] := by
            rcases downs_iff.mp hd with rfl | rfl <;> exact hs
          exact ⟨.condvarWaitAcquire l w, by simp [hst], rfl⟩
        · rcases Below.mem hs hf with ho | ⟨l, rfl | ⟨rfl, -⟩⟩
          · cases f <;> first | exact ho.elim | cases hd
          · cases hd
          · cases hd

theorem chooses_run (hcode : k.code = f :: st) : chooses w (k, .run) = true ↔
    ∃ c l, f = .condvarSignal c l ∧ k.signalled c = some w := by
  cases f <;> simp [chooses, hcode]

namespace Delivery

/-- Steps that do not touch the semaphore: its owner stays before or after its
`semaphore_down`. -/
theorem keep (hd : Delivery w h k) (hn : k.frames ≤ k'.frames)
    (hl : ∀ c, w ∈ k'.condWaiters c → w ∈ k.condWaiters c)
    (hp : ∀ t, k'.Pending t w ↔ k.Pending t w)
    (hv : k'.value (.waiter w) = k.value (.waiter w))
    (hw : ∀ t, Waits w (k'.stack t) ↔ Waits w (k.stack t))
    (ho : ∀ t, k'.Owns t (.waiter w) → k.Owns t (.waiter w))
    (hc : chosen w ((k, a) :: h) = chosen w h)
    (hu : ups (.waiter w) ((k, a) :: h) = ups (.waiter w) h) :
    Delivery w ((k, a) :: h) k' := by
  have hwaiting (hk : k.Waiting w) : k'.Waiting w := by
    obtain ⟨t, ht⟩ := hk
    exact ⟨t, (hw t).mpr ht⟩
  refine ⟨by rw [hc]; exact hd.le, fun h => ?_, fun c h => ?_, fun t h => ?_, fun h => ?_,
    fun t h h' => ?_, fun h => ?_⟩
  · rw [hc]
    exact hd.fresh (hn.trans h)
  · rw [hc]
    obtain ⟨h0, hk⟩ := hd.linked c (hl c h)
    exact ⟨h0, hwaiting hk⟩
  · rw [hc, hu, hv]
    obtain ⟨h1, h2, h3, h4, h5⟩ := hd.pending t ((hp t).mp h)
    exact ⟨h1, h2, h3, hwaiting h4, fun u hu => h5 u ((hp u).mp hu)⟩
  · rw [hv] at h
    rw [hc, hv]
    obtain ⟨h1, h2, h3, h4⟩ := hd.owed h
    exact ⟨h1, h2, hwaiting h3, fun t ht => h4 t ((hp t).mp ht)⟩
  · rw [hc]
    exact hd.passed t (ho t h) fun hw' => h' ((hw t).mpr hw')
  · rw [hc, hu]
    exact hd.delivered fun t ht => h t ((hp t).mpr ht)

theorem pass (hd : Delivery w h k) (hn : k.frames ≤ k'.frames) (hne : k.value (.waiter w) ≠ 0)
    (hv : k'.value (.waiter w) = k.value (.waiter w) - 1)
    (hl : ∀ c, w ∈ k'.condWaiters c → w ∈ k.condWaiters c)
    (hp : ∀ t, k'.Pending t w → k.Pending t w)
    (hc : chosen w ((k, a) :: h) = chosen w h)
    (hu : ups (.waiter w) ((k, a) :: h) = ups (.waiter w) h) :
    Delivery w ((k, a) :: h) k' := by
  obtain ⟨h1, h2, -, h4⟩ := hd.owed hne
  refine ⟨by rw [hc]; exact hd.le, fun h => ?_, fun c h => ?_, fun t h => ?_, fun h => ?_,
    fun _ _ _ => hc.trans h1, fun _ => ?_⟩
  · rw [hc]
    exact hd.fresh (hn.trans h)
  · have := (hd.linked c (hl c h)).1
    omega
  · exact (h4 t (hp t h)).elim
  · rw [hv, h2] at h
    exact (h rfl).elim
  · rw [hc, hu]
    exact hd.delivered h4

theorem give (hd : Delivery w h k) (hpend : k.Pending k.current w) (hn : k.frames ≤ k'.frames)
    (hv : k'.value (.waiter w) = (k.value (.waiter w) + 1) % unsignedSize)
    (hl : ∀ c, w ∈ k'.condWaiters c → w ∈ k.condWaiters c)
    (hp : ∀ t, k'.Pending t w → k.Pending t w ∧ t ≠ k.current)
    (hw : k.Waiting w → k'.Waiting w)
    (hc : chosen w ((k, a) :: h) = chosen w h)
    (hu : ups (.waiter w) ((k, a) :: h) = ups (.waiter w) h + 1) :
    Delivery w ((k, a) :: h) k' := by
  obtain ⟨h1, h2, h3, h4, h5⟩ := hd.pending _ hpend
  have hv : k'.value (.waiter w) = 1 := by
    rw [hv, h3]
    rfl
  have hnone (t : Thread) : ¬ k'.Pending t w := fun ht => (hp t ht).2 (h5 t (hp t ht).1)
  refine ⟨by rw [hc]; exact hd.le, fun h => ?_, fun c h => ?_, fun t h => (hnone t h).elim,
    fun _ => ⟨hc.trans h1, hv, hw h4, hnone⟩, fun _ _ _ => hc.trans h1, fun _ => ?_⟩
  · rw [hc]
    exact hd.fresh (hn.trans h)
  · have := (hd.linked c (hl c h)).1
    omega
  · omega

theorem signal (hd : Delivery w h k) (hn : k.frames ≤ k'.frames)
    (hlinked : w ∈ k.condWaiters c) (hl : ∀ c, w ∉ k'.condWaiters c)
    (hlt : w < k.frames) (hp : ∀ t, k'.Pending t w ↔ t = k.current)
    (hv : k'.value (.waiter w) = k.value (.waiter w)) (hw : k.Waiting w → k'.Waiting w)
    (hc : chosen w ((k, a) :: h) = chosen w h + 1)
    (hu : ups (.waiter w) ((k, a) :: h) = ups (.waiter w) h) :
    Delivery w ((k, a) :: h) k' := by
  obtain ⟨h0, hwait⟩ := hd.linked c hlinked
  have hnone (t : Thread) : ¬ k.Pending t w := fun ht => by
    have := (hd.pending t ht).1
    omega
  have hz : k.value (.waiter w) = 0 := by
    by_contra hne
    have := (hd.owed hne).1
    omega
  refine ⟨by omega, fun h => by omega, fun c h => (hl c h).elim, fun t h => ?_, fun h => ?_,
    fun _ _ _ => by omega, fun h => (h _ ((hp _).mpr rfl)).elim⟩
  · refine ⟨by omega, by rw [hu, hd.delivered hnone, h0], hv.trans hz, hw hwait, fun u hu => ?_⟩
    rw [(hp u).mp hu, (hp t).mp h]
  · exact (h (hv.trans hz)).elim

theorem wait (hd : Delivery w h k) (he : w = k.frames) (hlt : w < k'.frames)
    (hv : k'.value (.waiter w) = 0) (hp : ∀ t, ¬ k.Pending t w) (hp' : ∀ t, ¬ k'.Pending t w)
    (hw : k'.Waiting w) (ho : ∀ t, k'.Owns t (.waiter w) → Waits w (k'.stack t))
    (hc : chosen w ((k, a) :: h) = chosen w h)
    (hu : ups (.waiter w) ((k, a) :: h) = ups (.waiter w) h) :
    Delivery w ((k, a) :: h) k' := by
  have h0 : chosen w h = 0 := hd.fresh he.ge
  refine ⟨by omega, fun h => by omega, fun c _ => ⟨by omega, hw⟩, fun t h => (hp' t h).elim,
    fun h => (h hv).elim, fun t h h' => (h' (ho t h)).elim, fun _ => ?_⟩
  rw [hc, hu]
  exact hd.delivered hp

end Delivery

/-! ### The lists of the condition variables -/

/-- A `waiter` semaphore is linked at most once. -/
structure Links (k : Kernel) : Prop where
  nodup : ∀ c, (k.condWaiters c).Nodup
  once : ∀ c c' w, w ∈ k.condWaiters c → w ∈ k.condWaiters c' → c = c'

theorem Links.exec (hl : Links k) (hf : Fresh k) (hx : Exec f (k.popped st) k') : Links k' := by
  have hnew (c : Condvar) : k.frames ∉ k.condWaiters c := fun h =>
    lt_irrefl _ (hf.linked c _ h)
  rcases hx.condWaiters with ⟨c, l, -, -, he, -⟩ | ⟨c, l, w, ws, -, -, -, hp, he, -⟩ | ⟨-, -, he⟩
  · have he : k'.condWaiters = update k.condWaiters c (k.condWaiters c ++ [k.frames]) := he
    have hmem {c' : Condvar} {w : ℕ} (h : w ∈ k'.condWaiters c') :
        w ∈ k.condWaiters c' ∨ (c' = c ∧ w = k.frames) := by
      rw [he, Function.update_apply] at h
      split at h
      · rename_i hc
        rcases List.mem_append.mp h with h | h
        · exact .inl (hc ▸ h)
        · exact .inr ⟨hc, List.mem_singleton.mp h⟩
      · exact .inl h
    refine ⟨fun c' => ?_, fun c₁ c₂ w h₁ h₂ => ?_⟩
    · rw [he, Function.update_apply]
      split
      · rw [List.nodup_append]
        refine ⟨hl.nodup c, List.nodup_singleton _, fun a ha b hb => ?_⟩
        rintro rfl
        exact hnew c (List.mem_singleton.mp hb ▸ ha)
      · exact hl.nodup c'
    · rcases hmem h₁ with h₁ | ⟨rfl, rfl⟩ <;> rcases hmem h₂ with h₂ | ⟨rfl, h₂⟩
      · exact hl.once c₁ c₂ w h₁ h₂
      · exact (hnew c₁ (h₂ ▸ h₁)).elim
      · exact (hnew c₂ h₂).elim
      · rfl
  · have hp : List.Perm (w :: ws) (k.condWaiters c) := hp
    have he : k'.condWaiters = update k.condWaiters c ws := he
    have hsub {c' : Condvar} {w' : ℕ} (h : w' ∈ k'.condWaiters c') : w' ∈ k.condWaiters c' := by
      rw [he, Function.update_apply] at h
      split at h
      · rename_i hc
        exact hc ▸ hp.subset (List.mem_cons_of_mem w h)
      · exact h
    refine ⟨fun c' => ?_, fun c₁ c₂ w' h₁ h₂ => hl.once c₁ c₂ w' (hsub h₁) (hsub h₂)⟩
    rw [he, Function.update_apply]
    split
    · exact (List.nodup_cons.mp (hp.nodup_iff.mpr (hl.nodup c))).2
    · exact hl.nodup c'
  · have he : k'.condWaiters = k.condWaiters := he
    exact ⟨he ▸ hl.nodup, he ▸ hl.once⟩

theorem Links.unlinked {ws : List ℕ} (hl : Links k) (hp : List.Perm (w :: ws) (k.condWaiters c))
    (he : k'.condWaiters = update k.condWaiters c ws) : ∀ c', w ∉ k'.condWaiters c' := by
  intro c' h
  have hw := hp.subset List.mem_cons_self
  rw [he, Function.update_apply] at h
  split at h
  · exact (List.nodup_cons.mp (hp.nodup_iff.mpr (hl.nodup c))).1 h
  · rename_i hne
    exact hne (hl.once c' c w h hw)

/-! ### Every signal is delivered once -/

theorem Consistent.stays (hk : Consistent k) (hcode : k.code = f :: st)
    (hx : Exec f (k.popped st) k') (hne : ¬ (f.downs = some (.waiter w) ∧ k.value (.waiter w) ≠ 0))
    (hw : Waits w (k.stack t)) : Waits w (k'.stack t) :=
  (hk.waits hcode hx hw).resolve_right fun h => hne h.2

theorem Consistent.stays_waiting (hk : Consistent k) (hcode : k.code = f :: st)
    (hx : Exec f (k.popped st) k') (hne : ¬ (f.downs = some (.waiter w) ∧ k.value (.waiter w) ≠ 0))
    (hw : k.Waiting w) : k'.Waiting w :=
  hw.imp fun _ => hk.stays hcode hx hne

/-- A semaphore that `condvar_wait` does not create here is awaited by the same threads. -/
theorem Consistent.stayed (hk : Consistent k) (hcode : k.code = f :: st)
    (hx : Exec f (k.popped st) k') (hnew : (∃ c l, f = .condvarWait c l) → w ≠ k.frames)
    (hw : Waits w (k'.stack t)) : Waits w (k.stack t) :=
  (hk.waits_of hcode hx hw).resolve_right fun h => hnew h.2.1 h.2.2

theorem Consistent.owned_before (hk : Consistent k) (hcode : k.code = f :: st)
    (hx : Exec f (k.popped st) k') (hnew : (∃ c l, f = .condvarWait c l) → w ≠ k.frames)
    (ho : k'.Owns t (.waiter w)) : k.Owns t (.waiter w) := by
  rcases hk.control.owns_of hk.threads.current_lt hcode hx ho with h | ⟨-, ⟨h, h'⟩ | ⟨h, -⟩⟩
  · exact h
  · cases h
    exact (hnew h' rfl).elim
  · cases h

theorem Consistent.pending_stays (hk : Consistent k) (hcode : k.code = f :: st)
    (hx : Exec f (k.popped st) k') (hne : f.ups ≠ some (.waiter w)) (ht : k.Pending t w) :
    k'.Pending t w := by
  obtain ⟨fs, -, hst⟩ := hx.flow (hk.control.fresh _ le_rfl) hk.threads.current_lt.ne
  unfold Kernel.Pending at ht ⊢
  rw [hst, Function.update_apply]
  split
  · rename_i he
    rw [he, ← Kernel.code, hcode] at ht
    rcases List.mem_cons.mp ht with rfl | ht
    · exact (hne rfl).elim
    · exact List.mem_append_right _ ht
  · exact ht

theorem ups_run {s : Semaphore} (hcode : k.code = f :: st) :
    ups s ((k, .run) :: h) = ups s h + if f.ups = some s then 1 else 0 := by
  rw [ups, List.countP_cons, performsUp_run hcode]
  simp [ups]

theorem ups_run_of_ne {s : Semaphore} (hcode : k.code = f :: st) (hu : f.ups ≠ some s) :
    ups s ((k, .run) :: h) = ups s h := by
  rw [ups_run hcode, if_neg hu, Nat.add_zero]

namespace Delivery

/-- A statement that neither chooses nor ups the semaphore, and lets no thread past its
`semaphore_down`. -/
theorem exec_keep (hd : Delivery w h k) (hk : Consistent k) (hcode : k.code = f :: st)
    (hx : Exec f (k.popped st) k') (hnew : (∃ c l, f = .condvarWait c l) → w ≠ k.frames)
    (hup : f.ups ≠ some (.waiter w))
    (hdown : ¬ (f.downs = some (.waiter w) ∧ k.value (.waiter w) ≠ 0))
    (hl : ∀ c, w ∈ k'.condWaiters c → w ∈ k.condWaiters c)
    (hp : ∀ t, k'.Pending t w → k.Pending t w) (hch : ¬ chooses w (k, .run) = true) :
    Delivery w ((k, .run) :: h) k' := by
  refine hd.keep hx.counters.2.1 hl (fun t => ⟨hp t, hk.pending_stays hcode hx hup⟩) ?_
    (fun t => ⟨hk.stayed hcode hx hnew, hk.stays hcode hx hdown⟩)
    (fun t => hk.owned_before hcode hx hnew) (List.countP_cons_of_neg hch) (ups_run_of_ne hcode hup)
  by_cases hd : f.downs = some (.waiter w)
  · have hz : k.value (.waiter w) = 0 := by
      by_contra h
      exact hdown ⟨hd, h⟩
    have hv : k'.value (.waiter w) = k.value (.waiter w) - 1 :=
      (hx.outcome (.waiter w)).value_down hd
    rw [hv, hz]
  · exact (hx.outcome (.waiter w)).value_same hd hup fun hw he => hnew hw (Semaphore.waiter.inj he)

theorem exec_wait (hd : Delivery w h k) (hk : Consistent k) (hf : Fresh k)
    (hcode : k.code = .condvarWait c l :: st) (hx : Exec (.condvarWait c l) (k.popped st) k')
    (he : k'.condWaiters = update k.condWaiters c (k.condWaiters c ++ [k.frames]))
    (hmem : .condvarWaitDown c l k.frames ∈ k'.stack k.current) :
    Delivery w ((k, .run) :: h) k' := by
  have hch : ¬ chooses w (k, .run) = true := by
    rw [chooses_run hcode]
    rintro ⟨c', l', h, -⟩
    cases h
  have hp {t : Thread} (ht : k'.Pending t w) : k.Pending t w := by
    rcases hk.pending hcode hx ht with h | ⟨-, c', l', h, -⟩
    · exact h
    · cases h
  have hup : (Frame.condvarWait c l).ups ≠ some (.waiter w) := by simp [Frame.ups]
  have hdown : (Frame.condvarWait c l).downs ≠ some (.waiter w) := by simp [Frame.downs]
  by_cases hwn : w = k.frames
  · -- the semaphore is created here
    have hnp (t : Thread) : ¬ k.Pending t w := fun ht => by
      have := hf.pending t w ht
      omega
    have hlt : w < k'.frames := by
      rw [hx.counters.2.2.2.1 c l rfl]
      exact hwn ▸ Nat.lt_succ_self _
    have hv : k'.value (.waiter w) = 0 := by
      cases hx.outcome (.waiter w) with
      | take h | wait h => exact (hdown h).elim
      | upNone h | up _ h => exact (hup h).elim
      | init _ _ hv => exact hv
      | none _ _ hv => exact hv.trans (hf.value w hwn.ge)
    have hw : Waits w (k'.stack k.current) := ⟨_, hmem, hwn.symm⟩
    refine hd.wait hwn hlt hv hnp (fun t ht => hnp t (hp ht)) ⟨k.current, hw⟩ (fun t ho => ?_)
      (List.countP_cons_of_neg hch) (ups_run_of_ne hcode hup)
    rcases hk.control.owns_of hk.threads.current_lt hcode hx ho with h | ⟨rfl, -⟩
    · exact absurd (hk.control.owned _ _ h) (Nat.not_lt.mpr hwn.ge)
    · exact hw
  · refine hd.exec_keep hk hcode hx (fun _ => hwn) hup (fun h => hdown h.1) (fun c' h => ?_)
      (fun t => hp) hch
    rw [he, Function.update_apply] at h
    split at h
    · rename_i hc
      rcases List.mem_append.mp h with h | h
      · exact hc ▸ h
      · exact (hwn (List.mem_singleton.mp h)).elim
    · exact h

theorem exec_signal {w' : ℕ} {ws : List ℕ} (hd : Delivery w h k) (hk : Consistent k) (hf : Fresh k)
    (hl : Links k) (hcode : k.code = .condvarSignal c l :: st)
    (hx : Exec (.condvarSignal c l) (k.popped st) k') (hsig : k.signalled c = some w')
    (hp : List.Perm (w' :: ws) (k.condWaiters c)) (he : k'.condWaiters = update k.condWaiters c ws)
    (hst : k'.stack = update k.stack k.current (.semaphoreUp (.waiter w') :: st)) :
    Delivery w ((k, .run) :: h) k' := by
  have houter : Outer st := by
    have hwell : WellStacked (.condvarSignal c l :: st) := hcode ▸ hk.control.shape k.current
    exact hwell.2
  have hup : (Frame.condvarSignal c l).ups ≠ some (.waiter w) := by simp [Frame.ups]
  have hdown : (Frame.condvarSignal c l).downs ≠ some (.waiter w) := by simp [Frame.downs]
  -- only the signal can have made an up pending
  have hpend {t : Thread} (ht : k'.Pending t w) : k.Pending t w ∨ (t = k.current ∧ w' = w) := by
    unfold Kernel.Pending at ht ⊢
    rw [hst, Function.update_apply] at ht
    split at ht
    · rename_i hc
      rcases List.mem_cons.mp ht with ht | ht
      · cases ht
        exact .inr ⟨hc, rfl⟩
      · exact (houter.mem ht).elim
    · exact .inl ht
  by_cases hw : w' = w
  · subst hw
    have hlinked := hp.subset List.mem_cons_self
    have h0 := (hd.linked c hlinked).1
    refine hd.signal hx.counters.2.1 hlinked (hl.unlinked hp he) (hf.linked c w' hlinked)
      (fun t => ⟨fun ht => ?_, ?_⟩) ?_ (hk.stays_waiting hcode hx fun h => hdown h.1)
      (List.countP_cons_of_pos ((chooses_run hcode).mpr ⟨c, l, rfl, hsig⟩)) (ups_run_of_ne hcode hup)
    · rcases hpend ht with ht | ⟨ht, -⟩
      · have := (hd.pending t ht).1
        omega
      · exact ht
    · rintro rfl
      show _ ∈ k'.stack k.current
      rw [hst, Function.update_self]
      exact List.mem_cons_self
    · refine (hx.outcome (.waiter w')).value_same hdown hup fun hw => ?_
      obtain ⟨c', l', h⟩ := hw
      cases h
  · have hch : ¬ chooses w (k, .run) = true := by
      rw [chooses_run hcode]
      rintro ⟨c', l', h, h'⟩
      cases h
      exact hw (Option.some.inj (hsig.symm.trans h'))
    refine hd.exec_keep hk hcode hx (fun hw => ?_) hup (fun h => hdown h.1) (fun c' h => ?_)
      (fun t ht => (hpend ht).resolve_right fun h => hw h.2) hch
    · obtain ⟨c', l', h⟩ := hw
      cases h
    · rw [he, Function.update_apply] at h
      split at h
      · rename_i hc
        exact hc ▸ hp.subset (List.mem_cons_of_mem w' h)
      · exact h

theorem exec_other (hd : Delivery w h k) (hk : Consistent k) (hcode : k.code = f :: st)
    (hx : Exec f (k.popped st) k') (hnw : ∀ c l, f ≠ .condvarWait c l)
    (hns : ∀ c l, f = .condvarSignal c l → k.condWaiters c = [])
    (he : k'.condWaiters = k.condWaiters) : Delivery w ((k, .run) :: h) k' := by
  have hl (c : Condvar) (h : w ∈ k'.condWaiters c) : w ∈ k.condWaiters c := he ▸ h
  have hch : ¬ chooses w (k, .run) = true := by
    rw [chooses_run hcode]
    rintro ⟨c, l, h, h'⟩
    rw [Kernel.signalled, hns c l h] at h'
    cases h'
  have hp {t : Thread} (ht : k'.Pending t w) : k.Pending t w := by
    rcases hk.pending hcode hx ht with h | ⟨-, c, l, h, h'⟩
    · exact h
    · rw [hns c l h] at h'
      cases h'
  by_cases hup : f.ups = some (.waiter w)
  · obtain rfl := Frame.eq_semaphoreUp hup
    refine hd.give ?_ hx.counters.2.1 ((hx.outcome (.waiter w)).value_up hup) hl
      (fun t ht => ⟨hp ht, ?_⟩) (hk.stays_waiting hcode hx fun h => by cases h.1)
      (List.countP_cons_of_neg hch) (by rw [ups_run hcode, if_pos hup])
    · show _ ∈ k.code
      rw [hcode]
      exact List.mem_cons_self
    · -- the frame has gone
      rintro rfl
      obtain ⟨fs, hflow, hst⟩ := hx.flow (hk.control.fresh _ le_rfl) hk.threads.current_lt.ne
      have hwell : WellStacked (.semaphoreUp (.waiter w) :: st) :=
        hcode ▸ hk.control.shape k.current
      have ht : .semaphoreUp (.waiter w) ∈ k'.stack k.current := ht
      rw [hst, Function.update_self] at ht
      rcases List.mem_append.mp ht with ht | ht
      · obtain ⟨c, l, h, -⟩ := hflow.pending ht
        cases h
      · exact (hwell.2.mem ht).elim
  · by_cases hdown : f.downs = some (.waiter w) ∧ k.value (.waiter w) ≠ 0
    · exact hd.pass hx.counters.2.1 hdown.2 ((hx.outcome (.waiter w)).value_down hdown.1) hl
        (fun _ => hp) (List.countP_cons_of_neg hch) (ups_run_of_ne hcode hup)
    · refine hd.exec_keep hk hcode hx (fun hw => ?_) hup hdown hl (fun _ => hp) hch
      obtain ⟨c, l, h⟩ := hw
      exact (hnw c l h).elim

theorem exec (hd : Delivery w h k) (hk : Consistent k) (hf : Fresh k) (hl : Links k)
    (hcode : k.code = f :: st) (hx : Exec f (k.popped st) k') :
    Delivery w ((k, .run) :: h) k' := by
  obtain ⟨fs, -, hst⟩ := hx.flow (hk.control.fresh _ le_rfl) hk.threads.current_lt.ne
  have hcur (hc : k'.current = (k.popped st).current) : k'.stack k.current = k'.code := by
    rw [Kernel.code, hc, popped_current]
  rcases hx.condWaiters with ⟨c, l, rfl, -, he, hc, hcode'⟩ |
      ⟨c, l, w', ws, rfl, -, hsig, hp, he, hc, hcode'⟩ | ⟨hnw, hns, he⟩
  · refine hd.exec_wait hk hf hcode hx he ?_
    rw [hcur hc, hcode']
    exact List.mem_cons_of_mem _ List.mem_cons_self
  · refine hd.exec_signal hk hf hl hcode hx hsig hp he ?_
    have htop := hcur hc
    rw [hcode', popped_code, hst, Function.update_self] at htop
    rw [hst, htop]
  · exact hd.exec_other hk hcode hx hnw hns he

end Delivery

theorem boot_delivery (v : ℕ → BitVec 32) (w : ℕ) : Delivery w [] (boot v) where
  le := Nat.zero_le 1
  fresh _ := rfl
  linked _ hw := by cases hw
  pending t ht := by
    have hlt := (boot_fresh v).pending t w ht
    cases hlt
  owed hne := (hne rfl).elim
  passed t ho := by
    have hlt : w < 0 := (boot_stacks v).owned t _ ho
    cases hlt
  delivered _ := rfl

theorem run_delivery {G : Kernel → Action → Prop} (hr : Run step G (boot v) h k) :
    Links k ∧ ∀ w, Delivery w h k := by
  refine hr.invariant (I := fun h k => Links k ∧ ∀ w, Delivery w h k)
    ⟨⟨fun _ => List.nodup_nil, fun _ _ _ hw => by cases hw⟩, boot_delivery v⟩ fun h k a k' hr hi _ hs => ?_
  obtain ⟨hl, hd⟩ := hi
  have hk := reachable_consistent ⟨h, hr⟩
  have hf := reachable_fresh ⟨h, hr⟩
  cases step_inv hs with
  | call c hcode =>
      have hne (w : ℕ) : .semaphoreUp (.waiter w) ≠ c.frame ∧ ¬ c.frame.waits w := by
        cases c <;> exact ⟨nofun, id⟩
      refine ⟨⟨hl.nodup, hl.once⟩, fun w => (hd w).keep le_rfl (fun _ h => h) (fun t => ?_) rfl
        (fun t => ⟨fun ⟨g, hg, hw⟩ => ?_, fun ⟨g, hg, hw⟩ => ?_⟩) (fun t ⟨g, hg, hx⟩ => ?_)
        rfl rfl⟩
      · exact (mem_push hcode).trans (or_iff_left fun h => (hne w).1 h.2)
      · rcases (mem_push hcode).mp hg with hg | ⟨-, rfl⟩
        · exact ⟨g, hg, hw⟩
        · exact ((hne w).2 hw).elim
      · exact ⟨g, (mem_push hcode).mpr (.inl hg), hw⟩
      · rcases (mem_push hcode).mp hg with hg | ⟨-, rfl⟩
        · exact ⟨g, hg, hx⟩
        · rw [token_frame] at hx
          cases hx
  | @run _ _ f st hcode hx =>
      exact ⟨hl.exec hf hx, fun w => (hd w).exec hk hf hl hcode hx⟩
  | timer =>
      exact ⟨⟨hl.nodup, hl.once⟩, fun w => (hd w).keep le_rfl (fun _ h => h)
        (fun _ => Iff.rfl) rfl (fun _ => Iff.rfl) (fun _ h => h) rfl rfl⟩
  | race =>
      exact ⟨⟨hl.nodup, hl.once⟩, fun w => (hd w).keep le_rfl (fun _ h => h)
        (fun _ => Iff.rfl) rfl (fun _ => Iff.rfl) (fun _ h => h) rfl rfl⟩

/-! ### One lock for a condition variable -/

variable {lockOf : Condvar → ℕ} {b : Thread} {ws : List ℕ}

/-- The functions on condition variable `c` are called with the lock `lockOf c`. -/
def paired (lockOf : Condvar → ℕ) (_ : Kernel) : Action → Prop
  | .call (.condvarWait c i) | .call (.condvarSignal c i) | .call (.condvarBroadcast c i) =>
      i = lockOf c
  | _ => True

def Frame.pairs (lockOf : Condvar → ℕ) : Frame → Prop
  | .condvarWait c l | .condvarSignal c l | .condvarBroadcast c l => l = .user (lockOf c)
  | _ => True

/-- All frames keep to the pairing. -/
def Paired (lockOf : Condvar → ℕ) (k : Kernel) : Prop :=
  ∀ t, ∀ f ∈ k.stack t, f.pairs lockOf

theorem Flow.pairs (hf : Flow k f fs) (hp : f.pairs lockOf) : ∀ g ∈ fs, g.pairs lockOf := by
  intro g hg
  cases hf <;> simp at hg
  all_goals first
    | subst hg; trivial
    | rcases hg with rfl | rfl <;> trivial

theorem reachable_paired (hr : Reachable step (paired lockOf) (boot v) k) : Paired lockOf k := by
  refine hr.invariant (I := Paired lockOf) (fun t f hf => ?_) fun k a k' hr hp hg hs => ?_
  · simp only [boot] at hf
    split at hf
    · rw [List.mem_singleton.mp hf]
      trivial
    · cases hf
  · have hk := reachable_consistent hr
    cases step_inv hs with
    | call c hcode =>
        intro t f hf
        rcases (mem_push hcode).mp hf with hf | ⟨-, rfl⟩
        · exact hp t f hf
        · cases c with
          | condvarWait c i | condvarSignal c i | condvarBroadcast c i =>
              exact congrArg Lock.user hg
          | _ => trivial
    | @run _ _ f st hcode hx =>
        obtain ⟨fs, hf, hst⟩ := hx.flow (hk.control.fresh _ le_rfl) hk.threads.current_lt.ne
        have hcur : ∀ g ∈ f :: st, g.pairs lockOf := by
          rw [← hcode]
          exact hp k.current
        intro t g hg
        rw [hst, Function.update_apply] at hg
        split at hg
        · rcases List.mem_append.mp hg with hg | hg
          · exact hf.pairs (hcur f List.mem_cons_self) g hg
          · exact hcur g (List.mem_cons_of_mem f hg)
        · exact hp t g hg
    | timer =>
        exact hp
    | race =>
        exact hp

/-! ### Broadcasts -/

/-- The `waiter` semaphore that `b` ups in this event. -/
def releasedBy (b : Thread) : Event → Option ℕ
  | (k, .run) =>
      match k.code.head? with
      | some (.semaphoreUp (.waiter w)) => if k.current = b then some w else none
      | _ => none
  | _ => none

/-- The `waiter` semaphores that `b` has upped, the latest first. -/
def released (b : Thread) (h : List Event) : List ℕ := h.filterMap (releasedBy b)

/-- The event is a statement of `b`. -/
def ownStep (b : Thread) : Event → Bool
  | (k, .run) => k.current = b
  | _ => false

def ownSteps (b : Thread) (h : List Event) : ℕ := h.countP (ownStep b)

/-- Thread `b` is inside the call of `condvar_broadcast` it was in at the start of the run. -/
def within (lockOf : Condvar → ℕ) (b : Thread) (k : Kernel) (a : Action) : Prop :=
  paired lockOf k a ∧ k.stack b ≠ []

/-- Thread `b` in a broadcast of `c`, where `ws` were linked when it was called. -/
inductive Broadcasting (c : Condvar) (l : Lock) (b : Thread) (ws : List ℕ) (h : List Event)
    (k : Kernel) : Prop
  | test : k.stack b = [.condvarBroadcast c l] → k.holder l = some b →
      List.Perm (released b h ++ k.condWaiters c) ws →
      ownSteps b h = 3 * (released b h).length → Broadcasting c l b ws h k
  | signal : k.stack b = [.condvarSignal c l, .condvarBroadcast c l] → k.holder l = some b →
      k.condWaiters c ≠ [] → List.Perm (released b h ++ k.condWaiters c) ws →
      ownSteps b h = 3 * (released b h).length + 1 → Broadcasting c l b ws h k
  | up (w : ℕ) : k.stack b = [.semaphoreUp (.waiter w), .condvarBroadcast c l] →
      k.holder l = some b → List.Perm (w :: (released b h ++ k.condWaiters c)) ws →
      ownSteps b h = 3 * (released b h).length + 2 → Broadcasting c l b ws h k
  | done : k.stack b = [] → k.condWaiters c = [] → List.Perm (released b h) ws →
      ownSteps b h = 3 * (released b h).length + 1 → Broadcasting c l b ws h k

/-- The thread can run: it is not blocked. -/
def Runnable (b : Thread) (k : Kernel) : Prop := b = k.current ∨ b ∈ k.readyList

/-- Another thread's statement leaves the thread on the ready list or dispatches it. -/
theorem Exec.runnable (hx : Exec f k k') (ht : t ∈ k.readyList) : Runnable t k' := by
  cases hx with
  | upStay | unblock => exact .inr (List.mem_append_left _ ht)
  | switch hp hn =>
      refine hn.dispatched ?_
      cases hp with
      | up => exact mem_yielding (.inl (List.mem_append_left _ ht))
      | preempt | set | yield => exact mem_yielding (.inl ht)
      | _ => exact ht
  | _ => exact .inr ht

namespace Broadcasting

theorem other (hb : Broadcasting c l b ws h k) (hst : k'.stack b = k.stack b)
    (hh : k.holder l = some b → k'.holder l = some b)
    (hc : k.holder l = some b → k'.condWaiters c = k.condWaiters c)
    (hne : k.stack b ≠ []) (hr : releasedBy b (k, a) = none) (ho : ownStep b (k, a) = false) :
    Broadcasting c l b ws ((k, a) :: h) k' := by
  have hrel : released b ((k, a) :: h) = released b h := List.filterMap_cons_none hr
  have hown : ownSteps b ((k, a) :: h) = ownSteps b h := by simp [ownSteps, ho]
  cases hb with
  | test h1 h2 h3 h4 =>
      exact .test (hst.trans h1) (hh h2) (by rw [hrel, hc h2]; exact h3) (by rw [hown, hrel, h4])
  | signal h1 h2 h3 h4 h5 =>
      exact .signal (hst.trans h1) (hh h2) (by rw [hc h2]; exact h3)
        (by rw [hrel, hc h2]; exact h4) (by rw [hown, hrel, h5])
  | up w h1 h2 h3 h4 =>
      exact .up w (hst.trans h1) (hh h2) (by rw [hrel, hc h2]; exact h3) (by rw [hown, hrel, h4])
  | done h1 => exact (hne h1).elim

theorem own (hb : Broadcasting c l b ws h k) (hk : Consistent k) (hcur : k.current = b)
    (hcode : k.code = f :: st) (hx : Exec f (k.popped st) k') :
    Broadcasting c l b ws ((k, .run) :: h) k' ∧ Runnable b k' := by
  subst hcur
  have hown : ownSteps k.current ((k, .run) :: h) = ownSteps k.current h + 1 := by
    simp [ownSteps, ownStep]
  have hcode' : k.stack k.current = f :: st := hcode
  have hrel (hne : ∀ w, f ≠ .semaphoreUp (.waiter w)) :
      released k.current ((k, .run) :: h) = released k.current h := by
    refine List.filterMap_cons_none ?_
    simp only [releasedBy, hcode, List.head?_cons]
    split
    · rename_i w he
      exact (hne w (Option.some.inj he)).elim
    · rfl
  cases hb with
  | test h1 h2 h3 h4 =>
      rw [h1] at hcode'
      cases hcode'
      have hrel := hrel (by simp)
      cases hx with
      | broadcastEnd he =>
          have he : k.condWaiters c = [] := he
          refine ⟨.done (by simp) he ?_ (by rw [hown, hrel, h4]), .inl rfl⟩
          rw [he, List.append_nil] at h3
          rw [hrel]
          exact h3
      | broadcast hne =>
          refine ⟨.signal ?_ h2 hne (by rw [hrel]; exact h3) (by rw [hown, hrel, h4]), .inl rfl⟩
          simp
      | take h => rcases h with h | h <;> cases h
      | switch hp => cases hp with
        | block h => rcases h with h | h <;> cases h
  | signal h1 h2 h3 h4 h5 =>
      rw [h1] at hcode'
      cases hcode'
      have hrel := hrel (by simp)
      cases hx with
      | signalNone _ he => exact (h3 he).elim
      | @signal _ _ _ w ws' _ _ hp =>
          have hp : List.Perm (w :: ws') (k.condWaiters c) := hp
          refine ⟨.up w (by simp [Kernel.code]) h2 ?_ (by rw [hown, hrel, h5]), .inl rfl⟩
          rw [hrel, Kernel.push]
          simp only [Function.update_self]
          exact (List.perm_middle.symm.trans (hp.append_left _)).trans h4
      | take h => rcases h with h | h <;> cases h
      | switch hp => cases hp with
        | block h => rcases h with h | h <;> cases h
  | up w h1 h2 h3 h4 =>
      rw [h1] at hcode'
      cases hcode'
      have hrel : released k.current ((k, .run) :: h) = w :: released k.current h := by
        refine List.filterMap_cons_some ?_
        simp [releasedBy, hcode]
      have hidle : k.current ≠ k.idleThread := hk.control.ne_idle (by rw [hcode]; simp)
      have hlen : ownSteps k.current ((k, .run) :: h) =
          3 * (released k.current ((k, .run) :: h)).length := by
        rw [hown, hrel, List.length_cons, h4]
        omega
      cases hx with
      | upNone => exact ⟨.test (by simp) h2 (by rw [hrel]; exact h3) hlen, .inl rfl⟩
      | upStay => exact ⟨.test (by simp [Kernel.woken]) h2 (by rw [hrel]; exact h3) hlen, .inl rfl⟩
      | take h => rcases h with h | h <;> cases h
      | switch hp hn => cases hp with
        | block h => rcases h with h | h <;> cases h
        | up => 
            refine ⟨.test (by simp [Kernel.woken, Kernel.yielding, Kernel.dispatch]) h2
              (by rw [hrel]; exact h3) hlen, hn.dispatched (mem_yielding (.inr ⟨rfl, hidle⟩))⟩
  | done h1 =>
      rw [h1] at hcode'
      cases hcode'

theorem run_other (hb : Broadcasting c (.user (lockOf c)) b ws h k) (hk : Consistent k)
    (hp : Paired lockOf k) (hg : ∀ t, Inside (.user (lockOf c)) (k.stack t) →
      k.holder (.user (lockOf c)) = none)
    (hne : k.stack b ≠ []) (hcur : k.current ≠ b) (hcode : k.code = f :: st)
    (hx : Exec f (k.popped st) k') :
    Broadcasting c (.user (lockOf c)) b ws ((k, .run) :: h) k' := by
  obtain ⟨fs, -, hst⟩ := hx.flow (hk.control.fresh _ le_rfl) hk.threads.current_lt.ne
  have hpair : f.pairs lockOf := hp k.current f (by
    rw [← Kernel.code, hcode]
    exact List.mem_cons_self)
  refine hb.other ?_ (fun hh => ?_) (fun hh => ?_) hne ?_ ?_
  · rw [hst, Function.update_of_ne (Ne.symm hcur)]
  · rcases hx.holder with ⟨l', rfl, he⟩ | ⟨l', rfl, hheld, he⟩ | ⟨-, he⟩
    · rw [he, Function.update_of_ne]
      · exact hh
      · rintro rfl
        rw [hg k.current ⟨st, .inl hcode⟩] at hh
        cases hh
    · have hheld : k.holder l' = some k.current := hheld
      rw [he, Function.update_of_ne]
      · exact hh
      · rintro rfl
        rw [hh] at hheld
        exact hcur (Option.some.inj hheld).symm
    · rw [he]
      exact hh
  · rcases hx.condWaiters with ⟨c', l', rfl, hheld, he, -⟩ |
        ⟨c', l', w, ws', rfl, hheld, -, -, he, -⟩ | ⟨-, -, he⟩
    · rw [he, Function.update_of_ne]
      · rfl
      · rintro rfl
        have hpair : l' = .user (lockOf c) := hpair
        have hheld : k.holder l' = some k.current := hheld
        rw [hpair, hh] at hheld
        exact hcur (Option.some.inj hheld).symm
    · rw [he, Function.update_of_ne]
      · rfl
      · rintro rfl
        have hpair : l' = .user (lockOf c) := hpair
        have hheld : k.holder l' = some k.current := hheld
        rw [hpair, hh] at hheld
        exact hcur (Option.some.inj hheld).symm
    · rw [he]
      rfl
  · simp only [releasedBy, if_neg hcur]
    split <;> rfl
  · simp [ownStep, hcur]

end Broadcasting

/-- The call of `condvar_broadcast` that starts in `k`, up to its return. -/
theorem broadcasting_run {k₀ : Kernel} (hr₀ : Reachable step (paired lockOf) (boot v) k₀)
    (hcode : k₀.code = [.condvarBroadcast c (.user (lockOf c))])
    (hheld : k₀.holder (.user (lockOf c)) = some k₀.current)
    (hr : Run step (within lockOf k₀.current) k₀ h k) :
    Broadcasting c (.user (lockOf c)) k₀.current (k₀.condWaiters c) h k ∧
      Runnable k₀.current k := by
  refine hr.invariant (I := fun h k => Broadcasting c (.user (lockOf c)) k₀.current
    (k₀.condWaiters c) h k ∧ Runnable k₀.current k)
    ⟨.test hcode hheld (List.Perm.refl _) rfl, .inl rfl⟩ fun h k a k' hr hi hg hs => ?_
  obtain ⟨hb, hready⟩ := hi
  obtain ⟨hpa, hne⟩ := hg
  have hreach := hr₀.run (fun _ _ h => h.1) hr
  have hk := reachable_consistent hreach
  cases step_inv hs with
  | call _ hnil =>
      have hcur : k₀.current ≠ k.current := fun he => hne (he ▸ hnil)
      refine ⟨hb.other ?_ id (fun _ => rfl) hne rfl rfl, hready⟩
      rw [Kernel.push_stack, Function.update_of_ne hcur]
  | @run _ _ f st hcode hx =>
      by_cases hcur : k.current = k₀.current
      · exact hb.own hk hcur hcode hx
      · refine ⟨hb.run_other hk (reachable_paired hreach) (fun t ht => ?_) hne hcur hcode hx,
          hx.runnable (hready.resolve_left (Ne.symm hcur))⟩
        obtain ⟨h', hr'⟩ := hreach
        exact ((run_guarded (hr'.mono fun _ _ _ => trivial) _).inside t ht).2
  | @timer _ t ready hn =>
      refine ⟨hb.other rfl id (fun _ => rfl) hne rfl rfl,
        hn.dispatched (mem_yielding ?_)⟩
      rcases hready with he | hready
      · refine .inr ⟨he, fun hi => ?_⟩
        have hidle := hk.control.idle
        rw [← hi] at hidle
        cases hb <;> simp_all
      · exact .inl hready
  | race =>
      exact ⟨hb.other rfl id (fun _ => rfl) hne rfl rfl, hready⟩

theorem Broadcasting.bound (hb : Broadcasting c l b ws h k) :
    ownSteps b h ≤ 3 * ws.length + 1 ∧
    (k.stack b = [] → k.condWaiters c = [] ∧ List.Perm (released b h) ws) := by
  cases hb with
  | test h1 _ h3 h4 =>
      have := h3.length_eq
      rw [List.length_append] at this
      exact ⟨by omega, fun he => by rw [h1] at he; cases he⟩
  | signal h1 _ h3 h4 h5 =>
      have := h4.length_eq
      have := List.length_pos_iff.mpr h3
      rw [List.length_append] at *
      exact ⟨by omega, fun he => by rw [h1] at he; cases he⟩
  | up w h1 _ h3 h4 =>
      have := h3.length_eq
      rw [List.length_cons, List.length_append] at this
      exact ⟨by omega, fun he => by rw [h1] at he; cases he⟩
  | done _ h2 h3 h4 =>
      have := h3.length_eq
      exact ⟨by omega, fun _ => ⟨h2, h3⟩⟩

/-! ### The results on signals and broadcasts -/

/-- A signal on a list that is not empty unlinks the chosen semaphore, and nothing else, and
its next statement ups it. -/
theorem signal_step (hcode : k.code = .condvarSignal c l :: st) (hne : k.condWaiters c ≠ [])
    (hs : step .run k = some k') : ∃ w, k.signalled c = some w ∧
      List.Perm (w :: k'.condWaiters c) (k.condWaiters c) ∧
      (∀ c', c' ≠ c → k'.condWaiters c' = k.condWaiters c') ∧
      k'.current = k.current ∧ k'.code = .semaphoreUp (.waiter w) :: st := by
  obtain ⟨f, st', hcode', hx⟩ := stepRun_inv hs
  rw [hcode] at hcode'
  cases hcode'
  rcases hx.condWaiters with ⟨c', l', h, -⟩ | ⟨c', l', w, ws, h, -, hw, hp, he, hcur, hc⟩ |
      ⟨-, hnil, -⟩
  · cases h
  · cases h
    have he : k'.condWaiters = update k.condWaiters c ws := he
    refine ⟨w, hw, by rw [he, Function.update_self]; exact hp, fun c' hc' => ?_, hcur, ?_⟩
    · rw [he, Function.update_of_ne hc']
    · rw [hc, popped_code]
  · exact (hne (hnil c l rfl)).elim

/-- **Every signal is delivered exactly once.**  After every run in which each condition
variable `c` is used with the lock `lockOf c`:

* a signal on a list that is not empty unlinks one semaphore and ups it next;
* at most one signal chooses a semaphore, and it is upped once for the signal, at once or, while
  the `semaphore_up` is still to come, not yet;
* exactly one signal has chosen the semaphore of a thread that has got through its
  `semaphore_down`;
* a linked semaphore belongs to a frame that has not returned;
* a broadcast is never blocked, ends after at most `3 * n + 1` statements of its own, and has
  then upped exactly the `n` semaphores that were linked when it was called. -/
theorem condvar_delivery (hr : Run step (paired lockOf) (boot v) h k) :
    (∀ c l st k', k.code = .condvarSignal c l :: st → k.condWaiters c ≠ [] →
      step .run k = some k' → ∃ w, k.signalled c = some w ∧
        List.Perm (w :: k'.condWaiters c) (k.condWaiters c) ∧
        (∀ c', c' ≠ c → k'.condWaiters c' = k.condWaiters c') ∧
        k'.current = k.current ∧ k'.code = .semaphoreUp (.waiter w) :: st) ∧
    (∀ w, chosen w h ≤ 1 ∧ ups (.waiter w) h ≤ chosen w h ∧
      ((∀ t, ¬ k.Pending t w) → ups (.waiter w) h = chosen w h)) ∧
    (∀ t w, k.Owns t (.waiter w) → ¬ Waits w (k.stack t) → chosen w h = 1) ∧
    (∀ c w, w ∈ k.condWaiters c → ∃ t, Waits w (k.stack t) ∧ k.Owns t (.waiter w)) ∧
    (∀ c, k.code = [.condvarBroadcast c (.user (lockOf c))] →
      k.holder (.user (lockOf c)) = some k.current →
      ∀ h' k', Run step (within lockOf k.current) k h' k' →
        Runnable k.current k' ∧
        ownSteps k.current h' ≤ 3 * (k.condWaiters c).length + 1 ∧
        (k'.stack k.current = [] →
          k'.condWaiters c = [] ∧ List.Perm (released k.current h') (k.condWaiters c))) := by
  have hk := reachable_consistent ⟨h, hr⟩
  obtain ⟨hl, hd⟩ := run_delivery hr
  refine ⟨fun c l st k' hcode hne hs => signal_step hcode hne hs, fun w => ?_,
    fun t w => (hd w).passed t, fun c w hw => ?_, fun c hcode hheld h' k' hr' => ?_⟩
  · refine ⟨(hd w).le, ?_, (hd w).delivered⟩
    by_cases hp : ∀ t, ¬ k.Pending t w
    · exact ((hd w).delivered hp).le
    · obtain ⟨t, ht⟩ := not_forall.mp hp
      have := ((hd w).pending t (not_not.mp ht)).2.1
      omega
  · obtain ⟨-, t, ht⟩ := (hd w).linked c hw
    exact ⟨t, ht, hk.owns_of_waits ht⟩
  · obtain ⟨hb, hready⟩ := broadcasting_run ⟨h, hr⟩ hcode hheld hr'
    obtain ⟨hsteps, hdone⟩ := hb.bound
    exact ⟨hready, hsteps, hdone⟩

/-- A thread of priority `40` waits on condition variable `0`, and the initial thread calls
`condvar_broadcast`. -/
def callBroadcast : List Action :=
  Call.steps (.threadCreate 40) 11 ++ Call.steps (.lockAcquire 0) 4 ++
  Call.steps (.condvarWait 0 0) 6 ++ Call.steps (.lockAcquire 0) 4 ++
  [.call (.condvarBroadcast 0 0)]

theorem callBroadcast_paired (k : Kernel) : ∀ a ∈ callBroadcast, paired (fun _ => 0) k a := by
  intro a ha
  simp [callBroadcast, Call.steps] at ha
  rcases ha with rfl | rfl | rfl | rfl | rfl | rfl | rfl | rfl | rfl <;> trivial

/-- The waiter runs as soon as it is upped, and blocks on the lock again. -/
theorem condvar_delivery_broadcast : ∃ h k h' k',
    Run step (paired fun _ => 0) (boot fun _ => 0) h k ∧ k.condWaiters 0 = [0] ∧
    Run step (within (fun _ => 0) k.current) k h' k' ∧ k'.stack k.current = [] ∧
    k'.condWaiters 0 = [] ∧ List.Perm (released k.current h') [0] := by
  have hex : (execute step callBroadcast (boot fun _ => 0)).any fun k =>
      k.code = [.condvarBroadcast 0 (.user 0)] ∧ k.holder (.user 0) = some k.current ∧
      k.condWaiters 0 = [0] ∧ (execute (checked (fun s _ => s.stack k.current ≠ []) step)
        (List.replicate 16 .run) k).any fun k' => k'.stack k.current = [] := by
    decide +kernel
  obtain ⟨k, hk, he⟩ := (Option.any_eq_true _ _).mp hex
  obtain ⟨hcode, hheld, hlinked, hrest⟩ := of_decide_eq_true he
  obtain ⟨k', hk', he'⟩ := (Option.any_eq_true _ _).mp hrest
  have hdone := of_decide_eq_true he'
  have hr := execute_run callBroadcast_paired .nil hk
  have hr' := execute_run (G := paired fun _ => 0) (fun s a ha => by
    rw [List.eq_of_mem_replicate ha]
    trivial) .nil hk'
  have hseg : Run step (within (fun _ => 0) k.current) k _ k' :=
    hr'.of_checked.mono fun s a h => ⟨h.2, of_decide_eq_true h.1⟩
  obtain ⟨-, -, -, -, hb⟩ := condvar_delivery hr
  obtain ⟨hnil, hperm⟩ := (hb 0 hcode hheld _ k' hseg).2.2 hdone
  exact ⟨_, k, _, k', hr, hlinked, hseg, hdone, hnil, hlinked ▸ hperm⟩

/-! ### Comparing the waiters -/

/-- The owner of `w` has released the lock in `condvar_wait` and has not called
`semaphore_down(&waiter)` yet. -/
def Kernel.InWindow (k : Kernel) (w : ℕ) : Prop :=
  ∃ t c l, .condvarWaitDown c l w ∈ k.stack t

/-- The semaphore of a thread in the window has no waiters. -/
theorem Consistent.window_empty (hk : Consistent k) (hw : k.InWindow w) :
    k.waiters (.waiter w) = [] := by
  obtain ⟨t, c, l, hmem⟩ := hw
  rw [List.eq_nil_iff_forall_not_mem]
  intro u hu
  obtain ⟨-, st, hst⟩ := hk.threads.waiting _ u hu
  have hs := hk.control.shape u
  rw [hst] at hs
  obtain ⟨l', rfl⟩ := hs
  have hown : k.Owns u (.waiter w) := ⟨.condvarWaitAcquire l' w, by simp [hst], rfl⟩
  obtain rfl := hk.control.unique t u _ ⟨_, hmem, rfl⟩ hown
  simp [hst] at hmem

/-- Without preemption the owner of a linked semaphore is in the window or waits on it. -/
theorem linked_waits (hr : Run step coop (boot v) h k) (hcode : k.code = .condvarSignal c l :: st)
    {c' : Condvar} (hw : w ∈ k.condWaiters c') (hwin : ¬ k.InWindow w) :
    k.waiters (.waiter w) ≠ [] := by
  have hk := reachable_cooperative (fun _ _ h => h) ⟨h, hr⟩
  have hd := (run_delivery hr).2 w
  obtain ⟨h0, t, f, hf, hfw⟩ := hd.linked c' hw
  rcases hfw.cases with ⟨c'', l', rfl⟩ | hdown
  · exact (hwin ⟨t, c'', l', hf⟩).elim
  · have ht : t ≠ k.current := by
      rintro rfl
      have hcode : k.stack k.current = _ := hcode
      have hs := hk.control.shape k.current
      rw [hcode] at hf hs
      rcases List.mem_cons.mp hf with rfl | hf
      · cases hdown
      · have ho := Outer.mem hs.2 hf
        cases f <;> first | exact ho | cases hdown
    rcases hk.parked t ht with ho | hidle | ⟨s, st', hst⟩
    · have ho := ho.mem hf
      cases f <;> first | exact ho.elim | cases hdown
    · rw [hidle, List.mem_singleton] at hf
      rw [hf] at hdown
      cases hdown
    · -- it sleeps in the loop, and nobody has woken it
      have hs := hk.control.shape t
      rw [hst] at hf hs
      obtain rfl : s = .waiter w := by
        rcases List.mem_cons.mp hf with rfl | hf
        · exact Option.some.inj hdown
        · have hs : Below (.semaphoreDownLoop s) st' := hs
          rcases hs.mem hf with ho | ⟨l', rfl | ⟨rfl, -⟩⟩
          · cases f <;> first | exact ho.elim | cases hdown
          · cases hdown
          · cases hdown
      refine List.ne_nil_of_mem (a := t) ?_
      by_contra hn
      have hpos := run_awake hr t _ st' hst hn
      by_cases hp : ∀ t, ¬ k.Pending t w
      · have := hd.delivered hp
        omega
      · obtain ⟨u, hu⟩ := not_forall.mp hp
        have := (hd.pending u (not_not.mp hu)).1
        omega

open KernelList in
/-- **When `condvar_signal` is safe.**  In every state that is reached without preemption with
`condvar_signal` to be executed, sorting `cond->waiters` evaluates `semaphore_priority_less`
only on semaphores with a waiter if and only if at most one semaphore is linked, or no owner of
a linked one is between its `lock_release` and its `semaphore_down`. -/
theorem condvar_signal_safe (hr : Run step coop (boot v) h k)
    (hcode : k.code = .condvarSignal c l :: st) :
    (listSort k.semaphorePriorityLess (k.condWaiters c)).isSome ↔
      (k.condWaiters c).length ≤ 1 ∨ ∀ w ∈ k.condWaiters c, ¬ k.InWindow w := by
  have hk := reachable_consistent ⟨h, hr⟩
  rw [Kernel.semaphorePriorityLess, listSort_lessBy_isSome_iff]
  refine or_congr_right (forall₂_congr fun w hw => ?_)
  rw [Option.isSome_map, List.isSome_head?]
  constructor
  · exact fun hne hwin => hne (hk.window_empty hwin)
  · exact linked_waits hr hcode hw

/-- Two threads wait on condition variable `0`, both asleep, and the initial thread signals. -/
def signalTwo : List Action :=
  Call.steps (.threadCreate 40) 11 ++ Call.steps (.lockAcquire 0) 4 ++
  Call.steps (.condvarWait 0 0) 6 ++ Call.steps (.threadCreate 40) 11 ++
  Call.steps (.lockAcquire 0) 4 ++ Call.steps (.condvarWait 0 0) 6 ++
  Call.steps (.lockAcquire 0) 4 ++ [.call (.condvarSignal 0 0)]

theorem condvar_signal_safe_two : ∃ h k, Run step coop (boot fun _ => 0) h k ∧
    k.code = [.condvarSignal 0 (.user 0)] ∧ (k.condWaiters 0).length = 2 ∧
    ∀ w ∈ k.condWaiters 0, ¬ k.InWindow w := by
  have hex : (execute step signalTwo (boot fun _ => 0)).any fun k =>
      k.code = [.condvarSignal 0 (.user 0)] ∧ (k.condWaiters 0).length = 2 ∧
      (KernelList.listSort k.semaphorePriorityLess (k.condWaiters 0)).isSome := by
    decide +kernel
  obtain ⟨k, hk, he⟩ := (Option.any_eq_true _ _).mp hex
  obtain ⟨hcode, hlen, hsome⟩ := of_decide_eq_true he
  have hr := execute_run (G := coop) (coop_of_call_run (by simp [signalTwo, Call.steps])) .nil hk
  refine ⟨_, k, hr, hcode, hlen, ((condvar_signal_safe hr hcode).mp hsome).resolve_left ?_⟩
  omega

/-- A thread sleeps on the condition variable; the initial thread, which holds the lock that a
thread of priority `40` wants, calls `condvar_wait` and is preempted in its `lock_release`; and
the thread of priority `40` signals. -/
def signalInWindow : List Action :=
  Call.steps (.threadCreate 40) 11 ++ Call.steps (.lockAcquire 0) 4 ++
  Call.steps (.condvarWait 0 0) 6 ++ Call.steps (.lockAcquire 0) 4 ++
  Call.steps (.threadCreate 40) 11 ++ Call.steps (.lockAcquire 0) 10 ++
  Call.steps (.condvarWait 0 0) 6 ++ [.call (.condvarSignal 0 0)]

/-- Then `list_front` meets an empty list and the kernel panics. -/
theorem condvar_signal_panics : ∃ h k, Run step coop (boot fun _ => 0) h k ∧
    k.code = [.condvarSignal 0 (.user 0)] ∧ k.holder (.user 0) = some k.current ∧
    KernelList.listSort k.semaphorePriorityLess (k.condWaiters 0) = none ∧
    stepRun k = none := by
  have hex : (execute step signalInWindow (boot fun _ => 0)).any fun k =>
      k.code = [.condvarSignal 0 (.user 0)] ∧ k.holder (.user 0) = some k.current ∧
      (KernelList.listSort k.semaphorePriorityLess (k.condWaiters 0)).isNone ∧
      (stepRun k).isNone := by
    decide +kernel
  obtain ⟨k, hk, he⟩ := (Option.any_eq_true _ _).mp hex
  obtain ⟨hcode, hheld, hsort, hstep⟩ := of_decide_eq_true he
  have hr := execute_run (G := coop) (coop_of_call_run (by simp [signalInWindow, Call.steps]))
    .nil hk
  exact ⟨_, k, hr, hcode, hheld, Option.isNone_iff_eq_none.mp hsort,
    Option.isNone_iff_eq_none.mp hstep⟩

end CSE130.Lab2
