import CSE130.Assignment4.Scheduler

/-! # Round robin and its quantum

An observer writes down which threads entered the ready queue and which were dispatched, in this
order, and for how many ticks of its present quantum the thread on the CPU has had it.  While the
quantum is an `int`, the field `tick` of the running thread is what is left of the quantum
(`Rotates.left`), so a thread gives way when others are ready at the end of its quantum.  The
quantum is unsigned, though, and `tick` is signed: a quantum from `2 ^ 31` on starts below zero
(`round_robin_iff`). -/

namespace CSE130.Assignment4

open Transition
open Function (update)

/-- What the observer knows. -/
structure Ledger (τ : Type) where
  /-- The threads that entered the ready queue. -/
  entered : List τ
  /-- The threads that were dispatched. -/
  served : List τ
  /-- The ticks of the present quantum. -/
  stint : ℕ

variable {τ : Type} {lib : Queue ℕ}

/-- The thread that a callback other than `tick` puts in the ready queue. -/
def Callback.enters : Callback τ → List τ
  | .sysExec t => [t]
  | .ioComplete t => [t]
  | _ => []

namespace Ledger

/-- The observer before the first callback. -/
def init : Ledger τ := ⟨[], [], 0⟩

/-- A callback that took the system from `w` to `w'`, when the quantum is `q`.  The thread that
`tick` takes from the CPU enters the queue, and a thread that keeps the CPU when its quantum is over
and no other thread is ready begins another one. -/
def note (q : ℕ) (l : Ledger τ) (e : Callback τ) (w w' : World lib.Q τ) : Ledger τ :=
  match e with
  | .tick =>
      match w'.st.dispatched with
      | t :: _ => ⟨l.entered ++ w.cpu.toList, l.served ++ [t], 1⟩
      | [] => { l with stint := if l.stint = q ∧ w.st.readyThreads = [] then 1 else l.stint + 1 }
  | e => { l with entered := l.entered ++ e.enters }

end Ledger

/-- A callback, before the eyes of the observer. -/
def notedStep [DecidableEq τ] (c : Config τ) (e : Callback τ × ℤ) (x : World lib.Q τ × Ledger τ) :
    Option (World lib.Q τ × Ledger τ) :=
  (step c e x.1).map fun w => (w, x.2.note c.quantum.toNat e.1 x.1 w)

/-- The discipline of round robin: the running thread has less than a quantum left, it has not had
more than its quantum, and the threads are dispatched in the order in which they entered the queue. -/
structure InTurn (q : ℕ) (w : World lib.Q τ) (l : Ledger τ) : Prop where
  tick : ∀ r, w.st.running = some r → 0 ≤ (w.st.wrappers r).tick ∧ (w.st.wrappers r).tick < q
  stint : w.st.running ≠ none → l.stint ≤ q
  order : l.entered = l.served ++ w.st.readyThreads

variable {c : Config τ} {now : ℤ} {st st' : State lib.Q τ} {w w' : World lib.Q τ} {l : Ledger τ}
  {a r : ℕ} {t : τ}

/-! ### What one callback does -/

/-- What `tick` does under round robin. -/
inductive Round (c : Config τ) (st st' : State lib.Q τ) : Prop
  | idle : st.running = none → lib.items st.ready = [] → st' = st → Round c st st'
  | stay (r : ℕ) : st.running = some r → st'.running = some r → st'.ready = st.ready →
      st'.dispatched = st.dispatched → 0 < (st.wrappers r).tick →
      (st'.wrappers r).tick = (st.wrappers r).tick - 1 → Round c st st'
  | again (r : ℕ) : st.running = some r → st'.running = some r → st'.ready = st.ready →
      st'.dispatched = st.dispatched → (st.wrappers r).tick ≤ 0 → lib.items st.ready = [] →
      (st'.wrappers r).tick = c.gquantum - 1 → Round c st st'
  | next (a : ℕ) (rest : List ℕ) : lib.items st.ready = a :: rest →
      (∀ r, st.running = some r → (st.wrappers r).tick ≤ 0) →
      lib.items st'.ready = rest ++ st.running.toList → st'.running = some a →
      st'.dispatched = (st.wrappers a).t :: st.dispatched →
      (st'.wrappers a).tick = c.gquantum - 1 → Round c st st'

theorem tick_alone (hc : c.algorithm = .roundRobin) (hready : lib.items st.ready = [])
    (hs : st.tick c now = some st') : Round c st st' := by
  unfold State.tick at hs
  rw [if_neg (size_ready_nil hready)] at hs
  cases hr : st.running with
  | none =>
      simp only [hr, Option.map_some, Option.some.injEq] at hs
      exact .idle hr hready hs.symm
  | some r =>
      simp only [hr] at hs
      split_ifs at hs with htick
      · simp only [Option.map_some, State.modify, hr, Option.some.injEq] at hs
        subst hs
        exact .again r hr rfl rfl rfl htick hready (by simp)
      · simp only [Option.map_some, State.modify, hr, Option.some.injEq] at hs
        subst hs
        exact .stay r hr rfl rfl rfl (not_le.mp htick) (by simp)

theorem tick_ready (hc : c.algorithm = .roundRobin) (hne : lib.items st.ready ≠ [])
    (hs : st.tick c now = some st') : Round c st st' := by
  unfold State.tick at hs
  rw [if_pos (size_ready_pos hne)] at hs
  simp only [State.runThread, hc, if_true] at hs
  cases hr : st.running with
  | none =>
      obtain ⟨a, q, hitems, heq⟩ := dequeueReady_cases hne fun a st =>
        (st.modify a fun T => { T with tick := c.gquantum }).dispatch now a
      simp only [hr, heq] at hs
      simp only [Option.map_some, State.modify, State.dispatch, Option.some.injEq] at hs
      subst hs
      exact .next a (lib.items q) hitems (by simp [hr]) (by simp [hr]) rfl (by simp) (by simp)
  | some r =>
      simp only [hr] at hs
      split_ifs at hs with htick
      · obtain ⟨a, q, hitems, heq⟩ := dequeueReady_cases hne fun a st =>
          State.dispatch now (({ st with ready := lib.enqueue st.ready r }.modify a
            fun T => { T with tick := c.gquantum }).modify r fun T =>
              { T with wait := T.wait - now }) a
        simp only [State.swap, heq] at hs
        simp only [Option.map_some, State.modify, State.dispatch, Option.some.injEq] at hs
        subst hs
        refine .next a (lib.items q) hitems (fun r' hr' => ?_) (by simp [lib.items_enqueue, hr]) rfl
          ?_ ?_
        · obtain rfl := Option.some.inj (hr.symm.trans hr')
          exact htick
        -- the running thread is not in the queue, but nothing here depends on it
        · by_cases har : a = r
          · subst har
            simp
          · simp [har]
        · by_cases har : a = r
          · subst har
            simp
          · simp [har]
      · simp only [Option.map_some, hr, State.modify, Option.some.injEq] at hs
        subst hs
        exact .stay r hr rfl rfl rfl (not_le.mp htick) (by simp)

theorem tick_round (hc : c.algorithm = .roundRobin) (hs : st.tick c now = some st') :
    Round c st st' := by
  by_cases hready : lib.items st.ready = []
  · exact tick_alone hc hready hs
  · exact tick_ready hc hready hs

theorem readyThreads_same (hready : st'.ready = st.ready)
    (h : ∀ a, (st'.wrappers a).t = (st.wrappers a).t) : st'.readyThreads = st.readyThreads := by
  rw [readyThreads_of h, hready]
  rfl

theorem sysExec_wrappers (st : State lib.Q τ) (now : ℤ) (t : τ) (h : a < st.fresh) :
    (st.sysExec c now t).wrappers a = st.wrappers a :=
  Function.update_of_ne (Nat.ne_of_lt h) _ _

/-! ### A run -/

theorem gquantum_of_lt (h : c.quantum.toNat < 2 ^ 31) : c.gquantum = c.quantum.toNat := by
  unfold Config.gquantum
  rw [Int.bmod_eq_of_le_mul_two (by omega) (by omega)]

theorem gquantum_neg (h : 2 ^ 31 ≤ c.quantum.toNat) : c.gquantum < 0 := by
  have hlt := c.quantum.toNat_lt
  unfold Config.gquantum
  rw [Int.bmod_neg_iff (by omega) (by omega)]
  omega

/-- The invariant of a run. -/
structure Rotates (q : ℕ) (w : World lib.Q τ) (l : Ledger τ) : Prop where
  left : ∀ r, w.st.running = some r →
    (w.st.wrappers r).tick = q - l.stint ∧ 1 ≤ l.stint ∧ l.stint ≤ q
  order : l.entered = l.served ++ w.st.readyThreads

namespace Rotates

variable {q : ℕ}

theorem inTurn (h : Rotates q w l) : InTurn q w l where
  tick r hr := by
    obtain ⟨htick, hpos, hle⟩ := h.left r hr
    omega
  stint hr := by
    obtain ⟨r, hr⟩ := Option.ne_none_iff_exists'.mp hr
    exact (h.left r hr).2.2
  order := h.order

theorem tick (h : Rotates q w l) (hw : Inv w) (hc : c.algorithm = .roundRobin)
    (hg : c.gquantum = q) (hq : 1 ≤ q) {cpu : Option τ}
    (hs : ({ w.st with dispatched := [] } : State lib.Q τ).tick c now = some st') :
    Rotates q ⟨st', w.phase, cpu⟩ (l.note q .tick w ⟨st', w.phase, cpu⟩) := by
  have hthreads := tick_threads (.inr (.inl hc)) hs
  cases tick_round hc hs with
  | idle hr hready heq =>
      subst heq
      refine ⟨fun r hr' => ?_, h.order⟩
      rw [hr] at hr'
      cases hr'
  | stay r hr hr' hready hd hpos htick =>
      obtain ⟨hleft, hone, hle⟩ := h.left r hr
      have hmore : l.stint ≠ q := by
        intro heq
        dsimp only at hpos
        omega
      simp only [Ledger.note, hd, hmore, false_and, if_false]
      refine ⟨fun r₁ hr₁ => ?_, ?_⟩
      · obtain rfl := Option.some.inj (hr'.symm.trans hr₁)
        dsimp only at htick ⊢
        omega
      · rw [h.order]
        exact congrArg _ (readyThreads_same hready hthreads).symm
  | again r hr hr' hready hd hzero hnil htick =>
      obtain ⟨hleft, hone, hle⟩ := h.left r hr
      -- the quantum is over
      have hover : l.stint = q := by
        dsimp only at hzero
        omega
      have hnone : w.st.readyThreads = [] := by
        unfold State.readyThreads
        rw [hnil, List.map_nil]
      simp only [Ledger.note, hd, hover, hnone, and_self, if_true]
      refine ⟨fun r₁ hr₁ => ?_, ?_⟩
      · obtain rfl := Option.some.inj (hr'.symm.trans hr₁)
        dsimp only at htick ⊢
        omega
      · rw [h.order]
        exact congrArg _ (readyThreads_same hready hthreads).symm
  | next a rest hitems hdue hready hr' hd htick =>
      have hbefore : w.st.readyThreads =
          (w.st.wrappers a).t :: rest.map fun b => (w.st.wrappers b).t := by
        unfold State.readyThreads
        rw [hitems, List.map_cons]
      have hafter : st'.readyThreads = (rest.map fun b => (w.st.wrappers b).t) ++ w.cpu.toList := by
        rw [readyThreads_of hthreads, hready, List.map_append, hw.cpu, Option.toList_map]
      simp only [Ledger.note, hd]
      refine ⟨fun r₁ hr₁ => ?_, ?_⟩
      · obtain rfl := Option.some.inj (hr'.symm.trans hr₁)
        dsimp only at htick ⊢
        omega
      · rw [hafter, h.order, hbefore]
        simp

theorem note_of_ne {e : Callback τ} (he : e ≠ .tick) (w w' : World lib.Q τ) :
    l.note q e w w' = { l with entered := l.entered ++ e.enters } := by
  cases e with
  | tick => exact absurd rfl he
  | _ => rfl

end Rotates

theorem rotates_init (q : ℕ) (wrappers : ℕ → TWrapper τ) : Rotates q (scheduler lib wrappers) .init where
  left r hr := nomatch hr
  order := by simp [Ledger.init, State.readyThreads, scheduler, lib.items_create]

variable [DecidableEq τ]

/-- The other callbacks put the thread that they are for in the ready queue, or none, and none on the
CPU. -/
theorem step_enters (h : Inv w) {cb : Callback τ} (hcb : cb ≠ .tick) (he : Conforms w (cb, now))
    (hs : step c (cb, now) w = some w') :
    w'.st.readyThreads = w.st.readyThreads ++ cb.enters ∧
      ∀ r, w'.st.running = some r →
        w.st.running = some r ∧ (w'.st.wrappers r).tick = (w.st.wrappers r).tick := by
  have hnone : ∀ {st' : State lib.Q τ}, st'.ready = w.st.ready →
      (∀ a, (st'.wrappers a).t = (w.st.wrappers a).t) → st'.readyThreads = w.st.readyThreads ++ [] :=
    fun hready ht => (readyThreads_same hready ht).trans (List.append_nil _).symm
  cases cb with
  | sysExec t =>
      obtain rfl := Option.some.inj hs
      have hold : ∀ a < w.st.fresh, (({ w.st with dispatched := [] } : State lib.Q τ).sysExec c now
          t).wrappers a = w.st.wrappers a := fun a => sysExec_wrappers _ now t
      refine ⟨?_, fun r hr => ⟨hr, congrArg TWrapper.tick (hold r (h.running r hr).1)⟩⟩
      change (lib.items (lib.enqueue w.st.ready w.st.fresh)).map _ = _
      rw [lib.items_enqueue, List.map_append]
      congr 1
      · exact List.map_congr_left fun a ha => congrArg TWrapper.t (hold a (h.ready a ha).1)
      · simp [State.sysExec, Callback.enters]
  | tick => exact absurd rfl hcb
  | sysExit t =>
      obtain ⟨r, hr, -⟩ := h.on_cpu he
      obtain rfl := Option.some.inj (hs.symm.trans (step_of_call (sysExit_eq hr)))
      exact ⟨hnone rfl (t_update r (by rfl)), by simp⟩
  | sysRead t =>
      obtain ⟨r, hr, -⟩ := h.on_cpu he
      obtain rfl := Option.some.inj (hs.symm.trans (step_of_call (sysRead_eq hr)))
      exact ⟨hnone rfl (t_update r (by rfl)), by simp⟩
  | sysWrite t =>
      obtain ⟨r, hr, -⟩ := h.on_cpu he
      obtain rfl := Option.some.inj (hs.symm.trans (step_of_call (sysRead_eq hr)))
      exact ⟨hnone rfl (t_update r (by rfl)), by simp⟩
  | ioComplete t =>
      have hp : w.phase t = .started := he
      obtain ⟨a, hf, -, hat⟩ := h.findAll_eq (t := t) (by rw [hp]; simp)
      obtain rfl := Option.some.inj (hs.symm.trans (step_of_call (ioComplete_eq hf)))
      refine ⟨?_, fun r hr => ⟨hr, field_update TWrapper.tick a (by rfl) r⟩⟩
      rw [readyThreads_of (t_update a (by rfl)), lib.items_enqueue, List.map_append, ← hat]
      rfl
  | ioStarting t =>
      have hp : w.phase t = .requested := he
      obtain ⟨a, hf, -⟩ := h.findAll_eq (t := t) (by rw [hp]; simp)
      obtain rfl := Option.some.inj (hs.symm.trans (step_of_call (ioStarting_eq hf)))
      refine ⟨hnone rfl (t_update a (by rfl)), fun r hr => ⟨hr, ?_⟩⟩
      exact field_update TWrapper.tick a (by rfl) r

theorem Rotates.step {q : ℕ} (h : Rotates q w l) (hw : Inv w) (hc : c.algorithm = .roundRobin)
    (hg : c.gquantum = q) (hq : 1 ≤ q) {e : Callback τ × ℤ} (he : Conforms w e) :
    ∃ w', Assignment4.step c e w = some w' ∧ Inv w' ∧ Rotates q w' (l.note q e.1 w w') := by
  obtain ⟨w', hs, hw', -⟩ := hw.step (.inr (.inl hc)) he
  refine ⟨w', hs, hw', ?_⟩
  obtain ⟨cb, now⟩ := e
  by_cases hcb : cb = .tick
  · subst hcb
    obtain ⟨st', hst, rfl⟩ := Option.map_eq_some_iff.mp hs
    exact h.tick hw hc hg hq hst
  · obtain ⟨hready, hrun⟩ := step_enters hw hcb he hs
    rw [note_of_ne hcb]
    refine ⟨fun r hr => ?_, ?_⟩
    · obtain ⟨hr', htick⟩ := hrun r hr
      rw [htick]
      exact h.left r hr'
    · rw [hready, h.order, List.append_assoc]

theorem reachable_rotates (hc : c.algorithm = .roundRobin) (hq : 1 ≤ c.quantum.toNat)
    (hlt : c.quantum.toNat < 2 ^ 31) {wrappers : ℕ → TWrapper τ}
    (hr : Reachable (notedStep c) (fun x e => Conforms x.1 e) (scheduler lib wrappers, .init) (w, l)) :
    Inv w ∧ Rotates c.quantum.toNat w l := by
  refine hr.invariant (I := fun x => Inv x.1 ∧ Rotates c.quantum.toNat x.1 x.2)
    ⟨inv_scheduler wrappers, rotates_init _ wrappers⟩ fun x e x' _ h he hs => ?_
  obtain ⟨w₁, hs₁, hw₁, h₁⟩ := h.2.step h.1 hc (gquantum_of_lt hlt) hq he
  obtain ⟨w₂, hs₂, rfl⟩ := Option.map_eq_some_iff.mp hs
  obtain rfl := Option.some.inj (hs₂.symm.trans hs₁)
  exact ⟨hw₁, h₁⟩

theorem below_zero (hc : c.algorithm = .roundRobin) (hle : 2 ^ 31 ≤ c.quantum.toNat)
    (hready : lib.items w.st.ready ≠ []) (hidle : w.st.running = none)
    (hs : step c (.tick, now) w = some w') :
    ∃ r, w'.st.running = some r ∧ (w'.st.wrappers r).tick < 0 := by
  obtain ⟨st', hst, rfl⟩ := Option.map_eq_some_iff.mp hs
  cases tick_round hc hst with
  | idle _ hnil => exact absurd hnil hready
  | stay r hr => exact nomatch hidle.symm.trans hr
  | again r hr => exact nomatch hidle.symm.trans hr
  | next a rest _ _ _ hr _ htick =>
      have hneg := gquantum_neg hle
      exact ⟨a, hr, by change (st'.wrappers a).tick < 0; omega⟩

/-- **The quantum of round robin.**  After every `tick` of every run that follows the protocol the
running thread has some ticks left, but less than a quantum; it has not had more than a quantum while
some other thread was ready at the end of it; and the threads were dispatched in the order in which
they entered the ready queue.  This is so if and only if the quantum is an `int`. -/
theorem round_robin_iff (hc : c.algorithm = .roundRobin) (hq : 1 ≤ c.quantum.toNat) (t : τ) :
    (∀ (wrappers : ℕ → TWrapper τ) (w : World lib.Q τ) (l : Ledger τ),
      Reachable (notedStep c) (fun x e => Conforms x.1 e) (scheduler lib wrappers, .init) (w, l) →
      ∀ now, ∃ w' l', notedStep c (.tick, now) (w, l) = some (w', l') ∧
        InTurn c.quantum.toNat w' l') ↔
    c.quantum.toNat < 2 ^ 31 := by
  constructor
  · intro h
    by_contra hle
    -- a thread arrives, and the first `tick` dispatches it
    have hr := (Reachable.refl : Reachable (notedStep c) (fun x e => Conforms x.1 e)
      (scheduler lib fun _ => ⟨t, 0, 0, 0, 0, 0⟩, .init) _).tail (a := (Callback.sysExec t, (0 : ℤ)))
      rfl rfl
    obtain ⟨w', l', hs, hturn⟩ := h _ _ _ hr 0
    obtain ⟨w₁, hs₁, heq⟩ := Option.map_eq_some_iff.mp hs
    obtain ⟨rfl, rfl⟩ := Prod.mk.inj heq
    obtain ⟨r, hrun, htick⟩ := below_zero hc (not_lt.mp hle)
      (by simp [State.sysExec, scheduler, lib.items_enqueue]) rfl hs₁
    have hturn := (hturn.tick r hrun).1
    omega
  · intro hlt wrappers w l hr now
    obtain ⟨hw, h⟩ := reachable_rotates hc hq hlt hr
    obtain ⟨w', hs, -, h'⟩ := h.step hw hc (gquantum_of_lt hlt) hq (e := (.tick, now)) trivial
    exact ⟨w', _, Option.map_eq_some_iff.mpr ⟨w', hs, rfl⟩, h'.inTurn⟩

/-- Two threads share the CPU with a quantum of one. -/
theorem round_robin_two : ∃ w l,
    Reachable (notedStep twoThreads) (fun x e => Conforms x.1 e)
      (scheduler (listQueue ℕ) fun _ => ⟨false, 0, 0, 0, 0, 0⟩, .init) (w, l) ∧
    w.cpu = some true ∧ l.entered = [false, true, false] ∧ l.served = [false, true] ∧
    ∀ now, ∃ w' l', notedStep twoThreads (.tick, now) (w, l) = some (w', l') ∧ InTurn 1 w' l' := by
  have hr₁ := (Reachable.refl : Reachable (notedStep twoThreads) (fun x e => Conforms x.1 e)
    (scheduler (listQueue ℕ) fun _ => ⟨false, 0, 0, 0, 0, 0⟩, .init) _).tail
    (a := (Callback.sysExec false, (0 : ℤ))) rfl rfl
  have hr₂ := hr₁.tail (a := (Callback.tick, (0 : ℤ))) trivial rfl
  have hr₃ := hr₂.tail (a := (Callback.sysExec true, (1 : ℤ))) rfl rfl
  have hr := hr₃.tail (a := (Callback.tick, (1 : ℤ))) trivial rfl
  refine ⟨_, _, hr, rfl, rfl, rfl, ?_⟩
  exact (round_robin_iff rfl (by decide) false).mpr (by decide) _ _ _ hr

/-- Round robin with a quantum of three thousand million. -/
def longQuantum : Config Unit := ⟨.roundRobin, 3000000000, fun _ => ⟨1, 1⟩⟩

/-- The first thread is dispatched with a negative number of ticks left. -/
theorem round_robin_negative : ∃ w l,
    Reachable (notedStep longQuantum) (fun x e => Conforms x.1 e)
      (scheduler (listQueue ℕ) fun _ => ⟨(), 0, 0, 0, 0, 0⟩, .init) (w, l) ∧
    ∃ w' l', notedStep longQuantum (.tick, 0) (w, l) = some (w', l') ∧ w'.st.running = some 0 ∧
      (w'.st.wrappers 0).tick = -1294967297 ∧ ¬InTurn 3000000000 w' l' := by
  have hr := (Reachable.refl : Reachable (notedStep longQuantum) (fun x e => Conforms x.1 e)
    (scheduler (listQueue ℕ) fun _ => ⟨(), 0, 0, 0, 0, 0⟩, .init) _).tail
    (a := (Callback.sysExec (), (0 : ℤ))) rfl rfl
  refine ⟨_, _, hr, _, _, rfl, rfl, by decide, fun h => ?_⟩
  exact absurd (h.tick 0 rfl).1 (by decide)

end CSE130.Assignment4
