import CSE130.Assignment4.Scheduler

/-! # Waiting times

An observer sees the callbacks and the calls of `sim_dispatch`, and keeps the waiting intervals of
every thread.  The scheduler keeps a single number for each thread: at every moment it is the sum of
the intervals that are over, less the time at which the present one began (`Accounted.wait`).  So
the numbers in `stats ()` are the waiting times (`stats_correct`). -/

namespace CSE130.Assignment4

open Transition
open Function (update)

/-- What the observer knows: the threads in their order of arrival, when each arrived and exited,
since when it waits, if it does, and its waiting intervals that are over. -/
structure Observer (τ : Type) where
  order : List τ
  arrival : τ → ℤ
  exit : τ → ℤ
  since : τ → Option ℤ
  intervals : τ → List (ℤ × ℤ)

namespace Observer

variable {τ : Type}

/-- The observer before the first callback. -/
def init : Observer τ := ⟨[], fun _ => 0, fun _ => 0, fun _ => none, fun _ => []⟩

variable (o : Observer τ)

/-- The sum of the lengths of the waiting intervals of a thread that are over. -/
def waiting (t : τ) : ℤ := ((o.intervals t).map fun i => i.2 - i.1).sum

/-- The waiting time, less the time at which the present interval began. -/
def balance (t : τ) : ℤ := o.waiting t - (o.since t).getD 0

variable [DecidableEq τ]

/-- The thread `t` waits from the time `x` on. -/
def opens (t : τ) (x : ℤ) : Observer τ := { o with since := update o.since t (some x) }

/-- The thread `t` has waited until the time `x`. -/
def closes (t : τ) (x : ℤ) : Observer τ :=
  { o with
    since := update o.since t none
    intervals := update o.intervals t (o.intervals t ++ (o.since t).toList.map fun s => (s, x)) }

/-- A callback, with the thread that was on the CPU before and the calls of `sim_dispatch`. -/
def observe (e : Callback τ × ℤ) (cpu : Option τ) (dispatched : List τ) : Observer τ :=
  match e.1 with
  | .sysExec t =>
      { o with order := o.order ++ [t], arrival := update o.arrival t e.2 }.opens t e.2
  | .tick =>
      match dispatched.head?, cpu with
      | none, _ => o
      | some t, none => o.closes t e.2
      | some t, some r => (o.opens r e.2).closes t e.2
  | .sysExit t => { o with exit := update o.exit t e.2 }
  | .sysRead t => o.opens t (e.2 + 1)
  | .sysWrite t => o.opens t (e.2 + 1)
  | .ioComplete t => o.opens t (e.2 + 1)
  | .ioStarting t => o.closes t e.2

variable {o} {t : τ} {x s : ℤ}

theorem balance_opens (h : o.since t = none) (u : τ) :
    (o.opens t x).balance u = o.balance u + if u = t then -x else 0 := by
  by_cases hu : u = t
  · subst hu
    simp [balance, opens, waiting, h]
    omega
  · simp [balance, opens, waiting, hu]

theorem balance_closes (h : o.since t = some s) (u : τ) :
    (o.closes t x).balance u = o.balance u + if u = t then x else 0 := by
  by_cases hu : u = t
  · subst hu
    simp [balance, closes, waiting, h]
    omega
  · simp [balance, closes, waiting, hu]

end Observer

variable {τ : Type} {lib : Queue ℕ}

/-! ### `stats` -/

/-- A record of `tstats`. -/
structure TStat where
  tid : UInt32
  waitingTime : UInt32
  turnaroundTime : UInt32
deriving DecidableEq

/-- `stats_t`, with its array. -/
structure Stats where
  waitingTime : UInt32
  turnaroundTime : UInt32
  threadCount : ℕ
  tstats : List TStat

namespace State

variable (c : Config τ) (st : State lib.Q τ)

/-- The record of `tstats` for the thread at the address `a`. -/
def tstat (a : ℕ) : TStat where
  tid := (c.thread (st.wrappers a).t).tid
  waitingTime := UInt32.ofInt (st.wrappers a).wait
  turnaroundTime := UInt32.ofInt ((st.wrappers a).«end» - (st.wrappers a).arrive)

/-- The loop of `stats`, with `n` rounds left: the records so far, `total_wait` and
`total_turnaround`. -/
def statsLoop : ℕ → lib.Q → List TStat × UInt32 × UInt32 → Option (List TStat × UInt32 × UInt32)
  | 0, _, acc => some acc
  | n + 1, all, (tstats, wait, turnaround) =>
      (lib.dequeue all).1.bind fun a =>
        let tstat := st.tstat c a
        statsLoop n (lib.dequeue all).2
          (tstats ++ [tstat], wait + tstat.waitingTime, turnaround + tstat.turnaroundTime)

/-- `stats`; the means are undefined when there is no thread. -/
def stats : Option Stats :=
  let count := lib.size st.all
  (st.statsLoop c count st.all ([], 0, 0)).bind fun (tstats, wait, turnaround) =>
    if count = 0 then none
    else some
      { waitingTime := wait / UInt32.ofNat count
        turnaroundTime := turnaround / UInt32.ofNat count
        threadCount := count
        tstats := tstats }

end State

/-! ### The numbers of the scheduler and those of the observer -/

variable {c : Config τ} {now : ℤ} {st st' : State lib.Q τ} {w w' : World lib.Q τ}
  {o q : Observer τ} {t : τ} {f : ℕ → ℤ}

/-- What the records of the scheduler say to the observer. -/
structure Accounted (w : World lib.Q τ) (o : Observer τ) : Prop where
  order : o.order = (List.range w.st.fresh).map fun a => (w.st.wrappers a).t
  wait : ∀ a < w.st.fresh, (w.st.wrappers a).wait = o.balance (w.st.wrappers a).t
  arrive : ∀ a < w.st.fresh, (w.st.wrappers a).arrive = o.arrival (w.st.wrappers a).t
  «end» : ∀ a < w.st.fresh, w.phase (w.st.wrappers a).t = .exited →
    (w.st.wrappers a).«end» = o.exit (w.st.wrappers a).t + 1
  since : ∀ t, (o.since t).isSome ↔ w.phase t = .requested ∨ t ∈ w.st.readyThreads
  new : ∀ t, w.phase t = .new → o.intervals t = []

theorem accounted_init (wrappers : ℕ → TWrapper τ) : Accounted (scheduler lib wrappers) .init where
  order := rfl
  wait a ha := absurd ha (Nat.not_lt_zero a)
  arrive a ha := absurd ha (Nat.not_lt_zero a)
  «end» a ha := absurd ha (Nat.not_lt_zero a)
  since t := by simp [Observer.init, scheduler, State.readyThreads, lib.items_create]
  new t _ := rfl

namespace Accounted

/-- The scheduler adds `f` to the waiting times, and the observer makes the same change. -/
theorem charge (h : Accounted w o) (hc : Charges f w.st w'.st) (horder : q.order = o.order)
    (harrival : q.arrival = o.arrival) (hexit : q.exit = o.exit)
    (hbal : ∀ a < w.st.fresh, q.balance (w.st.wrappers a).t = o.balance (w.st.wrappers a).t + f a)
    (hexited : ∀ t, w'.phase t = .exited → w.phase t = .exited)
    (hsince : ∀ t, (q.since t).isSome ↔ w'.phase t = .requested ∨ t ∈ w'.st.readyThreads)
    (hnew : ∀ t, w'.phase t = .new → q.intervals t = []) : Accounted w' q := by
  refine ⟨?_, fun a ha => ?_, fun a ha => ?_, fun a ha hp => ?_, hsince, hnew⟩
  · rw [horder, h.order, hc.fresh]
    exact List.map_congr_left fun a _ => (hc.t a).symm
  · rw [hc.fresh] at ha
    rw [hc.wait, hc.t, h.wait a ha, hbal a ha]
  · rw [hc.fresh] at ha
    rw [hc.arrive, hc.t, h.arrive a ha, harrival]
  · rw [hc.fresh] at ha
    rw [hc.t] at hp ⊢
    rw [hc.end, h.end a ha (hexited _ hp), hexit]

/-- A thread that is not the scheduler's and has not requested I/O does not wait. -/
theorem since_eq_none (h : Accounted w o) (hp : w.phase t ≠ .requested)
    (hr : t ∉ w.st.readyThreads) : o.since t = none := by
  rw [← Option.not_isSome_iff_eq_none, h.since]
  exact not_or.mpr ⟨hp, hr⟩

theorem exists_since (h : Accounted w o) (ht : w.phase t = .requested ∨ t ∈ w.st.readyThreads) :
    ∃ s, o.since t = some s := Option.isSome_iff_exists.mp ((h.since t).mpr ht)

end Accounted

namespace Inv

theorem thread_inj (h : Inv w) {a b : ℕ} (ha : a < w.st.fresh) (hb : b < w.st.fresh) :
    (w.st.wrappers a).t = (w.st.wrappers b).t ↔ a = b :=
  ⟨h.distinct a b ha hb, fun heq => by rw [heq]⟩

theorem nodup_readyThreads (h : Inv w) : w.st.readyThreads.Nodup :=
  h.nodup.map_on fun a ha b hb => h.distinct a b (h.ready a ha).1 (h.ready b hb).1

end Inv

theorem Charges.readyThreads (hc : Charges f st st') :
    st'.readyThreads = (lib.items st'.ready).map fun a => (st.wrappers a).t := readyThreads_of hc.t

namespace Accounted

/-- A thread that is not the scheduler's is not in the ready queue. -/
theorem not_mem_readyThreads (hw : Inv w) (hp : w.phase t ≠ .scheduled) : t ∉ w.st.readyThreads := by
  intro hm
  obtain ⟨a, ha, hat⟩ := List.mem_map.mp hm
  exact (hw.apart hp).1 a ha hat

/-- The running thread is not in the ready queue, and does not wait. -/
theorem running (h : Accounted w o) (hw : Inv w) {r : ℕ} (hr : w.st.running = some r) :
    (w.st.wrappers r).t ∉ w.st.readyThreads ∧ o.since (w.st.wrappers r).t = none := by
  have hrun := hw.running r hr
  have hnot : (w.st.wrappers r).t ∉ w.st.readyThreads := by
    intro hm
    obtain ⟨a, ha, har⟩ := List.mem_map.mp hm
    have har' := hw.distinct a r (hw.ready a ha).1 hrun.1 har
    exact (hw.ready a ha).2.2 (har' ▸ hr)
  exact ⟨hnot, h.since_eq_none (by rw [hrun.2]; nofun) hnot⟩

end Accounted

variable [DecidableEq τ]

/-- A callback, before the eyes of the observer. -/
def observedStep (c : Config τ) (e : Callback τ × ℤ) (s : World lib.Q τ × Observer τ) :
    Option (World lib.Q τ × Observer τ) :=
  (step c e s.1).map fun w => (w, s.2.observe e s.1.cpu w.st.dispatched)

namespace Accounted

theorem tick (h : Accounted w o) (hw : Inv w) (hout : Outcome now { w.st with dispatched := [] } st')
    (cpu : Option τ) :
    Accounted ⟨st', w.phase, cpu⟩ (o.observe (.tick, now) w.cpu st'.dispatched) := by
  have hcharges : ∀ {g : ℕ → ℤ}, Charges g { w.st with dispatched := [] } st' →
      Charges g w.st st' := fun hc => ⟨hc.all, hc.fresh, hc.t, hc.wait, hc.arrive, hc.end⟩
  have hmap : ∀ {g : ℕ → ℤ} {l : List ℕ}, Charges g { w.st with dispatched := [] } st' →
      (lib.items st'.ready).Perm l → st'.readyThreads.Perm (l.map fun a => (w.st.wrappers a).t) := by
    intro g l hc hp
    have hp' := hp.map fun a => (w.st.wrappers a).t
    unfold State.readyThreads
    simpa only [hc.t] using hp'
  cases hout with
  | stay hc hp hr hd =>
      simp only [Observer.observe, hd, List.head?_nil]
      refine h.charge (hcharges hc) rfl rfl rfl (fun a _ => (Int.add_zero _).symm)
        (fun t => id) (fun t => ?_) h.new
      rw [h.since, (hmap hc hp).mem_iff]
      rfl
  | start b hc hnone hp hr hd =>
      have hb := hw.ready b (hp.mem_iff.mpr List.mem_cons_self)
      have hcpu : w.cpu = none := hw.cpu.trans (Option.map_eq_none_iff.mpr hnone)
      have hR : w.st.readyThreads.Perm ((w.st.wrappers b).t :: st'.readyThreads) := by
        exact (hp.map fun a => (w.st.wrappers a).t).trans ((hmap hc (.refl _)).symm.cons _)
      obtain ⟨s, hs⟩ := h.exists_since (.inr (hR.mem_iff.mpr List.mem_cons_self))
      have hnodup := List.nodup_cons.mp (hR.nodup_iff.mp hw.nodup_readyThreads)
      simp only [Observer.observe, hd, hcpu, List.head?_cons]
      refine h.charge (hcharges hc) rfl rfl rfl (fun a ha => ?_) (fun t => id)
        (fun t => ?_) fun t hp => ?_
      · rw [Observer.balance_closes hs]
        simp only [hw.thread_inj ha hb.1]
      · by_cases ht : t = (w.st.wrappers b).t
        · subst ht
          simp [Observer.closes, hb.2.1, hnodup.1]
        · simp [Observer.closes, ht, h.since, hR.mem_iff]
      · have ht : t ≠ (w.st.wrappers b).t := by
          rintro rfl
          exact nomatch hb.2.1.symm.trans hp
        simpa [Observer.closes, ht] using h.new t hp
  | preempt r b rest hc hsome hp hp' hr hd =>
      have hb := hw.ready b (hp.mem_iff.mpr List.mem_cons_self)
      have hrun := hw.running r hsome
      have hcpu : w.cpu = some (w.st.wrappers r).t := by
        rw [hw.cpu, show w.st.running = some r from hsome, Option.map_some]
      have hR : w.st.readyThreads.Perm ((w.st.wrappers b).t :: rest.map fun a => (w.st.wrappers a).t) :=
        hp.map fun a => (w.st.wrappers a).t
      have hR' : st'.readyThreads.Perm ((w.st.wrappers r).t :: rest.map fun a => (w.st.wrappers a).t) :=
        hmap hc hp'
      have hnodup := List.nodup_cons.mp (hR.nodup_iff.mp hw.nodup_readyThreads)
      have hrb : (w.st.wrappers b).t ≠ (w.st.wrappers r).t := by
        intro heq
        have hbr := hw.distinct b r hb.1 hrun.1 heq
        exact hb.2.2 (hbr ▸ hsome)
      have hnone := (h.running hw hsome).2
      obtain ⟨s, hs⟩ := h.exists_since (.inr (hR.mem_iff.mpr List.mem_cons_self))
      have hs' : (o.opens (w.st.wrappers r).t now).since (w.st.wrappers b).t = some s := by
        simpa [Observer.opens, hrb] using hs
      simp only [Observer.observe, hd, hcpu, List.head?_cons]
      refine h.charge (hcharges hc) rfl rfl rfl (fun a ha => ?_) (fun t => id) (fun t => ?_)
        fun t hp => ?_
      · rw [Observer.balance_closes hs', Observer.balance_opens hnone, Int.add_assoc]
        simp only [hw.thread_inj ha hb.1, hw.thread_inj ha hrun.1]
      · by_cases ht : t = (w.st.wrappers b).t
        · subst ht
          simp [Observer.closes, hb.2.1, hR'.mem_iff, hrb, hnodup.1]
        · by_cases htr : t = (w.st.wrappers r).t
          · subst htr
            simp [Observer.closes, Observer.opens, ht, hR'.mem_iff]
          · simp [Observer.closes, Observer.opens, ht, htr, h.since, hR.mem_iff, hR'.mem_iff]
      · have ht : t ≠ (w.st.wrappers b).t := by
          rintro rfl
          exact nomatch hb.2.1.symm.trans hp
        simpa [Observer.closes, Observer.opens, ht] using h.new t hp

theorem exec (h : Accounted w o) (hw : Inv w) (hp : w.phase t = .new) (cpu : Option τ) :
    Accounted ⟨{ w.st with dispatched := [] }.sysExec c now t, update w.phase t .scheduled, cpu⟩
      (o.observe (.sysExec t, now) w.cpu []) := by
  have hne : ∀ a < w.st.fresh, (w.st.wrappers a).t ≠ t := fun a ha hat =>
    (hw.arrived t).mpr ⟨a, ha, hat⟩ hp
  have hnone : o.since t = none :=
    h.since_eq_none (by rw [hp]; nofun) (not_mem_readyThreads hw (by rw [hp]; nofun))
  have hbal := Observer.balance_opens (x := now)
    (o := { o with order := o.order ++ [t], arrival := update o.arrival t now }) hnone
  have hzero : o.balance t = 0 := by simp [Observer.balance, Observer.waiting, hnone, h.new t hp]
  let new : TWrapper τ := ⟨t, -now, now, 0, 0, c.gquantum⟩
  have hold : ∀ a < w.st.fresh, update w.st.wrappers w.st.fresh new a = w.st.wrappers a :=
    fun a ha => Function.update_of_ne (Nat.ne_of_lt ha) _ _
  have hself : update w.st.wrappers w.st.fresh new w.st.fresh = new := Function.update_self _ _ _
  have hready : ({ w.st with dispatched := [] }.sysExec c now t).readyThreads =
      w.st.readyThreads ++ [t] := by
    change (lib.items (lib.enqueue w.st.ready w.st.fresh)).map
      (fun a => (update w.st.wrappers w.st.fresh new a).t) = _
    rw [lib.items_enqueue, List.map_append, List.map_singleton, hself]
    congr 1
    exact List.map_congr_left fun a ha => by rw [hold a (hw.ready a ha).1]
  refine ⟨?_, fun a ha => ?_, fun a ha => ?_, fun a ha hpa => ?_, fun u => ?_, fun u hu => ?_⟩
  · change o.order ++ [t] = (List.range (w.st.fresh + 1)).map
      fun a => (update w.st.wrappers w.st.fresh new a).t
    rw [List.range_succ, List.map_append, List.map_singleton, hself, h.order]
    congr 1
    exact List.map_congr_left fun a ha => by rw [hold a (List.mem_range.mp ha)]
  · change (update w.st.wrappers w.st.fresh new a).wait =
      Observer.balance _ (update w.st.wrappers w.st.fresh new a).t
    rcases Nat.lt_succ_iff_lt_or_eq.mp ha with ha | rfl
    · rw [hold a ha, h.wait a ha]
      refine ((hbal _).trans ?_).symm
      rw [if_neg (hne a ha), Int.add_zero]
      rfl
    · rw [hself]
      refine ((hbal t).trans ?_).symm
      rw [if_pos rfl]
      change o.balance t + -now = -now
      rw [hzero, Int.zero_add]
  · change (update w.st.wrappers w.st.fresh new a).arrive =
      update o.arrival t now (update w.st.wrappers w.st.fresh new a).t
    rcases Nat.lt_succ_iff_lt_or_eq.mp ha with ha | rfl
    · rw [hold a ha, Function.update_of_ne (hne a ha), h.arrive a ha]
    · rw [hself, Function.update_self]
  · change update w.phase t .scheduled (update w.st.wrappers w.st.fresh new a).t = .exited at hpa
    change (update w.st.wrappers w.st.fresh new a).«end» =
      o.exit (update w.st.wrappers w.st.fresh new a).t + 1
    rcases Nat.lt_succ_iff_lt_or_eq.mp ha with ha | rfl
    · rw [hold a ha] at hpa ⊢
      rw [Function.update_of_ne (hne a ha)] at hpa
      exact h.end a ha hpa
    · rw [hself, Function.update_self] at hpa
      cases hpa
  · rw [hready]
    by_cases hu : u = t
    · subst hu
      simp [Observer.observe, Observer.opens]
    · simp [Observer.observe, Observer.opens, hu, h.since]
  · have hne : u ≠ t := by
      rintro rfl
      simp at hu
    refine h.new u ?_
    simpa [hne] using hu

/-- The record at the address `a` changes, and the phase of its thread. -/
theorem move (h : Accounted w o) (hw : Inv w) {a : ℕ} (ha : a < w.st.fresh)
    (hat : (w.st.wrappers a).t = t) {x : ℤ} {p : Phase} (hp : p ≠ .exited) (hp' : p ≠ .new)
    (hc : Charges (fun b => if b = a then x else 0) w.st st') (horder : q.order = o.order)
    (harrival : q.arrival = o.arrival) (hexit : q.exit = o.exit)
    (hbal : ∀ u, q.balance u = o.balance u + if u = t then x else 0)
    (hsince : ∀ u, u ≠ t → q.since u = o.since u ∧ q.intervals u = o.intervals u)
    (hready : ∀ u, u ≠ t → (u ∈ st'.readyThreads ↔ u ∈ w.st.readyThreads))
    (ht : (q.since t).isSome ↔ p = .requested ∨ t ∈ st'.readyThreads) (cpu : Option τ) :
    Accounted ⟨st', update w.phase t p, cpu⟩ q := by
  subst hat
  refine h.charge hc horder harrival hexit (fun b hb => ?_) (fun u hu => ?_) (fun u => ?_)
    fun u hu => ?_
  · rw [hbal]
    simp only [hw.thread_inj hb ha]
  · by_cases hne : u = (w.st.wrappers a).t
    · subst hne
      exact absurd ((Function.update_self _ _ _).symm.trans hu) hp
    · simpa [hne] using hu
  · by_cases hne : u = (w.st.wrappers a).t
    · subst hne
      simpa using ht
    · simp [hne, (hsince u hne).1, hready u hne, h.since]
  · by_cases hne : u = (w.st.wrappers a).t
    · subst hne
      exact absurd ((Function.update_self _ _ _).symm.trans hu) hp'
    · rw [(hsince u hne).2]
      refine h.new u ?_
      simpa [hne] using hu

omit [DecidableEq τ] in
theorem charges_wait (a : ℕ) (x : ℤ) (hall : st'.all = st.all) (hfresh : st'.fresh = st.fresh)
    (hm : st'.wrappers = update st.wrappers a { st.wrappers a with wait := (st.wrappers a).wait + x }) :
    Charges (fun b => if b = a then x else 0) st st' := by
  have h : Charges _ st _ := charges_modify a (x := x) (u := fun T => { T with wait := T.wait + x })
    (fun _ => rfl) (fun _ => rfl) (fun _ => rfl) fun _ => rfl
  refine ⟨hall, hfresh, ?_, ?_, ?_, ?_⟩
  all_goals rw [hm]
  · exact h.t
  · exact h.wait
  · exact h.arrive
  · exact h.end

theorem read (h : Accounted w o) (hw : Inv w) {r : ℕ} (hr : w.st.running = some r)
    (hrt : (w.st.wrappers r).t = t)
    (hc : Charges (fun b => if b = r then -(now + 1) else 0) w.st st')
    (hready : st'.ready = w.st.ready) (cpu : Option τ) :
    Accounted ⟨st', update w.phase t .requested, cpu⟩ (o.opens t (now + 1)) := by
  obtain ⟨-, hnone⟩ := h.running hw hr
  rw [hrt] at hnone
  refine h.move (q := o.opens t (now + 1)) (p := .requested) hw (hw.running r hr).1 hrt nofun nofun hc rfl rfl rfl
    (Observer.balance_opens hnone) (fun u hu => ?_) (fun u _ => ?_) ?_ cpu
  · simp [Observer.opens, hu]
  · rw [hc.readyThreads, hready]
    rfl
  · simp [Observer.opens]

theorem complete (h : Accounted w o) (hw : Inv w) (hp : w.phase t = .started) {a : ℕ}
    (ha : a < w.st.fresh) (hat : (w.st.wrappers a).t = t)
    (hc : Charges (fun b => if b = a then -(now + 1) else 0) w.st st')
    (hready : st'.ready = lib.enqueue w.st.ready a) (cpu : Option τ) :
    Accounted ⟨st', update w.phase t .scheduled, cpu⟩ (o.opens t (now + 1)) := by
  have hnot := not_mem_readyThreads hw (t := t) (by rw [hp]; nofun)
  have hnone := h.since_eq_none (by rw [hp]; nofun) hnot
  have hmem : st'.readyThreads = w.st.readyThreads ++ [t] := by
    rw [hc.readyThreads, hready, lib.items_enqueue, List.map_append, List.map_singleton, hat]
    rfl
  refine h.move (q := o.opens t (now + 1)) (p := .scheduled) hw ha hat nofun nofun hc rfl rfl rfl
    (Observer.balance_opens hnone) (fun u hu => ?_)
    (fun u hu => ?_) ?_ cpu
  · simp [Observer.opens, hu]
  · simp [hmem, hu]
  · simp [hmem, Observer.opens]

theorem starting (h : Accounted w o) (hw : Inv w) (hp : w.phase t = .requested) {a : ℕ}
    (ha : a < w.st.fresh) (hat : (w.st.wrappers a).t = t)
    (hc : Charges (fun b => if b = a then now else 0) w.st st') (hready : st'.ready = w.st.ready)
    (cpu : Option τ) : Accounted ⟨st', update w.phase t .started, cpu⟩ (o.closes t now) := by
  have hnot := not_mem_readyThreads hw (t := t) (by rw [hp]; nofun)
  obtain ⟨s, hs⟩ := h.exists_since (.inl hp)
  have hsame : st'.readyThreads = w.st.readyThreads := by
    rw [hc.readyThreads, hready]
    rfl
  refine h.move (q := o.closes t now) (p := .started) hw ha hat nofun nofun hc rfl rfl rfl
    (Observer.balance_closes hs) (fun u hu => ?_)
    (fun u _ => by rw [hsame]) ?_ cpu
  · simp [Observer.closes, hu]
  · simp [hsame, Observer.closes, hnot]

theorem exit (h : Accounted w o) (hw : Inv w) {r : ℕ} (hr : w.st.running = some r)
    (hrt : (w.st.wrappers r).t = t) (cpu : Option τ) :
    Accounted ⟨{ { w.st with dispatched := [] }.modify r
        (fun T => { T with «end» := now + 1 }) with running := none }, update w.phase t .exited, cpu⟩
      { o with exit := update o.exit t now } := by
  subst hrt
  obtain ⟨hlt, hph⟩ := hw.running r hr
  have hnot := (h.running hw hr).1
  let new : TWrapper τ := { w.st.wrappers r with «end» := now + 1 }
  have hold : ∀ a, a ≠ r → update w.st.wrappers r new a = w.st.wrappers a := fun a ha =>
    Function.update_of_ne ha _ _
  have ht : ∀ a, (update w.st.wrappers r new a).t = (w.st.wrappers a).t := t_update r rfl
  have hfields : ∀ a, (update w.st.wrappers r new a).wait = (w.st.wrappers a).wait ∧
      (update w.st.wrappers r new a).arrive = (w.st.wrappers a).arrive := by
    intro a
    by_cases ha : a = r
    · subst ha
      rw [Function.update_self]
      exact ⟨rfl, rfl⟩
    · rw [hold a ha]
      exact ⟨rfl, rfl⟩
  refine ⟨?_, fun a ha => ?_, fun a ha => ?_, fun a ha hp => ?_, fun u => ?_, fun u hu => ?_⟩
  · exact h.order.trans (List.map_congr_left fun a _ => (ht a).symm)
  · change (update w.st.wrappers r new a).wait = o.balance (update w.st.wrappers r new a).t
    rw [(hfields a).1, ht, h.wait a ha]
  · change (update w.st.wrappers r new a).arrive = o.arrival (update w.st.wrappers r new a).t
    rw [(hfields a).2, ht, h.arrive a ha]
  · change (update w.st.wrappers r new a).«end» =
      update o.exit (w.st.wrappers r).t now (update w.st.wrappers r new a).t + 1
    rw [ht]
    by_cases har : a = r
    · subst har
      rw [Function.update_self, Function.update_self]
    · have hne : (w.st.wrappers a).t ≠ (w.st.wrappers r).t := fun heq =>
        har (hw.distinct a r ha hlt heq)
      have hpa : update w.phase (w.st.wrappers r).t .exited (update w.st.wrappers r new a).t = .exited := hp
      rw [ht, Function.update_of_ne hne] at hpa
      rw [hold a har, Function.update_of_ne hne, h.end a ha hpa]
  · have hready : u ∈ (lib.items w.st.ready).map (fun a => (update w.st.wrappers r new a).t) ↔
        u ∈ w.st.readyThreads := by
      rw [List.map_congr_left fun a _ => ht a]
      rfl
    refine (h.since u).trans ?_
    change _ ↔ update w.phase (w.st.wrappers r).t .exited u = .requested ∨
      u ∈ (lib.items w.st.ready).map (fun a => (update w.st.wrappers r new a).t)
    rw [hready]
    by_cases hne : u = (w.st.wrappers r).t
    · subst hne
      simp [hph]
    · rw [Function.update_of_ne hne]
  · have hne : u ≠ (w.st.wrappers r).t := by
      rintro rfl
      simp at hu
    refine h.new u ?_
    simpa [hne] using hu

theorem step (h : Accounted w o) (hw : Inv w) (hc : c.Implemented) {e : Callback τ × ℤ}
    (he : Conforms w e) (hs : Assignment4.step c e w = some w') :
    Accounted w' (o.observe e w.cpu w'.st.dispatched) := by
  obtain ⟨cb, now⟩ := e
  cases cb with
  | sysExec t =>
      obtain rfl := Option.some.inj hs
      exact h.exec hw he _
  | tick =>
      obtain ⟨st', hst', hout, -⟩ :=
        tick_outcome { w.st with dispatched := [] } hc
      obtain rfl := Option.some.inj (hs.symm.trans (step_of_call hst'))
      exact h.tick hw hout _
  | sysExit t =>
      obtain ⟨r, hr, -, hrt, -⟩ := hw.on_cpu he
      obtain rfl := Option.some.inj (hs.symm.trans (step_of_call (sysExit_eq hr)))
      exact h.exit hw hr hrt _
  | sysRead t =>
      obtain ⟨r, hr, -, hrt, -⟩ := hw.on_cpu he
      obtain rfl := Option.some.inj (hs.symm.trans (step_of_call (sysRead_eq hr)))
      refine h.read hw hr hrt ?_ ?_ _
      · exact charges_wait r _ rfl rfl rfl
      · rfl
  | sysWrite t =>
      obtain ⟨r, hr, -, hrt, -⟩ := hw.on_cpu he
      obtain rfl := Option.some.inj (hs.symm.trans (step_of_call (sysRead_eq hr)))
      refine h.read hw hr hrt ?_ ?_ _
      · exact charges_wait r _ rfl rfl rfl
      · rfl
  | ioComplete t =>
      have hp : w.phase t = .started := he
      obtain ⟨a, hf, ha, hat⟩ := hw.findAll_eq (t := t) (by rw [hp]; nofun)
      obtain rfl := Option.some.inj (hs.symm.trans (step_of_call (ioComplete_eq hf)))
      refine h.complete hw hp ha hat ?_ ?_ _
      · exact charges_wait a _ rfl rfl rfl
      · rfl
  | ioStarting t =>
      have hp : w.phase t = .requested := he
      obtain ⟨a, hf, ha, hat⟩ := hw.findAll_eq (t := t) (by rw [hp]; nofun)
      obtain rfl := Option.some.inj (hs.symm.trans (step_of_call (ioStarting_eq hf)))
      refine h.starting hw hp ha hat ?_ ?_ _
      · exact charges_wait a _ rfl rfl rfl
      · rfl

end Accounted

theorem reachable_accounted (hc : c.Implemented) {wrappers : ℕ → TWrapper τ}
    (hr : Reachable (observedStep c) (fun s e => Conforms s.1 e) (scheduler lib wrappers, .init)
      (w, o)) : Inv w ∧ Accounted w o := by
  refine hr.invariant (I := fun s => Inv s.1 ∧ Accounted s.1 s.2)
    ⟨inv_scheduler wrappers, accounted_init wrappers⟩ fun s e s' _ h he hs => ?_
  obtain ⟨w', hw', rfl⟩ := Option.map_eq_some_iff.mp hs
  obtain ⟨w₁, hw₁, h₁, -⟩ := h.1.step hc he
  obtain rfl := Option.some.inj (hw'.symm.trans hw₁)
  exact ⟨h₁, h.2.step h.1 hc he hw'⟩

/-! ### `stats` gives these numbers -/

omit [DecidableEq τ] in
theorem statsLoop_eq (st : State lib.Q τ) : ∀ (n : ℕ) (all : lib.Q) (ts : List TStat) (x y : UInt32),
    (lib.items all).length = n →
    st.statsLoop c n all (ts, x, y) = some (ts ++ (lib.items all).map (st.tstat c),
      ((lib.items all).map (st.tstat c)).foldl (fun x s => x + s.waitingTime) x,
      ((lib.items all).map (st.tstat c)).foldl (fun y s => y + s.turnaroundTime) y) := by
  intro n
  induction n with
  | zero =>
      intro all ts x y hn
      simp [State.statsLoop, List.eq_nil_of_length_eq_zero hn]
  | succ n ih =>
      intro all ts x y hn
      obtain ⟨a, l, hl⟩ := List.exists_cons_of_length_eq_add_one hn
      have hlast : lib.items (lib.dequeue all).2 = l := by rw [lib.items_dequeue, hl, List.tail_cons]
      have hlen : (lib.items (lib.dequeue all).2).length = n := by
        rw [hlast]
        rw [hl, List.length_cons] at hn
        exact Nat.succ.inj hn
      simp only [State.statsLoop, lib.fst_dequeue, hl, List.head?_cons, Option.bind_some]
      rw [ih _ _ _ _ hlen, hlast]
      simp

namespace Accounted

omit [DecidableEq τ] in
theorem wait_exited (h : Accounted w o) (hw : Inv w) {a : ℕ} (ha : a < w.st.fresh)
    (hp : w.phase (w.st.wrappers a).t = .exited) :
    (w.st.wrappers a).wait = o.waiting (w.st.wrappers a).t := by
  have hnone := h.since_eq_none (by rw [hp]; nofun) (not_mem_readyThreads hw (by rw [hp]; nofun))
  rw [h.wait a ha]
  simp [Observer.balance, hnone]

omit [DecidableEq τ] in
theorem order_nodup (h : Accounted w o) (hw : Inv w) :
    o.order.Nodup ∧ ∀ t, t ∈ o.order ↔ w.phase t ≠ .new := by
  rw [h.order]
  refine ⟨List.nodup_range.map_on fun a ha b hb => ?_, fun t => ?_⟩
  · exact hw.distinct a b (List.mem_range.mp ha) (List.mem_range.mp hb)
  · rw [hw.arrived, List.mem_map]
    simp only [List.mem_range]

omit [DecidableEq τ] in
theorem stats (h : Accounted w o) (hw : Inv w)
    (hall : ∀ t, w.phase t = .new ∨ w.phase t = .exited) (hne : o.order ≠ []) :
    ∃ s, w.st.stats c = some s ∧ s.threadCount = o.order.length ∧
      s.tstats = o.order.map fun t =>
        { tid := (c.thread t).tid
          waitingTime := .ofInt (o.waiting t)
          turnaroundTime := .ofInt (o.exit t + 1 - o.arrival t) } := by
  have hlen : o.order.length = lib.size w.st.all := by
    rw [h.order, List.length_map, lib.size_eq, hw.all]
  have hpos : lib.size w.st.all ≠ 0 := by
    rw [← hlen]
    exact fun h0 => hne (List.eq_nil_of_length_eq_zero h0)
  have hloop := statsLoop_eq (c := c) w.st (lib.size w.st.all) w.st.all [] 0 0 (lib.size_eq _).symm
  refine ⟨_, by rw [State.stats, hloop, Option.bind_some]; exact if_neg hpos, hlen.symm, ?_⟩
  rw [List.nil_append, h.order, hw.all, List.map_map]
  refine List.map_congr_left fun a ha => ?_
  have ha := List.mem_range.mp ha
  have hp : w.phase (w.st.wrappers a).t = .exited := by
    refine (hall _).resolve_left fun hnew => ?_
    exact (hw.arrived _).mpr ⟨a, ha, rfl⟩ hnew
  rw [Function.comp_apply, State.tstat, h.wait_exited hw ha hp, h.end a ha hp, h.arrive a ha]

end Accounted

/-- **Waiting times.**  In every state of every run that follows the protocol, the record of a thread
that has exited holds the sum of the lengths of its waiting intervals.  When all threads that have
arrived have exited, `stats` has one record for each, in the order of arrival, with this waiting
time and with the turnaround time. -/
theorem stats_correct (hc : c.Implemented) {wrappers : ℕ → TWrapper τ}
    (hr : Reachable (observedStep c) (fun s e => Conforms s.1 e) (scheduler lib wrappers, .init)
      (w, o)) :
    (∀ t, w.phase t = .exited →
      ∃ a, w.st.findAll t = some a ∧ (w.st.wrappers a).wait = o.waiting t) ∧
    (o.order.Nodup ∧ ∀ t, t ∈ o.order ↔ w.phase t ≠ .new) ∧
    ((∀ t, w.phase t = .new ∨ w.phase t = .exited) → o.order ≠ [] →
      ∃ s, w.st.stats c = some s ∧ s.threadCount = o.order.length ∧
        s.tstats = o.order.map fun t =>
          { tid := (c.thread t).tid
            waitingTime := .ofInt (o.waiting t)
            turnaroundTime := .ofInt (o.exit t + 1 - o.arrival t) }) := by
  obtain ⟨hw, h⟩ := reachable_accounted hc hr
  refine ⟨fun t hp => ?_, h.order_nodup hw, h.stats hw⟩
  obtain ⟨a, hf, ha, rfl⟩ := hw.findAll_eq (t := t) (by rw [hp]; nofun)
  exact ⟨a, hf, h.wait_exited hw ha hp⟩

/-- A thread arrives at 0, and a second one at 1, which preempts it until it exits. -/
theorem stats_correct_preempted : ∃ s : World (listQueue ℕ).Q Bool × Observer Bool,
    Reachable (observedStep twoThreads) (fun s e => Conforms s.1 e)
      (scheduler (listQueue ℕ) fun _ => ⟨false, 0, 0, 0, 0, 0⟩, .init) s ∧
    ∃ r, s.1.st.stats twoThreads = some r ∧ r.tstats = [⟨1, 1, 3⟩, ⟨1, 0, 1⟩] := by
  have hr₀ : Reachable (observedStep twoThreads) (fun s e => Conforms s.1 e)
    (scheduler (listQueue ℕ) fun _ => ⟨false, 0, 0, 0, 0, 0⟩, .init) _ := .refl
  have hr₁ := hr₀.tail (a := (Callback.sysExec false, (0 : ℤ))) rfl rfl
  have hr₂ := hr₁.tail (a := (Callback.tick, (0 : ℤ))) trivial rfl
  have hr₃ := hr₂.tail (a := (Callback.sysExec true, (1 : ℤ))) rfl rfl
  have hr₄ := hr₃.tail (a := (Callback.tick, (1 : ℤ))) trivial rfl
  have hr₅ := hr₄.tail (a := (Callback.sysExit true, (1 : ℤ))) rfl rfl
  have hr₆ := hr₅.tail (a := (Callback.tick, (2 : ℤ))) trivial rfl
  have hr := hr₆.tail (a := (Callback.sysExit false, (2 : ℤ))) rfl rfl
  obtain ⟨-, -, hstats⟩ := stats_correct (.inr (.inl rfl)) hr
  obtain ⟨r, hs, -, htstats⟩ := hstats (fun t => by cases t <;> exact .inr rfl) nofun
  exact ⟨_, hr, r, hs, htstats.trans (by decide)⟩

end CSE130.Assignment4
