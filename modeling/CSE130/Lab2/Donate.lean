import CSE130.Lab2.Code
import CSE130.Lib.Raise
import CSE130.Lib.Transition
import Mathlib.Data.Set.Finite.Basic

/-! # The recursion of `donate`

`donate(lock)` assigns the priority of the running thread to the holder of the lock, and goes on
with the lock that this thread's `blocker` names while its holder is below the running thread.  It is
a walk along the pointers `blocker` and `holder` (`Raises`), which may form a cycle when threads
wait for one another.  The graph is any graph: nothing is assumed about how it came about. -/

namespace CSE130.Lab2

open Function (update)
open Transition

variable {k k' : Kernel} {l m n : Lock} {h t : Thread} {st : List Frame} {ts : List Thread}
  {p : Thread → ℤ} {v : ℤ} {es : List (Kernel × Action)}

namespace Kernel

/-- `lock->holder->blocker->holder` after the holder `t`. -/
def nextHolder (k : Kernel) (t : Thread) : Option Thread := (k.blocker t).bind k.holder

/-- The threads that `donate(l)` reaches. -/
def DonationReaches (k : Kernel) (l : Lock) (t : Thread) : Prop :=
  ∃ h, k.holder l = some h ∧ Reached k.nextHolder (k.priority k.current) k.priority h t

/-- The thread whose priority the statement assigns. -/
def assignee (e : Kernel × Action) : Option Thread :=
  match e.1.code with
  | .donate m :: _ => e.1.holder m
  | _ => none

/-- The kernel in the middle of a call of `donate`. -/
def donating (k : Kernel) (p : Thread → ℤ) (code : List Frame) : Kernel :=
  { k with priority := p, stack := update k.stack k.current code }

theorem donating_code (k : Kernel) (p : Thread → ℤ) (code : List Frame) :
    (k.donating p code).code = code := Function.update_self ..

theorem donating_self (hcode : k.code = st) : k.donating k.priority st = k := by
  unfold donating
  rw [← hcode]
  exact congrArg (fun s => { k with stack := s }) (Function.update_eq_self k.current k.stack)

end Kernel

open Kernel

theorem step_donate (k : Kernel) (hm : k.holder m = some t) :
    step .run (k.donating p (.donate m :: st)) =
      some (k.donating (update p t (p k.current)) (.donateNext m :: st)) := by
  simp [step, stepRun, exec, donating, Kernel.code, Kernel.push, hm]

theorem step_donateNext_stop (k : Kernel) (hm : k.holder m = some t)
    (hf : ∀ n, k.blocker t = some n → ∃ g, k.holder n = some g)
    (hstop : ∀ g, k.nextHolder t = some g → ¬ p g < p k.current) :
    step .run (k.donating p (.donateNext m :: st)) = some (k.donating p st) := by
  cases hb : k.blocker t with
  | none => simp [step, stepRun, exec, donating, Kernel.code, hm, hb]
  | some n =>
      obtain ⟨g, hg⟩ := hf n hb
      have hle := hstop g (by rw [nextHolder, hb]; exact hg)
      simp [step, stepRun, exec, donating, Kernel.code, hm, hb, hg, hle]

theorem step_donateNext (k : Kernel) (hm : k.holder m = some t) (hb : k.blocker t = some n)
    (hn : k.holder n = some h) (hlt : p h < p k.current) :
    step .run (k.donating p (.donateNext m :: st)) = some (k.donating p (.donate n :: st)) := by
  simp [step, stepRun, exec, donating, Kernel.code, Kernel.push, hm, hb, hn, hlt]

/-- The two statements of `donate`, the later first. -/
def donationTurn (k : Kernel) (p : Thread → ℤ) (t : Thread) (m : Lock) (st : List Frame) :
    List (Kernel × Action) :=
  [(k.donating (update p t (p k.current)) (.donateNext m :: st), .run),
    (k.donating p (.donate m :: st), .run)]

theorem assignee_donationTurn (hm : k.holder m = some t) :
    (donationTurn k p t m st).filterMap assignee = [t] := by
  have hm' : (k.donating p (.donate m :: st)).holder m = some t := hm
  simp [donationTurn, assignee, donating_code, hm']

/-- Only statements of the running thread. -/
def running (_ : Kernel) (a : Action) : Prop := a = .run

/-- The run of the recursion along a walk. -/
theorem run_donate {s : Kernel} (hr : Raises k.nextHolder v p t ts) (hv : p k.current = v)
    (hm : k.holder m = some t) (hf : ∀ x ∈ ts, ∀ n, k.blocker x = some n → ∃ g, k.holder n = some g)
    (hrun : Run step running s es (k.donating p (.donate m :: st))) :
    ∃ es', Run step running s (es' ++ es) (k.donating (raised v p ts) st) ∧
      es'.filterMap assignee = ts.reverse := by
  induction hr generalizing m es with
  | @stop p t hstop =>
      subst hv
      have hrun₁ := hrun.cons rfl (step_donate k hm)
      have hself : update p t (p k.current) k.current = p k.current := by
        rw [Function.update_apply, ite_self]
      have hrun₂ := hrun₁.cons rfl (step_donateNext_stop k hm (hf t (List.mem_singleton_self t))
        fun g hg => hself.symm ▸ hstop g hg)
      have hraised : raised (p k.current) p [t] = update p t (p k.current) :=
        raised_update.symm.trans (funext fun x => if_neg List.not_mem_nil)
      rw [hraised]
      exact ⟨donationTurn k p t m st, hrun₂, assignee_donationTurn hm⟩
  | @next p t g ts hg hlt _ ih =>
      subst hv
      have hself : update p t (p k.current) k.current = p k.current := by
        rw [Function.update_apply, ite_self]
      obtain ⟨n, hb, hn⟩ := Option.bind_eq_some_iff.mp hg
      have hrun₁ := hrun.cons rfl (step_donate k hm)
      have hrun₂ := hrun₁.cons rfl (step_donateNext k hm hb hn (hself.symm ▸ hlt))
      obtain ⟨es', hrun', hes⟩ := ih hself hn (fun x hx => hf x (List.mem_cons_of_mem t hx)) hrun₂
      rw [raised_update] at hrun'
      refine ⟨es' ++ donationTurn k p t m st, ?_, ?_⟩
      · rw [List.append_assoc]
        exact hrun'
      · rw [List.filterMap_append, hes, assignee_donationTurn hm, List.reverse_cons]

/-- **`donate` ends**, also when the pointers form a cycle.  It assigns the priority of the running
thread once to each of the threads `ts` that it reaches. -/
theorem donate_ends (k : Kernel) (l : Lock) (st : List Frame) (hcode : k.code = .donate l :: st)
    (hfin : {t | ∃ m, k.holder m = some t}.Finite) (hl : ∃ h, k.holder l = some h)
    (hf : ∀ t n, k.DonationReaches l t → k.blocker t = some n → ∃ g, k.holder n = some g) :
    ∃ es ts, Run step running k es
        (k.donating (raised (k.priority k.current) k.priority ts) st) ∧
      es.filterMap assignee = ts.reverse ∧ ts.Nodup ∧ (∀ t, t ∈ ts ↔ k.DonationReaches l t) ∧
      ((∀ h, k.holder l = some h → k.priority h < k.priority k.current) →
        ∀ t, k.priority t ≤ raised (k.priority k.current) k.priority ts t) := by
  obtain ⟨h, hh⟩ := hl
  have hnext (t g : Thread) (hg : k.nextHolder t = some g) : g ∈ hfin.toFinset := by
    obtain ⟨n, -, hn⟩ := Option.bind_eq_some_iff.mp hg
    exact hfin.mem_toFinset.mpr ⟨n, hn⟩
  obtain ⟨ts, hts⟩ := exists_raises (v := k.priority k.current) hfin.toFinset hnext k.priority h
  have hmem (t : Thread) : t ∈ ts ↔ k.DonationReaches l t := by
    rw [hts.mem_iff]
    constructor
    · exact fun ht => ⟨h, hh, ht⟩
    · rintro ⟨h', hh', ht⟩
      obtain rfl : h = h' := Option.some_inj.mp (hh.symm.trans hh')
      exact ht
  have hstart : Run step running k [] (k.donating k.priority (.donate l :: st)) := by
    rw [donating_self hcode]
    exact .nil
  obtain ⟨es, hrun, hes⟩ := run_donate hts rfl hh (fun x hx n => hf x n ((hmem x).mp hx)) hstart
  rw [List.append_nil] at hrun
  refine ⟨es, ts, hrun, hes, hts.nodup, hmem, fun hlt => le_raised fun x hx => ?_⟩
  rcases hts.lt_of_mem hx with rfl | hx
  · exact (hlt x hh).le
  · exact hx.le

/-- Threads 2 and 3 wait for each other's locks, and thread 4 calls `donate`. -/
def deadlock : Kernel :=
  { boot fun _ => 0 with
    holder := fun l => if l = .user 0 then some 2 else if l = .user 1 then some 3 else none
    blocker := fun t => if t = 2 then some (.user 1) else if t = 3 then some (.user 0) else none
    priority := fun t => if t = 4 then 50 else 31
    current := 4
    stack := fun t => if t = 4 then [.donate (.user 0)] else [] }

theorem donate_ends_deadlock :
    ∃ es ts, Run step running deadlock es
        (deadlock.donating (raised (deadlock.priority deadlock.current) deadlock.priority ts) []) ∧
      es.filterMap assignee = ts.reverse ∧ ts.Nodup ∧
      (∀ t, t ∈ ts ↔ deadlock.DonationReaches (.user 0) t) ∧
      ((∀ h, deadlock.holder (.user 0) = some h →
          deadlock.priority h < deadlock.priority deadlock.current) →
        ∀ t, deadlock.priority t ≤
          raised (deadlock.priority deadlock.current) deadlock.priority ts t) := by
  have hholder (m : Lock) (t : Thread) (h : deadlock.holder m = some t) : t = 2 ∨ t = 3 := by
    unfold deadlock at h
    dsimp only at h
    split_ifs at h <;> simp_all
  have hblocker (t : Thread) (n : Lock) (h : deadlock.blocker t = some n) :
      n = .user 1 ∨ n = .user 0 := by
    unfold deadlock at h
    dsimp only at h
    split_ifs at h <;> simp_all
  refine donate_ends deadlock (.user 0) [] rfl ?_ ⟨2, rfl⟩ fun t n _ hn => ?_
  · refine ({2, 3} : Set ℕ).toFinite.subset fun t ⟨m, h⟩ => ?_
    exact hholder m t h
  · rcases hblocker t n hn with rfl | rfl
    · exact ⟨3, rfl⟩
    · exact ⟨2, rfl⟩

end CSE130.Lab2
