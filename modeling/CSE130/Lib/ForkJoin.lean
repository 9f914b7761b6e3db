import CSE130.Lib.Transition
import Mathlib.Data.Set.Lattice
import Mathlib.Logic.Hydra
import Mathlib.Data.List.Perm.Basic
import Mathlib.Order.CompletePartialOrder

/-! # Threads on disjoint parts of a memory

A thread is a `Code`: reads and writes of single cells, where what follows may depend on the values
read.  A main program creates threads, waits for them and executes codes itself; each step of the
whole is one access of one thread or one command of the main program, in any order (`step`).
Creating a thread may fail, and a program that checks for it then exits.

When threads that are alive together have disjoint footprints (`Safe`, a condition on the text of
the main program), the order does not matter: `State.finish`, the memory after the threads have been
run to their ends one after the other, does not change from step to step (`Safe.reachable`).  Every
run is finite (`step_wf`), and it does not stop before the main program does (`Guarded.stuck`). -/

namespace CSE130.ForkJoin

open Function (update)

variable {τ ι α : Type*}

/-- What a thread still has to do. -/
inductive Code (ι α : Type*) where
  | done
  | read (i : ι) (k : α → Code ι α)
  | write (i : ι) (v : α) (k : Code ι α)

namespace Code

/-- One code after the other. -/
def seq : Code ι α → Code ι α → Code ι α
  | done, d => d
  | read i k, d => read i fun v => (k v).seq d
  | write i v k, d => write i v (k.seq d)

/-- The cells that a code may access. -/
def footprint : Code ι α → Set ι
  | done => ∅
  | read i k => {i} ∪ ⋃ v, (k v).footprint
  | write i _ k => {i} ∪ k.footprint

variable [DecidableEq ι]

/-- The memory after a code, if nothing else changes it. -/
def run : Code ι α → (ι → α) → ι → α
  | done, m => m
  | read i k, m => (k (m i)).run m
  | write i v k, m => k.run (update m i v)

/-- One access. -/
def step : Code ι α → (ι → α) → Option (Code ι α × (ι → α))
  | done, _ => none
  | read i k, m => some (k (m i), m)
  | write i v k, m => some (k, update m i v)

/-- Nothing is left to do. -/
def isDone : Code ι α → Bool
  | done => true
  | _ => false

variable {c d c' : Code ι α} {m m' : ι → α} {i : ι}

omit [DecidableEq ι] in
theorem isDone_iff : c.isDone = true ↔ c = done := by
  cases c <;> simp [isDone]

theorem run_seq (c d : Code ι α) (m : ι → α) : (c.seq d).run m = d.run (c.run m) := by
  induction c generalizing m with
  | done => rfl
  | read i k ih => exact ih (m i) m
  | write i v k ih => exact ih (update m i v)

omit [DecidableEq ι] in
theorem footprint_seq (c d : Code ι α) : (c.seq d).footprint ⊆ c.footprint ∪ d.footprint := by
  induction c with
  | done => exact Set.subset_union_right
  | read i k ih =>
      refine Set.union_subset (fun j hj => .inl (.inl hj)) (Set.iUnion_subset fun v j hj => ?_)
      exact (ih v hj).imp (fun h => .inr (Set.mem_iUnion.mpr ⟨v, h⟩)) id
  | write i v k ih =>
      refine Set.union_subset (fun j hj => .inl (.inl hj)) fun j hj => ?_
      exact (ih hj).imp .inr id

theorem run_of_notMem (h : i ∉ c.footprint) : c.run m i = m i := by
  induction c generalizing m with
  | done => rfl
  | read j k ih =>
      exact ih (m j) fun hi => h (.inr (Set.mem_iUnion.mpr ⟨m j, hi⟩))
  | write j v k ih =>
      have hne : i ≠ j := fun hi => h (.inl hi)
      exact (ih fun hi => h (.inr hi)).trans (Function.update_of_ne hne v m)

theorem run_congr (hm : ∀ j ∈ c.footprint, m j = m' j) (hi : m i = m' i) :
    c.run m i = c.run m' i := by
  induction c generalizing m m' with
  | done => exact hi
  | read j k ih =>
      rw [run, run, hm j (.inl rfl)]
      exact ih _ (fun l hl => hm l (.inr (Set.mem_iUnion.mpr ⟨_, hl⟩))) hi
  | write j v k ih =>
      refine ih (fun l hl => ?_) ?_
      · by_cases hlj : l = j
        · rw [hlj, Function.update_self, Function.update_self]
        · rw [Function.update_of_ne hlj, Function.update_of_ne hlj, hm l (.inr hl)]
      · by_cases hij : i = j
        · rw [hij, Function.update_self, Function.update_self]
        · rw [Function.update_of_ne hij, Function.update_of_ne hij, hi]

theorem run_comm (h : Disjoint c.footprint d.footprint) (m : ι → α) :
    c.run (d.run m) = d.run (c.run m) := by
  funext i
  have hcd : ∀ j ∈ c.footprint, d.run m j = m j := fun j hj =>
    run_of_notMem fun hd => Set.disjoint_left.mp h hj hd
  have hdc : ∀ j ∈ d.footprint, c.run m j = m j := fun j hj =>
    run_of_notMem fun hc => Set.disjoint_left.mp h hc hj
  by_cases hi : i ∈ c.footprint
  · rw [run_congr hcd (hcd i hi), run_of_notMem fun hd => Set.disjoint_left.mp h hi hd]
  · rw [run_of_notMem hi, run_congr hdc (run_of_notMem hi)]

theorem step_run (h : c.step m = some (c', m')) : c'.run m' = c.run m := by
  cases c with
  | done => cases h
  | read i k =>
      cases h
      rfl
  | write i v k =>
      cases h
      rfl

theorem step_footprint (h : c.step m = some (c', m')) : c'.footprint ⊆ c.footprint := by
  cases c with
  | done => cases h
  | read i k =>
      cases h
      exact fun j hj => .inr (Set.mem_iUnion.mpr ⟨m i, hj⟩)
  | write i v k =>
      cases h
      exact fun j hj => .inr hj

/-! #### Other cells -/

variable {κ : Type*} (f : ι → κ)

/-- The same code on the cells `f i`. -/
def rename : Code ι α → Code κ α
  | done => done
  | read i k => read (f i) fun v => (k v).rename
  | write i v k => write (f i) v k.rename

variable {f}

omit [DecidableEq ι] in
theorem footprint_rename (c : Code ι α) : (c.rename f).footprint ⊆ f '' c.footprint := by
  induction c with
  | done => exact Set.empty_subset _
  | read i k ih =>
      refine Set.union_subset ?_ (Set.iUnion_subset fun v j hj => ?_)
      · exact Set.singleton_subset_iff.mpr ⟨i, .inl rfl, rfl⟩
      · obtain ⟨l, hl, rfl⟩ := ih v hj
        exact ⟨l, .inr (Set.mem_iUnion.mpr ⟨v, hl⟩), rfl⟩
  | write i v k ih =>
      refine Set.union_subset ?_ fun j hj => ?_
      · exact Set.singleton_subset_iff.mpr ⟨i, .inl rfl, rfl⟩
      · obtain ⟨l, hl, rfl⟩ := ih hj
        exact ⟨l, .inr hl, rfl⟩

/-- A renamed code does to the cells `f i` what the code does. -/
theorem run_rename [DecidableEq κ] (hf : Function.Injective f) (c : Code ι α) (m : κ → α) :
    (fun i => (c.rename f).run m (f i)) = c.run fun i => m (f i) := by
  induction c generalizing m with
  | done => rfl
  | read i k ih => exact ih (m (f i)) m
  | write i v k ih =>
      have hupdate : (fun j => update m (f i) v (f j)) = update (fun j => m (f j)) i v := by
        funext j
        simp only [Function.update_apply, hf.eq_iff]
      exact (ih (update m (f i) v)).trans (congrArg k.run hupdate)

end Code

/-! ### Several threads -/

/-- Neither code accesses a cell of the other. -/
def Apart (c d : Code ι α) : Prop := Disjoint c.footprint d.footprint

theorem Apart.symm {c d : Code ι α} (h : Apart c d) : Apart d c := Disjoint.symm h

variable [DecidableEq ι] {c c' : Code ι α} {cs cs' : List (Code ι α)} {m m' : ι → α}

/-- The memory after the codes, one after the other. -/
def runAll (cs : List (Code ι α)) (m : ι → α) : ι → α := cs.foldl (fun m c => c.run m) m

theorem runAll_concat (cs : List (Code ι α)) (c : Code ι α) (m : ι → α) :
    runAll (cs ++ [c]) m = c.run (runAll cs m) := by
  rw [runAll, List.foldl_append]
  rfl

/-- A code may run before or after the codes it is apart from. -/
theorem run_runAll (h : ∀ d ∈ cs, Apart c d) (m : ι → α) :
    c.run (runAll cs m) = runAll cs (c.run m) := by
  induction cs generalizing m with
  | nil => rfl
  | cons d cs ih =>
      rw [List.forall_mem_cons] at h
      exact (ih h.2 (d.run m)).trans (congrArg (runAll cs) (Code.run_comm h.1 m))

theorem runAll_done (h : ∀ c ∈ cs, c = .done) : runAll cs m = m := by
  induction cs with
  | nil => rfl
  | cons c cs ih =>
      rw [List.forall_mem_cons] at h
      rw [h.1]
      exact ih h.2

/-- One access of one of several codes changes nothing about the memory after all of them. -/
theorem runAll_step {cs₁ cs₂ : List (Code ι α)} (h : (cs₁ ++ c :: cs₂).Pairwise Apart)
    (hs : c.step m = some (c', m')) :
    runAll (cs₁ ++ c' :: cs₂) m' = runAll (cs₁ ++ c :: cs₂) m := by
  have hc : ∀ d ∈ cs₁, Apart c d := fun d hd =>
    ((List.pairwise_append.mp h).2.2 d hd c List.mem_cons_self).symm
  have hc' : ∀ d ∈ cs₁, Apart c' d := fun d hd => (hc d hd).mono_left (Code.step_footprint hs)
  have hmem : ∀ m₀ : ι → α, ∀ e : Code ι α, (∀ d ∈ cs₁, Apart e d) →
      runAll (cs₁ ++ e :: cs₂) m₀ = runAll cs₂ (runAll cs₁ (e.run m₀)) := fun m₀ e he => by
    rw [runAll, List.foldl_append, List.foldl_cons]
    exact congrArg (runAll cs₂) (run_runAll he m₀)
  rw [hmem m' c' hc', hmem m c hc, Code.step_run hs]

/-! ### The main program -/

/-- A command of the main program. -/
inductive Command (τ ι α : Type*) where
  /-- Create the thread `t`. -/
  | create (t : τ) (c : Code ι α)
  /-- Exit if a thread could not be created. -/
  | check
  /-- Wait until the thread `t` has ended. -/
  | join (t : τ)
  /-- Execute the code. -/
  | call (c : Code ι α)

/-- The memory, the threads created so far, and the rest of the main program. -/
structure State (τ ι α : Type*) where
  mem : ι → α
  threads : List (τ × Code ι α)
  main : List (Command τ ι α)
  failed : Bool
  exited : Bool

/-- The main program `main` is called. -/
def start (main : List (Command τ ι α)) (mem : ι → α) : State τ ι α := ⟨mem, [], main, false, false⟩

/-- What may happen next. -/
inductive Action where
  /-- The next access of the thread that was created after `n` others. -/
  | thread (n : ℕ)
  /-- The main program goes on. -/
  | main
  /-- The main program goes on, but the thread it creates is not created. -/
  | fail

variable [DecidableEq τ]

/-- The thread `t` has ended. -/
def State.ended (s : State τ ι α) (t : τ) : Bool :=
  s.threads.any (fun p => p.1 = t) && s.threads.all fun p => p.1 ≠ t || p.2.isDone

/-- A step of the main program. -/
def State.stepMain (s : State τ ι α) : Option (State τ ι α) :=
  match s.main with
  | [] => none
  | .create t c :: cs => some { s with threads := s.threads ++ [(t, c)], main := cs }
  | .check :: cs => some { s with main := cs, exited := s.failed }
  | .join t :: cs => if s.ended t then some { s with main := cs } else none
  | .call c :: cs =>
      match c.step s.mem with
      | none => some { s with main := cs }
      | some (c, mem) => some { s with mem := mem, main := .call c :: cs }

/-- One step. -/
def step (a : Action) (s : State τ ι α) : Option (State τ ι α) :=
  if s.exited then none
  else
    match a with
    | .thread n =>
        s.threads[n]?.bind fun (t, c) =>
          (c.step s.mem).map fun (c, mem) => { s with mem := mem, threads := s.threads.set n (t, c) }
    | .main => s.stepMain
    | .fail =>
        match s.main with
        | .create _ _ :: cs => some { s with main := cs, failed := true }
        | _ => none

/-- What the threads still have to do. -/
def State.codes (s : State τ ι α) : List (Code ι α) := s.threads.map Prod.snd

/-- The code that the main program is executing. -/
def State.called (s : State τ ι α) : List (Code ι α) :=
  match s.main with
  | .call c :: _ => [c]
  | _ => []

/-! ### Programs whose threads are apart -/

/-- The text of a main program: the threads in `live` are created and not joined, a creation may
have failed without a check if `pending`.  A thread is created, and a code called, only apart from
the threads alive; every creation is checked before a thread is joined, every thread is joined. -/
def Safe : Bool → List (τ × Set ι) → List (Command τ ι α) → Prop
  | pending, live, [] => pending = false ∧ live = []
  | _, live, .create t c :: cs =>
      (∀ q ∈ live, Disjoint c.footprint q.2) ∧ Safe true ((t, c.footprint) :: live) cs
  | _, live, .check :: cs => Safe false live cs
  | pending, live, .join t :: cs =>
      pending = false ∧ (∃ q ∈ live, q.1 = t) ∧ Safe false (live.filter (·.1 ≠ t)) cs
  | pending, live, .call c :: cs =>
      pending = false ∧ (∀ q ∈ live, Disjoint c.footprint q.2) ∧ Safe false live cs

/-- The memory after the main program and its threads, run one after the other. -/
def runMain : List (Command τ ι α) → (ι → α) → ι → α
  | [], m => m
  | .create _ c :: cs, m => runMain cs (c.run m)
  | .call c :: cs, m => runMain cs (c.run m)
  | _ :: cs, m => runMain cs m

/-- The memory in the end. -/
def State.finish (s : State τ ι α) : ι → α := runMain s.main (runAll s.codes s.mem)

/-- A state that a safe program can be in. -/
structure Guarded (pending : Bool) (live : List (τ × Set ι)) (s : State τ ι α) : Prop where
  safe : Safe pending live s.main
  failed : s.failed = true → pending = true ∨ s.exited = true
  exited : s.exited = true → s.failed = true
  threads : ∀ p ∈ s.threads, p.2 = .done ∨ ∃ q ∈ live, q.1 = p.1 ∧ p.2.footprint ⊆ q.2
  apart : s.codes.Pairwise Apart
  created : s.failed = false → ∀ q ∈ live, ∃ p ∈ s.threads, p.1 = q.1

variable {s s' : State τ ι α} {pending : Bool} {live : List (τ × Set ι)} {t : τ} {a : Action}
  {main : List (Command τ ι α)}

omit [DecidableEq ι] in
theorem Guarded.start (h : Safe false [] main) (m : ι → α) : Guarded false [] (start main m) where
  safe := h
  failed h := nomatch h
  exited h := nomatch h
  threads _ hp := nomatch hp
  apart := .nil
  created _ _ hq := nomatch hq

omit [DecidableEq ι] in
theorem Apart.of_done (c : Code ι α) : Apart c .done := Set.disjoint_empty _

omit [DecidableEq ι] in
/-- A code that is apart from everything alive is apart from every thread. -/
theorem Guarded.apart_of (h : Guarded pending live s) (hc : ∀ q ∈ live, Disjoint c.footprint q.2) :
    ∀ d ∈ s.codes, Apart c d := by
  intro d hd
  obtain ⟨p, hp, rfl⟩ := List.mem_map.mp hd
  rcases h.threads p hp with hdone | ⟨q, hq, -, hsub⟩
  · exact hdone ▸ .of_done c
  · exact (hc q hq).mono_right hsub

omit [DecidableEq ι] in
theorem Guarded.codes_apart (h : Guarded pending live s) : (s.codes ++ s.called).Pairwise Apart := by
  refine List.pairwise_append.mpr ⟨h.apart, ?_, ?_⟩
  · unfold State.called
    split
    · exact List.pairwise_singleton _ _
    · exact .nil
  · have hsafe := h.safe
    unfold State.called
    split
    · rename_i c cs heq
      rw [heq] at hsafe
      intro d hd e he
      obtain rfl := List.mem_singleton.mp he
      exact (h.apart_of hsafe.2.1 d hd).symm
    · exact fun _ _ _ he => nomatch he

/-! ### Steps -/

theorem step_thread {n : ℕ} (h : step (.thread n) s = some s') : ∃ t c c' m', s.exited = false ∧
    s.threads[n]? = some (t, c) ∧ c.step s.mem = some (c', m') ∧
    s' = { s with mem := m', threads := s.threads.set n (t, c') } := by
  unfold step at h
  split at h
  · cases h
  · rename_i hexit
    simp only [Option.bind_eq_some_iff, Option.map_eq_some_iff] at h
    obtain ⟨⟨t, c⟩, hget, ⟨c', m'⟩, hstep, rfl⟩ := h
    exact ⟨t, c, c', m', by simpa using hexit, hget, hstep, rfl⟩

theorem split_at {β : Type*} {l : List β} {n : ℕ} {x : β} (h : l[n]? = some x) :
    ∃ l₁ l₂, l = l₁ ++ x :: l₂ ∧ ∀ y, l.set n y = l₁ ++ y :: l₂ := by
  induction l generalizing n with
  | nil => cases h
  | cons z l ih =>
      cases n with
      | zero =>
          cases h
          exact ⟨[], l, rfl, fun y => rfl⟩
      | succ n =>
          obtain ⟨l₁, l₂, hl, hset⟩ := ih h
          exact ⟨z :: l₁, l₂, congrArg (z :: ·) hl, fun y => congrArg (z :: ·) (hset y)⟩

omit [DecidableEq ι] in
/-- A code that has less left to do is apart from what it was apart from. -/
theorem pairwise_apart_replace {cs₁ cs₂ : List (Code ι α)} (hsub : c'.footprint ⊆ c.footprint)
    (h : (cs₁ ++ c :: cs₂).Pairwise Apart) : (cs₁ ++ c' :: cs₂).Pairwise Apart := by
  obtain ⟨h₁, h₂, hcross⟩ := List.pairwise_append.mp h
  obtain ⟨hc, h₂⟩ := List.pairwise_cons.mp h₂
  refine List.pairwise_append.mpr ⟨h₁, List.pairwise_cons.mpr ⟨fun d hd => ?_, h₂⟩, ?_⟩
  · exact (hc d hd).mono_left hsub
  · intro d hd e he
    rcases List.mem_cons.mp he with rfl | he
    · exact (hcross d hd c List.mem_cons_self).mono_right hsub
    · exact hcross d hd e (List.mem_cons_of_mem _ he)

theorem Guarded.step_thread {n : ℕ} (h : Guarded pending live s)
    (hs : step (.thread n) s = some s') : Guarded pending live s' ∧ s'.finish = s.finish := by
  obtain ⟨t, c, c', m', -, hget, hstep, rfl⟩ := ForkJoin.step_thread hs
  obtain ⟨l₁, l₂, hl, hset⟩ := split_at hget
  have hcodes : s.codes = l₁.map Prod.snd ++ c :: l₂.map Prod.snd := by
    rw [State.codes, hl, List.map_append, List.map_cons]
  have hapart := h.apart
  rw [hcodes] at hapart
  have hsub := Code.step_footprint hstep
  have hcodes' : (s.threads.set n (t, c')).map Prod.snd =
      l₁.map Prod.snd ++ c' :: l₂.map Prod.snd := by
    rw [hset, List.map_append, List.map_cons]
  refine ⟨⟨h.safe, h.failed, h.exited, fun p hp => ?_, ?_, fun hf q hq => ?_⟩, ?_⟩
  · have hold : ∀ p ∈ l₁ ++ (t, c) :: l₂, p.2 = .done ∨ ∃ q ∈ live, q.1 = p.1 ∧ p.2.footprint ⊆ q.2 :=
      fun p hp => h.threads p (hl ▸ hp)
    dsimp only at hp
    rw [hset, List.mem_append, List.mem_cons] at hp
    rcases hp with hp | rfl | hp
    · exact hold p (List.mem_append_left _ hp)
    · rcases hold (t, c) (List.mem_append_right _ List.mem_cons_self) with hdone | ⟨q, hq, ht, hq'⟩
      · rw [show c = .done from hdone] at hstep
        cases hstep
      · exact .inr ⟨q, hq, ht, hsub.trans hq'⟩
    · exact hold p (List.mem_append_right _ (List.mem_cons_of_mem _ hp))
  · rw [State.codes, hcodes']
    exact pairwise_apart_replace hsub hapart
  · obtain ⟨p, hp, hpq⟩ := h.created hf q hq
    rw [hl, List.mem_append, List.mem_cons] at hp
    dsimp only
    rw [hset]
    rcases hp with hp | rfl | hp
    · exact ⟨p, List.mem_append_left _ hp, hpq⟩
    · exact ⟨(t, c'), List.mem_append_right _ List.mem_cons_self, hpq⟩
    · exact ⟨p, List.mem_append_right _ (List.mem_cons_of_mem _ hp), hpq⟩
  · rw [State.finish, State.finish, State.codes, hcodes', hcodes]
    exact congrArg (runMain s.main) (runAll_step hapart hstep)

theorem step_main (h : step .main s = some s') : s.exited = false ∧ s.stepMain = some s' := by
  unfold step at h
  split at h
  · cases h
  · rename_i hexit
    exact ⟨by simpa using hexit, h⟩

theorem Guarded.create {t : τ} {cs : List (Command τ ι α)} (h : Guarded pending live s)
    (heq : s.main = .create t c :: cs) :
    Guarded true ((t, c.footprint) :: live)
      { s with threads := s.threads ++ [(t, c)], main := cs } ∧
    State.finish { s with threads := s.threads ++ [(t, c)], main := cs } = s.finish := by
  have hsafe := h.safe
  rw [heq] at hsafe
  have hcodes : (s.threads ++ [(t, c)]).map Prod.snd = s.codes ++ [c] := by
    rw [List.map_append, List.map_singleton, State.codes]
  refine ⟨⟨hsafe.2, fun _ => .inl rfl, h.exited, fun p hp => ?_, ?_, fun hf q hq => ?_⟩, ?_⟩
  · rcases List.mem_append.mp hp with hp | hp
    · exact (h.threads p hp).imp_right fun ⟨q, hq, hqp⟩ => ⟨q, List.mem_cons_of_mem _ hq, hqp⟩
    · obtain rfl := List.mem_singleton.mp hp
      exact .inr ⟨(t, c.footprint), List.mem_cons_self, rfl, subset_rfl⟩
  · rw [State.codes, hcodes]
    refine List.pairwise_append.mpr ⟨h.apart, List.pairwise_singleton _ _, fun d hd e he => ?_⟩
    obtain rfl := List.mem_singleton.mp he
    exact (h.apart_of hsafe.1 d hd).symm
  · rcases List.mem_cons.mp hq with rfl | hq
    · exact ⟨(t, c), List.mem_append_right _ List.mem_cons_self, rfl⟩
    · obtain ⟨p, hp, hpq⟩ := h.created hf q hq
      exact ⟨p, List.mem_append_left _ hp, hpq⟩
  · rw [State.finish, State.finish, State.codes, hcodes, runAll_concat, heq]
    rfl

omit [DecidableEq ι] in
theorem Guarded.join {t : τ} {cs : List (Command τ ι α)} (h : Guarded pending live s)
    (heq : s.main = .join t :: cs) (hended : s.ended t = true) :
    Guarded false (live.filter fun q => q.1 ≠ t) { s with main := cs } := by
  have hsafe := h.safe
  rw [heq] at hsafe
  obtain ⟨hpending, -, hsafe⟩ := hsafe
  refine ⟨hsafe, fun hf => ?_, h.exited, fun p hp => ?_, h.apart, fun hf q hq => ?_⟩
  · rcases h.failed hf with hp | he
    · rw [hpending] at hp
      cases hp
    · exact .inr he
  · rcases h.threads p hp with hdone | ⟨q, hq, hqp, hsub⟩
    · exact .inl hdone
    · by_cases hpt : p.1 = t
      · unfold State.ended at hended
        have hall := List.all_eq_true.mp (Bool.and_eq_true_iff.mp hended).2 p hp
        exact .inl (Code.isDone_iff.mp (by simpa [hpt] using hall))
      · refine .inr ⟨q, List.mem_filter.mpr ⟨hq, ?_⟩, hqp, hsub⟩
        simpa [hqp] using hpt
  · exact h.created hf q (List.mem_of_mem_filter hq)

/-- The main program makes an access, or comes to the end of its code. -/
theorem Guarded.call {cs : List (Command τ ι α)} (h : Guarded pending live s)
    (heq : s.main = .call c :: cs) (hs : s.stepMain = some s') :
    Guarded false live s' ∧ s'.failed = s.failed ∧ s'.finish = s.finish := by
  have hsafe := h.safe
  rw [heq] at hsafe
  obtain ⟨hpending, hdisjoint, hsafe⟩ := hsafe
  have hfailed : s.failed = true → false = true ∨ s.exited = true := fun hf =>
    (h.failed hf).imp_left fun hp => hpending ▸ hp
  rw [State.stepMain, heq] at hs
  dsimp only at hs
  split at hs
  · rename_i hstep
    obtain rfl := Option.some.inj hs
    refine ⟨⟨hsafe, hfailed, h.exited, h.threads, h.apart, h.created⟩, rfl, ?_⟩
    have hdone : c = .done := by
      cases c <;> first | rfl | cases hstep
    rw [State.finish, State.finish, heq, hdone]
    rfl
  · rename_i c' m' hstep
    obtain rfl := Option.some.inj hs
    have hsub := Code.step_footprint hstep
    refine ⟨⟨⟨rfl, fun q hq => (hdisjoint q hq).mono_left hsub, hsafe⟩, hfailed, h.exited,
      h.threads, h.apart, h.created⟩, rfl, ?_⟩
    have hc := h.apart_of hdisjoint
    have hc' : ∀ d ∈ s.codes, Apart c' d := fun d hd => (hc d hd).mono_left hsub
    have hmem : c'.run (runAll s.codes m') = c.run (runAll s.codes s.mem) := by
      rw [run_runAll hc', run_runAll hc, Code.step_run hstep]
    rw [State.finish, State.finish, heq]
    exact congrArg (runMain cs) hmem

theorem Guarded.step_main (h : Guarded pending live s) (hs : step .main s = some s') :
    ∃ pending' live', Guarded pending' live' s' ∧ (s'.failed = s.failed) ∧
      s'.finish = s.finish := by
  obtain ⟨-, hs⟩ := ForkJoin.step_main hs
  cases heq : s.main with
  | nil =>
      rw [State.stepMain, heq] at hs
      cases hs
  | cons command cs =>
      cases command with
      | create t c =>
          rw [State.stepMain, heq] at hs
          obtain rfl := Option.some.inj hs
          obtain ⟨hguarded, hfinish⟩ := h.create heq
          exact ⟨true, _, hguarded, rfl, hfinish⟩
      | check =>
          rw [State.stepMain, heq] at hs
          obtain rfl := Option.some.inj hs
          have hsafe := h.safe
          rw [heq] at hsafe
          refine ⟨false, live, ⟨hsafe, fun hf => .inr hf, id, h.threads, h.apart, h.created⟩, rfl, ?_⟩
          rw [State.finish, State.finish, heq]
          rfl
      | join t =>
          rw [State.stepMain, heq] at hs
          dsimp only at hs
          split at hs
          · rename_i hended
            obtain rfl := Option.some.inj hs
            refine ⟨false, _, h.join heq hended, rfl, ?_⟩
            rw [State.finish, State.finish, heq]
            rfl
          · cases hs
      | call c =>
          obtain ⟨hguarded, hfailed, hfinish⟩ := h.call heq hs
          exact ⟨false, live, hguarded, hfailed, hfinish⟩

theorem Guarded.step_fail (h : Guarded pending live s) (hs : step .fail s = some s') :
    ∃ live', Guarded true live' s' ∧ s'.failed = true := by
  unfold step at hs
  split at hs
  · cases hs
  · dsimp only at hs
    split at hs
    · rename_i t c cs heq
      obtain rfl := Option.some.inj hs
      have hsafe := h.safe
      rw [heq] at hsafe
      refine ⟨(t, c.footprint) :: live, ⟨hsafe.2, fun _ => .inl rfl, fun _ => rfl, fun p hp => ?_, h.apart,
        fun hf => nomatch hf⟩, rfl⟩
      exact (h.threads p hp).imp_right fun ⟨q, hq, hqp⟩ => ⟨q, List.mem_cons_of_mem _ hq, hqp⟩
    · cases hs

/-! ### Runs -/

open Transition

/-- **The order does not matter**: unless a thread could not be created, the memory in the end is the
one of the sequential program, from any state that can be reached. -/
theorem Safe.reachable (h : Safe false [] main) {m : ι → α}
    (hr : Reachable step (fun _ _ => True) (start main m) s) :
    ∃ pending live, Guarded pending live s ∧ (s.failed = true ∨ s.finish = runMain main m) := by
  refine hr.invariant (I := fun s => ∃ pending live, Guarded pending live s ∧
    (s.failed = true ∨ s.finish = runMain main m)) ⟨false, [], .start h m, .inr rfl⟩ ?_
  rintro s a s' - ⟨pending, live, hg, hfinish⟩ - hs
  cases a with
  | thread n =>
      obtain ⟨hg', heq⟩ := hg.step_thread hs
      obtain ⟨t, c, c', m', -, -, -, rfl⟩ := step_thread hs
      exact ⟨pending, live, hg', hfinish.imp_right heq.trans⟩
  | main =>
      obtain ⟨pending', live', hg', hfailed, heq⟩ := hg.step_main hs
      exact ⟨pending', live', hg', hfinish.imp hfailed.trans heq.trans⟩
  | fail =>
      obtain ⟨live', hg', hfailed⟩ := hg.step_fail hs
      exact ⟨true, live', hg', .inl hfailed⟩

theorem isDone_of_stuck (hexit : s.exited = false) (h : ∀ a, step a s = none) {p : τ × Code ι α}
    (hp : p ∈ s.threads) : p.2 = .done := by
  obtain ⟨n, hn, hget⟩ := List.mem_iff_getElem.mp hp
  have hstuck := h (.thread n)
  rw [step, if_neg (by simp [hexit])] at hstuck
  simp only [List.getElem?_eq_getElem hn, hget, Option.bind_some, Option.map_eq_none_iff] at hstuck
  obtain ⟨t, c⟩ := p
  cases c with
  | done => rfl
  | read i k => cases hstuck
  | write i v k => cases hstuck

theorem stepMain_of_stuck (hexit : s.exited = false) (h : ∀ a, step a s = none) :
    s.stepMain = none := by
  have hstuck := h .main
  rwa [step, if_neg (by simp [hexit])] at hstuck

/-- **Progress**: nothing stops the program before the end of its main program, but an exit. -/
theorem Guarded.stuck (h : Guarded pending live s) (hstuck : ∀ a, step a s = none) :
    (s.failed = true ∧ s.exited = true) ∨
      (s.main = [] ∧ s.failed = false ∧ s.mem = s.finish) := by
  by_cases hexit : s.exited = true
  · exact .inl ⟨h.exited hexit, hexit⟩
  rw [Bool.not_eq_true] at hexit
  have hdone : ∀ p ∈ s.threads, p.2 = .done := fun p hp => isDone_of_stuck hexit hstuck hp
  have hmain := stepMain_of_stuck hexit hstuck
  have hsafe := h.safe
  have hok : pending = false → s.failed = false := fun hp => by
    by_contra hf
    rcases h.failed (by simpa using hf) with hp' | he
    · rw [hp] at hp'
      cases hp'
    · rw [hexit] at he
      cases he
  unfold State.stepMain at hmain
  split at hmain
  · rename_i heq
    rw [heq] at hsafe
    refine .inr ⟨heq, hok hsafe.1, ?_⟩
    rw [State.finish, heq, runAll_done]
    · rfl
    · intro c hc
      obtain ⟨p, hp, rfl⟩ := List.mem_map.mp hc
      exact hdone p hp
  · cases hmain
  · cases hmain
  · -- the thread that is joined was created, and has ended
    rename_i t cs heq
    rw [heq] at hsafe
    obtain ⟨hpending, ⟨q, hq, rfl⟩, -⟩ := hsafe
    obtain ⟨p, hp, hpq⟩ := h.created (hok hpending) q hq
    have hended : s.ended q.1 = true := by
      refine Bool.and_eq_true_iff.mpr ⟨List.any_eq_true.mpr ⟨p, hp, by simpa using hpq⟩, ?_⟩
      refine List.all_eq_true.mpr fun p hp => ?_
      rw [hdone p hp]
      simp [Code.isDone]
    rw [if_pos hended] at hmain
    cases hmain
  · split at hmain <;> cases hmain

/-! ### Where the accesses go -/

/-- The cell that is accessed next. -/
def Code.next : Code ι α → Option ι
  | .done => none
  | .read i _ => some i
  | .write i _ _ => some i

/-- The codes of a command. -/
def Command.footprint : Command τ ι α → Set ι
  | .create _ c => c.footprint
  | .call c => c.footprint
  | _ => ∅

/-- Nothing but the cells of `S` can still be accessed. -/
structure State.Within (S : Set ι) (s : State τ ι α) : Prop where
  codes : ∀ c ∈ s.codes, c.footprint ⊆ S
  main : ∀ x ∈ s.main, x.footprint ⊆ S

omit [DecidableEq ι] [DecidableEq τ] in
theorem State.Within.next {S : Set ι} (h : s.Within S) (hc : c ∈ s.codes ++ s.called) {i : ι}
    (hi : c.next = some i) : i ∈ S := by
  have hfootprint : c.footprint ⊆ S := by
    obtain hc | hc := List.mem_append.mp hc
    · exact h.codes c hc
    · unfold State.called at hc
      split at hc
      · rename_i heq
        rw [List.mem_singleton.mp hc]
        exact h.main _ (heq ▸ List.mem_cons_self)
      · cases hc
  cases c with
  | done => cases hi
  | read j k =>
      cases hi
      exact hfootprint (.inl rfl)
  | write j v k =>
      cases hi
      exact hfootprint (.inl rfl)

theorem State.Within.step {S : Set ι} (h : s.Within S) (hs : ForkJoin.step a s = some s') :
    s'.Within S := by
  cases a with
  | thread n =>
      obtain ⟨t, c, c', m', -, hget, hstep, rfl⟩ := ForkJoin.step_thread hs
      refine ⟨fun d hd => ?_, h.main⟩
      obtain ⟨p, hp, rfl⟩ := List.mem_map.mp hd
      obtain hp | rfl := List.mem_or_eq_of_mem_set hp
      · exact h.codes _ (List.mem_map_of_mem hp)
      · exact (Code.step_footprint hstep).trans
          (h.codes c (List.mem_map.mpr ⟨(t, c), List.mem_of_getElem? hget, rfl⟩))
  | main =>
      obtain ⟨-, hs⟩ := ForkJoin.step_main hs
      have hmain := h.main
      unfold State.stepMain at hs
      split at hs
      · cases hs
      · rename_i t c cs heq
        cases hs
        rw [heq, List.forall_mem_cons] at hmain
        refine ⟨fun d hd => ?_, hmain.2⟩
        rw [State.codes, List.map_append, List.mem_append] at hd
        obtain hd | hd := hd
        · exact h.codes d hd
        · rw [List.mem_singleton.mp hd]
          exact hmain.1
      · rename_i cs heq
        cases hs
        rw [heq, List.forall_mem_cons] at hmain
        exact ⟨h.codes, hmain.2⟩
      · rename_i t cs heq
        rw [heq, List.forall_mem_cons] at hmain
        split at hs
        · cases hs
          exact ⟨h.codes, hmain.2⟩
        · cases hs
      · rename_i c cs heq
        rw [heq, List.forall_mem_cons] at hmain
        split at hs
        · cases hs
          exact ⟨h.codes, hmain.2⟩
        · rename_i c' m' hstep
          cases hs
          exact ⟨h.codes, List.forall_mem_cons.mpr
            ⟨(Code.step_footprint hstep).trans hmain.1, hmain.2⟩⟩
  | fail =>
      unfold ForkJoin.step at hs
      split at hs
      · cases hs
      · dsimp only at hs
        split at hs
        · rename_i t c cs heq
          have hmain := h.main
          rw [heq, List.forall_mem_cons] at hmain
          cases hs
          exact ⟨h.codes, hmain.2⟩
        · cases hs

/-- **Accesses stay where the text of the program says.** -/
theorem within_reachable {S : Set ι} {G : State τ ι α → Action → Prop} {m : ι → α}
    (h : ∀ x ∈ main, x.footprint ⊆ S) (hr : Reachable step G (start main m) s) : s.Within S :=
  hr.invariant (I := State.Within S) ⟨fun _ hc => absurd hc List.not_mem_nil, h⟩
    fun _ _ _ _ hw _ hs => hw.step hs

/-- What is left to do is the end of what was left to do. -/
inductive Code.Sub : Code ι α → Code ι α → Prop
  | read (i : ι) (k : α → Code ι α) (v : α) : Sub (k v) (.read i k)
  | write (i : ι) (v : α) (k : Code ι α) : Sub k (.write i v k)

omit [DecidableEq ι] in
theorem Code.sub_wf : WellFounded (Code.Sub (ι := ι) (α := α)) := by
  refine ⟨fun c => ?_⟩
  induction c with
  | done => exact ⟨_, fun d hd => nomatch hd⟩
  | read i k ih => exact ⟨_, fun d hd => by cases hd; exact ih _⟩
  | write i v k ih => exact ⟨_, fun d hd => by cases hd; exact ih⟩

theorem Code.step_sub (h : c.step m = some (c', m')) : c'.Sub c := by
  cases c with
  | done => cases h
  | read i k =>
      cases h
      exact .read i k _
  | write i v k =>
      cases h
      exact .write _ _ _

/-- All that is left to do: the main program gets shorter, or one code does. -/
def State.rest (s : State τ ι α) : ℕ × Multiset (Code ι α) :=
  (s.main.length, (s.codes : Multiset (Code ι α)) + (s.called : Multiset (Code ι α)))

omit [DecidableEq ι] in
theorem cutExpand_replace {cs₁ cs₂ : List (Code ι α)} (h : c'.Sub c) :
    Relation.CutExpand Code.Sub ((cs₁ ++ c' :: cs₂ : List (Code ι α)) : Multiset (Code ι α))
      ((cs₁ ++ c :: cs₂ : List (Code ι α)) : Multiset (Code ι α)) := by
  rw [← Multiset.coe_add, ← Multiset.coe_add, Relation.cutExpand_add_left, ← Multiset.cons_coe,
    ← Multiset.cons_coe, ← Multiset.singleton_add, ← Multiset.singleton_add]
  exact Relation.cutExpand_single_add h _

/-- **Termination**: every run is finite. -/
theorem step_wf : WellFounded fun s' s : State τ ι α => ∃ a, step a s = some s' := by
  refine Subrelation.wf ?_
    (InvImage.wf State.rest (WellFounded.prod_lex Nat.lt_wfRel.wf Code.sub_wf.cutExpand))
  rintro s' s ⟨a, hs⟩
  -- a command of the main program is done, unless it is a code
  have hshorter : s'.main.length < s.main.length →
      Prod.Lex (· < ·) (Relation.CutExpand Code.Sub) s'.rest s.rest := fun h => .left _ _ h
  cases a with
  | thread n =>
      obtain ⟨t, c, c', m', -, hget, hstep, rfl⟩ := step_thread hs
      obtain ⟨l₁, l₂, hl, hset⟩ := split_at hget
      refine .right _ ((Relation.cutExpand_add_right _).mpr ?_)
      rw [State.codes, State.codes, hset, hl, List.map_append, List.map_append, List.map_cons,
        List.map_cons]
      exact cutExpand_replace (Code.step_sub hstep)
  | main =>
      obtain ⟨-, hs⟩ := step_main hs
      unfold State.stepMain at hs
      split at hs
      · cases hs
      · rename_i heq
        obtain rfl := Option.some.inj hs
        exact hshorter (by simp [heq])
      · rename_i heq
        obtain rfl := Option.some.inj hs
        exact hshorter (by simp [heq])
      · rename_i heq
        split at hs
        · obtain rfl := Option.some.inj hs
          exact hshorter (by simp [heq])
        · cases hs
      · rename_i c cs heq
        split at hs
        · obtain rfl := Option.some.inj hs
          exact hshorter (by simp [heq])
        · rename_i c' m' hstep
          obtain rfl := Option.some.inj hs
          have hold : s.rest = (s.main.length, (s.codes : Multiset (Code ι α)) + {c}) := by
            unfold State.rest State.called
            rw [heq]
            rfl
          rw [InvImage, hold, heq]
          exact .right _ ((Relation.cutExpand_add_left _).mpr
            (Relation.cutExpand_singleton_singleton (Code.step_sub hstep)))
  | fail =>
      unfold step at hs
      split at hs
      · cases hs
      · dsimp only at hs
        split at hs
        · rename_i heq
          obtain rfl := Option.some.inj hs
          exact hshorter (by simp [heq])
        · cases hs

/-! ### Runs in which every thread is created -/

theorem failed_eq (ha : a ≠ .fail) (hs : step a s = some s') : s'.failed = s.failed := by
  cases a with
  | thread n =>
      obtain ⟨t, c, c', m', -, -, -, rfl⟩ := step_thread hs
      rfl
  | main =>
      obtain ⟨-, hs⟩ := step_main hs
      unfold State.stepMain at hs
      repeat' split at hs
      all_goals cases hs
      all_goals rfl
  | fail => exact absurd rfl ha

/-- Every thread is created. -/
def Creates (_ : State τ ι α) (a : Action) : Prop := a ≠ .fail

theorem failed_of_creates {m : ι → α} (hr : Reachable step Creates (start main m) s) :
    s.failed = false :=
  hr.invariant (I := fun s => s.failed = false) rfl fun _ _ _ _ hf ha hs =>
    (failed_eq ha hs).trans hf

/-- Where nothing goes on but a failure, nothing goes on. -/
theorem step_fail_eq_none (h : step .main s = none) : step .fail s = none := by
  unfold step at *
  split at h
  · rename_i hexit
    rw [if_pos hexit]
  · rename_i hexit
    rw [if_neg hexit]
    dsimp only at *
    split
    · rename_i heq
      rw [State.stepMain, heq] at h
      cases h
    · rfl

theorem exists_stuck {s₀ : State τ ι α} (hr : Reachable step Creates s₀ s) :
    ∃ s', Reachable step Creates s₀ s' ∧ ∀ a, step a s' = none := by
  revert hr
  refine step_wf.induction (C := fun s => Reachable step Creates s₀ s →
    ∃ s', Reachable step Creates s₀ s' ∧ ∀ a, step a s' = none) s fun s ih hr => ?_
  by_cases hgo : ∃ a s', a ≠ .fail ∧ step a s = some s'
  · obtain ⟨a, s', ha, hs⟩ := hgo
    exact ih s' ⟨a, hs⟩ (hr.tail ha hs)
  · have hstuck : ∀ a, a ≠ .fail → step a s = none := fun a ha =>
      Option.eq_none_iff_forall_ne_some.mpr fun s' hs => hgo ⟨a, s', ha, hs⟩
    refine ⟨s, hr, fun a => ?_⟩
    cases a with
    | thread n => exact hstuck _ nofun
    | main => exact hstuck _ nofun
    | fail => exact step_fail_eq_none (hstuck _ nofun)

/-- **The end of a safe program**, when every thread is created. -/
theorem Safe.finished (h : Safe false [] main) {m : ι → α}
    (hr : Reachable step Creates (start main m) s) (hstuck : ∀ a, step a s = none) :
    s.main = [] ∧ s.mem = runMain main m := by
  obtain ⟨pending, live, hguarded, hfinish⟩ :=
    h.reachable (Reachable.refl.run (fun _ _ _ => trivial) hr.choose_spec)
  have hfailed := failed_of_creates hr
  rw [hfailed] at hfinish
  obtain ⟨hf, -⟩ | ⟨hmain, -, hmem⟩ := hguarded.stuck hstuck
  · rw [hfailed] at hf
    cases hf
  · exact ⟨hmain, hmem.trans (hfinish.resolve_left nofun)⟩

theorem Safe.exists_finished (h : Safe false [] main) (m : ι → α) :
    ∃ s, Reachable step Creates (start main m) s ∧ (∀ a, step a s = none) ∧ s.main = [] ∧
      s.mem = runMain main m := by
  have hstart : Reachable step Creates (start main m) (start main m) := .refl
  obtain ⟨s, hr, hstuck⟩ := exists_stuck hstart
  exact ⟨s, hr, hstuck, h.finished hr hstuck⟩

end CSE130.ForkJoin
