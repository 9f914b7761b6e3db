import CSE130.Lab3.Process

/-! # Processes are nested

`process_execute` returns when the new process has called `semaphore_up` in `process_exit`, and
not before.  The processes that have not come that far therefore form a stack: each of them but
the top one is inside `process_execute` and waits for the next one (`Nest`).

`moves` says once what a step can do; the invariants are derived from it. -/

namespace CSE130.Lab3

open Function (update)
open Transition

variable {k : Kernel} {p q : Page} {t u : Thread} {s : Statement}

namespace Kernel

theorem thread?_eq : k.thread? p = some t ↔ k.page p = .thread t := by
  unfold thread?
  split
  · rename_i u h
    rw [h]
    simp
  · rename_i w h
    rw [h]
    simp

theorem isSome_thread? : (k.thread? p).isSome ↔ ∃ t, k.page p = .thread t := by
  rw [Option.isSome_iff_exists]
  exact exists_congr fun _ => thread?_eq

theorem thread?_none {w : UInt32} (h : k.page p = .other w) : k.thread? p = none := by
  unfold thread?
  rw [h]

theorem at?_eq : k.at? s ↔ ∃ t, k.page k.current = .thread t ∧ t.next = s := by
  unfold at?
  rw [beq_iff_eq, Option.map_eq_some_iff]
  exact exists_congr fun _ => and_congr_left fun _ => thread?_eq

theorem setThread_page (k : Kernel) (p : Page) (t : Thread) :
    (k.setThread p t).page = update k.page p (.thread t) := rfl

end Kernel

/-! ### What a step can do -/

/-- The running thread goes on to another statement, and nothing else happens. -/
inductive Goes (t : Thread) : Action → Statement → Prop
  | noThread : t.next = .outside → Goes t (.execute .noThread) (.setChildTid tidError)
  | wait {tid : ℤ} : t.next = .outside → t.childTid = tid → Goes t (.wait tid) (.waitDown tid)
  | loaded : t.next = .load → Goes t .loaded .outside
  | failed : t.next = .load → Goes t .threadExit .exitUp
  | threadExit : t.next = .outside → Goes t .threadExit .exitUp
  | waitRead {tid : ℤ} : t.next = .waitRead tid → Goes t .run (.waitReset tid t.childExit)

/-- The running thread is at the test of `semaphore_down`; `s` is the statement after it. -/
inductive Downs (t : Thread) : Statement → Prop
  | execute {tid : ℤ} : t.next = .executeDown tid → Downs t .outside
  | wait {tid : ℤ} : t.next = .waitDown tid → Downs t (.waitRead tid)

/-- The thread in its page after `thread_create`. -/
def newThread (tid : ℤ) (parent : Page) : Thread :=
  ⟨tid, 0, 0, some parent, none, ⟨0, []⟩, .load⟩

/-- `t` is the running thread. -/
inductive Moves (k : Kernel) (t : Thread) : Action → Kernel → Prop
  | noCopy : t.next = .outside → Moves k t (.execute .noCopy) k
  | noWait {tid : ℤ} : t.next = .outside → t.childTid ≠ tid → Moves k t (.wait tid) k
  | goes {a : Action} {s : Statement} : Goes t a s → (a = .threadExit → k.current ≠ initialThread) →
      Moves k t a (k.setThread k.current { t with next := s })
  | create {p : Page} {w : UInt32} : t.next = .outside → k.page p = .other w →
      Moves k t (.execute (.thread p))
        ((({ k with nextTid := k.nextTid + 1 }.setThread p
          (newThread k.nextTid k.current)).setStatus p .blocked).setThread k.current { t with
            childTid := -1, childLock := some p, next := .unblock p k.nextTid })
  | unblock {p : Page} {tid : ℤ} : t.next = .unblock p tid → k.status p = .blocked →
      (k.thread? p).isSome → Moves k t .run
        ({ k.setStatus p .ready with readyList := k.readyList ++ [p] }.setThread k.current
          { t with next := .setChildTid tid })
  | setChildTid {tid : ℤ} : t.next = .setChildTid tid → Moves k t .run
      (k.setThread k.current { t with childTid := tid, next := .executeDown tid })
  | take {s : Statement} {p : Page} {u : Thread} : Downs t s → t.childLock = some p →
      k.page p = .thread u → u.parentLock.value ≠ 0 → Moves k t .run
        ((k.setThread p { u with
          parentLock := ⟨u.parentLock.value - 1, u.parentLock.waiters⟩ }).setThread k.current
            { t with next := s })
  | takeFreed {s : Statement} {p : Page} {w : UInt32} : Downs t s → t.childLock = some p →
      k.page p = .other w → w ≠ 0 → Moves k t .run
        ({ k with page := update k.page p (.other (w - 1)) }.setThread k.current
          { t with next := s })
  | block {k' : Kernel} {s : Statement} {p : Page} {u : Thread} : Downs t s → t.childLock = some p →
      k.page p = .thread u → u.parentLock.value = 0 →
      ((k.setThread p { u with
        parentLock := ⟨0, u.parentLock.waiters ++ [k.current]⟩ }).setStatus
          k.current .blocked).schedule = some k' → Moves k t .run k'
  | waitReset {tid : ℤ} {e : ℤ} : t.next = .waitReset tid e → Moves k t .run
      (k.setThread k.current { t with childExit := -1, next := .outside })
  | sysExit {e : ℤ} {q : Page} {u : Thread} : t.next = .outside → k.current ≠ initialThread →
      t.parent = some q → k.page q = .thread u → Moves k t (.sysExit e)
        ((k.setThread q { u with childExit := e }).setThread k.current { t with next := .exitUp })
  | sysExitFreed {e : ℤ} {q : Page} {w : UInt32} : t.next = .outside →
      k.current ≠ initialThread → t.parent = some q → k.page q = .other w →
      Moves k t (.sysExit e) (k.setThread k.current { t with next := .exitUp })
  | up : t.next = .exitUp → t.parentLock.waiters = [] → Moves k t .run
      (k.setThread k.current { t with
        parentLock := ⟨t.parentLock.value + 1, []⟩, next := .exitSchedule })
  | upWake {p : Page} {l : List Page} : t.next = .exitUp → t.parentLock.waiters = p :: l →
      k.status p = .blocked → (k.thread? p).isSome → Moves k t .run
        { (k.setThread k.current { t with
          parentLock := ⟨t.parentLock.value + 1, l⟩, next := .exitSchedule }).setStatus p .ready with
            readyList := k.readyList ++ [p] }
  | exit {k₁ : Kernel} : t.next = .exitSchedule → k.schedule = some k₁ →
      Moves k t .run { k₁ with page := update k₁.page k.current (.other freedWord) }
  | idle {k' : Kernel} : t.next = .idle → (k.setStatus k.current .blocked).schedule = some k' →
      Moves k t .run k'
  | sleep {k' : Kernel} : t.next = .outside ∨ t.next = .load ∨ t.next = .exitUp →
      ({ k with asleep := k.asleep ++ [k.current] }.setStatus k.current .blocked).schedule =
        some k' → Moves k t .sleep k'

/-- What happens without the running thread. -/
inductive Event (k : Kernel) : Action → Kernel → Prop
  | timer {k' : Kernel} : k.threadYield = some k' → Event k .timer k'
  | wake {p : Page} : p ∈ k.asleep → k.status p = .blocked → (k.thread? p).isSome →
      Event k (.wake p) { k.setStatus p .ready with
        asleep := k.asleep.erase p, readyList := k.readyList ++ [p] }
  | scribble {p : Page} {w w' : UInt32} : k.page p = .other w' →
      Event k (.scribble p w) { k with page := update k.page p (.other w) }

variable {k' : Kernel} {a : Action}

theorem goto_eq (ht : k.page k.current = .thread t) :
    k.goto s = some (k.setThread k.current { t with next := s }) := by
  unfold Kernel.goto
  rw [Kernel.thread?_eq.mpr ht]
  rfl

theorem semaphoreDown_inv (ht : k.page k.current = .thread t)
    (hlock : t.childLock ≠ some k.current) (hd : Downs t s) (hs : k.semaphoreDown s = some k') : Moves k t .run k' := by
  unfold Kernel.semaphoreDown at hs
  rw [Kernel.thread?_eq.mpr ht] at hs
  dsimp only [Option.bind_eq_bind, Option.bind_some] at hs
  obtain ⟨p, hp, hs⟩ := Option.bind_eq_some_iff.mp hs
  have hne : k.current ≠ p := by
    rintro rfl
    exact hlock hp
  split at hs
  · rename_i u hu
    split at hs
    · rename_i hv
      exact .block hd hp hu hv hs
    · rename_i hv
      rw [goto_eq (t := t) ((Function.update_of_ne hne ..).trans ht)] at hs
      cases hs
      exact .take hd hp hu hv
  · rename_i w hw
    split at hs
    · cases hs
    · rename_i hv
      rw [goto_eq (t := t) ((Function.update_of_ne hne ..).trans ht)] at hs
      cases hs
      exact .takeFreed hd hp hw hv

theorem threadUnblock_inv (hs : k.threadUnblock p = some k') :
    k.status p = .blocked ∧ (k.thread? p).isSome ∧
      k' = { k.setStatus p .ready with readyList := k.readyList ++ [p] } := by
  unfold Kernel.threadUnblock at hs
  split at hs <;> cases hs
  rename_i h
  exact ⟨h.2, h.1, rfl⟩

theorem semaphoreUp_inv (ht : k.page k.current = .thread t) (hn : t.next = .exitUp)
    (hs : k.semaphoreUp .exitSchedule = some k') : Moves k t .run k' := by
  unfold Kernel.semaphoreUp at hs
  rw [Kernel.thread?_eq.mpr ht] at hs
  dsimp only [Option.bind_eq_bind, Option.bind_some] at hs
  split at hs
  · rename_i hw
    cases hs
    exact .up hn hw
  · rename_i p l hw
    obtain ⟨hb, hp, rfl⟩ := threadUnblock_inv hs
    refine .upWake hn hw hb ?_
    rw [Kernel.isSome_thread?] at hp ⊢
    obtain ⟨u, hu⟩ := hp
    rw [Kernel.setThread_page, Function.update_apply] at hu
    split at hu
    · rename_i he
      exact ⟨t, he ▸ ht⟩
    · exact ⟨u, hu⟩

theorem run_inv (ht : k.page k.current = .thread t)
    (hlock : ∀ s, Downs t s → t.childLock ≠ some k.current) (hs : k.run = some k') : Moves k t .run k' := by
  unfold Kernel.run at hs
  rw [Kernel.thread?_eq.mpr ht] at hs
  dsimp only [Option.bind_eq_bind, Option.bind_some] at hs
  split at hs
  · cases hs
  · cases hs
  · rename_i p tid hn
    obtain ⟨k₁, h₁, hs⟩ := Option.bind_eq_some_iff.mp hs
    obtain ⟨hb, hp, rfl⟩ := threadUnblock_inv h₁
    rw [goto_eq (k := { k.setStatus p .ready with readyList := k.readyList ++ [p] }) ht] at hs
    cases hs
    exact .unblock hn hb hp
  · rename_i tid hn
    cases hs
    exact .setChildTid hn
  · rename_i tid hn
    exact semaphoreDown_inv ht (hlock _ (.execute hn)) (.execute hn) hs
  · rename_i tid hn
    exact semaphoreDown_inv ht (hlock _ (.wait hn)) (.wait hn) hs
  · rename_i tid hn
    rw [goto_eq ht] at hs
    cases hs
    exact .goes (.waitRead hn) nofun
  · rename_i tid e hn
    cases hs
    exact .waitReset hn
  · rename_i hn
    exact semaphoreUp_inv ht hn hs
  · rename_i hn
    obtain ⟨k₁, h₁, hs⟩ := Option.bind_eq_some_iff.mp hs
    cases hs
    exact .exit hn h₁
  · rename_i hn
    exact .idle hn hs

theorem wake_inv (hs : step (.wake p) k = some k') : Event k (.wake p) k' := by
  have hs : (if p ∈ k.asleep then
    Kernel.threadUnblock { k with asleep := k.asleep.erase p } p else none) = some k' := hs
  split at hs
  · rename_i hp
    obtain ⟨hb, hsome, rfl⟩ := threadUnblock_inv hs
    exact .wake hp hb hsome
  · cases hs

theorem scribble_inv {w : UInt32} (hs : step (.scribble p w) k = some k') :
    Event k (.scribble p w) k' := by
  unfold step at hs
  dsimp only at hs
  split at hs
  · cases hs
  · rename_i w' hw
    cases hs
    exact .scribble hw

/-- Without a thread in the page of the stack pointer only the events can happen. -/
theorem event_of_step {w : UInt32} (hw : k.page k.current = .other w) (hs : step a k = some k') :
    Event k a k' := by
  have hnone := Kernel.thread?_none hw
  have hat (s : Statement) : k.at? s = false := by
    unfold Kernel.at?
    rw [hnone]
    rfl
  cases a with
  | timer => exact .timer hs
  | wake p => exact wake_inv hs
  | scribble p w => exact scribble_inv hs
  | run =>
      have hs : k.run = some k' := hs
      unfold Kernel.run at hs
      rw [hnone] at hs
      cases hs
  | _ => simp [step, hat] at hs

/-- What a step can do, if a thread is running. -/
theorem moves_of_step (ht : k.page k.current = .thread t)
    (hlock : ∀ s, Downs t s → t.childLock ≠ some k.current) (hparent : t.parent ≠ some k.current)
    (hs : step a k = some k') : Event k a k' ∨ Moves k t a k' := by
  have hat {s : Statement} (h : k.at? s) : t.next = s := by
    obtain ⟨u, hu, hn⟩ := Kernel.at?_eq.mp h
    cases ht.symm.trans hu
    exact hn
  cases a with
  | execute a =>
      have hs : (if k.at? .outside then k.processExecute a else none) = some k' := hs
      split at hs
      · rename_i hn
        cases a with
        | noCopy =>
            cases hs
            exact .inr (.noCopy (hat hn))
        | noThread =>
            have hs : k.goto (.setChildTid tidError) = some k' := hs
            rw [goto_eq ht] at hs
            cases hs
            exact .inr (.goes (.noThread (hat hn)) nofun)
        | thread p =>
            have hs : k.threadCreate p = some k' := hs
            unfold Kernel.threadCreate at hs
            rw [Kernel.thread?_eq.mpr ht] at hs
            dsimp only [Option.bind_eq_bind, Option.bind_some] at hs
            split at hs
            · cases hs
            · rename_i w hw
              cases hs
              exact .inr (.create (hat hn) hw)
      · cases hs
  | wait tid =>
      have hs : (if k.at? .outside then k.processWait tid else none) = some k' := hs
      split at hs
      · rename_i hn
        unfold Kernel.processWait at hs
        rw [Kernel.thread?_eq.mpr ht] at hs
        dsimp only [Option.bind_eq_bind, Option.bind_some] at hs
        split at hs
        · rename_i he
          rw [goto_eq ht] at hs
          cases hs
          exact .inr (.goes (.wait (hat hn) he) nofun)
        · rename_i hne
          cases hs
          exact .inr (.noWait (hat hn) hne)
      · cases hs
  | sysExit e =>
      have hs : (if k.at? .outside ∧ k.current ≠ initialThread then k.sysExit e else none) =
        some k' := hs
      split at hs
      · rename_i hn
        unfold Kernel.sysExit at hs
        rw [Kernel.thread?_eq.mpr ht] at hs
        dsimp only [Option.bind_eq_bind, Option.bind_some] at hs
        obtain ⟨q, hq, hs⟩ := Option.bind_eq_some_iff.mp hs
        have hne : k.current ≠ q := by
          rintro rfl
          exact hparent hq
        split at hs
        · rename_i u hu
          rw [goto_eq (t := t) ((Function.update_of_ne hne ..).trans ht)] at hs
          cases hs
          exact .inr (.sysExit (hat hn.1) hn.2 hq hu)
        · rename_i w hw
          rw [goto_eq ht] at hs
          cases hs
          exact .inr (.sysExitFreed (hat hn.1) hn.2 hq hw)
      · cases hs
  | threadExit =>
      have hs : (if (k.at? .outside ∨ k.at? .load) ∧ k.current ≠ initialThread
        then k.goto .exitUp else none) = some k' := hs
      split at hs
      · rename_i hn
        rw [goto_eq ht] at hs
        cases hs
        rcases hn with ⟨hn | hn, hne⟩
        · exact .inr (.goes (.threadExit (hat hn)) fun _ => hne)
        · exact .inr (.goes (.failed (hat hn)) fun _ => hne)
      · cases hs
  | loaded =>
      have hs : (if k.at? .load then k.goto .outside else none) = some k' := hs
      split at hs
      · rename_i hn
        rw [goto_eq ht] at hs
        cases hs
        exact .inr (.goes (.loaded (hat hn)) nofun)
      · cases hs
  | run => exact .inr (run_inv ht hlock hs)
  | timer => exact .inl (.timer hs)
  | sleep =>
      have hs : (if k.at? .outside ∨ k.at? .load ∨ k.at? .exitUp then
        Kernel.threadBlock { k with asleep := k.asleep ++ [k.current] } else none) = some k' := hs
      split at hs
      · rename_i hn
        exact .inr (.sleep (hn.imp hat (Or.imp hat hat)) hs)
      · cases hs
  | wake p => exact .inl (wake_inv hs)
  | scribble p w => exact .inl (scribble_inv hs)

/-- No thread is its own parent, or waits for its own exit. -/
def Irreflexive (m : Page → Contents) : Prop := ∀ p t, m p = .thread t →
  t.parent ≠ some p ∧ ∀ s, Downs t s → t.childLock ≠ some p

/-- **What a step can do.** -/
theorem step_inv (hirr : Irreflexive k.page) (hs : step a k = some k') :
    Event k a k' ∨ ∃ t, k.page k.current = .thread t ∧ Moves k t a k' := by
  cases hc : k.page k.current with
  | thread t =>
      obtain ⟨hparent, hlock⟩ := hirr _ _ hc
      exact (moves_of_step hc hlock hparent hs).imp_right fun hm => ⟨t, rfl, hm⟩
  | other w => exact .inl (event_of_step hc hs)

/-! ### The switch to another thread -/

theorem schedule_page (hs : k.schedule = some k') : k'.page = k.page ∧ k'.nextTid = k.nextTid := by
  unfold Kernel.schedule at hs
  split at hs
  · split at hs <;> cases hs
    exact ⟨rfl, rfl⟩
  · split at hs <;> cases hs
    exact ⟨rfl, rfl⟩

theorem threadYield_page (hs : k.threadYield = some k') :
    k'.page = k.page ∧ k'.nextTid = k.nextTid := by
  unfold Kernel.threadYield at hs
  split at hs
  · have := schedule_page hs
    exact this
  · have := schedule_page hs
    exact this

/-! ### The stack of processes -/

/-- The process has not yet called `semaphore_up` in `process_exit`. -/
def Alive (t : Thread) : Prop := t.next ≠ .exitSchedule ∧ t.next ≠ .idle

/-- The process is inside `process_execute`, from the creation of the thread on. -/
def Executing (t : Thread) : Prop := ∃ tid,
  (∃ p, t.next = .unblock p tid) ∨ t.next = .setChildTid tid ∨ t.next = .executeDown tid

/-- The processes that are alive form a stack, from the initial thread to `top`: each of them is
the parent of the next, and has its `child_lock` pointing to it. -/
structure Nest (m : Page → Contents) (top : Page) : Prop where
  summit : ∃ t, m top = .thread t ∧ Alive t
  root : ∃ t, m initialThread = .thread t ∧ Alive t ∧ t.parent = none
  child : ∀ p t, m p = .thread t → Alive t → p ≠ top → ∃ c u, t.childLock = some c ∧
    m c = .thread u ∧ Alive u ∧ u.parent = some p ∧ u.parentLock.value = 0
  parent : ∀ p u, m p = .thread u → Alive u → p ≠ initialThread → ∃ q t, u.parent = some q ∧
    q ≠ top ∧ m q = .thread t ∧ Alive t ∧ t.childLock = some p
  lock : ∀ q t p u, m q = .thread t → Alive t → t.childLock = some p → m p = .thread u →
    u.parent = some q
  irrefl : ∀ p t, m p = .thread t → t.parent ≠ some p

/-- What may happen to a page without a change of the stack. -/
def Similar : Contents → Contents → Prop
  | .thread t, .thread t' => (Alive t' ↔ Alive t) ∧ t'.parent = t.parent ∧
      t'.childLock = t.childLock ∧ (Alive t → t'.parentLock.value = t.parentLock.value)
  | .thread t, .other _ => ¬ Alive t
  | .other _, .thread _ => False
  | .other _, .other _ => True

theorem Similar.refl (c : Contents) : Similar c c := by
  cases c
  · exact ⟨Iff.rfl, rfl, rfl, fun _ => rfl⟩
  · trivial

variable {m m' : Page → Contents} {c : Contents} {top : Page} {t' : Thread}

theorem similar_update (h : Similar (m p) c) (q : Page) : Similar (m q) (update m p c q) := by
  rw [Function.update_apply]
  split
  · rename_i he
    exact he ▸ h
  · exact .refl _

/-- A thread that is alive afterwards was there before. -/
theorem similar_thread {t' : Thread} (h : Similar (m p) (m' p)) (hp : m' p = .thread t') :
    ∃ t, m p = .thread t ∧ (Alive t' ↔ Alive t) ∧ t'.parent = t.parent ∧
      t'.childLock = t.childLock := by
  rw [hp] at h
  cases hc : m p with
  | thread t =>
      rw [hc] at h
      exact ⟨t, rfl, h.1, h.2.1, h.2.2.1⟩
  | other w =>
      rw [hc] at h
      exact h.elim

theorem similar_alive (h : Similar (m p) (m' p)) (hp : m p = .thread t) (ha : Alive t) :
    ∃ t', m' p = .thread t' ∧ Alive t' ∧ t'.parent = t.parent ∧ t'.childLock = t.childLock ∧
      t'.parentLock.value = t.parentLock.value := by
  rw [hp] at h
  cases hc : m' p with
  | thread t' =>
      rw [hc] at h
      exact ⟨t', rfl, h.1.mpr ha, h.2.1, h.2.2.1, h.2.2.2 ha⟩
  | other w =>
      rw [hc] at h
      exact (h ha).elim

/-- Steps that create no process and let none go on from `semaphore_up`. -/
theorem Nest.similar (hn : Nest m top) (hs : ∀ p, Similar (m p) (m' p)) : Nest m' top := by
  constructor
  · obtain ⟨t, ht, ha⟩ := hn.summit
    obtain ⟨t', ht', ha', -⟩ := similar_alive (hs top) ht ha
    exact ⟨t', ht', ha'⟩
  · obtain ⟨t, ht, ha, hp⟩ := hn.root
    obtain ⟨t', ht', ha', hp', -⟩ := similar_alive (hs _) ht ha
    exact ⟨t', ht', ha', hp'.trans hp⟩
  · intro p t' ht' ha' hne
    obtain ⟨t, ht, ha, hp, hl⟩ := similar_thread (hs p) ht'
    obtain ⟨c, u, hc, hu, hau, hup, hv⟩ := hn.child p t ht (ha.mp ha') hne
    obtain ⟨u', hu', hau', hup', -, hv'⟩ := similar_alive (hs c) hu hau
    exact ⟨c, u', hl.trans hc, hu', hau', hup'.trans hup, hv'.trans hv⟩
  · intro p u' hu' ha' hne
    obtain ⟨u, hu, ha, hp, -⟩ := similar_thread (hs p) hu'
    obtain ⟨q, t, hq, hne', ht, hat, hl⟩ := hn.parent p u hu (ha.mp ha') hne
    obtain ⟨t', ht', hat', -, hl', -⟩ := similar_alive (hs q) ht hat
    exact ⟨q, t', hp.trans hq, hne', ht', hat', hl'.trans hl⟩
  · intro q t' p u' ht' ha' hl hu'
    obtain ⟨t, ht, ha, -, hl'⟩ := similar_thread (hs q) ht'
    obtain ⟨u, hu, -, hp, -⟩ := similar_thread (hs p) hu'
    exact hp.trans (hn.lock q t p u ht (ha.mp ha') (hl'.symm.trans hl) hu)
  · intro p t' ht'
    obtain ⟨t, ht, -, hp, -⟩ := similar_thread (hs p) ht'
    rw [hp]
    exact hn.irrefl p t ht

theorem newThread_alive (tid : ℤ) (p : Page) : Alive (newThread tid p) := by
  constructor <;> exact nofun

theorem Nest.create {w : UInt32} {tid : ℤ} (hn : Nest m top) (ht : m top = .thread t)
    (hp : m p = .other w) (htp : t'.parent = t.parent) (hl : t'.childLock = some p)
    (htv : t'.parentLock = t.parentLock) (ha : Alive t') :
    Nest (update (update m p (.thread (newThread tid top))) top (.thread t')) p := by
  have hne : p ≠ top := by
    rintro rfl
    cases hp.symm.trans ht
  have hat : Alive t := by
    obtain ⟨t₁, ht₁, ha₁⟩ := hn.summit
    cases ht.symm.trans ht₁
    exact ha₁
  have hnew : update (update m p (.thread (newThread tid top))) top (.thread t') p =
      .thread (newThread tid top) := by
    rw [Function.update_of_ne hne, Function.update_self]
  have htop : update (update m p (.thread (newThread tid top))) top (.thread t') top =
      .thread t' := Function.update_self ..
  have hkeep {q : Page} {u : Thread} (hq : q ≠ top) (hu : m q = .thread u) :
      update (update m p (.thread (newThread tid top))) top (.thread t') q = .thread u := by
    have hqp : q ≠ p := by
      rintro rfl
      cases hp.symm.trans hu
    rw [Function.update_of_ne hq, Function.update_of_ne hqp, hu]
  have hlook {q : Page} {u : Thread}
      (hu : update (update m p (.thread (newThread tid top))) top (.thread t') q = .thread u) :
      q = top ∧ u = t' ∨ q = p ∧ u = newThread tid top ∨ q ≠ top ∧ q ≠ p ∧ m q = .thread u := by
    rw [Function.update_apply] at hu
    split at hu
    · rename_i he
      cases hu
      exact .inl ⟨he, rfl⟩
    · rename_i hqt
      rw [Function.update_apply] at hu
      split at hu
      · rename_i he
        cases hu
        exact .inr (.inl ⟨he, rfl⟩)
      · rename_i hqp
        exact .inr (.inr ⟨hqt, hqp, hu⟩)
  constructor
  · exact ⟨_, hnew, newThread_alive tid top⟩
  · obtain ⟨r, hr, har, hrp⟩ := hn.root
    by_cases he : initialThread = top
    · rw [he] at hr ⊢
      cases ht.symm.trans hr
      exact ⟨t', htop, ha, htp.trans hrp⟩
    · exact ⟨r, hkeep he hr, har, hrp⟩
  · intro q u hu hau hqp
    rcases hlook hu with ⟨rfl, rfl⟩ | ⟨rfl, -⟩ | ⟨hqt, -, hu⟩
    · exact ⟨p, _, hl, hnew, newThread_alive tid q, rfl, rfl⟩
    · exact (hqp rfl).elim
    · obtain ⟨c, v, hc, hv, hav, hvp, hvv⟩ := hn.child q u hu hau hqt
      by_cases he : c = top
      · subst he
        cases ht.symm.trans hv
        exact ⟨c, t', hc, htop, ha, htp.trans hvp, htv ▸ hvv⟩
      · exact ⟨c, v, hc, hkeep he hv, hav, hvp, hvv⟩
  · intro q u hu hau hqi
    rcases hlook hu with ⟨rfl, rfl⟩ | ⟨rfl, rfl⟩ | ⟨hqt, -, hu⟩
    · obtain ⟨r, v, hr, hne', hv, hav, hvl⟩ := hn.parent q t ht hat hqi
      refine ⟨r, v, htp.trans hr, ?_, hkeep hne' hv, hav, hvl⟩
      rintro rfl
      cases hp.symm.trans hv
    · exact ⟨top, t', rfl, hne.symm, htop, ha, hl⟩
    · obtain ⟨r, v, hr, hne', hv, hav, hvl⟩ := hn.parent q u hu hau hqi
      refine ⟨r, v, hr, ?_, hkeep hne' hv, hav, hvl⟩
      rintro rfl
      cases hp.symm.trans hv
  · intro q u r v hu hau hr hv
    rcases hlook hu with ⟨rfl, rfl⟩ | ⟨rfl, rfl⟩ | ⟨hqt, -, hmu⟩
    · cases hl.symm.trans hr
      cases hnew.symm.trans hv
      rfl
    · cases hr
    · rcases hlook hv with ⟨he, rfl⟩ | ⟨he, -⟩ | ⟨-, -, hmv⟩
      · exact htp.trans (hn.lock q u r t hmu hau hr (he ▸ ht))
      · -- the pointers of the others are not stale
        obtain ⟨c, x, hc, hx, -⟩ := hn.child q u hmu hau hqt
        cases hc.symm.trans (he ▸ hr)
        cases hp.symm.trans hx
      · exact hn.lock q u r v hmu hau hr hmv
  · intro q u hu
    rcases hlook hu with ⟨rfl, rfl⟩ | ⟨rfl, rfl⟩ | ⟨-, -, hu⟩
    · rw [htp]
      exact hn.irrefl q t ht
    · intro he
      cases he
      exact hne rfl
    · exact hn.irrefl q u hu

/-- `semaphore_up` in `process_exit` takes the top process off the stack. -/
theorem Nest.up (hn : Nest m top) (ht : m top = .thread t) (hr : top ≠ initialThread)
    (htp : t'.parent = t.parent) (ha : ¬ Alive t') :
    ∃ q, t.parent = some q ∧ Nest (update m top (.thread t')) q := by
  have hat : Alive t := by
    obtain ⟨t₁, ht₁, ha₁⟩ := hn.summit
    cases ht.symm.trans ht₁
    exact ha₁
  obtain ⟨q, tq, htq, hqt, hq, haq, hql⟩ := hn.parent top t ht hat hr
  have hkeep {p : Page} {u : Thread} (hp : p ≠ top) (hu : m p = .thread u) :
      update m top (.thread t') p = .thread u := by
    rw [Function.update_of_ne hp, hu]
  have hlook {p : Page} {u : Thread} (hu : update m top (.thread t') p = .thread u) :
      p = top ∧ u = t' ∨ p ≠ top ∧ m p = .thread u := by
    rw [Function.update_apply] at hu
    split at hu
    · rename_i he
      cases hu
      exact .inl ⟨he, rfl⟩
    · rename_i hp
      exact .inr ⟨hp, hu⟩
  refine ⟨q, htq, ?_, ?_, ?_, ?_, ?_, ?_⟩
  · exact ⟨tq, hkeep hqt hq, haq⟩
  · obtain ⟨r, hr', har, hrp⟩ := hn.root
    exact ⟨r, hkeep hr.symm hr', har, hrp⟩
  · intro p u hu hau hpq
    rcases hlook hu with ⟨rfl, rfl⟩ | ⟨hpt, hu⟩
    · exact (ha hau).elim
    · obtain ⟨c, v, hc, hv, hav, hvp, hvv⟩ := hn.child p u hu hau hpt
      refine ⟨c, v, hc, hkeep ?_ hv, hav, hvp, hvv⟩
      rintro rfl
      cases ht.symm.trans hv
      cases htq.symm.trans hvp
      exact hpq rfl
  · intro p u hu hau hpi
    rcases hlook hu with ⟨rfl, rfl⟩ | ⟨hpt, hu⟩
    · exact (ha hau).elim
    · obtain ⟨r, v, hur, hrt, hv, hav, hvl⟩ := hn.parent p u hu hau hpi
      refine ⟨r, v, hur, ?_, hkeep hrt hv, hav, hvl⟩
      rintro rfl
      cases hq.symm.trans hv
      exact hpt (Option.some.inj (hvl.symm.trans hql))
  · intro p u r v hu hau hur hv
    rcases hlook hu with ⟨rfl, rfl⟩ | ⟨-, hmu⟩
    · exact (ha hau).elim
    · rcases hlook hv with ⟨he, rfl⟩ | ⟨-, hmv⟩
      · exact htp.trans (hn.lock p u r t hmu hau hur (he ▸ ht))
      · exact hn.lock p u r v hmu hau hur hmv
  · intro p u hu
    rcases hlook hu with ⟨rfl, rfl⟩ | ⟨-, hu⟩
    · rw [htp]
      exact hn.irrefl p t ht
    · exact hn.irrefl p u hu

/-! ### Runs -/

/-- The processes below the top are inside `process_execute`. -/
def Below (m : Page → Contents) (top : Page) : Prop :=
  ∀ p t, m p = .thread t → Alive t → p ≠ top → Executing t

theorem Below.update (hb : Below m top) (hc : ∀ u, c = .thread u → Alive u → p ≠ top → Executing u) :
    Below (update m p c) top := by
  intro q u hu ha hq
  rw [Function.update_apply] at hu
  split at hu
  · rename_i he
    exact hc u hu ha (he ▸ hq)
  · exact hb q u hu ha hq

/-- What is true in every state, with the process on top of the stack. -/
structure Inv (m : Page → Contents) (top : Page) : Prop where
  nest : Nest m top
  below : Below m top
  /-- The initial thread does not leave `main`. -/
  initial : ∀ t, m initialThread = .thread t → t.next ≠ .load ∧ t.next ≠ .exitUp

theorem Inv.eq_top (hi : Inv m top) (ht : m p = .thread t) (ha : Alive t) (he : ¬ Executing t) :
    p = top := by
  by_contra hne
  exact he (hi.below p t ht ha hne)

/-- A step that assigns to one page. -/
theorem Inv.update (hi : Inv m top) (hs : Similar (m p) c)
    (hb : ∀ u, c = .thread u → Alive u → p ≠ top → Executing u)
    (h₀ : ∀ u, c = .thread u → p = initialThread → u.next ≠ .load ∧ u.next ≠ .exitUp) :
    Inv (update m p c) top := by
  refine ⟨hi.nest.similar fun q => similar_update hs q, hi.below.update hb, fun t ht => ?_⟩
  rw [Function.update_apply] at ht
  split at ht
  · rename_i he
    exact h₀ t ht he.symm
  · exact hi.initial t ht

/-- A page that holds no thread afterwards. -/
theorem Inv.update_other {v : UInt32} (hi : Inv m top) (hs : Similar (m p) (.other v)) :
    Inv (Function.update m p (.other v)) top := by
  refine hi.update hs ?_ ?_
  · intro u hu
    cases hu
  · intro u hu
    cases hu

/-- Any assignment to a page that neither starts nor ends a process, and leaves what it is about
to execute. -/
theorem Inv.assign {x : Thread} (hi : Inv m top) (ht : m p = .thread t) (hn : x.next = t.next)
    (hp : x.parent = t.parent) (hl : x.childLock = t.childLock)
    (hv : Alive t → x.parentLock.value = t.parentLock.value) :
    Inv (Function.update m p (.thread x)) top := by
  have ha : Alive x ↔ Alive t := by
    unfold Alive
    rw [hn]
  refine hi.update ?_ ?_ ?_
  · rw [ht]
    exact ⟨ha, hp, hl, hv⟩
  · intro u hu hau hne
    cases hu
    obtain ⟨tid, he⟩ := hi.below p t ht (ha.mp hau) hne
    exact ⟨tid, hn.symm ▸ he⟩
  · intro u hu he
    cases hu
    rw [hn]
    exact hi.initial t (he ▸ ht)

theorem Inv.proceed (hi : Inv m top) (ht : m p = .thread t) (ha : Alive t) (ha' : Alive t')
    (htop : p = top ∨ Executing t') (hp : t'.parent = t.parent)
    (hl : t'.childLock = t.childLock) (hv : t'.parentLock = t.parentLock)
    (h₀ : p = initialThread → t'.next ≠ .load ∧ t'.next ≠ .exitUp) :
    Inv (Function.update m p (.thread t')) top := by
  refine hi.update ?_ ?_ ?_
  · rw [ht]
    exact ⟨iff_of_true ha' ha, hp, hl, fun _ => by rw [hv]⟩
  · intro u hu _ hne
    cases hu
    exact htop.resolve_left hne
  · intro u hu he
    cases hu
    exact h₀ he

theorem Downs.alive (hd : Downs t s) : Alive t := by
  cases hd <;> constructor <;> simp [*]

/-- Where `semaphore_down` finds a value above zero, the caller is the top process: the children
of the others have not called `semaphore_up`. -/
theorem Inv.down_top (hi : Inv m top) (ht : m p = .thread t) (hd : Downs t s)
    (hl : t.childLock = some q)
    (hq : ∀ u, m q = .thread u → u.parentLock.value ≠ 0) : p = top := by
  by_contra hne
  obtain ⟨c, u, hc, hu, -, -, hv⟩ := hi.nest.child p t ht hd.alive hne
  cases hc.symm.trans hl
  exact hq u hu hv

theorem Nest.alive_summit (hn : Nest m top) (ht : m top = .thread t) : Alive t := by
  obtain ⟨t₁, ht₁, ha₁⟩ := hn.summit
  cases ht.symm.trans ht₁
  exact ha₁

/-- The parent of a process that is alive is there. -/
theorem Nest.parent_thread {w : UInt32} (hn : Nest m top) (hu : m q = .thread u) (ha : Alive u)
    (hp : u.parent = some p) : m p ≠ .other w := by
  intro hw
  have hqi : q ≠ initialThread := by
    rintro rfl
    obtain ⟨r, hr, -, hrp⟩ := hn.root
    cases hu.symm.trans hr
    cases hp.symm.trans hrp
  obtain ⟨r, v, hr, -, hv, -⟩ := hn.parent q u hu ha hqi
  cases hp.symm.trans hr
  cases hw.symm.trans hv

theorem Nest.childless (hn : Nest m top) (hu : m q = .thread u) (ha : Alive u) :
    u.parent ≠ some top := by
  intro hp
  have hqi : q ≠ initialThread := by
    rintro rfl
    obtain ⟨r, hr, -, hrp⟩ := hn.root
    cases hu.symm.trans hr
    cases hp.symm.trans hrp
  obtain ⟨r, v, hr, hne, -⟩ := hn.parent q u hu ha hqi
  exact hne (Option.some.inj (hr.symm.trans hp))

/-- The child lock of the top process belongs to no process that is alive. -/
theorem Inv.lock_dead (hi : Inv m top) (ht : m top = .thread t) (hl : t.childLock = some q)
    (hu : m q = .thread u) : ¬ Alive u := by
  intro hau
  obtain ⟨t₁, ht₁, ha₁⟩ := hi.nest.summit
  cases ht.symm.trans ht₁
  exact hi.nest.childless hu hau (hi.nest.lock top t q u ht ha₁ hl hu)

theorem Inv.irreflexive (hi : Inv m top) : Irreflexive m := by
  intro p t ht
  refine ⟨hi.nest.irrefl p t ht, fun s hd hl => ?_⟩
  exact hi.nest.irrefl p t ht (hi.nest.lock p t p t ht hd.alive hl ht)

theorem goes_alive {a : Action} (hg : Goes t a s) : Alive t ∧ ¬ Executing t := by
  cases hg <;> simp [Alive, Executing, *]

theorem goes_alive_next {a : Action} (hg : Goes t a s) : Alive { t with next := s } := by
  cases hg <;> simp [Alive]

theorem Downs.alive_next (hd : Downs t s) : Alive { t with next := s } := by
  cases hd <;> simp [Alive]

theorem Downs.next_ne (hd : Downs t s) : s ≠ .load ∧ s ≠ .exitUp := by
  cases hd <;> simp

theorem Inv.up (hi : Inv m top) (ht : m p = .thread t) (hn : t.next = .exitUp)
    (hn' : t'.next = .exitSchedule) (hp : t'.parent = t.parent) :
    ∃ top', Inv (Function.update m p (.thread t')) top' := by
  obtain rfl := hi.eq_top ht (by simp [Alive, hn]) (by simp [Executing, hn])
  have hne : p ≠ initialThread := by
    rintro rfl
    exact (hi.initial t ht).2 hn
  have hdead : ¬ Alive t' := by simp [Alive, hn']
  obtain ⟨q, -, hnest⟩ := hi.nest.up ht hne hp hdead
  refine ⟨q, hnest, fun r u hu hau _ => ?_, fun u hu => ?_⟩
  · rw [Function.update_apply] at hu
    split at hu
    · cases hu
      exact (hdead hau).elim
    · rename_i hr
      exact hi.below r u hu hau hr
  · rw [Function.update_of_ne hne.symm] at hu
    exact hi.initial u hu

theorem Inv.create {w : UInt32} {tid : ℤ} (hi : Inv m top) (ht : m top = .thread t)
    (hp : m p = .other w) (htp : t'.parent = t.parent) (hl : t'.childLock = some p)
    (hv : t'.parentLock = t.parentLock) (hn : t'.next = .unblock p tid) :
    Inv (Function.update (Function.update m p (.thread (newThread tid top))) top (.thread t')) p := by
  have hne : p ≠ initialThread := by
    rintro rfl
    obtain ⟨r, hr, -⟩ := hi.nest.root
    cases hp.symm.trans hr
  refine ⟨hi.nest.create ht hp htp hl hv (by simp [Alive, hn]), fun q u hu hau hq => ?_,
    fun u hu => ?_⟩
  · rw [Function.update_apply] at hu
    split at hu
    · cases hu
      exact ⟨tid, .inl ⟨p, hn⟩⟩
    · rename_i hqt
      rw [Function.update_of_ne hq] at hu
      exact hi.below q u hu hau hqt
  · rw [Function.update_apply] at hu
    split at hu
    · cases hu
      simp [hn]
    · rw [Function.update_of_ne hne.symm] at hu
      exact hi.initial u hu

theorem inv_move (hi : Inv k.page top) (ht : k.page k.current = .thread t) (hm : Moves k t a k') :
    ∃ top', Inv k'.page top' := by
  cases hm with
  | noCopy => exact ⟨top, hi⟩
  | noWait => exact ⟨top, hi⟩
  | @goes a s hg hne =>
      obtain ⟨ha, he⟩ := goes_alive hg
      refine ⟨top, hi.proceed ht ha (goes_alive_next hg) (.inl (hi.eq_top ht ha he)) rfl rfl rfl ?_⟩
      intro h₀
      cases hg with
      | failed => exact (hne rfl h₀).elim
      | threadExit => exact (hne rfl h₀).elim
      | _ => simp
  | @create p w hn hp =>
      have ha : Alive t := by simp [Alive, hn]
      obtain rfl := hi.eq_top ht ha (by simp [Executing, hn])
      exact ⟨p, hi.create ht hp rfl rfl rfl rfl⟩
  | unblock hn =>
      refine ⟨top, hi.proceed ht (by simp [Alive, hn]) (by simp [Alive]) (.inr ⟨_, .inr (.inl rfl)⟩)
        rfl rfl rfl fun _ => by simp⟩
  | setChildTid hn =>
      refine ⟨top, hi.proceed ht (by simp [Alive, hn]) (by simp [Alive])
        (.inr ⟨_, .inr (.inr rfl)⟩) rfl rfl rfl fun _ => by simp⟩
  | @take s p u hd hl hu hv =>
      have hne : k.current ≠ p := by
        rintro rfl
        exact (hi.irreflexive _ t ht).2 s hd hl
      obtain rfl := hi.down_top ht hd hl fun u' hu' => by
        cases hu.symm.trans hu'
        exact hv
      have hi₁ := hi.assign (x := { u with
        parentLock := ⟨u.parentLock.value - 1, u.parentLock.waiters⟩ }) hu rfl rfl rfl
        fun ha => (hi.lock_dead ht hl hu ha).elim
      exact ⟨_, hi₁.proceed ((Function.update_of_ne hne ..).trans ht) hd.alive hd.alive_next
        (.inl rfl) rfl rfl rfl fun _ => hd.next_ne⟩
  | @takeFreed s p w hd hl hw hv =>
      have hne : k.current ≠ p := by
        rintro rfl
        cases hw.symm.trans ht
      obtain rfl := hi.down_top ht hd hl fun u hu => by cases hw.symm.trans hu
      have hsim : Similar (k.page p) (.other (w - 1)) := by
        rw [hw]
        trivial
      have hi₁ := hi.update_other hsim
      exact ⟨_, hi₁.proceed ((Function.update_of_ne hne ..).trans ht) hd.alive hd.alive_next
        (.inl rfl) rfl rfl rfl fun _ => hd.next_ne⟩
  | @block k' s p u hd hl hu hv hs =>
      rw [(schedule_page hs).1]
      exact ⟨top, hi.assign hu rfl rfl rfl fun _ => hv.symm⟩
  | waitReset hn =>
      have ha : Alive t := by simp [Alive, hn]
      exact ⟨top, hi.proceed ht ha (by simp [Alive])
        (.inl (hi.eq_top ht ha (by simp [Executing, hn]))) rfl rfl rfl fun _ => by simp⟩
  | @sysExit e q u hn hne hq hu =>
      have ha : Alive t := by simp [Alive, hn]
      have hcq : k.current ≠ q := by
        rintro rfl
        exact hi.nest.irrefl _ t ht hq
      have hi₁ := hi.assign (x := { u with childExit := e }) hu rfl rfl rfl fun _ => rfl
      exact ⟨top, hi₁.proceed ((Function.update_of_ne hcq ..).trans ht) ha (by simp [Alive])
        (.inl (hi.eq_top ht ha (by simp [Executing, hn]))) rfl rfl rfl fun h => (hne h).elim⟩
  | sysExitFreed hn hne =>
      have ha : Alive t := by simp [Alive, hn]
      exact ⟨top, hi.proceed ht ha (by simp [Alive])
        (.inl (hi.eq_top ht ha (by simp [Executing, hn]))) rfl rfl rfl fun h => (hne h).elim⟩
  | up hn => exact hi.up ht hn rfl rfl
  | upWake hn => exact hi.up ht hn rfl rfl
  | exit hn hs =>
      dsimp only
      rw [(schedule_page hs).1]
      refine ⟨top, hi.update_other ?_⟩
      rw [ht]
      simp [Similar, Alive, hn]
  | idle hn hs =>
      rw [(schedule_page hs).1]
      exact ⟨top, hi⟩
  | sleep hn hs =>
      rw [(schedule_page hs).1]
      exact ⟨top, hi⟩

theorem inv_event (hi : Inv k.page top) (he : Event k a k') : Inv k'.page top := by
  cases he with
  | timer hs =>
      rw [(threadYield_page hs).1]
      exact hi
  | wake => exact hi
  | scribble hw =>
      refine hi.update_other ?_
      rw [hw]
      trivial

theorem inv_step (hi : Inv k.page top) (hs : step a k = some k') : ∃ top', Inv k'.page top' := by
  rcases step_inv hi.irreflexive hs with he | ⟨t, ht, hm⟩
  · exact ⟨top, inv_event hi he⟩
  · exact inv_move hi ht hm

theorem boot_page {w : Page → UInt32} (ht : (boot w).page p = .thread t) :
    p = initialThread ∧ t = ⟨1, -1, 0, none, some idleThread, ⟨0, []⟩, .outside⟩ ∨
      p = idleThread ∧ t = ⟨2, 0, 0, some initialThread, none, ⟨0, []⟩, .idle⟩ := by
  unfold boot at ht
  dsimp only at ht
  split at ht
  · rename_i h
    cases ht
    exact .inl ⟨h, rfl⟩
  · split at ht
    · rename_i h
      cases ht
      exact .inr ⟨h, rfl⟩
    · cases ht

theorem inv_boot (w : Page → UInt32) : Inv (boot w).page initialThread := by
  refine ⟨⟨⟨_, rfl, by simp [Alive]⟩, ⟨_, rfl, by simp [Alive], rfl⟩, ?_, ?_, ?_, ?_⟩, ?_, ?_⟩
  · intro p t ht ha hne
    rcases boot_page ht with ⟨rfl, rfl⟩ | ⟨rfl, rfl⟩
    · exact (hne rfl).elim
    · exact (ha.2 rfl).elim
  · intro p t ht ha hne
    rcases boot_page ht with ⟨rfl, rfl⟩ | ⟨rfl, rfl⟩
    · exact (hne rfl).elim
    · exact (ha.2 rfl).elim
  · intro q t p u ht ha hl hu
    rcases boot_page ht with ⟨rfl, rfl⟩ | ⟨rfl, rfl⟩
    · cases hl
      rcases boot_page hu with ⟨h, -⟩ | ⟨-, rfl⟩
      · cases h
      · rfl
    · cases hl
  · intro p t ht
    rcases boot_page ht with ⟨rfl, rfl⟩ | ⟨rfl, rfl⟩ <;> simp
  · intro p t ht ha hne
    rcases boot_page ht with ⟨rfl, rfl⟩ | ⟨rfl, rfl⟩
    · exact (hne rfl).elim
    · exact (ha.2 rfl).elim
  · intro t ht
    rcases boot_page ht with ⟨-, rfl⟩ | ⟨h, -⟩
    · simp
    · cases h

/-- **Processes are nested** in every state of every run. -/
theorem reachable_inv {w : Page → UInt32} {G : Kernel → Action → Prop}
    (hr : Reachable step G (boot w) k) : ∃ top, Inv k.page top := by
  refine hr.invariant (I := fun k => ∃ top, Inv k.page top) ⟨initialThread, inv_boot w⟩ ?_
  rintro k a k' - ⟨top, hi⟩ - hs
  exact inv_step hi hs

end CSE130.Lab3
