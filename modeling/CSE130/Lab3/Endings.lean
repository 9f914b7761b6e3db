import CSE130.Lab3.Wait

/-! # What the ways of dying report

A thread ends in `sys_exit`, which stores the exit code in the parent, or goes to `thread_exit`
without it: in `start_process`, if `elf_load` fails, and at the end of `syscall_handler`.  When its
parent is outside `process_execute` every child has ended, once and in one of these ways
(`run_endings`, `child_ended`), and what `process_wait` returns depends on the way
(`exit_status_reported`). -/

namespace CSE130.Lab3

open Function (update)
open Transition

/-- How a thread ends. -/
inductive Ending where
  /-- `sys_exit`; `kill` passes `-1` to it. -/
  | sysExit (exitcode : ℤ)
  /-- `thread_exit` in `start_process`. -/
  | notLoaded
  /-- `thread_exit` for an unimplemented system call. -/
  | unimplemented
deriving DecidableEq

namespace Ending

/-- The exit code of a process that has one. -/
def code : Ending → Option ℤ
  | sysExit e => some e
  | _ => none

/-- What the parent should be told. -/
def status (e : Ending) : ℤ := e.code.getD (-1)

end Ending

/-- The step ends the running thread. -/
def Kernel.endingOf (k : Kernel) : Action → Option Ending
  | .sysExit e => some (.sysExit e)
  | .threadExit => some (if k.at? .load then .notLoaded else .unimplemented)
  | _ => none

/-- How `c` has ended. -/
def ending (c : ℤ) : History → Option Ending
  | [] => none
  | (k, a) :: h =>
      match k.endingOf a with
      | some e => if k.callerTid = some c then some e else ending c h
      | none => ending c h

/-- The thread has not come to `thread_exit`. -/
def Going (t : Thread) : Prop := Alive t ∧ t.next ≠ .exitUp

variable {k k' : Kernel} {a : Action} {p top : Page} {t u x : Thread} {m m' : Page → Contents}
  {w : Page → UInt32} {h : History} {c v next : ℤ} {e : Ending}

theorem exitCodeOf_eq (k : Kernel) (a : Action) :
    Kernel.exitCodeOf a = (k.endingOf a).bind Ending.code := by
  cases a with
  | threadExit =>
      unfold Kernel.endingOf
      dsimp only
      split <;> rfl
  | _ => rfl

theorem ending_silent (he : k.endingOf a = none) : ending c ((k, a) :: h) = ending c h := by
  conv_lhs => unfold ending
  rw [he]

theorem ending_cons (he : k.endingOf a = some e) (hcaller : k.callerTid = some t.tid) :
    ending c ((k, a) :: h) = if t.tid = c then some e else ending c h := by
  conv_lhs => unfold ending
  rw [he, hcaller]
  simp

theorem exitCode_cons (he : k.endingOf a = some e) (hcaller : k.callerTid = some t.tid) :
    exitCode c ((k, a) :: h) =
      if t.tid = c then e.code.or (exitCode c h) else exitCode c h := by
  conv_lhs => unfold exitCode
  rw [exitCodeOf_eq k a, he, hcaller]
  dsimp only [Option.bind_some]
  cases e.code <;> simp

/-! ### Threads that go on -/

/-- No thread ends, and none is made to go on. -/
structure Follows (m m' : Page → Contents) : Prop where
  back : ∀ p t', m' p = .thread t' → Going t' →
    ∃ t, m p = .thread t ∧ t'.tid = t.tid ∧ Going t
  forth : ∀ p t, m p = .thread t → Going t →
    ∃ t', m' p = .thread t' ∧ t'.tid = t.tid ∧ Going t'

theorem Follows.refl (m : Page → Contents) : Follows m m :=
  ⟨fun _ t ht hg => ⟨t, ht, rfl, hg⟩, fun _ t ht hg => ⟨t, ht, rfl, hg⟩⟩

theorem Follows.trans {m'' : Page → Contents} (h₁ : Follows m m') (h₂ : Follows m' m'') :
    Follows m m'' := by
  constructor
  · intro p t'' ht'' hg''
    obtain ⟨t', ht', he', hg'⟩ := h₂.back p t'' ht'' hg''
    obtain ⟨t, ht, he, hg⟩ := h₁.back p t' ht' hg'
    exact ⟨t, ht, he'.trans he, hg⟩
  · intro p t ht hg
    obtain ⟨t', ht', he', hg'⟩ := h₁.forth p t ht hg
    obtain ⟨t'', ht'', he'', hg''⟩ := h₂.forth p t' ht' hg'
    exact ⟨t'', ht'', he''.trans he', hg''⟩

theorem Follows.assign (ht : m p = .thread t) (htid : x.tid = t.tid) (hg : Going x ↔ Going t) :
    Follows m (update m p (.thread x)) := by
  constructor
  · intro q t' ht' hg'
    obtain ⟨rfl, rfl⟩ | ⟨-, ht'⟩ := update_thread ht'
    · exact ⟨t, ht, htid, hg.mp hg'⟩
    · exact ⟨t', ht', rfl, hg'⟩
  · intro q u hu hgu
    by_cases hq : q = p
    · subst hq
      cases ht.symm.trans hu
      exact ⟨x, Function.update_self .., htid, hg.mpr hgu⟩
    · exact ⟨u, (Function.update_of_ne hq ..).trans hu, rfl, hgu⟩

/-- A page without a thread that goes on is freed or written. -/
theorem Follows.other {v : UInt32} (hp : ∀ t, m p = .thread t → ¬ Going t) :
    Follows m (update m p (.other v)) := by
  constructor
  · intro q t' ht' hg'
    rw [Function.update_apply] at ht'
    split at ht'
    · cases ht'
    · exact ⟨t', ht', rfl, hg'⟩
  · intro q u hu hgu
    have hq : q ≠ p := by
      rintro rfl
      exact hp u hu hgu
    exact ⟨u, (Function.update_of_ne hq ..).trans hu, rfl, hgu⟩

theorem Downs.going {s : Statement} (hd : Downs t s) :
    Going { t with next := s } ↔ Going t := by
  cases hd <;> simp [Going, Alive, *]

theorem follows_goes {s : Statement} (hg : Goes t a s) (he : k.endingOf a = none) :
    Going { t with next := s } ↔ Going t := by
  cases hg with
  | failed => cases he
  | threadExit => cases he
  | _ => simp [Going, Alive, *]

theorem moves_follows (hirr : Irreflexive k.page) (ht : k.page k.current = .thread t)
    (hm : Moves k t a k') (hs : k.startedTid a = none) (he : k.endingOf a = none) :
    Follows k.page k'.page := by
  have hne {s : Statement} {p : Page} (hd : Downs t s) (hl : t.childLock = some p) :
      k.current ≠ p := by
    rintro rfl
    exact (hirr _ t ht).2 s hd hl
  cases hm with
  | noCopy => exact .refl _
  | noWait => exact .refl _
  | goes hg => exact .assign ht rfl (follows_goes hg he)
  | create => cases hs
  | unblock hn => exact .assign ht rfl (by simp [Going, Alive, hn])
  | setChildTid hn => exact .assign ht rfl (by simp [Going, Alive, hn])
  | @take s p u hd hl hu =>
      have hlock := Follows.assign hu (x := { u with
        parentLock := ⟨u.parentLock.value - 1, u.parentLock.waiters⟩ }) rfl Iff.rfl
      refine hlock.trans ?_
      exact .assign ((Function.update_of_ne (hne hd hl) ..).trans ht) rfl hd.going
  | @takeFreed s p w hd hl hw =>
      have hp : ∀ t, k.page p = .thread t → ¬ Going t := by
        intro t ht
        cases hw.symm.trans ht
      refine (Follows.other (v := w - 1) hp).trans ?_
      exact .assign ((Function.update_of_ne (hne hd hl) ..).trans ht) rfl hd.going
  | block hd hl hu hv hsched =>
      rw [(schedule_page hsched).1]
      exact .assign hu rfl Iff.rfl
  | waitReset hn => exact .assign ht rfl (by simp [Going, Alive, hn])
  | sysExit => cases he
  | sysExitFreed => cases he
  | up hn => exact .assign ht rfl (by simp [Going, Alive, hn])
  | upWake hn => exact .assign ht rfl (by simp [Going, Alive, hn])
  | exit hn hsched =>
      dsimp only
      rw [(schedule_page hsched).1]
      refine .other ?_
      intro u hu hg
      cases ht.symm.trans hu
      exact hg.1.1 hn
  | idle hn hsched =>
      rw [(schedule_page hsched).1]
      exact .refl _
  | sleep hn hsched =>
      rw [(schedule_page hsched).1]
      exact .refl _

theorem event_follows (he : Event k a k') : Follows k.page k'.page := by
  cases he with
  | timer hs =>
      rw [(threadYield_page hs).1]
      exact .refl _
  | wake => exact .refl _
  | scribble hw =>
      refine .other ?_
      intro t ht
      cases hw.symm.trans ht

/-! ### Threads that have ended -/

/-- The memory agrees with the endings of a history: a thread ends once, and the children that
have not ended are there. -/
structure Endings (h : History) (m : Page → Contents) (next : ℤ) : Prop where
  once : ∀ p t, m p = .thread t → Going t → ending t.tid h = none
  going : ∀ r c, c ∈ children r h → ending c h = none →
    ∃ p t, p ≠ initialThread ∧ m p = .thread t ∧ t.tid = c ∧ Going t
  fresh : ∀ c, next ≤ c → ending c h = none
  code : ∀ c, exitCode c h = (ending c h).bind Ending.code

theorem exitCode_unended (he : k.endingOf a = none) : exitCode c ((k, a) :: h) = exitCode c h := by
  apply exitCode_silent
  rw [exitCodeOf_eq k a, he]
  rfl

theorem Endings.follows (hen : Endings h m next) (hf : Follows m m')
    (hs : k.startedTid a = none) (he : k.endingOf a = none) : Endings ((k, a) :: h) m' next := by
  have hc (r : ℤ) : children r ((k, a) :: h) = children r h := children_silent hs
  have hend (c : ℤ) : ending c ((k, a) :: h) = ending c h := ending_silent he
  have hcode (c : ℤ) : exitCode c ((k, a) :: h) = exitCode c h := exitCode_unended he
  constructor
  · intro p t' ht' hg'
    obtain ⟨t, ht, htid, hg⟩ := hf.back p t' ht' hg'
    rw [hend, htid]
    exact hen.once p t ht hg
  · intro r c hm hnone
    rw [hc] at hm
    rw [hend] at hnone
    obtain ⟨p, t, hp, ht, rfl, hg⟩ := hen.going r c hm hnone
    obtain ⟨t', ht', htid, hg'⟩ := hf.forth p t ht hg
    exact ⟨p, t', hp, ht', htid, hg'⟩
  · simpa only [hend] using hen.fresh
  · simpa only [hend, hcode] using hen.code

theorem Endings.ends (hen : Endings h m next) (hf : Follows m m')
    (htid : ∀ p q t u, m p = .thread t → m q = .thread u → t.tid = u.tid → p = q)
    (hlt : t.tid < next) (ht : m p = .thread t) (hg : Going t) (hx : ¬ Going x)
    (hs : k.startedTid a = none) (he : k.endingOf a = some e)
    (hcaller : k.callerTid = some t.tid) :
    Endings ((k, a) :: h) (update m' p (.thread x)) next := by
  have hc (r : ℤ) : children r ((k, a) :: h) = children r h := children_silent hs
  have hend (c : ℤ) : ending c ((k, a) :: h) = if t.tid = c then some e else ending c h :=
    ending_cons he hcaller
  have hfirst := hen.once p t ht hg
  constructor
  · intro q u hu hgu
    obtain ⟨rfl, rfl⟩ | ⟨hq, hu⟩ := update_thread hu
    · exact (hx hgu).elim
    · obtain ⟨u', hu', htid', hgu'⟩ := hf.back q u hu hgu
      rw [hend, htid', if_neg fun heq => hq (htid q p u' t hu' ht heq.symm)]
      exact hen.once q u' hu' hgu'
  · intro r c hm hnone
    rw [hc] at hm
    rw [hend] at hnone
    split at hnone
    · cases hnone
    · rename_i hne
      obtain ⟨q, u, hq, hu, rfl, hgu⟩ := hen.going r c hm hnone
      obtain ⟨u', hu', htid', hgu'⟩ := hf.forth q u hu hgu
      have hqp : q ≠ p := by
        rintro rfl
        cases ht.symm.trans hu
        exact hne rfl
      exact ⟨q, u', hq, (Function.update_of_ne hqp ..).trans hu', htid', hgu'⟩
  · intro c hc
    rw [hend, if_neg (by omega)]
    exact hen.fresh c hc
  · intro c
    rw [hend, exitCode_cons he hcaller]
    split
    · -- it has not called `sys_exit` before
      rename_i heq
      subst heq
      rw [hen.code, hfirst]
      simp
    · exact hen.code c

theorem Endings.create {w : UInt32} {q : Page} (hen : Endings h m next)
    (hr : ∃ t, m initialThread = .thread t) (ht : m q = .thread t) (hg : Going t)
    (hp : m p = .other w) (htid : x.tid = t.tid) (hx : Going x)
    (hs : k.startedTid a = some next) (he : k.endingOf a = none)
    (hcaller : k.callerTid = some t.tid) :
    Endings ((k, a) :: h) (update (update m p (.thread (newThread next q))) q (.thread x))
      (next + 1) := by
  have hend (c : ℤ) : ending c ((k, a) :: h) = ending c h := ending_silent he
  have hcode (c : ℤ) : exitCode c ((k, a) :: h) = exitCode c h := exitCode_unended he
  have hqp : q ≠ p := by
    rintro rfl
    cases hp.symm.trans ht
  have hnew : update (update m p (.thread (newThread next q))) q (.thread x) p =
      .thread (newThread next q) := by
    rw [Function.update_of_ne hqp.symm, Function.update_self]
  have hgoing : Going (newThread next q) := ⟨newThread_alive next q, fun h => by cases h⟩
  have hold {r : Page} {u : Thread} (hu : m r = .thread u) (hgu : Going u) :
      ∃ u', update (update m p (.thread (newThread next q))) q (.thread x) r = .thread u' ∧
        u'.tid = u.tid ∧ Going u' := by
    by_cases hrq : r = q
    · subst hrq
      cases ht.symm.trans hu
      exact ⟨x, Function.update_self .., htid, hx⟩
    · have hrp : r ≠ p := by
        rintro rfl
        cases hp.symm.trans hu
      exact ⟨u, by rw [Function.update_of_ne hrq, Function.update_of_ne hrp, hu], rfl, hgu⟩
  constructor
  · intro r u hu hgu
    rw [hend]
    obtain ⟨rfl, rfl⟩ | ⟨-, hu⟩ := update_thread hu
    · rw [htid]
      exact hen.once r t ht hg
    · obtain ⟨rfl, rfl⟩ | ⟨-, hu⟩ := update_thread hu
      · exact hen.fresh next (Int.le_refl _)
      · exact hen.once r u hu hgu
  · intro r c hm hnone
    rw [hend] at hnone
    obtain ⟨rfl, -⟩ | hm := mem_children_started hs hcaller hm
    · refine ⟨p, _, ?_, hnew, rfl, hgoing⟩
      rintro rfl
      obtain ⟨t₀, ht₀⟩ := hr
      cases hp.symm.trans ht₀
    · obtain ⟨r', u, hr', hu, rfl, hgu⟩ := hen.going r c hm hnone
      obtain ⟨u', hu', htid', hgu'⟩ := hold hu hgu
      exact ⟨r', u', hr', hu', htid', hgu'⟩
  · intro c hc
    rw [hend]
    exact hen.fresh c (by omega)
  · simpa only [hend, hcode] using hen.code

theorem moves_nextTid (hm : Moves k t a k') (hs : k.startedTid a = none) :
    k'.nextTid = k.nextTid := by
  cases hm with
  | create => cases hs
  | block _ _ _ _ hsched => exact (schedule_page hsched).2
  | exit _ hsched => exact (schedule_page hsched).2
  | idle _ hsched => exact (schedule_page hsched).2
  | sleep _ hsched => exact (schedule_page hsched).2
  | _ => rfl

theorem endings_move (hi : Inv k.page top) (hg : Ghost h k.page k.nextTid)
    (hen : Endings h k.page k.nextTid) (ht : k.page k.current = .thread t) (hm : Moves k t a k') :
    Endings ((k, a) :: h) k'.page k'.nextTid := by
  have hcaller := callerTid_eq ht
  have hlt := (hg.tid_lt _ t ht).2
  by_cases hquiet : k.startedTid a = none ∧ k.endingOf a = none
  · rw [moves_nextTid hm hquiet.1]
    exact hen.follows (moves_follows hi.irreflexive ht hm hquiet.1 hquiet.2) hquiet.1 hquiet.2
  · cases hm with
    | create hn hp =>
        obtain ⟨r, hr, -⟩ := hi.nest.root
        exact hen.create ⟨r, hr⟩ ht (by simp [Going, Alive, hn]) hp rfl
          (by simp [Going, Alive]) rfl rfl hcaller
    | goes hgo =>
        cases hgo with
        | failed hn =>
            exact hen.ends (.refl _) hg.tid_inj hlt ht (by simp [Going, Alive, hn])
              (by simp [Going]) rfl rfl hcaller
        | threadExit hn =>
            exact hen.ends (.refl _) hg.tid_inj hlt ht (by simp [Going, Alive, hn])
              (by simp [Going]) rfl rfl hcaller
        | _ => exact (hquiet ⟨rfl, rfl⟩).elim
    | @sysExit e q u hn _ _ hu =>
        have hexit := Follows.assign hu (x := { u with childExit := e }) rfl Iff.rfl
        exact hen.ends hexit hg.tid_inj hlt ht (by simp [Going, Alive, hn])
          (by simp [Going]) rfl rfl hcaller
    | sysExitFreed hn =>
        exact hen.ends (.refl _) hg.tid_inj hlt ht (by simp [Going, Alive, hn])
          (by simp [Going]) rfl rfl hcaller
    | _ => exact (hquiet ⟨rfl, rfl⟩).elim

theorem endings_step (hi : Inv k.page top) (hg : Ghost h k.page k.nextTid)
    (hen : Endings h k.page k.nextTid) (hs : step a k = some k') :
    Endings ((k, a) :: h) k'.page k'.nextTid := by
  obtain he | ⟨t, ht, hm⟩ := step_inv hi.irreflexive hs
  · have hquiet : k.startedTid a = none ∧ k.endingOf a = none := by
      cases he <;> exact ⟨rfl, rfl⟩
    have hnext : k'.nextTid = k.nextTid := by
      cases he with
      | timer hy => exact (threadYield_page hy).2
      | _ => rfl
    rw [hnext]
    exact hen.follows (event_follows he) hquiet.1 hquiet.2
  · exact endings_move hi hg hen ht hm

theorem endings_boot (w : Page → UInt32) : Endings [] (boot w).page (boot w).nextTid := by
  constructor
  · exact fun _ _ _ _ => rfl
  · intro r c hc
    cases hc
  · exact fun _ _ => rfl
  · exact fun _ => rfl

theorem run_endings (hr : Run step anyAction (boot w) h k) : Endings h k.page k.nextTid := by
  have hall : ((∃ top, Inv k.page top) ∧ Ghost h k.page k.nextTid) ∧
      Endings h k.page k.nextTid := by
    refine hr.invariant (I := fun h k => ((∃ top, Inv k.page top) ∧ Ghost h k.page k.nextTid) ∧
      Endings h k.page k.nextTid) ⟨run_ghost .nil, endings_boot w⟩ ?_
    rintro h k a k' - ⟨⟨⟨top, hi⟩, hg⟩, hen⟩ - hs
    exact ⟨⟨inv_step hi hs, ghost_step hi hg hs⟩, endings_step hi hg hen hs⟩
  exact hall.2

/-- When a thread is outside `process_execute`, its children have ended. -/
theorem child_ended (hi : Inv m top) (hg : Ghost h m next) (hen : Endings h m next)
    (ht : m p = .thread t) (ha : Alive t) (hex : ¬ Executing t) (hc : c ∈ children t.tid h) :
    ∃ e, ending c h = some e := by
  obtain rfl := hi.eq_top ht ha hex
  cases he : ending c h with
  | some e => exact ⟨e, rfl⟩
  | none =>
      obtain ⟨r, u, hr, hu, rfl, hgu⟩ := hen.going t.tid c hc he
      obtain ⟨q, y, huq, hqt, hy, hay, -⟩ := hi.nest.parent r u hu hgu.1 hr
      obtain ⟨-, hcy, -⟩ := hg.latest r u q y hu hgu.1 huq hy hay
      have htid := hg.child_inj _ _ _ hcy hc
      exact (hqt (hg.tid_inj q p y t hy ht htid)).elim

/-! ### What is reported -/

/-- A call of `process_wait` for `c` returns what `c` has left itself: `c` is `child_tid` and has
called `sys_exit`, or what the children before it have left happens to be right. -/
def Reports (t : Thread) (c : ℤ) (e : Ending) (h : History) : Prop :=
  if t.childTid = c then e.code.isSome ∨ uncollected t.tid h = -1 else e.status = -1

theorem waitReturn_cases (ht : k.page k.current = .thread t) (hw : WaitOk t)
    (hs : step a k = some k') (hret : k.waitReturn a = some (c, v)) :
    Alive t ∧ ¬ Executing t ∧ (t.childTid ≠ c ∧ v = -1 ∨
      t.childTid = c ∧ pendingTid t = c ∧ v = t.childExit) := by
  rw [waitReturn_eq ht] at hret
  split at hret
  · rename_i tid
    split at hret
    · cases hret
    · rename_i hne
      cases hret
      have hn : k.at? .outside := by
        by_contra hn
        have hs : (if k.at? .outside then k.processWait c else none) = some k' := hs
        rw [if_neg hn] at hs
        cases hs
      obtain ⟨u, hu, hn⟩ := Kernel.at?_eq.mp hn
      cases ht.symm.trans hu
      exact ⟨by simp [Alive, hn], by simp [Executing, hn], .inl ⟨hne, rfl⟩⟩
  · rename_i hn
    cases hret
    unfold WaitOk at hw
    rw [hn] at hw
    exact ⟨by simp [Alive, hn], by simp [Executing, hn],
      .inr ⟨hw.1, by simp [pendingTid, hn, hw.1], hw.2⟩⟩
  · cases hret

/-- What is expected of a child that has ended and is not waited for. -/
theorem expected_status (hen : Endings h m next) (hc : c ∈ children t.tid h)
    (hw : ¬ Waited t.tid c h) (he : ending c h = some e) : expected t.tid c h = e.status := by
  unfold expected
  rw [if_pos ⟨hc, hw⟩, hen.code, he]
  rfl

theorem collects_reports (hen : Endings h m next) (hc : c ∈ children t.tid h)
    (hw : ¬ Waited t.tid c h) (he : ending c h = some e) : Collects t c h ↔ Reports t c e h := by
  unfold Collects Reports
  rw [hen.code, he]
  simp [hc, hw, Ending.status]

/-- **Every way of dying reports a status, or does not.**  In every run, when `process_wait`
returns for a child of the caller, the child has ended; the first call returns its status if and
only if it `Reports`, and a later call returns `-1`.  A call that passes the first test goes on to
its return if and only if the word it reads through the stale pointer is not zero. -/
theorem exit_status_reported (hr : Run step anyAction (boot w) h k)
    (ht : k.page k.current = .thread t) :
    (∀ a k' c v, step a k = some k' → k.waitReturn a = some (c, v) → c ∈ children t.tid h →
      ∃ e, ending c h = some e ∧ (¬ Waited t.tid c h → (v = e.status ↔ Reports t c e h)) ∧
        (Waited t.tid c h → v = -1)) ∧
    ∀ tid, t.next = .waitDown tid →
      ((∃ k' t', step .run k = some k' ∧ k'.page k.current = .thread t' ∧ t'.next = .waitRead tid) ↔
        ∃ p word, t.childLock = some p ∧ k.page p = .other word ∧ word ≠ 0) := by
  obtain ⟨⟨top, hi⟩, hg⟩ := run_ghost hr
  have hen := run_endings hr
  constructor
  · intro a k' c v hs hret hc
    obtain ⟨ha, hex, hway⟩ := waitReturn_cases ht (hg.wait _ t ht) hs hret
    obtain ⟨e, he⟩ := child_ended hi hg hen ht ha hex hc
    refine ⟨e, he, ?_, ?_⟩
    · intro hw
      rw [← expected_status hen hc hw he, ← collects_reports hen hc hw he]
      obtain ⟨hne, rfl⟩ | ⟨heq, hpend, rfl⟩ := hway
      · exact refused_expected hne
      · exact collected_expected hg ht ha hpend heq
    · intro hw
      obtain ⟨-, hv⟩ | ⟨-, hpend, hv⟩ := hway
      · exact hv
      · subst hpend
        exact hv.trans ((hg.pending _ t ht ha hc).1 hw)
  · intro tid hn
    obtain ⟨top, hi, hcount⟩ := reachable_counted ⟨_, hr⟩
    exact waitDown_goes_on hi hcount ht hn

/-- A list of actions that leads to a return from `process_wait`, as a run. -/
theorem returning_run {l : List Action} {q c v : ℤ}
    (hex : (execute step l (boot fun _ => 0)).map
      (fun k => (k.waitReturn .run, (step .run k).isSome, k.callerTid)) =
        some (some (c, v), true, some q)) :
    ∃ k t k', Run step anyAction (boot fun _ => 0) (trace step l (boot fun _ => 0) ++ []) k ∧
      k.page k.current = .thread t ∧ t.tid = q ∧ step .run k = some k' ∧
      k.waitReturn .run = some (c, v) := by
  obtain ⟨k, hk, hv⟩ := Option.map_eq_some_iff.mp hex
  simp only [Prod.mk.injEq] at hv
  obtain ⟨hret, hstep, hcaller⟩ := hv
  obtain ⟨k', hs⟩ := Option.isSome_iff_exists.mp hstep
  obtain ⟨t, ht, htid⟩ := Option.map_eq_some_iff.mp hcaller
  have hrun := execute_run (G := anyAction) (fun _ _ _ => trivial) Run.nil hk
  exact ⟨k, t, k', hrun, Kernel.thread?_eq.mp ht, htid, hs, hret⟩

/-- `process_wait` for the second process of `twoChildren`. -/
def waitSecond : List Action := twoChildren ++ [.wait 5, .run, .run]

/-- It returns 7, as it reports. -/
theorem exit_status_reported_second : ∃ h k t, Run step anyAction (boot fun _ => 0) h k ∧
    k.page k.current = .thread t ∧ (7 = (Ending.sysExit 7).status ↔ Reports t 5 (.sysExit 7) h) := by
  obtain ⟨k, t, k', hrun, ht, htid, hs, hret⟩ := returning_run (l := waitSecond) (q := 3) (c := 5)
    (v := 7) (by decide +kernel)
  have hc : 5 ∈ children t.tid (trace step waitSecond (boot fun _ => 0) ++ []) := by
    rw [htid]
    decide +kernel
  have hw : ¬ Waited t.tid 5 (trace step waitSecond (boot fun _ => 0) ++ []) := by
    rw [htid]
    decide +kernel
  obtain ⟨e, he, hfirst, -⟩ := (exit_status_reported hrun ht).1 .run k' 5 7 hs hret hc
  have hseven : ending 5 (trace step waitSecond (boot fun _ => 0) ++ []) = some (.sysExit 7) := by
    decide +kernel
  cases he.symm.trans hseven
  exact ⟨_, k, t, hrun, ht, hfirst hw⟩

/-- A process in page 2 starts two processes in page 3: the first exits with 5, and `elf_load`
fails for the second. -/
def secondFails : List Action :=
  [.execute (.thread 2), .run, .run, .run, .loaded,
    .execute (.thread 3), .run, .run, .run, .loaded, .sysExit 5, .run, .run, .run,
    .execute (.thread 3), .run, .run, .run, .threadExit, .run, .run, .run, .wait 5, .run, .run]

/-- For the second of them `process_wait` returns what the first has left. -/
theorem exit_status_left : ∃ h k t k', Run step anyAction (boot fun _ => 0) h k ∧
    k.page k.current = .thread t ∧ step .run k = some k' ∧ k.waitReturn .run = some (5, 5) ∧
    5 ∈ children t.tid h ∧ ¬ Waited t.tid 5 h ∧ ending 5 h = some .notLoaded ∧
    5 ≠ Ending.notLoaded.status := by
  obtain ⟨k, t, k', hrun, ht, htid, hs, hret⟩ := returning_run (l := secondFails) (q := 3) (c := 5)
    (v := 5) (by decide +kernel)
  refine ⟨_, k, t, k', hrun, ht, hs, hret, ?_⟩
  rw [htid]
  decide +kernel

end CSE130.Lab3
