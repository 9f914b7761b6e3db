import CSE130.Lab3.Lifetimes

/-! # What `process_wait` returns

The kernel keeps one `child_tid` and one `child_exit` for each parent.  What they should hold is
read off the history of a run: who started whom, who passed what to `sys_exit`, and which calls
of `process_wait` have returned.  A return is right for the process that was started last, if it
ended through `sys_exit`; an exit code that is not collected before the next start is lost, and
one that nobody has written is whatever the children before have left (`process_wait_returns`). -/

namespace CSE130.Lab3

open Function (update)
open Transition

/-- Events of a run, the latest first. -/
abbrev History := List (Kernel × Action)

namespace Kernel

/-- The thread identifier of the running thread. -/
def callerTid (k : Kernel) : Option ℤ := (k.thread? k.current).map Thread.tid

/-- The thread identifier of its parent. -/
def parentTid (k : Kernel) : Option ℤ := do
  let t ← k.thread? k.current
  let q ← t.parent
  let u ← k.thread? q
  some u.tid

/-- The step returns from `process_wait`: for which process, and what. -/
def waitReturn (k : Kernel) (a : Action) : Option (ℤ × ℤ) := do
  let t ← k.thread? k.current
  match a, t.next with
  | .wait tid, _ => if t.childTid = tid then none else some (tid, -1)
  | .run, .waitReset tid exit => some (tid, exit)
  | _, _ => none

/-- The step starts a process. -/
def startedTid (k : Kernel) : Action → Option ℤ
  | .execute (.thread _) => some k.nextTid
  | _ => none

/-- The step is a call of `sys_exit`. -/
def exitCodeOf : Action → Option ℤ
  | .sysExit e => some e
  | _ => none

end Kernel

/-- The processes that `q` has started, the latest first. -/
def children (q : ℤ) : History → List ℤ
  | [] => []
  | (k, a) :: h =>
      match k.startedTid a with
      | some c => if k.callerTid = some q then c :: children q h else children q h
      | none => children q h

/-- The value that `c` has passed to `sys_exit`. -/
def exitCode (c : ℤ) : History → Option ℤ
  | [] => none
  | (k, a) :: h =>
      match Kernel.exitCodeOf a with
      | some e => if k.callerTid = some c then some e else exitCode c h
      | none => exitCode c h

/-- A call `process_wait(c)` of the parent `q` of `c` has returned. -/
def Waited (q c : ℤ) : History → Prop
  | [] => False
  | (k, a) :: h => Waited q c h ∨
      k.callerTid = some q ∧ c ∈ children q h ∧ (k.waitReturn a).map Prod.fst = some c

instance (q c : ℤ) : ∀ h, Decidable (Waited q c h)
  | [] => inferInstanceAs (Decidable False)
  | (_, _) :: h =>
      have := instDecidableWaited q c h
      inferInstanceAs (Decidable (_ ∨ _))

/-- What `process_wait(c)` should return to `q`. -/
def expected (q c : ℤ) (h : History) : ℤ :=
  if c ∈ children q h ∧ ¬ Waited q c h then (exitCode c h).getD (-1) else -1

/-- The exit code that the children of `q` have left, and `q` has not collected. -/
def uncollected (q : ℤ) : History → ℤ
  | [] => 0
  | (k, a) :: h =>
      match Kernel.exitCodeOf a with
      | some e => if k.parentTid = some q then e else uncollected q h
      | none =>
          if a = .run ∧ (k.waitReturn a).isSome ∧ k.callerTid = some q then -1
          else uncollected q h

/-- `child_tid`, or what `process_execute` is about to set it to. -/
def pendingTid (t : Thread) : ℤ :=
  match t.next with
  | .unblock _ tid => tid
  | .setChildTid tid => tid
  | _ => t.childTid

variable {k k' : Kernel} {a : Action} {p q top : Page} {t u t' : Thread} {s : Statement}
  {m : Page → Contents} {w : Page → UInt32} {h : History} {tid c r next : ℤ}

/-- A step that is no event. -/
def Silent (k : Kernel) (a : Action) : Prop :=
  k.startedTid a = none ∧ Kernel.exitCodeOf a = none ∧ k.waitReturn a = none

theorem children_silent (hs : k.startedTid a = none) : children r ((k, a) :: h) = children r h := by
  conv_lhs => unfold children
  rw [hs]

theorem exitCode_silent (hs : Kernel.exitCodeOf a = none) :
    exitCode c ((k, a) :: h) = exitCode c h := by
  conv_lhs => unfold exitCode
  rw [hs]

theorem waited_silent (hs : k.waitReturn a = none) :
    Waited r c ((k, a) :: h) ↔ Waited r c h := by
  conv_lhs => unfold Waited
  rw [hs]
  simp

theorem uncollected_silent (hcode : Kernel.exitCodeOf a = none) (hret : k.waitReturn a = none) :
    uncollected r ((k, a) :: h) = uncollected r h := by
  conv_lhs => unfold uncollected
  rw [hcode, hret]
  simp

/-- In the statements of `process_wait` after its test, `child_tid` is the argument, and what is
returned is in `child_exit`. -/
def WaitOk (t : Thread) : Prop := match t.next with
  | .waitDown tid => t.childTid = tid
  | .waitRead tid => t.childTid = tid
  | .waitReset tid e => t.childTid = tid ∧ e = t.childExit
  | _ => True

/-- The memory agrees with the history. -/
structure Ghost (h : History) (m : Page → Contents) (next : ℤ) : Prop where
  tid_lt : ∀ p t, m p = .thread t → 0 < t.tid ∧ t.tid < next
  tid_inj : ∀ p q t u, m p = .thread t → m q = .thread u → t.tid = u.tid → p = q
  fresh : ∀ r, next ≤ r → children r h = [] ∧ exitCode r h = none ∧ uncollected r h = 0
  child_lt : ∀ r c, c ∈ children r h → 0 < c ∧ c < next
  child_inj : ∀ r r' c, c ∈ children r h → c ∈ children r' h → r = r'
  collected : ∀ p t, m p = .thread t → Alive t → uncollected t.tid h = t.childExit
  latest : ∀ p u q t, m p = .thread u → Alive u → u.parent = some q → m q = .thread t →
    Alive t → u.tid = pendingTid t ∧ u.tid ∈ children t.tid h ∧ ¬ Waited t.tid u.tid h
  pending : ∀ p t, m p = .thread t → Alive t → pendingTid t ∈ children t.tid h →
    (Waited t.tid (pendingTid t) h → t.childExit = -1) ∧
      (¬ Waited t.tid (pendingTid t) h → ∀ e, exitCode (pendingTid t) h = some e → t.childExit = e)
  wait : ∀ p t, m p = .thread t → WaitOk t

theorem Ghost.silent (hg : Ghost h m next) (hs : Silent k a) : Ghost ((k, a) :: h) m next := by
  have hc (r : ℤ) : children r ((k, a) :: h) = children r h := children_silent hs.1
  have he (c : ℤ) : exitCode c ((k, a) :: h) = exitCode c h := exitCode_silent hs.2.1
  have hw (r c : ℤ) : Waited r c ((k, a) :: h) ↔ Waited r c h := waited_silent hs.2.2
  have hu (r : ℤ) : uncollected r ((k, a) :: h) = uncollected r h :=
    uncollected_silent hs.2.1 hs.2.2
  constructor
  · exact hg.tid_lt
  · exact hg.tid_inj
  · simpa only [hc, he, hu] using hg.fresh
  · simpa only [hc] using hg.child_lt
  · simpa only [hc] using hg.child_inj
  · simpa only [hu] using hg.collected
  · simpa only [hc, hw] using hg.latest
  · simpa only [hc, hw, he] using hg.pending
  · exact hg.wait

theorem Ghost.assign {x : Thread} (hg : Ghost h m next) (ht : m p = .thread t)
    (htid : x.tid = t.tid) (hparent : x.parent = t.parent) (hexit : x.childExit = t.childExit)
    (ha : Alive x → Alive t) (hw : WaitOk x)
    (hp : pendingTid x = pendingTid t ∨ pendingTid x = tidError ∧
      ∀ q u, m q = .thread u → Alive u → u.parent ≠ some p) :
    Ghost h (update m p (.thread x)) next := by
  have hback {q : Page} {u : Thread} (hu : update m p (.thread x) q = .thread u) :
      ∃ u', m q = .thread u' ∧ u.tid = u'.tid ∧ u.parent = u'.parent ∧
        u.childExit = u'.childExit ∧ (Alive u → Alive u') ∧
        (pendingTid u = pendingTid u' ∨ pendingTid u = tidError ∧
          ∀ r v, m r = .thread v → Alive v → v.parent ≠ some q) := by
    rcases update_thread hu with ⟨rfl, rfl⟩ | ⟨-, hu⟩
    · exact ⟨t, ht, htid, hparent, hexit, ha, hp⟩
    · exact ⟨u, hu, rfl, rfl, rfl, id, .inl rfl⟩
  constructor
  · intro q u hu
    obtain ⟨u', hu', h₁, -⟩ := hback hu
    rw [h₁]
    exact hg.tid_lt q u' hu'
  · intro q r u v hu hv he
    obtain ⟨u', hu', h₁, -⟩ := hback hu
    obtain ⟨v', hv', h₂, -⟩ := hback hv
    exact hg.tid_inj q r u' v' hu' hv' (h₁.symm.trans (he.trans h₂))
  · exact hg.fresh
  · exact hg.child_lt
  · exact hg.child_inj
  · intro q u hu hau
    obtain ⟨u', hu', h₁, -, h₃, h₄, -⟩ := hback hu
    rw [h₁, h₃]
    exact hg.collected q u' hu' (h₄ hau)
  · intro q u r v hu hau hur hv hav
    obtain ⟨u', hu', h₁, h₂, -, h₄, -⟩ := hback hu
    obtain ⟨v', hv', h₁', -, -, h₄', h₅⟩ := hback hv
    obtain ⟨ht, hc, hwt⟩ := hg.latest q u' r v' hu' (h₄ hau) (h₂ ▸ hur) hv' (h₄' hav)
    rw [h₁, h₁']
    refine ⟨?_, hc, hwt⟩
    rcases h₅ with h₅ | ⟨-, h₅⟩
    · rw [h₅, ht]
    · exact (h₅ q u' hu' (h₄ hau) (h₂ ▸ hur)).elim
  · intro q u hu hau hpu
    obtain ⟨u', hu', h₁, -, h₃, h₄, h₅⟩ := hback hu
    rw [h₁] at hpu ⊢
    rw [h₃]
    rcases h₅ with h₅ | ⟨h₅, -⟩
    · rw [h₅] at hpu ⊢
      exact hg.pending q u' hu' (h₄ hau) hpu
    · rw [h₅] at hpu
      exact absurd (hg.child_lt _ _ hpu).1 (by decide)
  · intro q u hu
    rcases update_thread hu with ⟨-, rfl⟩ | ⟨-, hu⟩
    · exact hw
    · exact hg.wait q u hu

theorem callerTid_eq (ht : k.page k.current = .thread t) : k.callerTid = some t.tid := by
  unfold Kernel.callerTid
  rw [Kernel.thread?_eq.mpr ht]
  rfl

theorem parentTid_eq (ht : k.page k.current = .thread t) (hq : t.parent = some q)
    (hu : k.page q = .thread u) : k.parentTid = some u.tid := by
  unfold Kernel.parentTid
  rw [Kernel.thread?_eq.mpr ht]
  dsimp only [Option.bind_eq_bind, Option.bind_some]
  rw [hq]
  dsimp only [Option.bind_some]
  rw [Kernel.thread?_eq.mpr hu]
  rfl

theorem mem_children_cons (hc : c ∈ children r h) : c ∈ children r ((k, a) :: h) := by
  unfold children
  split
  · split
    · exact List.mem_cons_of_mem _ hc
    · exact hc
  · exact hc

theorem Waited.child : ∀ {h : History}, Waited r c h → c ∈ children r h
  | (_, _) :: _, .inl hw => mem_children_cons (Waited.child hw)
  | (_, _) :: _, .inr hw => mem_children_cons hw.2.1

theorem children_started (hstart : k.startedTid a = some next) (hcaller : k.callerTid = some tid) :
    children r ((k, a) :: h) = if tid = r then next :: children r h else children r h := by
  conv_lhs => unfold children
  rw [hstart, hcaller]
  simp

theorem mem_children_started (hstart : k.startedTid a = some next)
    (hcaller : k.callerTid = some tid) (hm : c ∈ children r ((k, a) :: h)) :
    c = next ∧ tid = r ∨ c ∈ children r h := by
  rw [children_started hstart hcaller] at hm
  split at hm
  · rename_i hr
    rcases List.mem_cons.mp hm with hm | hm
    · exact .inl ⟨hm, hr⟩
    · exact .inr hm
  · exact .inr hm

/-- The threads after `thread_create` are its caller, the new thread and others. -/
theorem Ghost.threads_created {x : Thread} (hg : Ghost h m next) (ht : m top = .thread t)
    (hu : update (update m p (.thread x)) top (.thread t') q = .thread u) :
    q = top ∧ u = t' ∨ q = p ∧ u = x ∨ q ≠ top ∧ m q = .thread u ∧ u.tid ≠ t.tid := by
  rcases update_thread hu with h | ⟨hqt, hu⟩
  · exact .inl h
  · rcases update_thread hu with h | ⟨-, hu⟩
    · exact .inr (.inl h)
    · exact .inr (.inr ⟨hqt, hu, fun h => hqt (hg.tid_inj q top u t hu ht h)⟩)

theorem Ghost.create {v : UInt32} (hg : Ghost h m next) (hn : Nest m top)
    (ht : m top = .thread t) (hp : m p = .other v) (hstart : k.startedTid a = some next)
    (hcaller : k.callerTid = some t.tid) (hcode : Kernel.exitCodeOf a = none)
    (hret : k.waitReturn a = none) (htid : t'.tid = t.tid) (hparent : t'.parent = t.parent)
    (hexit : t'.childExit = t.childExit) (hpend : t'.next = .unblock p next) :
    Ghost ((k, a) :: h)
      (update (update m p (.thread (newThread next top))) top (.thread t')) (next + 1) := by
  have hc (r : ℤ) : children r ((k, a) :: h) =
      if t.tid = r then next :: children r h else children r h := children_started hstart hcaller
  have he (c : ℤ) : exitCode c ((k, a) :: h) = exitCode c h := exitCode_silent hcode
  have hw (r c : ℤ) : Waited r c ((k, a) :: h) ↔ Waited r c h := waited_silent hret
  have hu (r : ℤ) : uncollected r ((k, a) :: h) = uncollected r h := uncollected_silent hcode hret
  have hback {q : Page} {u : Thread}
      (hu : update (update m p (.thread (newThread next top))) top (.thread t') q = .thread u) :
      q = top ∧ u = t' ∨ q = p ∧ u = newThread next top ∨
        q ≠ top ∧ m q = .thread u ∧ u.tid ≠ t.tid := hg.threads_created ht hu
  have hlt := hg.tid_lt top t ht
  have hpos : (0 : ℤ) < next := by omega
  have hnew : next ∉ children t.tid h := fun hm => Int.lt_irrefl _ (hg.child_lt _ _ hm).2
  have hnext : pendingTid t' = next := by
    unfold pendingTid
    rw [hpend]
  constructor
  · intro q u hu
    rcases hback hu with ⟨-, rfl⟩ | ⟨-, rfl⟩ | ⟨-, hu, -⟩
    · rw [htid]
      omega
    · show 0 < next ∧ next < next + 1
      omega
    · have := hg.tid_lt q u hu
      omega
  · have hold {q : Page} {u : Thread} (hu : m q = .thread u) : u.tid ≠ next :=
      Int.ne_of_lt (hg.tid_lt q u hu).2
    intro q r u x hu hx hux
    rcases hback hu with ⟨rfl, rfl⟩ | ⟨rfl, rfl⟩ | ⟨-, hu, hut⟩
    · rcases hback hx with ⟨rfl, -⟩ | ⟨-, rfl⟩ | ⟨-, -, hxt⟩
      · rfl
      · exact (hold ht (htid.symm.trans hux)).elim
      · exact (hxt (hux.symm.trans htid)).elim
    · rcases hback hx with ⟨-, rfl⟩ | ⟨rfl, -⟩ | ⟨-, hx, -⟩
      · exact (hold ht (htid.symm.trans hux.symm)).elim
      · rfl
      · exact (hold hx hux.symm).elim
    · rcases hback hx with ⟨-, rfl⟩ | ⟨-, rfl⟩ | ⟨-, hx, -⟩
      · exact (hut (hux.trans htid)).elim
      · exact (hold hu hux).elim
      · exact hg.tid_inj q r u x hu hx hux
  · intro r hr
    rw [hc, he, hu, if_neg (by omega)]
    exact hg.fresh r (by omega)
  · intro r c hm
    rcases mem_children_started hstart hcaller hm with ⟨rfl, -⟩ | hm
    · omega
    · have := hg.child_lt r c hm
      omega
  · intro r r' c hm hm'
    have hold {r : ℤ} (hm : c ∈ children r h) : c ≠ next := Int.ne_of_lt (hg.child_lt r c hm).2
    rcases mem_children_started hstart hcaller hm with ⟨hcn, rfl⟩ | hm
    · rcases mem_children_started hstart hcaller hm' with ⟨-, rfl⟩ | hm'
      · rfl
      · exact (hold hm' hcn).elim
    · rcases mem_children_started hstart hcaller hm' with ⟨hcn, -⟩ | hm'
      · exact (hold hm hcn).elim
      · exact hg.child_inj r r' c hm hm'
  · intro q u hu' ha
    rw [hu]
    rcases hback hu' with ⟨rfl, rfl⟩ | ⟨rfl, rfl⟩ | ⟨-, hu', -⟩
    · rw [htid, hexit]
      exact hg.collected q t ht (hn.alive_summit ht)
    · exact (hg.fresh next (Int.le_refl _)).2.2
    · exact hg.collected q u hu' ha
  · intro q u r x hu hau hur hx hax
    rw [hc, hw]
    rcases hback hu with ⟨rfl, rfl⟩ | ⟨rfl, rfl⟩ | ⟨hqt, hmu, -⟩
    · -- the creator is the child of another process
      have hat := hn.alive_summit ht
      rcases hback hx with ⟨rfl, -⟩ | ⟨rfl, -⟩ | ⟨-, hx, hxt⟩
      · exact (hn.irrefl r t ht (hparent ▸ hur)).elim
      · exact (hn.parent_thread ht hat (hparent ▸ hur) hp).elim
      · rw [if_neg (Ne.symm hxt), htid]
        exact hg.latest q t r x ht hat (hparent ▸ hur) hx hax
    · cases hur
      rcases hback hx with ⟨-, rfl⟩ | ⟨rfl, -⟩ | ⟨hne, -⟩
      · rw [htid, if_pos rfl, hnext]
        exact ⟨rfl, List.mem_cons_self, fun hw => hnew hw.child⟩
      · cases hp.symm.trans ht
      · exact (hne rfl).elim
    · rcases hback hx with ⟨rfl, -⟩ | ⟨rfl, -⟩ | ⟨-, hx, hxt⟩
      · exact (hn.childless hmu hau hur).elim
      · exact (hn.parent_thread hmu hau hur hp).elim
      · rw [if_neg (Ne.symm hxt)]
        exact hg.latest q u r x hmu hau hur hx hax
  · intro q u hu hau hpu
    rw [he, hw]
    rcases hback hu with ⟨rfl, rfl⟩ | ⟨rfl, rfl⟩ | ⟨-, hu, hut⟩
    · rw [hnext, htid, (hg.fresh next (Int.le_refl _)).2.1]
      exact ⟨fun hw => (hnew hw.child).elim, fun _ _ he => by cases he⟩
    · -- the `child_tid` of a new thread is 0
      rw [hc] at hpu
      split at hpu
      · rename_i h
        exact absurd h (Int.ne_of_lt hlt.2)
      · exact (Int.lt_irrefl 0 (hg.child_lt _ _ hpu).1).elim
    · rw [hc, if_neg (Ne.symm hut)] at hpu
      exact hg.pending q u hu hau hpu
  · intro q u hu
    rcases hback hu with ⟨-, rfl⟩ | ⟨-, rfl⟩ | ⟨-, hu, -⟩
    · unfold WaitOk
      rw [hpend]
      trivial
    · trivial
    · exact hg.wait q u hu

theorem Ghost.setExit {e : ℤ} (hg : Ghost h m next) (ht : m p = .thread t)
    (ha : Alive t) (hq : t.parent = some q) (hu : m q = .thread u) (hau : Alive u)
    (hex : Executing u) (hcode : Kernel.exitCodeOf a = some e) (hcaller : k.callerTid = some t.tid)
    (hparent : k.parentTid = some u.tid) (hstart : k.startedTid a = none)
    (hret : k.waitReturn a = none) :
    Ghost ((k, a) :: h) (update m q (.thread { u with childExit := e })) next := by
  have hc (r : ℤ) : children r ((k, a) :: h) = children r h := children_silent hstart
  have hw (r c : ℤ) : Waited r c ((k, a) :: h) ↔ Waited r c h := waited_silent hret
  have he (c : ℤ) : exitCode c ((k, a) :: h) = if t.tid = c then some e else exitCode c h := by
    conv_lhs => unfold exitCode
    rw [hcode, hcaller]
    simp
  have hun (r : ℤ) : uncollected r ((k, a) :: h) = if u.tid = r then e else uncollected r h := by
    conv_lhs => unfold uncollected
    rw [hcode, hparent]
    simp
  have hback {r : Page} {x : Thread}
      (hx : update m q (.thread { u with childExit := e }) r = .thread x) :
      ∃ x', m r = .thread x' ∧ x.tid = x'.tid ∧ x.parent = x'.parent ∧ (Alive x → Alive x') ∧
        pendingTid x = pendingTid x' ∧ (r = q ∧ x.childExit = e ∨ r ≠ q ∧ x = x') := by
    rcases update_thread hx with ⟨rfl, rfl⟩ | ⟨hne, hx⟩
    · exact ⟨u, hu, rfl, rfl, id, rfl, .inl ⟨rfl, rfl⟩⟩
    · exact ⟨x, hx, rfl, rfl, id, rfl, .inr ⟨hne, rfl⟩⟩
  have htu := hg.latest p t q u ht ha hq hu hau
  have htlt := hg.tid_lt p t ht
  have hult := hg.tid_lt q u hu
  constructor
  · intro r x hx
    obtain ⟨x', hx', h₁, -⟩ := hback hx
    rw [h₁]
    exact hg.tid_lt r x' hx'
  · intro r s x y hx hy hxy
    obtain ⟨x', hx', h₁, -⟩ := hback hx
    obtain ⟨y', hy', h₂, -⟩ := hback hy
    exact hg.tid_inj r s x' y' hx' hy' (h₁.symm.trans (hxy.trans h₂))
  · intro r hr
    rw [hc, he, hun, if_neg (by omega), if_neg (by omega)]
    exact hg.fresh r hr
  · simpa only [hc] using hg.child_lt
  · simpa only [hc] using hg.child_inj
  · intro r x hx hax
    obtain ⟨x', hx', h₁, -, h₃, -, h₅⟩ := hback hx
    rw [hun]
    rcases h₅ with ⟨rfl, hxe⟩ | ⟨hne, rfl⟩
    · cases hu.symm.trans hx'
      rw [if_pos h₁.symm, hxe]
    · rw [if_neg fun h => hne (hg.tid_inj r q x u hx' hu h.symm)]
      exact hg.collected r x hx' hax
  · intro r x s y hx hax hxs hy hay
    obtain ⟨x', hx', h₁, h₂, h₃, -⟩ := hback hx
    obtain ⟨y', hy', h₁', -, h₃', h₄', -⟩ := hback hy
    rw [hc, hw, h₁, h₁', h₄']
    exact hg.latest r x' s y' hx' (h₃ hax) (h₂ ▸ hxs) hy' (h₃' hay)
  · intro r x hx hax hpx
    obtain ⟨x', hx', h₁, -, h₃, h₄, h₅⟩ := hback hx
    rw [hc, h₁, h₄] at hpx
    rw [hw, he, h₁, h₄]
    rcases h₅ with ⟨rfl, hxe⟩ | ⟨hne, rfl⟩
    · -- the parent: its last child is the caller
      cases hu.symm.trans hx'
      rw [← htu.1, if_pos rfl, hxe]
      exact ⟨fun hw => (htu.2.2 hw).elim, fun _ _ h => Option.some.inj h⟩
    · rw [if_neg]
      · exact hg.pending r x hx' hax hpx
      · intro hcx
        exact hne (hg.tid_inj r q x u hx' hu (hg.child_inj _ _ _ (hcx ▸ hpx) htu.2.1))
  · intro r x hx
    rcases update_thread hx with ⟨rfl, rfl⟩ | ⟨-, hx⟩
    · obtain ⟨tid, ⟨p, hex⟩ | hex | hex⟩ := hex <;> simp [WaitOk, hex]
    · exact hg.wait r x hx

/-- What a return from `process_wait` adds to the history. -/
theorem waited_return {v : ℤ} (hcaller : k.callerTid = some t.tid)
    (hret : k.waitReturn a = some (tid, v)) : Waited r c ((k, a) :: h) ↔
      Waited r c h ∨ t.tid = r ∧ tid = c ∧ c ∈ children r h := by
  conv_lhs => unfold Waited
  rw [hcaller, hret]
  refine or_congr_right ⟨?_, ?_⟩
  · rintro ⟨hr, hm, he⟩
    cases hr
    cases he
    exact ⟨rfl, rfl, hm⟩
  · rintro ⟨rfl, rfl, hm⟩
    exact ⟨rfl, hm, rfl⟩

/-- `return -1` at the first test of `process_wait`. -/
theorem Ghost.refused {v : ℤ} (hg : Ghost h m next) (hn : Nest m top) (ht : m top = .thread t)
    (hpend : pendingTid t ≠ tid) (hcaller : k.callerTid = some t.tid)
    (hret : k.waitReturn a = some (tid, v)) (hcode : Kernel.exitCodeOf a = none)
    (hstart : k.startedTid a = none) (hrun : a ≠ .run) : Ghost ((k, a) :: h) m next := by
  have hc (r : ℤ) : children r ((k, a) :: h) = children r h := children_silent hstart
  have he (c : ℤ) : exitCode c ((k, a) :: h) = exitCode c h := exitCode_silent hcode
  have hun (r : ℤ) : uncollected r ((k, a) :: h) = uncollected r h := by
    conv_lhs => unfold uncollected
    rw [hcode]
    simp [hrun]
  constructor
  · exact hg.tid_lt
  · exact hg.tid_inj
  · simpa only [hc, he, hun] using hg.fresh
  · simpa only [hc] using hg.child_lt
  · simpa only [hc] using hg.child_inj
  · simpa only [hun] using hg.collected
  · intro p u q x hu hau huq hx hax
    obtain ⟨h₁, h₂, h₃⟩ := hg.latest p u q x hu hau huq hx hax
    rw [hc, waited_return hcaller hret]
    refine ⟨h₁, h₂, ?_⟩
    rintro (hw | ⟨he, -⟩)
    · exact h₃ hw
    · obtain rfl := hg.tid_inj _ _ _ _ ht hx he
      exact hn.childless hu hau huq
  · intro p x hx hax hpx
    rw [hc] at hpx
    rw [he, waited_return hcaller hret]
    have hsame : (Waited x.tid (pendingTid x) h ∨
        t.tid = x.tid ∧ tid = pendingTid x ∧ pendingTid x ∈ children x.tid h) ↔
          Waited x.tid (pendingTid x) h := by
      refine or_iff_left ?_
      rintro ⟨htid, hp, -⟩
      obtain rfl := hg.tid_inj _ _ _ _ ht hx htid
      cases ht.symm.trans hx
      exact hpend hp.symm
    rw [hsame]
    exact hg.pending p x hx hax hpx
  · exact hg.wait

theorem Ghost.reset {v : ℤ} (hg : Ghost h m next) (hn : Nest m top) (ht : m top = .thread t)
    (hpend : pendingTid t = tid) (hpend' : pendingTid t' = tid) (htid : t'.tid = t.tid)
    (hparent : t'.parent = t.parent) (hexit : t'.childExit = -1) (hwait : WaitOk t')
    (hcaller : k.callerTid = some t.tid) (hret : k.waitReturn .run = some (tid, v)) :
    Ghost ((k, .run) :: h) (update m top (.thread t')) next := by
  have hc (r : ℤ) : children r ((k, .run) :: h) = children r h := children_silent rfl
  have he (c : ℤ) : exitCode c ((k, .run) :: h) = exitCode c h := exitCode_silent rfl
  have hun (r : ℤ) : uncollected r ((k, .run) :: h) =
      if t.tid = r then -1 else uncollected r h := by
    conv_lhs => unfold uncollected
    rw [hcaller, hret]
    simp [Kernel.exitCodeOf]
  have hat := hn.alive_summit ht
  have hlt := hg.tid_lt top t ht
  have hback {r : Page} {x : Thread} (hx : update m top (.thread t') r = .thread x) :
      ∃ x', m r = .thread x' ∧ x.tid = x'.tid ∧ x.parent = x'.parent ∧ (Alive x → Alive x') ∧
        pendingTid x = pendingTid x' ∧
          (r = top ∧ x.childExit = -1 ∨ r ≠ top ∧ t.tid ≠ x.tid ∧ x = x') := by
    rcases update_thread hx with ⟨rfl, rfl⟩ | ⟨hne, hx⟩
    · exact ⟨t, ht, htid, hparent, fun _ => hat, hpend'.trans hpend.symm, .inl ⟨rfl, hexit⟩⟩
    · exact ⟨x, hx, rfl, rfl, id, rfl,
        .inr ⟨hne, fun h => hne (hg.tid_inj top r t x ht hx h).symm, rfl⟩⟩
  constructor
  · intro r x hx
    obtain ⟨x', hx', h₁, -⟩ := hback hx
    rw [h₁]
    exact hg.tid_lt r x' hx'
  · intro r s x y hx hy hxy
    obtain ⟨x', hx', h₁, -⟩ := hback hx
    obtain ⟨y', hy', h₂, -⟩ := hback hy
    exact hg.tid_inj r s x' y' hx' hy' (h₁.symm.trans (hxy.trans h₂))
  · intro r hr
    rw [hc, he, hun, if_neg (by omega)]
    exact hg.fresh r hr
  · simpa only [hc] using hg.child_lt
  · simpa only [hc] using hg.child_inj
  · intro r x hx hax
    obtain ⟨x', hx', h₁, -, h₃, -, h₅⟩ := hback hx
    rw [hun]
    rcases h₅ with ⟨rfl, hxe⟩ | ⟨-, hne, rfl⟩
    · cases ht.symm.trans hx'
      rw [if_pos h₁.symm, hxe]
    · rw [if_neg hne]
      exact hg.collected r x hx' hax
  · intro r x s y hx hax hxs hy hay
    obtain ⟨x', hx', h₁, h₂, h₃, -⟩ := hback hx
    obtain ⟨y', hy', h₁', -, h₃', h₄', h₅⟩ := hback hy
    obtain ⟨g₁, g₂, g₃⟩ := hg.latest r x' s y' hx' (h₃ hax) (h₂ ▸ hxs) hy' (h₃' hay)
    rw [hc, waited_return hcaller hret, h₁, h₁', h₄']
    refine ⟨g₁, g₂, ?_⟩
    rintro (hw | ⟨hty, -⟩)
    · exact g₃ hw
    · obtain rfl := hg.tid_inj _ _ _ _ ht hy' hty
      exact hn.childless hx' (h₃ hax) (h₂ ▸ hxs)
  · intro r x hx hax hpx
    obtain ⟨x', hx', h₁, -, h₃, h₄, h₅⟩ := hback hx
    rw [hc, h₁, h₄] at hpx
    rw [waited_return hcaller hret, he, h₁, h₄]
    rcases h₅ with ⟨rfl, hxe⟩ | ⟨-, hne, rfl⟩
    · cases ht.symm.trans hx'
      refine ⟨fun _ => hxe, fun hw => (hw (.inr ⟨rfl, hpend.symm, hpx⟩)).elim⟩
    · have hsame : (Waited x.tid (pendingTid x) h ∨
          t.tid = x.tid ∧ tid = pendingTid x ∧ pendingTid x ∈ children x.tid h) ↔
            Waited x.tid (pendingTid x) h := or_iff_left fun hw => hne hw.1
      rw [hsame]
      exact hg.pending r x hx' hax hpx
  · intro r x hx
    rcases update_thread hx with ⟨rfl, rfl⟩ | ⟨-, hx⟩
    · exact hwait
    · exact hg.wait r x hx

theorem waitReturn_eq (ht : k.page k.current = .thread t) : k.waitReturn a =
    match a, t.next with
    | .wait tid, _ => if t.childTid = tid then none else some (tid, -1)
    | .run, .waitReset tid exit => some (tid, exit)
    | _, _ => none := by
  unfold Kernel.waitReturn
  rw [Kernel.thread?_eq.mpr ht]
  rfl

theorem Ghost.other {v : UInt32} (hg : Ghost h m next) :
    Ghost h (update m p (.other v)) next := by
  have hback {q : Page} {u : Thread} (hu : update m p (.other v) q = .thread u) :
      m q = .thread u := by
    rw [Function.update_apply] at hu
    split at hu
    · cases hu
    · exact hu
  exact ⟨fun q u hu => hg.tid_lt q u (hback hu),
    fun q r u v hu hv => hg.tid_inj q r u v (hback hu) (hback hv), hg.fresh, hg.child_lt,
    hg.child_inj, fun q u hu => hg.collected q u (hback hu),
    fun p u q t hu ha hq ht => hg.latest p u q t (hback hu) ha hq (hback ht),
    fun p t ht => hg.pending p t (hback ht), fun p t ht => hg.wait p t (hback ht)⟩

theorem Downs.silent (hd : Downs t s) (ht : k.page k.current = .thread t) : Silent k .run := by
  cases hd with
  | execute hn => simp [Silent, Kernel.startedTid, Kernel.exitCodeOf, waitReturn_eq ht, hn]
  | wait hn => simp [Silent, Kernel.startedTid, Kernel.exitCodeOf, waitReturn_eq ht, hn]

theorem Downs.waitOk (hd : Downs t s) (hw : WaitOk t) : WaitOk { t with next := s } := by
  cases hd with
  | execute => trivial
  | wait hn =>
      unfold WaitOk at hw
      rw [hn] at hw
      exact hw

theorem Downs.pendingTid (hd : Downs t s) :
    Lab3.pendingTid { t with next := s } = Lab3.pendingTid t := by
  cases hd <;> simp [Lab3.pendingTid, *]

theorem ghost_move (hi : Inv k.page top) (hg : Ghost h k.page k.nextTid)
    (ht : k.page k.current = .thread t) (hm : Moves k t a k') :
    Ghost ((k, a) :: h) k'.page k'.nextTid := by
  have hcaller := callerTid_eq ht
  cases hm with
  | noCopy => exact hg.silent ⟨rfl, rfl, waitReturn_eq ht⟩
  | @noWait tid hn hne =>
      obtain rfl := hi.eq_top ht (by simp [Alive, hn]) (by simp [Executing, hn])
      have hret : k.waitReturn (.wait tid) = some (tid, -1) := by
        rw [waitReturn_eq ht]
        simp [hne]
      refine hg.refused hi.nest ht ?_ hcaller hret rfl rfl (by simp)
      simpa [pendingTid, hn] using hne
  | @goes a s hgo hne =>
      obtain ⟨ha, hex⟩ := goes_alive hgo
      obtain rfl := hi.eq_top ht ha hex
      have hsilent : Silent k a := by
        cases hgo <;> simp [Silent, Kernel.startedTid, Kernel.exitCodeOf, waitReturn_eq ht, *]
      refine (hg.silent hsilent).assign ht rfl rfl rfl (fun _ => ha) ?_ ?_
      · have hw := hg.wait _ t ht
        cases hgo with
        | noThread => trivial
        | wait _ he => exact he
        | loaded => trivial
        | failed => trivial
        | threadExit => trivial
        | waitRead hn =>
            unfold WaitOk at hw
            rw [hn] at hw
            exact ⟨hw, rfl⟩
      · cases hgo with
        | noThread => exact .inr ⟨rfl, fun q u => hi.nest.childless⟩
        | _ => simp [pendingTid, *]
  | @create p w hn hp =>
      obtain rfl := hi.eq_top ht (by simp [Alive, hn]) (by simp [Executing, hn])
      exact hg.create hi.nest ht hp rfl hcaller rfl (waitReturn_eq ht) rfl rfl rfl rfl
  | unblock hn =>
      have hsilent : Silent k .run := by
        simp [Silent, Kernel.startedTid, Kernel.exitCodeOf, waitReturn_eq ht, hn]
      exact (hg.silent hsilent).assign ht rfl rfl rfl (fun _ => by simp [Alive, hn])
        trivial (.inl (by simp [pendingTid, hn]))
  | setChildTid hn =>
      have hsilent : Silent k .run := by
        simp [Silent, Kernel.startedTid, Kernel.exitCodeOf, waitReturn_eq ht, hn]
      exact (hg.silent hsilent).assign ht rfl rfl rfl (fun _ => by simp [Alive, hn])
        trivial (.inl (by simp [pendingTid, hn]))
  | @take s p u hd hl hu hv =>
      have hne : k.current ≠ p := by
        rintro rfl
        exact (hi.irreflexive _ t ht).2 s hd hl
      have hg₁ := (hg.silent (hd.silent ht)).assign (x := { u with
        parentLock := ⟨u.parentLock.value - 1, u.parentLock.waiters⟩ }) hu rfl rfl rfl id
        (hg.wait _ u hu) (.inl rfl)
      exact hg₁.assign ((Function.update_of_ne hne ..).trans ht) rfl rfl rfl (fun _ => hd.alive)
        (hd.waitOk (hg.wait _ t ht)) (.inl hd.pendingTid)
  | @takeFreed s p w hd hl hw hv =>
      have hne : k.current ≠ p := by
        rintro rfl
        cases hw.symm.trans ht
      have hg₁ := Ghost.other (p := p) (v := w - 1) (hg.silent (hd.silent ht))
      exact hg₁.assign ((Function.update_of_ne hne ..).trans ht) rfl rfl rfl (fun _ => hd.alive)
        (hd.waitOk (hg.wait _ t ht)) (.inl hd.pendingTid)
  | @block k' s p u hd hl hu hv hs =>
      rw [(schedule_page hs).1, (schedule_page hs).2]
      exact (hg.silent (hd.silent ht)).assign hu rfl rfl rfl id (hg.wait _ u hu) (.inl rfl)
  | @waitReset tid e hn =>
      obtain rfl := hi.eq_top ht (by simp [Alive, hn]) (by simp [Executing, hn])
      have hw := hg.wait _ t ht
      unfold WaitOk at hw
      rw [hn] at hw
      have hret : k.waitReturn .run = some (tid, e) := by
        rw [waitReturn_eq ht]
        simp [hn]
      refine hg.reset hi.nest ht ?_ ?_ rfl rfl rfl trivial hcaller hret
      · simp [pendingTid, hn, hw.1]
      · simp [pendingTid, hw.1]
  | @sysExit e q u hn hne hq hu =>
      have ha : Alive t := by simp [Alive, hn]
      obtain ⟨q', u', hq', hqt, hu', hau, -⟩ := hi.nest.parent _ t ht ha hne
      cases hq.symm.trans hq'
      cases hu.symm.trans hu'
      have hcq : k.current ≠ q := by
        rintro rfl
        exact hi.nest.irrefl _ t ht hq
      have hret : k.waitReturn (.sysExit e) = none := waitReturn_eq ht
      have hg₁ := hg.setExit ht ha hq hu hau (hi.below q u hu hau hqt) rfl hcaller
        (parentTid_eq ht hq hu) rfl hret
      exact hg₁.assign ((Function.update_of_ne hcq ..).trans ht) rfl rfl rfl (fun _ => ha) trivial
        (.inl (by simp [pendingTid, hn]))
  | sysExitFreed hn hne hq hw =>
      obtain ⟨q', u', hq', -, hu', -⟩ := hi.nest.parent _ t ht (by simp [Alive, hn]) hne
      cases hq.symm.trans hq'
      cases hw.symm.trans hu'
  | up hn =>
      have hsilent : Silent k .run := by
        simp [Silent, Kernel.startedTid, Kernel.exitCodeOf, waitReturn_eq ht, hn]
      exact (hg.silent hsilent).assign ht rfl rfl rfl (fun _ => by simp [Alive, hn])
        trivial (.inl (by simp [pendingTid, hn]))
  | upWake hn =>
      have hsilent : Silent k .run := by
        simp [Silent, Kernel.startedTid, Kernel.exitCodeOf, waitReturn_eq ht, hn]
      exact (hg.silent hsilent).assign ht rfl rfl rfl (fun _ => by simp [Alive, hn])
        trivial (.inl (by simp [pendingTid, hn]))
  | exit hn hs =>
      have hsilent : Silent k .run := by
        simp [Silent, Kernel.startedTid, Kernel.exitCodeOf, waitReturn_eq ht, hn]
      dsimp only
      rw [(schedule_page hs).1, (schedule_page hs).2]
      exact (hg.silent hsilent).other
  | idle hn hs =>
      have hsilent : Silent k .run := by
        simp [Silent, Kernel.startedTid, Kernel.exitCodeOf, waitReturn_eq ht, hn]
      rw [(schedule_page hs).1, (schedule_page hs).2]
      exact hg.silent hsilent
  | sleep hn hs =>
      rw [(schedule_page hs).1, (schedule_page hs).2]
      exact hg.silent ⟨rfl, rfl, waitReturn_eq ht⟩

theorem ghost_step (hi : Inv k.page top) (hg : Ghost h k.page k.nextTid)
    (hs : step a k = some k') : Ghost ((k, a) :: h) k'.page k'.nextTid := by
  rcases step_inv hi.irreflexive hs with he | ⟨t, ht, hm⟩
  · have hsilent : Silent k a := by
      have hret : k.waitReturn a = none := by
        unfold Kernel.waitReturn
        cases k.thread? k.current with
        | none => rfl
        | some t => cases he <;> rfl
      cases he <;> exact ⟨rfl, rfl, hret⟩
    cases he with
    | timer hs =>
        rw [(threadYield_page hs).1, (threadYield_page hs).2]
        exact hg.silent hsilent
    | wake => exact hg.silent hsilent
    | scribble => exact (hg.silent hsilent).other
  · exact ghost_move hi hg ht hm

theorem ghost_boot (w : Page → UInt32) : Ghost [] (boot w).page (boot w).nextTid := by
  constructor
  · intro p t ht
    rcases boot_page ht with ⟨-, rfl⟩ | ⟨-, rfl⟩
    · exact ⟨(by decide : (0 : ℤ) < 1), (by decide : (1 : ℤ) < 3)⟩
    · exact ⟨(by decide : (0 : ℤ) < 2), (by decide : (2 : ℤ) < 3)⟩
  · intro p q t u ht hu he
    rcases boot_page ht with ⟨rfl, rfl⟩ | ⟨rfl, rfl⟩
    · rcases boot_page hu with ⟨rfl, -⟩ | ⟨-, rfl⟩
      · rfl
      · cases he
    · rcases boot_page hu with ⟨-, rfl⟩ | ⟨rfl, -⟩
      · cases he
      · rfl
  · exact fun r _ => ⟨rfl, rfl, rfl⟩
  · intro r c hc
    cases hc
  · intro r r' c hc
    cases hc
  · intro p t ht ha
    rcases boot_page ht with ⟨-, rfl⟩ | ⟨-, rfl⟩ <;> rfl
  · intro p u q t hu ha hq
    rcases boot_page hu with ⟨-, rfl⟩ | ⟨-, rfl⟩
    · cases hq
    · exact (ha.2 rfl).elim
  · intro p t _ _ hc
    cases hc
  · intro p t ht
    rcases boot_page ht with ⟨-, rfl⟩ | ⟨-, rfl⟩ <;> trivial

/-- The memory agrees with the history in every run. -/
theorem run_ghost (hr : Run step anyAction (boot w) h k) :
    (∃ top, Inv k.page top) ∧ Ghost h k.page k.nextTid := by
  refine hr.invariant (I := fun h k => (∃ top, Inv k.page top) ∧ Ghost h k.page k.nextTid)
    ⟨⟨_, inv_boot w⟩, ghost_boot w⟩ ?_
  rintro h k a k' - ⟨⟨top, hi⟩, hg⟩ - hs
  exact ⟨inv_step hi hs, ghost_step hi hg hs⟩

/-! ### What is returned -/

/-- The call finds what `c` has passed to `sys_exit`: `c` is `child_tid`, and either it has
called `sys_exit` or the children before it have left `-1`; or nothing but `-1` is expected of a
call for another process. -/
def Collects (t : Thread) (c : ℤ) (h : History) : Prop :=
  if t.childTid = c then
    (c ∈ children t.tid h ∧ (exitCode c h).isSome) ∨ uncollected t.tid h = -1
  else c ∉ children t.tid h ∨ Waited t.tid c h ∨ (exitCode c h).getD (-1) = -1

/-- A call that is refused by the first test. -/
theorem refused_expected (hne : t.childTid ≠ c) : -1 = expected t.tid c h ↔ Collects t c h := by
  unfold Collects expected
  rw [if_neg hne]
  split
  · rename_i hcond
    simp [hcond.1, hcond.2, eq_comm]
  · rename_i hcond
    simp only [true_iff]
    by_cases hc : c ∈ children t.tid h
    · exact .inr (.inl (by_contra fun hw => hcond ⟨hc, hw⟩))
    · exact .inl hc

theorem collected_expected (hg : Ghost h m next) (ht : m p = .thread t) (ha : Alive t)
    (hpend : pendingTid t = c) (hc : t.childTid = c) :
    t.childExit = expected t.tid c h ↔ Collects t c h := by
  have hun := hg.collected p t ht ha
  unfold Collects expected
  rw [if_pos hc, hun]
  by_cases hmem : c ∈ children t.tid h
  · obtain ⟨hwaited, hcode⟩ := hg.pending p t ht ha (hpend.symm ▸ hmem)
    rw [hpend] at hwaited hcode
    by_cases hw : Waited t.tid c h
    · rw [if_neg fun h => h.2 hw, hwaited hw]
      simp
    · rw [if_pos ⟨hmem, hw⟩]
      cases he : exitCode c h with
      | none => simp
      | some e => simp [hcode hw e he, hmem]
  · rw [if_neg fun h => hmem h.1]
    simp [hmem]

/-- The test of `semaphore_down` in `process_wait` lets the caller go on if it reads a word other
than zero from a page that is no thread's. -/
theorem waitDown_goes_on (hi : Inv k.page top) (hc : Counted k.page)
    (ht : k.page k.current = .thread t) (hn : t.next = .waitDown tid) :
    (∃ k' t', step .run k = some k' ∧ k'.page k.current = .thread t' ∧ t'.next = .waitRead tid) ↔
      ∃ p word, t.childLock = some p ∧ k.page p = .other word ∧ word ≠ 0 := by
  have hex : ¬ Executing t := by simp [Executing, hn]
  constructor
  · rintro ⟨k', t', hs, ht', hn'⟩
    obtain he | ⟨t₁, ht₁, hm⟩ := step_inv hi.irreflexive hs
    · cases he
    · cases ht.symm.trans ht₁
      cases hm with
      | goes hg =>
          cases hg with
          | waitRead h => cases hn.symm.trans h
      | unblock h => cases hn.symm.trans h
      | setChildTid h => cases hn.symm.trans h
      | take hd hl hu hv =>
          rcases hc _ t _ _ ht hd.alive hl hu with h₀ | ⟨-, he⟩
          · exact (hv h₀).elim
          · exact (hex he).elim
      | takeFreed _ hl hw hv => exact ⟨_, _, hl, hw, hv⟩
      | @block k' s p u hd hl hu _ hs =>
          -- the caller is where it was
          have hne : k.current ≠ p := by
            rintro rfl
            exact (hi.irreflexive _ t ht).2 s hd hl
          rw [(schedule_page hs).1] at ht'
          cases ht.symm.trans ((Function.update_of_ne hne ..).symm.trans ht')
          cases hn.symm.trans hn'
      | waitReset h => cases hn.symm.trans h
      | up h => cases hn.symm.trans h
      | upWake h => cases hn.symm.trans h
      | exit h => cases hn.symm.trans h
      | idle h => cases hn.symm.trans h
  · rintro ⟨p, word, hl, hw, hv⟩
    have hne : k.current ≠ p := by
      rintro rfl
      cases hw.symm.trans ht
    have hs : step .run k = some ({ k with page := update k.page p (.other (word - 1)) }.setThread
        k.current { t with next := .waitRead tid }) := by
      show k.run = _
      unfold Kernel.run Kernel.semaphoreDown
      rw [Kernel.thread?_eq.mpr ht]
      dsimp only [Option.bind_eq_bind, Option.bind_some]
      rw [hn, hl]
      dsimp only [Option.bind_some]
      rw [hw]
      dsimp only
      rw [if_neg hv, goto_eq (t := t) ((Function.update_of_ne hne ..).trans ht), hl]
    exact ⟨_, _, hs, Function.update_self .., rfl⟩

/-- **What `process_wait` returns.**  In every run a return is what it should be if and only if
the call `Collects`; and a call that passes the first test goes on to its return if and only if
the word it reads through the stale pointer is not zero. -/
theorem process_wait_returns (hr : Run step anyAction (boot w) h k)
    (ht : k.page k.current = .thread t) :
    (∀ a tid v, k.waitReturn a = some (tid, v) →
      (v = expected t.tid tid h ↔ Collects t tid h)) ∧
    ∀ tid, t.next = .waitDown tid →
      ((∃ k' t', step .run k = some k' ∧ k'.page k.current = .thread t' ∧ t'.next = .waitRead tid) ↔
        ∃ p word, t.childLock = some p ∧ k.page p = .other word ∧ word ≠ 0) := by
  obtain ⟨⟨top, hi⟩, hg⟩ := run_ghost hr
  refine ⟨fun a tid v hret => ?_, fun tid hn => ?_⟩
  · rw [waitReturn_eq ht] at hret
    split at hret
    · split at hret
      · cases hret
      · rename_i hne
        cases hret
        exact refused_expected hne
    · rename_i hn
      cases hret
      have hw := hg.wait _ t ht
      unfold WaitOk at hw
      rw [hn] at hw
      rw [hw.2]
      exact collected_expected hg ht (by simp [Alive, hn]) (by simp [pendingTid, hn, hw.1]) hw.1
    · cases hret
  · obtain ⟨top, hi, hc⟩ := reachable_counted ⟨_, hr⟩
    exact waitDown_goes_on hi hc ht hn

/-- A process in page 2 starts two processes in page 3, which exit with 5 and 7. -/
def twoChildren : List Action :=
  [.execute (.thread 2), .run, .run, .run, .loaded,
    .execute (.thread 3), .run, .run, .run, .loaded, .sysExit 5, .run, .run, .run,
    .execute (.thread 3), .run, .run, .run, .loaded, .sysExit 7, .run, .run, .run]

/-- `process_wait` returns 7 for the second of them. -/
theorem process_wait_returns_second : ∃ h k t, Run step anyAction (boot fun _ => 0) h k ∧
    k.page k.current = .thread t ∧ k.waitReturn .run = some (5, 7) ∧
    (7 = expected t.tid 5 h ↔ Collects t 5 h) := by
  have hex : (execute step (twoChildren ++ [.wait 5, .run, .run]) (boot fun _ => 0)).map
      (fun k => (k.waitReturn .run, (k.thread? k.current).isSome)) =
      some (some (5, 7), true) := by decide +kernel
  obtain ⟨k, hk, hv⟩ := Option.map_eq_some_iff.mp hex
  simp only [Prod.mk.injEq] at hv
  obtain ⟨hret, hsome⟩ := hv
  obtain ⟨t, ht⟩ := Kernel.isSome_thread?.mp hsome
  have hrun := execute_run (G := anyAction) (fun _ _ _ => trivial) Run.nil hk
  exact ⟨_, k, t, hrun, ht, hret, (process_wait_returns hrun ht).1 .run 5 7 hret⟩

/-- The exit code of the first one is lost. -/
theorem process_wait_loses_code : ∃ h k t, Run step anyAction (boot fun _ => 0) h k ∧
    k.page k.current = .thread t ∧ k.waitReturn (.wait 4) = some (4, -1) ∧
    expected t.tid 4 h = 5 := by
  have hex : (execute step twoChildren (boot fun _ => 0)).map
      (fun k => (k.waitReturn (.wait 4), k.callerTid)) = some (some (4, -1), some 3) := by
    decide +kernel
  obtain ⟨k, hk, hv⟩ := Option.map_eq_some_iff.mp hex
  simp only [Prod.mk.injEq] at hv
  obtain ⟨t, ht, htid⟩ := Option.map_eq_some_iff.mp hv.2
  refine ⟨_, k, t, execute_run (G := anyAction) (fun _ _ _ => trivial) Run.nil hk,
    Kernel.thread?_eq.mp ht, hv.1, ?_⟩
  rw [htid]
  decide +kernel

end CSE130.Lab3
