import CSE130.Lib.LinkedList
import CSE130.Lib.Transition
import Mathlib.Algebra.Ring.Nat
import Mathlib.Algebra.Ring.Int.Defs

/-! # The alarm clock of Lab 1

Any number of threads call `timer_sleep` with any number of ticks.  The kernel takes one action at
a time: the running thread goes on by one load or store, another thread is scheduled, or a timer
interrupt arrives, which may preempt the running thread.  Interrupts are on until a thread is about
to block, so a tick may come between any two loads or stores of `list_insert`.

`timer_sleep` puts the thread on `sleep_list` first and blocks it afterwards.  `Undisturbed` says
which ticks and which stores this order does not survive; in a run without them the list is whole
at every tick and every sleeping thread is woken in time. -/

namespace CSE130.Lab1

open Function (update)
open Transition

variable {τ : Type*}

/-- The `list_elem`s: the two ends of `sleep_list` and the `sleepelem` of every thread. -/
inductive Elem (τ : Type*) where
  | head
  | tail
  | sleepelem (t : τ)
  deriving DecidableEq

inductive ThreadStatus where
  | running
  | ready
  | blocked
  deriving DecidableEq

/-- Where a thread is in `timer_sleep`, with what it has in its registers there: `before` is the
argument of `list_insert`, `p` the value of `before->prev`. -/
inductive Frame (τ : Type*) where
  | outside
  | called (n : Int64)
  | added (w : Int32)
  | stored
  | inserting (before : Elem τ)
  | prevLoaded (before p : Elem τ)
  | prevStored (before : Elem τ)
  | nextStored (before : Elem τ)
  | prevReloaded (before p : Elem τ)
  | linked (before : Elem τ)
  | inserted
  | asleep

structure Kernel (τ : Type*) where
  ticks : Int64
  /-- The running thread, or `none` for the idle thread. -/
  current : Option τ
  status : τ → ThreadStatus
  waketime : τ → Int32
  sleepList : Links (Elem τ)
  frame : τ → Frame τ

/-- What a call comes to: it goes on for longer, some assertion fails, or it returns. -/
inductive Outcome (τ : Type*) where
  | running
  | panicked
  | returned (k : Kernel τ)

/-- A thread is ready when it is created; `init_thread` clears its `sleepelem`. -/
def init [DecidableEq τ] : Kernel τ where
  ticks := 0
  current := none
  status _ := .ready
  waketime _ := 0
  sleepList :=
    { next := update (fun _ => none) .head (some .tail)
      prev := update (fun _ => none) .tail (some .head) }
  frame _ := .outside

variable [DecidableEq τ]

/-- `list_remove`; its assertion `is_interior (elem)` says that both links are there. -/
def listRemove (e : Elem τ) (m : Links (Elem τ)) : Option (Links (Elem τ)) :=
  (m.prev e).bind fun p => (m.next e).bind fun q =>
    ((m.setNext p q).next e).map fun q => (m.setNext p q).setPrev q p

namespace Kernel

variable (k : Kernel τ)

/-- The thread `t` goes on to `f`. -/
def goto (t : τ) (f : Frame τ) : Kernel τ := { k with frame := update k.frame t f }

/-- `f->waketime <= timer_ticks()`. -/
def Expired (t : τ) : Prop := (k.waketime t).toInt64 ≤ k.ticks

instance (t : τ) : Decidable (k.Expired t) := inferInstanceAs (Decidable (_ ≤ _))

/-- The loop of `timer_interrupt`, from the element `e` on. -/
def wakeLoop : ℕ → Elem τ → Kernel τ → Outcome τ
  | 0, _, _ => .running
  | _ + 1, .tail, k => .returned k
  -- `list_entry` of an end of the list is no thread
  | _ + 1, .head, _ => .panicked
  | n + 1, .sleepelem f, k =>
      if k.Expired f then
        -- the assertion of `thread_unblock`
        if k.status f = .blocked then
          match listRemove (.sleepelem f) k.sleepList with
          | none => .panicked
          | some m =>
              match m.next (.sleepelem f) with
              | none => .panicked
              | some e =>
                  wakeLoop n e { k with status := update k.status f .ready, sleepList := m }
        else .panicked
      else
        match k.sleepList.next (.sleepelem f) with
        | none => .panicked
        | some e => wakeLoop n e k

def timerInterrupt (fuel : ℕ) : Outcome τ :=
  match k.sleepList.next .head with
  | none => .panicked
  | some e => wakeLoop fuel e { k with ticks := k.ticks + 1 }

/-- `thread_yield`. -/
def yield : Kernel τ :=
  match k.current with
  | none => k
  | some t => { k with status := update k.status t .ready, current := none }

/-- What the thread `t` does next in `timer_sleep`.  A null pointer stops the kernel, as does the
assertion of `list_insert`, which says that `before->prev` is there. -/
def timerSleep (t : τ) : Option (Kernel τ) :=
  match k.frame t with
  | .outside => none
  | .called n => some (k.goto t (.added (k.ticks + n).toInt32))
  | .added w => some { k.goto t .stored with waketime := update k.waketime t w }
  | .stored => (k.sleepList.next .head).map fun before => k.goto t (.inserting before)
  | .inserting before => (k.sleepList.prev before).map fun p => k.goto t (.prevLoaded before p)
  | .prevLoaded before p =>
      some { k.goto t (.prevStored before) with sleepList := k.sleepList.setPrev (.sleepelem t) p }
  | .prevStored before =>
      some { k.goto t (.nextStored before) with
        sleepList := k.sleepList.setNext (.sleepelem t) before }
  | .nextStored before => (k.sleepList.prev before).map fun p => k.goto t (.prevReloaded before p)
  | .prevReloaded before p =>
      some { k.goto t (.linked before) with sleepList := k.sleepList.setNext p (.sleepelem t) }
  | .linked before =>
      some { k.goto t .inserted with sleepList := k.sleepList.setPrev before (.sleepelem t) }
  -- `thread_block`, with interrupts off
  | .inserted => some { k.goto t .asleep with status := update k.status t .blocked, current := none }
  | .asleep => some (k.goto t .outside)

end Kernel

inductive Action (τ : Type*) where
  /-- The running thread calls `timer_sleep`. -/
  | call (n : Int64)
  /-- The running thread goes on in `timer_sleep`. -/
  | next
  /-- The running thread yields, outside `timer_sleep`. -/
  | yield
  | schedule (u : τ)
  /-- A timer interrupt, at whose end `thread_tick` may have the thread yield. -/
  | tick (fuel : ℕ) (preempt : Bool)

def step : Action τ → Kernel τ → Option (Kernel τ)
  | .call n, k => k.current.bind fun t =>
      match k.frame t with
      | .outside => some (k.goto t (.called n))
      | _ => none
  | .next, k => k.current.bind fun t => k.timerSleep t
  | .yield, k => k.current.bind fun t =>
      match k.frame t with
      | .outside => some k.yield
      | _ => none
  | .schedule u, k =>
      if k.current = none ∧ k.status u = .ready then
        some { k with status := update k.status u .running, current := some u }
      else none
  | .tick fuel preempt, k =>
      match k.timerInterrupt fuel with
      | .returned k' => some (if preempt then k'.yield else k')
      | _ => none

/-! ### The threads on the list -/

/-- `sleep_list` holds the threads `l`, each once. -/
def Holds (m : Links (Elem τ)) (l : List τ) : Prop :=
  l.Nodup ∧ Linked m .head (l.map .sleepelem) .tail

variable {k k' : Kernel τ} {m m' : Links (Elem τ)} {t u : τ} {l kept rest : List τ} {n fuel : ℕ}
  {e p before : Elem τ} {f : Frame τ}

theorem Kernel.goto_self (k : Kernel τ) (t : τ) (f : Frame τ) : (k.goto t f).frame t = f :=
  Function.update_self ..

theorem Kernel.goto_of_ne (k : Kernel τ) (f : Frame τ) (h : u ≠ t) :
    (k.goto t f).frame u = k.frame u := Function.update_of_ne h ..

omit [DecidableEq τ] in
theorem nodup_ends (h : l.Nodup) :
    (Elem.head :: l.map Elem.sleepelem ++ [Elem.tail]).Nodup := by
  have hmap : (l.map Elem.sleepelem).Nodup := h.map fun t u htu => Elem.sleepelem.inj htu
  rw [List.cons_append, List.nodup_cons]
  refine ⟨by simp, List.nodup_append.mpr ⟨hmap, List.nodup_singleton _, ?_⟩⟩
  intro a ha b hb
  obtain ⟨t, -, rfl⟩ := List.mem_map.mp ha
  rw [List.mem_singleton.mp hb]
  nofun

theorem Holds.listRemove (h : Holds m (kept ++ t :: rest)) :
    ∃ m' q, (rest.map Elem.sleepelem ++ [Elem.tail]).head? = some q ∧
      CSE130.Lab1.listRemove (.sleepelem t) m = some m' ∧ m'.next (.sleepelem t) = some q ∧
      Holds m' (kept ++ rest) ∧
      ∀ u ∉ kept ++ t :: rest, m'.next (.sleepelem u) = m.next (.sleepelem u) := by
  obtain ⟨hnodup, hlinked⟩ := h
  have hends := nodup_ends hnodup
  rw [List.map_append, List.map_cons] at hlinked hends
  obtain ⟨p, hp, q, hq, hprev, hnext, hne, hremoved⟩ := hlinked.exists_remove hends
  have hsame : (m.setNext p q).next (.sleepelem t) = some q :=
    (Links.setNext_next_of_ne hne.symm).trans hnext
  refine ⟨(m.setNext p q).setPrev q p, q, hq, ?_, ?_, ⟨?_, ?_⟩, fun u hu => ?_⟩
  · simp only [Lab1.listRemove, hprev, hnext, Option.bind_some, hsame, Option.map_some]
  · exact hsame
  · exact hnodup.sublist (List.Sublist.append_left (List.sublist_cons_self t rest) kept)
  · rwa [List.map_append]
  · refine Links.setNext_next_of_ne ?_
    rintro rfl
    rcases List.mem_cons.mp hp with hp | hp
    · cases hp
    · obtain ⟨v, hv, hvu⟩ := List.mem_map.mp hp
      cases hvu
      exact hu (List.mem_append_left _ hv)

omit [DecidableEq τ] in
/-- The links of a thread that is not on the list do not matter. -/
theorem Holds.congr (h : Holds m l) (ht : t ∉ l)
    (hm : ∀ e ≠ Elem.sleepelem t, m'.next e = m.next e ∧ m'.prev e = m.prev e) : Holds m' l := by
  have hne : ∀ e ∈ Elem.head :: l.map Elem.sleepelem ++ [Elem.tail], e ≠ .sleepelem t := by
    rintro e he rfl
    simp only [List.cons_append, List.mem_cons, List.mem_append, List.mem_map, reduceCtorEq,
      List.not_mem_nil, or_false, false_or, Elem.sleepelem.injEq, exists_eq_right] at he
    exact ht he
  refine ⟨h.1, h.2.congr (fun e he => (hm e (hne e ?_)).1) fun e he => (hm e (hne e ?_)).2⟩
  · exact List.mem_append_left _ he
  · exact List.mem_cons_of_mem _ he

theorem Holds.insert (h : Holds m l) (ht : t ∉ l)
    (hbefore : before = .tail ∨ ∃ u ∈ l, before = .sleepelem u)
    (hnext : m.next (.sleepelem t) = some before) (hprev : m.prev (.sleepelem t) = some p)
    (hp : m.prev before = some p) :
    (∀ u ∉ l, p ≠ .sleepelem u) ∧ ∃ l', l'.Perm (t :: l) ∧
      Holds ((m.setNext p (.sleepelem t)).setPrev before (.sleepelem t)) l' := by
  obtain ⟨hnodup, hlinked⟩ := h
  have hends := nodup_ends hnodup
  have hx : Elem.sleepelem t ∉ Elem.head :: l.map Elem.sleepelem ++ [Elem.tail] := by
    simpa using ht
  have hmem : ∀ q ∈ Elem.head :: l.map Elem.sleepelem, ∀ u ∉ l, q ≠ .sleepelem u := by
    rintro q hq u hu rfl
    simp only [List.mem_cons, List.mem_map, reduceCtorEq, false_or, Elem.sleepelem.injEq,
      exists_eq_right] at hq
    exact hu hq
  obtain rfl | ⟨u, hu, rfl⟩ := hbefore
  · obtain ⟨q, hq, hprev'⟩ := hlinked.exists_prev
    obtain rfl : q = p := Option.some.inj (hprev'.symm.trans hp)
    refine ⟨hmem q hq, l ++ [t], List.perm_append_singleton t l, ?_, ?_⟩
    · exact (List.perm_append_singleton t l).nodup_iff.mpr (List.nodup_cons.mpr ⟨ht, hnodup⟩)
    · rw [List.map_append]
      exact hlinked.insert hends hx hnext hprev hp
  · obtain ⟨l₁, l₂, rfl⟩ := List.append_of_mem hu
    rw [List.map_append, List.map_cons] at hlinked hends hx hmem
    obtain ⟨q, hq, hprev'⟩ := (linked_append.mp hlinked).1.exists_prev
    obtain rfl : q = p := Option.some.inj (hprev'.symm.trans hp)
    refine ⟨hmem q ?_, l₁ ++ t :: u :: l₂, List.perm_middle, ?_, ?_⟩
    · rw [← List.cons_append]
      exact List.mem_append_left _ hq
    · exact List.perm_middle.nodup_iff.mpr (List.nodup_cons.mpr ⟨ht, hnodup⟩)
    · rw [List.map_append, List.map_cons, List.map_cons]
      exact hlinked.insert_before hends hx hnext hprev hp

/-! ### The timer interrupt -/

/-- The loop has come past the threads `kept` and has woken those of `rest` that had expired. -/
structure Woken (k : Kernel τ) (kept rest : List τ) (k' : Kernel τ) : Prop where
  ticks : k'.ticks = k.ticks
  current : k'.current = k.current
  waketime : k'.waketime = k.waketime
  frame : k'.frame = k.frame
  status : ∀ t, k'.status t = if t ∈ rest ∧ k.Expired t then .ready else k.status t
  holds : Holds k'.sleepList (kept ++ rest.filter fun t => ¬ k.Expired t)
  next : ∀ t ∉ kept ++ rest, k'.sleepList.next (.sleepelem t) = k.sleepList.next (.sleepelem t)

/-- An expired thread is woken first, or a thread that has not expired is kept first. -/
theorem Woken.wake (hexp : k.Expired t) (ht : t ∉ rest)
    (hnext : ∀ u ∉ kept ++ t :: rest, m.next (.sleepelem u) = k.sleepList.next (.sleepelem u))
    (h : Woken { k with status := update k.status t .ready, sleepList := m } kept rest k') :
    Woken k kept (t :: rest) k' where
  ticks := h.ticks
  current := h.current
  waketime := h.waketime
  frame := h.frame
  status u := by
    rw [h.status u]
    change (if u ∈ rest ∧ k.Expired u then _ else update k.status t .ready u) = _
    by_cases hut : u = t
    · subst hut
      rw [if_neg fun hu => ht hu.1, Function.update_self, if_pos ⟨List.mem_cons_self, hexp⟩]
    · simp only [Function.update_of_ne hut, List.mem_cons, hut, false_or]
  holds := by
    rw [List.filter_cons_of_neg (by simpa using hexp)]
    exact h.holds
  next u hu := by
    rw [h.next u fun hmem => hu ?_]
    · exact hnext u hu
    · simp only [List.mem_append, List.mem_cons] at hmem ⊢
      tauto

theorem Woken.keep (hexp : ¬ k.Expired t) (h : Woken k (kept ++ [t]) rest k') :
    Woken k kept (t :: rest) k' where
  ticks := h.ticks
  current := h.current
  waketime := h.waketime
  frame := h.frame
  status u := by
    rw [h.status u]
    by_cases hut : u = t
    · subst hut
      rw [if_neg fun hu => hexp hu.2, if_neg fun hu => hexp hu.2]
    · simp only [List.mem_cons, hut, false_or]
  holds := by
    have hholds := h.holds
    rw [List.append_assoc, List.singleton_append] at hholds
    rwa [List.filter_cons_of_pos (by simpa using hexp)]
  next u hu := h.next u (by rwa [List.append_assoc, List.singleton_append])

theorem wakeLoop_cases (rest : List τ) : ∀ (kept : List τ) (k : Kernel τ) (fuel : ℕ) (e : Elem τ),
    Holds k.sleepList (kept ++ rest) → (∀ t ∈ rest, k.Expired t → k.status t = .blocked) →
    (rest.map Elem.sleepelem ++ [Elem.tail]).head? = some e →
    (fuel ≤ rest.length ∧ Kernel.wakeLoop fuel e k = .running) ∨
      rest.length < fuel ∧ ∃ k', Kernel.wakeLoop fuel e k = .returned k' ∧
        Woken k kept rest k' := by
  induction rest with
  | nil =>
      intro kept k fuel e hholds hblocked he
      obtain rfl : Elem.tail = e := Option.some.inj he
      cases fuel with
      | zero => exact .inl ⟨Nat.le_refl 0, rfl⟩
      | succ n =>
          exact .inr ⟨Nat.succ_pos n, k, rfl, rfl, rfl, rfl, rfl, fun t => by simp, hholds,
            fun _ _ => rfl⟩
  | cons t rest ih =>
      intro kept k fuel e hholds hblocked he
      obtain rfl : Elem.sleepelem t = e := Option.some.inj he
      cases fuel with
      | zero => exact .inl ⟨Nat.zero_le _, rfl⟩
      | succ n =>
          obtain ⟨m, q, hq, hremove, hnext, hholds', hsame⟩ := hholds.listRemove
          have ht : t ∉ rest := (List.nodup_cons.mp (List.nodup_append.mp hholds.1).2.1).1
          rw [List.length_cons, Nat.succ_le_succ_iff, Nat.succ_lt_succ_iff, Kernel.wakeLoop]
          by_cases hexp : k.Expired t
          · rw [if_pos hexp, if_pos (hblocked t List.mem_cons_self hexp)]
            simp only [hremove, hnext]
            have hblocked' : ∀ u ∈ rest, k.Expired u → update k.status t .ready u = .blocked := by
              intro u hu hexpu
              have hut : u ≠ t := by
                rintro rfl
                exact ht hu
              rw [Function.update_of_ne hut]
              exact hblocked u (List.mem_cons_of_mem t hu) hexpu
            obtain ⟨hn, hrun⟩ | ⟨hn, k', hreturned, hwoken⟩ :=
              ih kept { k with status := update k.status t .ready, sleepList := m } n q hholds'
                hblocked' hq
            · exact .inl ⟨hn, hrun⟩
            · exact .inr ⟨hn, k', hreturned, hwoken.wake hexp ht hsame⟩
          · have hq' : k.sleepList.next (.sleepelem t) = some q := by
              have hlinked := hholds.2
              rw [List.map_append, List.map_cons, linked_append] at hlinked
              exact hlinked.2.next_eq.trans hq
            rw [if_neg hexp]
            simp only [hq']
            obtain ⟨hn, hrun⟩ | ⟨hn, k', hreturned, hwoken⟩ :=
              ih (kept ++ [t]) k n q (by rwa [List.append_assoc, List.singleton_append])
                (fun u hu => hblocked u (List.mem_cons_of_mem t hu)) hq
            · exact .inl ⟨hn, hrun⟩
            · exact .inr ⟨hn, k', hreturned, hwoken.keep hexp⟩

/-- The interrupt, when the list is whole and the threads on it that have expired are blocked. -/
theorem timerInterrupt_cases (hholds : Holds k.sleepList l)
    (hblocked : ∀ t ∈ l, (k.waketime t).toInt64 ≤ k.ticks + 1 → k.status t = .blocked) (fuel : ℕ) :
    (fuel ≤ l.length ∧ k.timerInterrupt fuel = .running) ∨
      l.length < fuel ∧ ∃ k', k.timerInterrupt fuel = .returned k' ∧
        Woken { k with ticks := k.ticks + 1 } [] l k' := by
  obtain ⟨e, he⟩ : ∃ e, (l.map Elem.sleepelem ++ [Elem.tail]).head? = some e :=
    Option.isSome_iff_exists.mp (by cases l <;> rfl)
  rw [Kernel.timerInterrupt, hholds.2.next_eq, he]
  exact wakeLoop_cases l [] { k with ticks := k.ticks + 1 } fuel e hholds hblocked he

/-! ### The threads that sleep -/

/-- The first of the last two stores of `list_insert` is done. -/
def Frame.Listed : Frame τ → Prop
  | .linked _ | .inserted => True
  | _ => False

/-- The thread is not on the list, and has not to be. -/
def Frame.Private : Frame τ → Prop
  | .linked _ | .inserted | .asleep => False
  | _ => True

/-- What the thread has stored in its own `elem->next`. -/
def Frame.stored? : Frame τ → Option (Elem τ)
  | .nextStored before => some before
  | .prevReloaded before _ => some before
  | _ => none

/-- The thread is linked in and, once it has blocked, has not been woken. -/
def Kernel.OnList (k : Kernel τ) (t : τ) : Prop :=
  (k.frame t).Listed ∨ k.frame t = .asleep ∧ k.status t = .blocked

omit [DecidableEq τ] in
theorem Kernel.not_onList (h : (k.frame t).stored? = some before) : ¬ k.OnList t := by
  rintro (hl | ⟨hl, -⟩)
  · cases hf : k.frame t with
    | linked => rw [hf] at h; cases h
    | inserted => rw [hf] at h; cases h
    | _ => rw [hf] at hl; exact hl
  · rw [hl] at h
    cases h

/-- The steps that `timer_sleep` is safe from.  A tick finds no thread between the last two stores
of `list_insert`, and none that has left `list_insert` and is due before it has blocked; the first
of these stores finds `before` on the list, and before it what it was when it was read first. -/
def Undisturbed (k : Kernel τ) : Action τ → Prop
  | .tick _ _ => (∀ t before, k.frame t ≠ .linked before) ∧
      ∀ t, k.frame t = .inserted → k.ticks + 1 < (k.waketime t).toInt64
  | .next => ∀ t before p, k.current = some t → k.frame t = .prevReloaded before p →
      (before = .tail ∨ ∃ u, k.OnList u ∧ before = .sleepelem u) ∧
        k.sleepList.prev (.sleepelem t) = some p ∧ k.sleepList.prev before = some p
  | _ => True

/-- The invariant: the threads `l` are on the list. -/
structure Sleepers (k : Kernel τ) (l : List τ) : Prop where
  nodup : l.Nodup
  whole : (∀ t before, k.frame t ≠ .linked before) → Holds k.sleepList l
  linking : ∀ t before, k.frame t = .linked before →
    Holds (k.sleepList.setPrev before (.sleepelem t)) l
  linking_running : ∀ t before, k.frame t = .linked before → k.current = some t
  mem : ∀ t, t ∈ l ↔ k.OnList t
  asleep : ∀ t, k.status t = .blocked → k.frame t = .asleep
  running : ∀ t, k.current = some t ↔ k.status t = .running
  next : ∀ t before, (k.frame t).stored? = some before →
    k.sleepList.next (.sleepelem t) = some before

theorem init_sleepers : Sleepers (init : Kernel τ) [] where
  nodup := List.nodup_nil
  whole _ := ⟨List.nodup_nil, rfl, rfl⟩
  linking := nofun
  linking_running := nofun
  mem _ := iff_of_false nofun fun h => h.elim (fun h => h) fun h => nomatch h.1
  asleep := nofun
  running _ := iff_of_false nofun nofun
  next := nofun

namespace Sleepers

theorem not_linked (hk : Sleepers k l) (hcurrent : k.current = some t)
    (hf : ∀ before, k.frame t ≠ .linked before) (u : τ) (before : Elem τ) :
    k.frame u ≠ .linked before := by
  intro hu
  obtain rfl : u = t := Option.some.inj ((hk.linking_running u before hu).symm.trans hcurrent)
  exact hf before hu

theorem not_linked_goto (hk : Sleepers k l) (hcurrent : k.current = some t)
    (hf : ∀ before, f ≠ .linked before) (u : τ) (before : Elem τ) :
    (k.goto t f).frame u ≠ .linked before := by
  intro hu
  by_cases hut : u = t
  · subst hut
    rw [k.goto_self] at hu
    exact hf before hu
  · rw [k.goto_of_ne f hut] at hu
    exact hut (Option.some.inj ((hk.linking_running u before hu).symm.trans hcurrent))

/-- A thread that is not linked in goes on; it writes at most its own links. -/
theorem silent {w : τ → Int32} (hk : Sleepers k l) (hcurrent : k.current = some t)
    (ht : ¬ (k.frame t).Listed) (hf : f.Private)
    (hm : ∀ e ≠ Elem.sleepelem t, m.next e = k.sleepList.next e ∧ m.prev e = k.sleepList.prev e)
    (hnext : ∀ before, f.stored? = some before → m.next (.sleepelem t) = some before) :
    Sleepers { k.goto t f with waketime := w, sleepList := m } l := by
  have hrunning : k.status t = .running := (hk.running t).mp hcurrent
  have hself := k.goto_self t f
  have hother : ∀ u ≠ t, (k.goto t f).frame u = k.frame u := fun _ => k.goto_of_ne _
  have hnot : t ∉ l := by
    rw [hk.mem]
    rintro (h | ⟨-, h⟩)
    · exact ht h
    · rw [hrunning] at h
      cases h
  have hlinked := hk.not_linked_goto hcurrent fun before (he : f = .linked before) => by
    rw [he] at hf
    exact hf
  have hwas := hk.not_linked hcurrent fun before hf => ht (by rw [hf]; trivial)
  refine ⟨hk.nodup, fun _ => (hk.whole hwas).congr hnot hm, fun u b hu => absurd hu (hlinked u b),
    fun u b hu => absurd hu (hlinked u b), fun u => ?_, fun u hu => ?_, hk.running, fun u b hu => ?_⟩
  · rw [hk.mem]
    by_cases hut : u = t
    · subst hut
      refine iff_of_false (fun h => hnot ((hk.mem u).mpr h)) ?_
      rintro (h | ⟨-, h⟩)
      · rw [hself] at h
        cases f <;> first | exact h | exact hf
      · rw [show k.status u = .blocked from h] at hrunning
        cases hrunning
    · simp only [Kernel.OnList, hother u hut]
      rfl
  · have hut : u ≠ t := by
      rintro rfl
      rw [show k.status u = .blocked from hu] at hrunning
      cases hrunning
    exact (hother u hut).trans (hk.asleep u hu)
  · by_cases hut : u = t
    · subst hut
      rw [hself] at hu
      exact hnext b hu
    · rw [hother u hut] at hu
      exact (hm _ fun h => hut (Elem.sleepelem.inj h)).1.trans (hk.next u b hu)

theorem reschedule {s : τ → ThreadStatus} {c : Option τ} (hk : Sleepers k l)
    (hlinked : ∀ t before, k.frame t ≠ .linked before)
    (hblocked : ∀ t, s t = .blocked ↔ k.status t = .blocked)
    (hrunning : ∀ t, c = some t ↔ s t = .running) :
    Sleepers { k with status := s, current := c } l where
  nodup := hk.nodup
  whole := hk.whole
  linking := hk.linking
  linking_running t before h := absurd h (hlinked t before)
  mem t := by
    rw [hk.mem, Kernel.OnList, Kernel.OnList, hblocked]
  asleep t h := hk.asleep t ((hblocked t).mp h)
  running := hrunning
  next := hk.next

theorem yield (hk : Sleepers k l) (hlinked : ∀ t before, k.frame t ≠ .linked before) :
    Sleepers k.yield l := by
  unfold Kernel.yield
  split
  · exact hk
  · rename_i t hcurrent
    have hrunning := (hk.running t).mp hcurrent
    refine hk.reschedule hlinked (fun u => ?_) fun u => ?_
    · by_cases hut : u = t
      · subst hut
        rw [Function.update_self, hrunning]
        exact iff_of_false nofun nofun
      · rw [Function.update_of_ne hut]
    · refine iff_of_false nofun fun hu => ?_
      by_cases hut : u = t
      · subst hut
        rw [Function.update_self] at hu
        cases hu
      · rw [Function.update_of_ne hut, ← hk.running, hcurrent] at hu
        exact hut (Option.some.inj hu).symm

theorem link (hk : Sleepers k l) (hcurrent : k.current = some t)
    (hf : k.frame t = .prevReloaded before p)
    (hbefore : before = .tail ∨ ∃ u, k.OnList u ∧ before = .sleepelem u)
    (hprev : k.sleepList.prev (.sleepelem t) = some p) (hp : k.sleepList.prev before = some p) :
    ∃ l', Sleepers { k.goto t (.linked before) with
      sleepList := k.sleepList.setNext p (.sleepelem t) } l' := by
  have hnot : t ∉ l := by
    rw [hk.mem, Kernel.OnList, hf]
    rintro (h | ⟨h, -⟩) <;> cases h
  have hwas := hk.not_linked hcurrent (by rw [hf]; nofun)
  have hnext := hk.next t before (by rw [hf]; rfl)
  have hbefore' : before = .tail ∨ ∃ u ∈ l, before = .sleepelem u :=
    hbefore.imp_right fun ⟨u, hu, he⟩ => ⟨u, (hk.mem u).mpr hu, he⟩
  obtain ⟨hne, l', hperm, hholds⟩ := (hk.whole hwas).insert hnot hbefore' hnext hprev hp
  have hself := k.goto_self t (.linked before)
  have hother : ∀ u ≠ t, (k.goto t (.linked before)).frame u = k.frame u := fun _ => k.goto_of_ne _
  refine ⟨l', hholds.1, fun h => absurd hself (h t before), fun u b hu => ?_, fun u b hu => ?_,
    fun u => ?_, fun u hu => ?_, hk.running, fun u b hu => ?_⟩
  · by_cases hut : u = t
    · subst hut
      obtain rfl : before = b := Frame.linked.inj (hself.symm.trans hu)
      exact hholds
    · exact absurd ((hother u hut).symm.trans hu) (hwas u b)
  · by_cases hut : u = t
    · rw [hut]
      exact hcurrent
    · exact absurd ((hother u hut).symm.trans hu) (hwas u b)
  · rw [hperm.mem_iff, List.mem_cons]
    by_cases hut : u = t
    · subst hut
      exact iff_of_true (.inl rfl) (.inl (by rw [hself]; trivial))
    · rw [or_iff_right hut, hk.mem, Kernel.OnList, Kernel.OnList, hother u hut]
      rfl
  · have hasleep := hk.asleep u hu
    have hut : u ≠ t := by
      rintro rfl
      rw [hf] at hasleep
      cases hasleep
    exact (hother u hut).trans hasleep
  · have hut : u ≠ t := by
      rintro rfl
      rw [hself] at hu
      cases hu
    rw [hother u hut] at hu
    have hul : u ∉ l := by
      rw [hk.mem]
      exact Kernel.not_onList hu
    exact (Links.setNext_next_of_ne (hne u hul).symm).trans (hk.next u b hu)

theorem settle (hk : Sleepers k l) (hf : k.frame t = .linked before) :
    Sleepers { k.goto t .inserted with
      sleepList := k.sleepList.setPrev before (.sleepelem t) } l := by
  have hself := k.goto_self t .inserted
  have hother : ∀ u ≠ t, (k.goto t .inserted).frame u = k.frame u := fun _ => k.goto_of_ne _
  have hnone := hk.not_linked_goto (hk.linking_running t before hf) (f := .inserted) nofun
  refine ⟨hk.nodup, fun _ => hk.linking t before hf, fun u b hu => absurd hu (hnone u b),
    fun u b hu => absurd hu (hnone u b), fun u => ?_, fun u hu => ?_, hk.running, fun u b hu => ?_⟩
  · rw [hk.mem]
    by_cases hut : u = t
    · subst hut
      exact iff_of_true (.inl (by rw [hf]; trivial)) (.inl (by rw [hself]; trivial))
    · rw [Kernel.OnList, Kernel.OnList, hother u hut]
      rfl
  · have hasleep := hk.asleep u hu
    have hut : u ≠ t := by
      rintro rfl
      rw [hf] at hasleep
      cases hasleep
    exact (hother u hut).trans hasleep
  · have hut : u ≠ t := by
      rintro rfl
      rw [hself] at hu
      cases hu
    rw [hother u hut] at hu
    exact hk.next u b hu

theorem block (hk : Sleepers k l) (hcurrent : k.current = some t) (hf : k.frame t = .inserted) :
    Sleepers { k.goto t .asleep with
      status := update k.status t .blocked, current := none } l := by
  have hself := k.goto_self t .asleep
  have hother : ∀ u ≠ t, (k.goto t .asleep).frame u = k.frame u := fun _ => k.goto_of_ne _
  have hwas := hk.not_linked hcurrent (by rw [hf]; nofun)
  have hnone := hk.not_linked_goto hcurrent (f := .asleep) nofun
  refine ⟨hk.nodup, fun _ => hk.whole hwas, fun u b hu => absurd hu (hnone u b),
    fun u b hu => absurd hu (hnone u b), fun u => ?_, fun u hu => ?_, fun u => ?_, fun u b hu => ?_⟩
  · rw [hk.mem]
    by_cases hut : u = t
    · subst hut
      exact iff_of_true (.inl (by rw [hf]; trivial)) (.inr ⟨hself, Function.update_self ..⟩)
    · simp only [Kernel.OnList, hother u hut, Function.update_of_ne hut]
  · by_cases hut : u = t
    · rw [hut]
      exact hself
    · exact (hother u hut).trans (hk.asleep u ((Function.update_of_ne hut ..).symm.trans hu))
  · refine iff_of_false nofun fun hu => ?_
    by_cases hut : u = t
    · subst hut
      cases (Function.update_self ..).symm.trans hu
    · have hu' : k.status u = .running := (Function.update_of_ne hut ..).symm.trans hu
      rw [← hk.running, hcurrent] at hu'
      exact hut (Option.some.inj hu').symm
  · have hut : u ≠ t := by
      rintro rfl
      rw [hself] at hu
      cases hu
    rw [hother u hut] at hu
    exact hk.next u b hu

theorem blocked (hk : Sleepers k l) (hlinked : ∀ t before, k.frame t ≠ .linked before)
    (hdue : ∀ t, k.frame t = .inserted → k.ticks + 1 < (k.waketime t).toInt64) (ht : t ∈ l)
    (hexp : (k.waketime t).toInt64 ≤ k.ticks + 1) : k.status t = .blocked := by
  rw [hk.mem] at ht
  obtain h | ⟨-, h⟩ := ht
  · cases hf : k.frame t <;> rw [hf] at h <;> try cases h
    · exact absurd hf (hlinked t _)
    · have hlt := hdue t hf
      rw [Int64.lt_iff_toInt_lt] at hlt
      rw [Int64.le_iff_toInt_le] at hexp
      omega
  · exact h

theorem woken (hk : Sleepers k l) (hlinked : ∀ t before, k.frame t ≠ .linked before)
    (hdue : ∀ t, k.frame t = .inserted → k.ticks + 1 < (k.waketime t).toInt64)
    (hw : Woken { k with ticks := k.ticks + 1 } [] l k') :
    Sleepers k' (l.filter fun t => ¬ Kernel.Expired { k with ticks := k.ticks + 1 } t) where
  nodup := hw.holds.1
  whole _ := hw.holds
  linking t before h := absurd (hw.frame ▸ h) (hlinked t before)
  linking_running t before h := absurd (hw.frame ▸ h) (hlinked t before)
  mem t := by
    rw [List.mem_filter, Kernel.OnList, hw.frame, hw.status, decide_eq_true_iff]
    by_cases ht : t ∈ l
    · by_cases hexp : Kernel.Expired { k with ticks := k.ticks + 1 } t
      · have hb := hk.blocked hlinked hdue ht hexp
        rw [if_pos ⟨ht, hexp⟩]
        refine iff_of_false (fun h => h.2 hexp) ?_
        rintro (h | ⟨-, h⟩)
        · change (k.frame t).Listed at h
          rw [hk.asleep t hb] at h
          exact h
        · cases h
      · rw [if_neg fun h => hexp h.2, and_iff_left hexp, hk.mem]
        rfl
    · rw [if_neg fun h => ht h.1]
      refine iff_of_false (fun h => ht h.1) fun h => ht ((hk.mem t).mpr h)
  asleep t h := by
    rw [hw.frame]
    rw [hw.status] at h
    split at h
    · cases h
    · exact hk.asleep t h
  running t := by
    rw [hw.current, hw.status]
    split
    · rename_i h
      have hb := hk.blocked hlinked hdue h.1 h.2
      refine iff_of_false (fun hc => ?_) nofun
      have hr := (hk.running t).mp hc
      rw [hb] at hr
      cases hr
    · exact hk.running t
  next t before h := by
    rw [hw.frame] at h
    have ht : t ∉ [] ++ l := by
      rw [List.nil_append, hk.mem]
      exact Kernel.not_onList h
    exact (hw.next t ht).trans (hk.next t before h)

end Sleepers

/-! ### Steps and runs -/

/-- What an action does to a blocked thread and to the clock. -/
structure Kept (k k' : Kernel τ) : Prop where
  ticks : k'.ticks = k.ticks
  waketime : ∀ t, k.status t = .blocked → k'.waketime t = k.waketime t

theorem Sleepers.timerSleep (hk : Sleepers k l) (hcurrent : k.current = some t)
    (hg : Undisturbed k .next) (hs : k.timerSleep t = some k') :
    (∃ l', Sleepers k' l') ∧ Kept k k' := by
  have hrunning : k.status t = .running := (hk.running t).mp hcurrent
  have hsame : ∀ e ≠ Elem.sleepelem t, k.sleepList.next e = k.sleepList.next e ∧
      k.sleepList.prev e = k.sleepList.prev e := fun e _ => ⟨rfl, rfl⟩
  have hkept : ∀ {k' : Kernel τ}, k'.ticks = k.ticks → k'.waketime = k.waketime → Kept k k' :=
    fun hticks hwaketime => ⟨hticks, fun u _ => congrFun hwaketime u⟩
  unfold Kernel.timerSleep at hs
  cases hf : k.frame t with
  | outside =>
      rw [hf] at hs
      cases hs
  | called n =>
      rw [hf] at hs
      cases hs
      exact ⟨⟨l, hk.silent hcurrent (by rw [hf]; exact id) trivial hsame nofun⟩, hkept rfl rfl⟩
  | added w =>
      rw [hf] at hs
      cases hs
      refine ⟨⟨l, hk.silent hcurrent (by rw [hf]; exact id) trivial hsame nofun⟩, rfl, ?_⟩
      intro u hu
      have hut : u ≠ t := by
        rintro rfl
        rw [hrunning] at hu
        cases hu
      exact Function.update_of_ne hut ..
  | stored =>
      rw [hf] at hs
      obtain ⟨before, -, rfl⟩ := Option.map_eq_some_iff.mp hs
      exact ⟨⟨l, hk.silent hcurrent (by rw [hf]; exact id) trivial hsame nofun⟩, hkept rfl rfl⟩
  | inserting before =>
      rw [hf] at hs
      obtain ⟨p, -, rfl⟩ := Option.map_eq_some_iff.mp hs
      exact ⟨⟨l, hk.silent hcurrent (by rw [hf]; exact id) trivial hsame nofun⟩, hkept rfl rfl⟩
  | prevLoaded before p =>
      rw [hf] at hs
      cases hs
      refine ⟨⟨l, hk.silent hcurrent (by rw [hf]; exact id) trivial (fun e he => ?_) nofun⟩,
        hkept rfl rfl⟩
      exact ⟨rfl, Links.setPrev_prev_of_ne he⟩
  | prevStored before =>
      rw [hf] at hs
      cases hs
      refine ⟨⟨l, hk.silent hcurrent (by rw [hf]; exact id) trivial (fun e he => ?_) ?_⟩,
        hkept rfl rfl⟩
      · exact ⟨Links.setNext_next_of_ne he, rfl⟩
      · rintro b hb
        obtain rfl : before = b := Option.some.inj hb
        exact Links.setNext_next_self ..
  | nextStored before =>
      rw [hf] at hs
      obtain ⟨p, -, rfl⟩ := Option.map_eq_some_iff.mp hs
      refine ⟨⟨l, hk.silent hcurrent (by rw [hf]; exact id) trivial hsame ?_⟩, hkept rfl rfl⟩
      rintro b hb
      obtain rfl : before = b := Option.some.inj hb
      exact hk.next t before (by rw [hf]; rfl)
  | prevReloaded before p =>
      rw [hf] at hs
      cases hs
      obtain ⟨hbefore, hprev, hp⟩ := hg t before p hcurrent hf
      exact ⟨hk.link hcurrent hf hbefore hprev hp, hkept rfl rfl⟩
  | linked before =>
      rw [hf] at hs
      cases hs
      exact ⟨⟨l, hk.settle hf⟩, hkept rfl rfl⟩
  | inserted =>
      rw [hf] at hs
      cases hs
      exact ⟨⟨l, hk.block hcurrent hf⟩, hkept rfl rfl⟩
  | asleep =>
      rw [hf] at hs
      cases hs
      exact ⟨⟨l, hk.silent hcurrent (by rw [hf]; exact id) trivial hsame nofun⟩, hkept rfl rfl⟩

/-- What a tick does: it returns, and who is still blocked has not expired. -/
structure Ticked (k k' : Kernel τ) : Prop where
  ticks : k'.ticks = k.ticks + 1
  waketime : k'.waketime = k.waketime
  due : ∀ t, k'.status t = .blocked → k'.ticks < (k'.waketime t).toInt64

theorem Sleepers.ticked (hk : Sleepers k l) (hw : Woken { k with ticks := k.ticks + 1 } [] l k') :
    Ticked k k' := by
  refine ⟨hw.ticks, hw.waketime, fun t ht => ?_⟩
  rw [hw.ticks, hw.waketime]
  rw [hw.status] at ht
  split at ht
  · cases ht
  · rename_i h
    have hmem : t ∈ l := (hk.mem t).mpr (.inr ⟨hk.asleep t ht, ht⟩)
    exact Int64.not_le.mp fun hexp => h ⟨hmem, hexp⟩

theorem yield_ticks : k.yield.ticks = k.ticks ∧ k.yield.waketime = k.waketime := by
  unfold Kernel.yield
  split <;> exact ⟨rfl, rfl⟩

theorem yield_blocked (h : k.yield.status t = .blocked) : k.status t = .blocked := by
  unfold Kernel.yield at h
  split at h
  · exact h
  · rename_i u _
    by_cases htu : t = u
    · subst htu
      cases (Function.update_self ..).symm.trans h
    · exact (Function.update_of_ne htu ..).symm.trans h

theorem Ticked.yield (h : Ticked k k') : Ticked k k'.yield := by
  refine ⟨yield_ticks.1.trans h.ticks, yield_ticks.2.trans h.waketime, fun t ht => ?_⟩
  rw [yield_ticks.1, yield_ticks.2]
  exact h.due t (yield_blocked ht)

theorem Sleepers.tick {preempt : Bool} (hk : Sleepers k l) (hg : Undisturbed k (.tick fuel preempt))
    (hs : step (.tick fuel preempt) k = some k') : (∃ l', Sleepers k' l') ∧ Ticked k k' := by
  have hblocked := fun t (ht : t ∈ l) => hk.blocked hg.1 hg.2 ht
  obtain ⟨-, hrun⟩ | ⟨-, k₁, hreturned, hw⟩ :=
    timerInterrupt_cases (hk.whole hg.1) hblocked fuel
  · simp only [step, hrun] at hs
    cases hs
  · simp only [step, hreturned] at hs
    obtain rfl := Option.some.inj hs
    have hwoken := hk.woken hg.1 hg.2 hw
    have hnone : ∀ t before, k₁.frame t ≠ .linked before := fun t before h =>
      hg.1 t before (hw.frame ▸ h)
    cases preempt with
    | false => exact ⟨⟨_, hwoken⟩, hk.ticked hw⟩
    | true => exact ⟨⟨_, hwoken.yield hnone⟩, (hk.ticked hw).yield⟩

/-- The action is a timer interrupt. -/
def Action.isTick : Action τ → Bool
  | .tick _ _ => true
  | _ => false

/-- **What one step preserves.** -/
theorem Sleepers.step {a : Action τ} (hk : Sleepers k l) (hg : Undisturbed k a)
    (hs : step a k = some k') :
    (∃ l', Sleepers k' l') ∧ if a.isTick then Ticked k k' else Kept k k' := by
  cases a with
  | call n =>
      obtain ⟨t, hcurrent, hs⟩ := Option.bind_eq_some_iff.mp hs
      split at hs
      · rename_i hf
        cases hs
        exact ⟨⟨l, hk.silent hcurrent (by rw [hf]; exact id) trivial (fun e _ => ⟨rfl, rfl⟩) nofun⟩,
          rfl, fun _ _ => rfl⟩
      · cases hs
  | next =>
      obtain ⟨t, hcurrent, hs⟩ := Option.bind_eq_some_iff.mp hs
      exact hk.timerSleep hcurrent hg hs
  | yield =>
      obtain ⟨t, hcurrent, hs⟩ := Option.bind_eq_some_iff.mp hs
      split at hs
      · rename_i hf
        obtain rfl := Option.some.inj hs
        refine ⟨⟨l, hk.yield fun u before hu => ?_⟩, yield_ticks.1,
          fun u _ => congrFun yield_ticks.2 u⟩
        obtain rfl : u = t :=
          Option.some.inj ((hk.linking_running u before hu).symm.trans hcurrent)
        rw [hf] at hu
        cases hu
      · cases hs
  | schedule u =>
      rw [Lab1.step] at hs
      split at hs
      · rename_i h
        obtain ⟨hnone, hready⟩ := h
        cases hs
        refine ⟨⟨l, hk.reschedule (fun t before ht => ?_) (fun t => ?_) fun t => ?_⟩, rfl,
          fun _ _ => rfl⟩
        · have := hk.linking_running t before ht
          rw [hnone] at this
          cases this
        · by_cases htu : t = u
          · subst htu
            rw [Function.update_self, hready]
            exact iff_of_false nofun nofun
          · rw [Function.update_of_ne htu]
        · by_cases htu : t = u
          · subst htu
            exact iff_of_true rfl (Function.update_self ..)
          · rw [Function.update_of_ne htu, ← hk.running, hnone]
            exact iff_of_false (fun h => htu (Option.some.inj h).symm) nofun
      · cases hs
  | tick fuel preempt => exact hk.tick hg hs

/-- **What a run preserves.** -/
theorem reachable_sleepers (hr : Reachable step Undisturbed init k) : ∃ l, Sleepers k l :=
  hr.invariant (I := fun k => ∃ l, Sleepers k l) ⟨[], init_sleepers⟩
    fun _ _ _ _ ⟨_, hk⟩ hg hs => (hk.step hg hs).1

/-- The number of timer interrupts in a history. -/
def ticksIn (h : List (Kernel τ × Action τ)) : ℕ := h.countP fun x => x.2.isTick

/-- While a thread is blocked its wake time stays, and no tick comes to it or leaves it behind. -/
theorem blocked_run {h : List (Kernel τ × Action τ)} (hr : Reachable step Undisturbed init k)
    (hrun : Run step Undisturbed k h k') (hh : ∀ x ∈ h, x.1.status t = .blocked)
    (hb : k'.status t = .blocked) (hmax : k.ticks.toInt + ticksIn h < 2 ^ 63) :
    k'.waketime t = k.waketime t ∧ k'.ticks.toInt = k.ticks.toInt + ticksIn h ∧
      (ticksIn h = 0 ∨ k'.ticks < (k'.waketime t).toInt64) := by
  induction hrun with
  | nil => exact ⟨rfl, by simp [ticksIn], .inl rfl⟩
  | @cons h k₁ k' a hrun hg hs ih =>
      have hcount : ticksIn ((k₁, a) :: h) = ticksIn h + if a.isTick then 1 else 0 :=
        List.countP_cons ..
      rw [hcount] at hmax ⊢
      have hb₁ : k₁.status t = .blocked := hh (k₁, a) List.mem_cons_self
      obtain ⟨hwaketime, hticks, hdue⟩ :=
        ih (fun x hx => hh x (List.mem_cons_of_mem _ hx)) hb₁ (by push_cast at hmax; omega)
      obtain ⟨l, hk⟩ := reachable_sleepers (hr.run (fun _ _ => id) hrun)
      have hstep := (hk.step hg hs).2
      cases ha : a.isTick with
      | false =>
          rw [ha, if_neg Bool.false_ne_true] at hstep
          have hwaketime' := hstep.waketime t hb₁
          rw [if_neg Bool.false_ne_true, hstep.ticks, hwaketime']
          exact ⟨hwaketime, hticks, hdue⟩
      | true =>
          rw [ha, if_pos rfl] at hstep
          rw [ha] at hmax
          have hlow := Int64.le_toInt k.ticks
          refine ⟨(congrFun hstep.waketime t).trans hwaketime, ?_, .inr (hstep.due t hb)⟩
          rw [hstep.ticks, Int64.toInt_add, hticks, if_pos rfl]
          change (k.ticks.toInt + ticksIn h + 1).bmod (2 ^ 64) = _
          rw [if_pos rfl] at hmax
          push_cast at hmax ⊢
          rw [Int.bmod_eq_of_le_mul_two (by omega) (by omega)]
          omega

/-! ### The alarm clock -/

/-- What the alarm clock is for, in the runs whose steps meet `G`.  When a tick may come, the list
is whole and holds every sleeping thread, and no assertion fails in the interrupt, which returns;
and a thread that is blocked all through a part of a run has not seen the tick it waits for. -/
def RaceFree (G : Kernel τ → Action τ → Prop) : Prop :=
  ∀ k, Reachable step G init k →
    (∀ fuel preempt, G k (.tick fuel preempt) →
      (∃ l, Holds k.sleepList l ∧ ∀ t, k.status t = .blocked → t ∈ l) ∧
      (∀ n, k.timerInterrupt n ≠ .panicked) ∧ ∃ n k', k.timerInterrupt n = .returned k') ∧
    ∀ t h k', Run step G k h k' → (∀ x ∈ h, x.1.status t = .blocked) →
      k'.status t = .blocked → k.ticks.toInt + ticksIn h < 2 ^ 63 →
      ticksIn h = 0 ∨ k.ticks.toInt + ticksIn h < (k.waketime t).toInt

/-- **The alarm clock is race-free** in every run of undisturbed steps. -/
theorem timer_sleep_race_free : RaceFree (Undisturbed (τ := τ)) := by
  intro k hr
  obtain ⟨l, hk⟩ := reachable_sleepers hr
  refine ⟨fun fuel preempt hg => ?_, fun t h k' hrun hh hb hmax => ?_⟩
  · have hcases := timerInterrupt_cases (hk.whole hg.1) fun t ht => hk.blocked hg.1 hg.2 ht
    refine ⟨⟨l, hk.whole hg.1, fun t ht => ?_⟩, fun n => ?_, ?_⟩
    · exact (hk.mem t).mpr (.inr ⟨hk.asleep t ht, ht⟩)
    · obtain ⟨-, hn⟩ | ⟨-, k', hn, -⟩ := hcases n <;> rw [hn] <;> nofun
    · obtain ⟨hn, -⟩ | ⟨-, k', hn, -⟩ := hcases (l.length + 1)
      · omega
      · exact ⟨_, k', hn⟩
  · obtain ⟨hwaketime, hticks, hdue⟩ := blocked_run hr hrun hh hb hmax
    refine hdue.imp_right fun hlt => ?_
    rwa [Int64.lt_iff_toInt_lt, hticks, hwaketime, Int32.toInt_toInt64] at hlt

/-- The only thread has called `timer_sleep (1)` and is about to block when its tick comes. -/
theorem timer_sleep_panics : ¬ RaceFree fun (_ : Kernel Unit) (_ : Action Unit) => True := by
  intro h
  have hpanic : ((execute step (.schedule () :: .call 1 :: List.replicate 9 .next) init).map
      fun k => k.timerInterrupt 2 matches .panicked) = some true := rfl
  obtain ⟨k, hk, hp⟩ := Option.map_eq_some_iff.mp hpanic
  have hr : Reachable step (fun _ _ => True) init k :=
    execute_reachable (fun _ _ _ => trivial) .refl hk
  refine ((h k hr).1 2 false trivial).2.1 2 ?_
  split at hp
  · assumption
  · cases hp

end CSE130.Lab1
