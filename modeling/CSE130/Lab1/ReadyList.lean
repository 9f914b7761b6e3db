import CSE130.Lab1.Timer

/-! # The timer interrupt of Lab 1 and the ready list

A `struct thread` has two `list_elem`s: `sleepelem`, by which it is on `sleep_list`, and
`sharedelem`, by which it is on `ready_list`.  `timer_interrupt` puts a thread that has slept long
enough on `ready_list` while it is still on `sleep_list`, removes it from there, and goes on from
the link that the removed element still holds.  The links of both lists are in one memory here, so
that a store into the wrong element would be seen. -/

namespace CSE130.Lab1.ReadyList

open Function (update)

variable {τ : Type*}

/-- The `list_elem`s of the two lists and of the threads. -/
inductive Elem (τ : Type*) where
  | sleepHead
  | sleepTail
  | readyHead
  | readyTail
  | sleepelem (t : τ)
  | sharedelem (t : τ)
  deriving DecidableEq

/-- What `timer_interrupt` reads and writes. -/
structure Kernel (τ : Type*) where
  ticks : Int64
  status : τ → ThreadStatus
  waketime : τ → Int32
  links : Links (Elem τ)

/-- What a call comes to: it goes on for longer, some assertion fails, or it returns. -/
inductive Outcome (τ : Type*) where
  | running
  | panicked
  | returned (k : Kernel τ)

variable [DecidableEq τ]

/-- `list_insert`; its assertion says that `before->prev` is there. -/
def listInsert (before elem : Elem τ) (m : Links (Elem τ)) : Option (Links (Elem τ)) :=
  (m.prev before).bind fun p =>
    let m := (m.setPrev elem p).setNext elem before
    (m.prev before).map fun p => (m.setNext p elem).setPrev before elem

/-- `list_remove`; its assertion `is_interior (elem)` says that both links are there. -/
def listRemove (elem : Elem τ) (m : Links (Elem τ)) : Option (Links (Elem τ)) :=
  (m.prev elem).bind fun p => (m.next elem).bind fun q =>
    ((m.setNext p q).next elem).map fun q => (m.setNext p q).setPrev q p

namespace Kernel

variable (k : Kernel τ)

/-- `f->waketime <= timer_ticks()`. -/
def Expired (t : τ) : Prop := (k.waketime t).toInt64 ≤ k.ticks

instance (t : τ) : Decidable (k.Expired t) := inferInstanceAs (Decidable (_ ≤ _))

/-- `thread_unblock`. -/
def threadUnblock (t : τ) : Option (Kernel τ) :=
  if k.status t = .blocked then
    (listInsert .readyTail (.sharedelem t) k.links).map fun m =>
      { k with links := m, status := update k.status t .ready }
  else none

/-- The loop of `timer_interrupt`, from the element `e` on. -/
def wakeLoop : ℕ → Elem τ → Kernel τ → Outcome τ
  | 0, _, _ => .running
  | n + 1, e, k =>
      match e with
      | .sleepTail => .returned k
      | .sleepelem f =>
          let woken := if k.Expired f then
              (k.threadUnblock f).bind fun k =>
                (listRemove e k.links).map fun m => { k with links := m }
            else some k
          match woken with
          | none => .panicked
          | some k =>
              -- `list_next`, whose assertion says that the link is there
              match k.links.next e with
              | none => .panicked
              | some e => wakeLoop n e k
      -- `list_entry` of any other element is no thread
      | _ => .panicked

/-- `timer_interrupt`, up to `thread_tick`, which counts the tick and may ask for a yield. -/
def timerInterrupt (fuel : ℕ) : Outcome τ :=
  let k := { k with ticks := k.ticks + 1 }
  match k.links.next .sleepHead with
  | none => .panicked
  | some e => wakeLoop fuel e k

end Kernel

/-! ### The two lists -/

/-- `sleep_list` holds the threads `s` and `ready_list` the threads `r`, each once. -/
structure Queues (m : Links (Elem τ)) (s r : List τ) : Prop where
  nodup : s.Nodup
  nodup_ready : r.Nodup
  sleep : Linked m .sleepHead (s.map .sleepelem) .sleepTail
  ready : Linked m .readyHead (r.map .sharedelem) .readyTail

/-- An element of `ready_list`. -/
def Elem.OnReady : Elem τ → Prop
  | .readyHead | .readyTail | .sharedelem _ => True
  | _ => False

variable {k k' k'' : Kernel τ} {m m' : Links (Elem τ)} {s r kept rest : List τ} {t u : τ}
  {e : Elem τ} {fuel : ℕ}

omit [DecidableEq τ] in
theorem onReady_of_mem (h : e ∈ Elem.readyHead :: r.map Elem.sharedelem ++ [Elem.readyTail]) :
    e.OnReady := by
  simp only [List.cons_append, List.mem_cons, List.mem_append, List.mem_map, List.not_mem_nil,
    or_false] at h
  obtain rfl | ⟨t, -, rfl⟩ | rfl := h <;> trivial

omit [DecidableEq τ] in
theorem not_onReady_of_mem
    (h : e ∈ Elem.sleepHead :: s.map Elem.sleepelem ++ [Elem.sleepTail]) : ¬ e.OnReady := by
  simp only [List.cons_append, List.mem_cons, List.mem_append, List.mem_map, List.not_mem_nil,
    or_false] at h
  obtain rfl | ⟨t, -, rfl⟩ | rfl := h <;> exact id

omit [DecidableEq τ] in
theorem sleepEnds_nodup (h : s.Nodup) :
    (Elem.sleepHead :: s.map Elem.sleepelem ++ [Elem.sleepTail]).Nodup := by
  have hmap : (s.map Elem.sleepelem).Nodup := h.map fun t u htu => Elem.sleepelem.inj htu
  simp [List.nodup_append, hmap]

omit [DecidableEq τ] in
theorem readyEnds_nodup (h : r.Nodup) :
    (Elem.readyHead :: r.map Elem.sharedelem ++ [Elem.readyTail]).Nodup := by
  have hmap : (r.map Elem.sharedelem).Nodup := h.map fun t u htu => Elem.sharedelem.inj htu
  simp [List.nodup_append, hmap]

omit [DecidableEq τ] in
theorem Queues.sleep_congr (h : Queues m s r)
    (hm : ∀ e : Elem τ, ¬ e.OnReady → m'.next e = m.next e ∧ m'.prev e = m.prev e) :
    Linked m' .sleepHead (s.map .sleepelem) .sleepTail := by
  apply h.sleep.congr
  · intro e he
    exact (hm e (not_onReady_of_mem (List.mem_append_left _ he))).1
  · intro e he
    exact (hm e (not_onReady_of_mem (List.mem_cons_of_mem _ he))).2

omit [DecidableEq τ] in
theorem Queues.ready_congr (h : Queues m s r)
    (hm : ∀ e : Elem τ, e.OnReady → m'.next e = m.next e ∧ m'.prev e = m.prev e) :
    Linked m' .readyHead (r.map .sharedelem) .readyTail := by
  apply h.ready.congr
  · intro e he
    exact (hm e (onReady_of_mem (List.mem_append_left _ he))).1
  · intro e he
    exact (hm e (onReady_of_mem (List.mem_cons_of_mem _ he))).2

omit [DecidableEq τ] in
theorem Queues.next_eq (h : Queues m (kept ++ t :: rest) r) :
    m.next (.sleepelem t) = (rest.map Elem.sleepelem ++ [Elem.sleepTail]).head? := by
  have hlinked := h.sleep
  rw [List.map_append, List.map_cons, linked_append] at hlinked
  exact hlinked.2.next_eq

theorem Queues.push (h : Queues m s r) (ht : t ∉ r) :
    ∃ m', listInsert .readyTail (.sharedelem t) m = some m' ∧ Queues m' s (r ++ [t]) := by
  obtain ⟨p, hp, hprev⟩ := h.ready.exists_prev
  let m₁ := (m.setPrev (.sharedelem t) p).setNext (.sharedelem t) .readyTail
  have hp' : p.OnReady := onReady_of_mem (List.mem_append_left _ hp)
  have hx : Elem.sharedelem t ∉ Elem.readyHead :: r.map Elem.sharedelem ++ [Elem.readyTail] := by
    simpa using ht
  have htail : (Elem.readyTail : Elem τ) ≠ .sharedelem t := nofun
  have hprev₁ : m₁.prev .readyTail = some p := by
    rw [Links.setNext_prev, Links.setPrev_prev_of_ne htail]
    exact hprev
  refine ⟨(m₁.setNext p (.sharedelem t)).setPrev .readyTail (.sharedelem t), ?_, h.nodup, ?_, ?_, ?_⟩
  · simp only [listInsert, hprev, Option.bind_some]
    exact congrArg (Option.map _) hprev₁
  · exact (List.perm_append_singleton t r).nodup_iff.mpr (List.nodup_cons.mpr ⟨ht, h.nodup_ready⟩)
  · apply h.sleep_congr
    intro e he
    have hne : ∀ x : Elem τ, x.OnReady → e ≠ x := by
      rintro x hx rfl
      exact he hx
    constructor
    · rw [Links.setPrev_next, Links.setNext_next_of_ne (hne p hp'),
        Links.setNext_next_of_ne (hne (.sharedelem t) trivial), Links.setPrev_next]
    · rw [Links.setPrev_prev_of_ne (hne .readyTail trivial), Links.setNext_prev,
        Links.setNext_prev, Links.setPrev_prev_of_ne (hne (.sharedelem t) trivial)]
  · have hready : Linked m₁ .readyHead (r.map .sharedelem) .readyTail := by
      apply h.ready.congr
      · intro e he
        refine Links.setNext_next_of_ne ?_
        rintro rfl
        exact hx (List.mem_append_left _ he)
      · intro e he
        refine Links.setPrev_prev_of_ne ?_
        rintro rfl
        exact hx (List.mem_cons_of_mem _ he)
    rw [List.map_append]
    exact hready.insert (readyEnds_nodup h.nodup_ready) hx (Links.setNext_next_self ..)
      (Links.setPrev_prev_self ..) hprev₁

/-- `list_remove` of a thread on `sleep_list`, which keeps the link by which the loop goes on. -/
theorem Queues.remove (h : Queues m (kept ++ t :: rest) r) :
    ∃ m', listRemove (.sleepelem t) m = some m' ∧ Queues m' (kept ++ rest) r ∧
      m'.next (.sleepelem t) = (rest.map Elem.sleepelem ++ [Elem.sleepTail]).head? := by
  have hlinked := h.sleep
  have hends := sleepEnds_nodup h.nodup
  rw [List.map_append, List.map_cons] at hlinked hends
  obtain ⟨p, hp, q, hq, hprev, hnext, hne, hremoved⟩ := hlinked.exists_remove hends
  have hsame : (m.setNext p q).next (.sleepelem t) = some q :=
    (Links.setNext_next_of_ne hne.symm).trans hnext
  have hp' : ¬ p.OnReady := by
    apply not_onReady_of_mem (s := kept)
    exact List.mem_append_left _ hp
  have hq' : ¬ q.OnReady := by
    apply not_onReady_of_mem (s := rest)
    exact List.mem_cons_of_mem _ (List.mem_of_mem_head? hq)
  refine ⟨(m.setNext p q).setPrev q p, ?_, ⟨?_, h.nodup_ready, ?_, ?_⟩, ?_⟩
  · simp only [listRemove, hprev, hnext, Option.bind_some, hsame, Option.map_some]
  · exact h.nodup.sublist (List.Sublist.append_left (List.sublist_cons_self t rest) kept)
  · rwa [List.map_append]
  · apply h.ready_congr
    intro e he
    constructor
    · refine Links.setNext_next_of_ne ?_
      rintro rfl
      exact hp' he
    · refine Links.setPrev_prev_of_ne ?_
      rintro rfl
      exact hq' he
  · rw [Links.setPrev_next, hsame, hq]

/-! ### The loop -/

/-- The loop has come past the threads `kept` and has unblocked those of `rest` that had expired:
they went from `sleep_list` to the end of `ready_list`, in the order in which they were found. -/
structure Awakened (k : Kernel τ) (kept rest r : List τ) (k' : Kernel τ) : Prop where
  ticks : k'.ticks = k.ticks
  waketime : k'.waketime = k.waketime
  status : ∀ t, k'.status t = if t ∈ rest ∧ k.Expired t then .ready else k.status t
  queues : Queues k'.links (kept ++ rest.filter fun t => ¬ k.Expired t)
    (r ++ rest.filter fun t => k.Expired t)

theorem Awakened.wake (hexp : k.Expired t) (ht : t ∉ rest)
    (h : Awakened { k with links := m, status := update k.status t .ready } kept rest (r ++ [t]) k') :
    Awakened k kept (t :: rest) r k' where
  ticks := h.ticks
  waketime := h.waketime
  status u := by
    rw [h.status u]
    change (if u ∈ rest ∧ k.Expired u then _ else update k.status t .ready u) = _
    by_cases hut : u = t
    · subst hut
      rw [if_neg fun hu => ht hu.1, Function.update_self, if_pos ⟨List.mem_cons_self, hexp⟩]
    · simp only [Function.update_of_ne hut, List.mem_cons, hut, false_or]
  queues := by
    rw [List.filter_cons_of_neg (by simpa using hexp), List.filter_cons_of_pos (by simpa using hexp),
      List.append_cons]
    exact h.queues

theorem Awakened.keep (hexp : ¬ k.Expired t) (h : Awakened k (kept ++ [t]) rest r k') :
    Awakened k kept (t :: rest) r k' where
  ticks := h.ticks
  waketime := h.waketime
  status u := by
    rw [h.status u]
    by_cases hut : u = t
    · subst hut
      rw [if_neg fun hu => hexp hu.2, if_neg fun hu => hexp hu.2]
    · simp only [List.mem_cons, hut, false_or]
  queues := by
    have hqueues := h.queues
    rw [List.append_assoc, List.singleton_append] at hqueues
    rwa [List.filter_cons_of_pos (by simpa using hexp),
      List.filter_cons_of_neg (by simpa using hexp)]

theorem wakeLoop_awakens (rest : List τ) : ∀ (kept r : List τ) (k : Kernel τ) (e : Elem τ),
    Queues k.links (kept ++ rest) r → (∀ t ∈ rest, k.status t = .blocked) →
    (∀ t ∈ rest, t ∉ r) → (rest.map Elem.sleepelem ++ [Elem.sleepTail]).head? = some e →
    ∃ k', (∀ fuel, rest.length < fuel → Kernel.wakeLoop fuel e k = .returned k') ∧
      Awakened k kept rest r k' := by
  induction rest with
  | nil =>
      intro kept r k e hqueues _ _ he
      obtain rfl : Elem.sleepTail = e := Option.some.inj he
      refine ⟨k, fun fuel hfuel => ?_, rfl, rfl, fun t => by simp, by simpa using hqueues⟩
      cases fuel with
      | zero => cases hfuel
      | succ n => rfl
  | cons t rest ih =>
      intro kept r k e hqueues hblocked hready he
      obtain rfl : Elem.sleepelem t = e := Option.some.inj he
      have ht : t ∉ rest := (List.nodup_cons.mp (List.nodup_append.mp hqueues.nodup).2.1).1
      obtain ⟨q, hq⟩ : ∃ q, (rest.map Elem.sleepelem ++ [Elem.sleepTail]).head? = some q :=
        Option.isSome_iff_exists.mp (by cases rest <;> rfl)
      have hblocked' : ∀ u ∈ rest, k.status u = .blocked := fun u hu =>
        hblocked u (List.mem_cons_of_mem t hu)
      have hready' : ∀ u ∈ rest, u ∉ r := fun u hu => hready u (List.mem_cons_of_mem t hu)
      by_cases hexp : k.Expired t
      · obtain ⟨m₁, hpush, hqueues₁⟩ := hqueues.push (hready t List.mem_cons_self)
        obtain ⟨m₂, hremove, hqueues₂, hnext⟩ := hqueues₁.remove
        have hne : ∀ u ∈ rest, u ≠ t := by
          rintro u hu rfl
          exact ht hu
        obtain ⟨k', hreturned, hawake⟩ := ih kept (r ++ [t])
          { k with links := m₂, status := update k.status t .ready } q hqueues₂
          (fun u hu => (Function.update_of_ne (hne u hu) ..).trans (hblocked' u hu))
          (fun u hu hmem => (List.mem_append.mp hmem).elim (hready' u hu) fun hmem =>
            hne u hu (List.mem_singleton.mp hmem)) hq
        refine ⟨k', fun fuel hfuel => ?_, hawake.wake hexp ht⟩
        cases fuel with
        | zero => cases hfuel
        | succ n =>
            simp only [Kernel.wakeLoop, if_pos hexp, Kernel.threadUnblock,
              if_pos (hblocked t List.mem_cons_self), hpush, hremove, hnext, hq, Option.map_some,
              Option.bind_some]
            exact hreturned n (Nat.lt_of_succ_lt_succ hfuel)
      · obtain ⟨k', hreturned, hawake⟩ := ih (kept ++ [t]) r k q
          (by rwa [List.append_assoc, List.singleton_append]) hblocked' hready' hq
        refine ⟨k', fun fuel hfuel => ?_, hawake.keep hexp⟩
        cases fuel with
        | zero => cases hfuel
        | succ n =>
            simp only [Kernel.wakeLoop, if_neg hexp, hqueues.next_eq, hq]
            exact hreturned n (Nat.lt_of_succ_lt_succ hfuel)

/-- **The timer interrupt wakes the expired sleepers, and no other.**  It returns; the threads of
`sleep_list` whose time has come are at the end of `ready_list`, in the order of `sleep_list`, each
once, and the others are linked as before. -/
theorem timer_interrupt_wakes (hqueues : Queues k.links s r) (hblocked : ∀ t ∈ s, k.status t = .blocked)
    (hready : ∀ t ∈ r, k.status t = .ready) :
    ∃ k', (∀ fuel, s.length < fuel → k.timerInterrupt fuel = .returned k') ∧
      Awakened { k with ticks := k.ticks + 1 } [] s r k' := by
  obtain ⟨e, he⟩ : ∃ e, (s.map Elem.sleepelem ++ [Elem.sleepTail]).head? = some e :=
    Option.isSome_iff_exists.mp (by cases s <;> rfl)
  have hapart : ∀ t ∈ s, t ∉ r := by
    intro t hs hr
    have hstatus := (hblocked t hs).symm.trans (hready t hr)
    cases hstatus
  obtain ⟨k', hreturned, hawake⟩ :=
    wakeLoop_awakens s [] r { k with ticks := k.ticks + 1 } e hqueues hblocked hapart he
  refine ⟨k', fun fuel hfuel => ?_, hawake⟩
  simp only [Kernel.timerInterrupt, hqueues.sleep.next_eq, he]
  exact hreturned fuel hfuel

/-- Threads 0 and 1 sleep until the seventh tick; thread 2 is ready. -/
def sleepers : Kernel (Fin 3) where
  ticks := 6
  status t := if t = 2 then .ready else .blocked
  waketime _ := 7
  links :=
    { next := fun
        | .sleepHead => some (.sleepelem 0)
        | .sleepelem t => some (if t = 0 then .sleepelem 1 else .sleepTail)
        | .readyHead => some (.sharedelem 2)
        | .sharedelem _ => some .readyTail
        | _ => none
      prev := fun
        | .sleepelem t => some (if t = 0 then .sleepHead else .sleepelem 0)
        | .sleepTail => some (.sleepelem 1)
        | .sharedelem _ => some .readyHead
        | .readyTail => some (.sharedelem 2)
        | _ => none }

/-- Two neighbours on `sleep_list` expire together. -/
theorem sleepers_wake :
    ∃ k', (∀ fuel, 2 < fuel → sleepers.timerInterrupt fuel = .returned k') ∧
      Awakened { sleepers with ticks := 7 } [] [0, 1] [2] k' := by
  have hqueues : Queues sleepers.links [0, 1] [2] :=
    { nodup := by decide
      nodup_ready := by decide
      sleep := ⟨⟨rfl, rfl⟩, ⟨rfl, rfl⟩, rfl, rfl⟩
      ready := ⟨⟨rfl, rfl⟩, rfl, rfl⟩ }
  exact timer_interrupt_wakes hqueues (by decide) (by decide)

end CSE130.Lab1.ReadyList
