import CSE130.Lab3.Paging

/-! # The clock hand

`pick_frame_to_evict` steps the hand through `frame_list` and gives every accessed frame a second
chance.  The hand is a pointer to the entry that was looked at last, and two things go wrong with
it.  The entry is the victim itself and is freed at once, and then the hand points to freed memory,
or to the new entry that `malloc` puts there and that `frame_list` has at its end.  And the hand is
compared with the end of the list before it is moved, so that the step from the last entry yields
the end of the list.

So a pick is right exactly if a victim lies ahead of the hand (`HasVictim`). -/

namespace CSE130.Lab3.Vm

open Transition
open Function (update)

variable {st st' st₁ : State} {p q : UserPage} {k t n : ℕ} {e f : FrameEntry} {b : Bool}
  {l l' : List FrameEntry} {x : Option FrameEntry}

/-! ### The code -/

/-- The entry of the kernel page `k` is pinned. -/
def FrameEntry.pin (k : ℕ) (f : FrameEntry) : FrameEntry :=
  if f.kpage = k then { f with pinned := true } else f

namespace State

/-- `vm_frame_init`. -/
def vmFrameInit (st : State) : State := { st with frames := [], clockPtr := .null }

/-- `vm_frame_remove_entry`. -/
def vmFrameRemoveEntry (st : State) (k : ℕ) : Option State :=
  if st.frames.any (·.kpage = k) then
    some { st with frames := st.frames.eraseP (·.kpage = k) }
  else none

/-- `vm_frame_pin`. -/
def vmFramePin (st : State) (k : ℕ) : Option State :=
  if st.frames.any (·.kpage = k) then
    some { st with frames := st.frames.map (FrameEntry.pin k) }
  else none

/-- What `clock_frame_next` returns in the loop of `pick_frame_to_evict`; `none` is the end of the
list, or what comes from freed memory. -/
def pickElems (endPinned : Bool) (t : ℕ) : ℕ → State → List (Option FrameEntry)
  | 0, _ => []
  | n + 1, st =>
      match st.clockFrameNext with
      | none => [none]
      | some (none, st) => none :: if endPinned then pickElems endPinned t n st else []
      | some (some e, st) => some e ::
          if e.pinned then pickElems endPinned t n st
          else if st.pagedirIsAccessed (t, e.page.2) then
            pickElems endPinned t n (st.pagedirClearAccessed (t, e.page.2))
          else []

end State

/-- The calls of `frame.c`; between them the rest of the kernel and the user do what they do. -/
inductive FrameCall where
  | allocate (p : UserPage) (a : Answers)
  | free (k : ℕ)
  | removeEntry (k : ℕ)
  | pin (k : ℕ)
  | unpin (k : ℕ)
  | other (st : State)

namespace FrameCall

/-- One call. -/
def step (c : FrameCall) (st : State) : Option State :=
  match c with
  | .allocate p a => (st.vmFrameAllocate a p).map Prod.snd
  | .free k => st.vmFrameFree k
  | .removeEntry k => st.vmFrameRemoveEntry k
  | .pin k => st.vmFramePin k
  | .unpin k => st.vmFrameUnpin k
  | .other o => some { o with frames := st.frames, clockPtr := st.clockPtr }

/-- `malloc` returns no memory that an entry lies in, and nobody else frees the pages of the
entries. -/
def Proper (st : State) : FrameCall → Prop
  | .allocate p a => ∀ b, a.frameEntry = some b → ∀ k st',
      st.obtainPage a.endPinned p.1 = some (k, st') → ∀ f ∈ st'.frames, f.block ≠ b
  | .other o => ∀ f ∈ st.frames, o.used f.kpage = true
  | _ => True

end FrameCall

/-! ### The frame table -/

/-- No two entries lie in the same memory, or have the same page; hence `frame_map` has all of
them. -/
structure Table (st : State) : Prop where
  blocks : (st.frames.map FrameEntry.block).Nodup
  kpages : (st.frames.map FrameEntry.kpage).Nodup
  used : ∀ f ∈ st.frames, st.used f.kpage = true

theorem Table.congr (h : Table st) (hf : st'.frames = st.frames)
    (hu : ∀ f ∈ st.frames, st'.used f.kpage = true) : Table st' := by
  constructor
  · rw [hf]
    exact h.blocks
  · rw [hf]
    exact h.kpages
  · rw [hf]
    exact hu

/-- An entry is removed; its page may be freed. -/
theorem Table.remove (h : Table st) (hf : st'.frames = st.frames.eraseP (·.kpage = k))
    (hu : ∀ j, j ≠ k → st'.used j = st.used j) : Table st' := by
  have hsub : st'.frames.Sublist st.frames := hf ▸ List.eraseP_sublist
  refine ⟨h.blocks.sublist (hsub.map _), h.kpages.sublist (hsub.map _), fun f hmem => ?_⟩
  rw [hf] at hmem
  obtain ⟨hmem, hne⟩ := (mem_eraseP h.kpages).mp hmem
  rw [hu f.kpage hne]
  exact h.used f hmem

theorem Table.map {g : FrameEntry → FrameEntry} (h : Table st)
    (hg : ∀ f, (g f).block = f.block ∧ (g f).kpage = f.kpage)
    (hf : st'.frames = st.frames.map g) (hu : st'.used = st.used) : Table st' := by
  constructor
  · rw [hf, List.map_map, show FrameEntry.block ∘ g = FrameEntry.block from funext fun f => (hg f).1]
    exact h.blocks
  · rw [hf, List.map_map, show FrameEntry.kpage ∘ g = FrameEntry.kpage from funext fun f => (hg f).2]
    exact h.kpages
  · intro f hmem
    rw [hf] at hmem
    obtain ⟨f', hmem', rfl⟩ := List.mem_map.mp hmem
    rw [hu, (hg f').2]
    exact h.used f' hmem'

/-- The frame table and the pages that are in use have not changed. -/
structure SameTable (st st' : State) : Prop where
  frames : st'.frames = st.frames
  used : st'.used = st.used

theorem SameTable.trans (h : SameTable st st₁) (h' : SameTable st₁ st') : SameTable st st' :=
  ⟨h'.frames.trans h.frames, h'.used.trans h.used⟩

theorem clearPage_sameTable (st : State) (p : UserPage) : SameTable st (st.pagedirClearPage p) := by
  unfold State.pagedirClearPage
  cases st.lookupPage p with
  | none => exact ⟨rfl, rfl⟩
  | some e => exact ⟨rfl, rfl⟩

theorem setSwap_sameTable (st : State) (p : UserPage) (i : ℕ) :
    SameTable st (st.vmSuptSetSwap p i) := by
  unfold State.vmSuptSetSwap
  cases st.supt p with
  | none => exact ⟨rfl, rfl⟩
  | some e => exact ⟨rfl, rfl⟩

theorem setDirty_sameTable (h : st.vmSuptSetDirty p b = some st') : SameTable st st' := by
  obtain ⟨e, -, rfl⟩ := Option.map_eq_some_iff.mp h
  exact ⟨rfl, rfl⟩

theorem swapOut_sameTable {i : ℕ} (h : st.vmSwapOut k = some (i, st')) : SameTable st st' := by
  obtain ⟨j, -, heq⟩ := Option.map_eq_some_iff.mp h
  cases heq
  exact ⟨rfl, rfl⟩

theorem vmFrameFree_eq (h : st.vmFrameFree k = some st') :
    st'.frames = st.frames.eraseP (·.kpage = k) ∧ st'.used = update st.used k false := by
  unfold State.vmFrameFree at h
  split_ifs at h
  cases h
  exact ⟨rfl, rfl⟩

/-- An eviction frees the entry that the clock has picked. -/
theorem evict_table (he : st.evict b t = some st') : ∃ k,
    st'.frames = st.frames.eraseP (·.kpage = k) ∧ st'.used = update st.used k false := by
  unfold State.evict at he
  simp only [Option.bind_eq_bind] at he
  obtain ⟨⟨f, st₁⟩, hpick, he⟩ := Option.bind_eq_some_iff.mp he
  obtain ⟨⟨i, st₂⟩, hout, he⟩ := Option.bind_eq_some_iff.mp he
  obtain ⟨st₃, hset, he⟩ := Option.bind_eq_some_iff.mp he
  obtain ⟨hsame, -⟩ := pickFrameToEvict_spec hpick
  have h₁ : SameTable st st₁ := ⟨hsame.frames, hsame.used⟩
  have h₂ := (h₁.trans (clearPage_sameTable st₁ f.page)).trans (swapOut_sameTable hout)
  have h₃ := (h₂.trans (setSwap_sameTable st₂ f.page i)).trans (setDirty_sameTable hset)
  obtain ⟨hframes, hused⟩ := vmFrameFree_eq he
  exact ⟨f.kpage, by rw [hframes, h₃.frames], by rw [hused, h₃.used]⟩

theorem Table.palloc (h : Table st) (hp : st.pallocGetPage = some (k, st')) :
    Table st' ∧ st'.used k = true ∧ ∀ f ∈ st'.frames, f.kpage ≠ k := by
  obtain ⟨k', hfind, heq⟩ := Option.map_eq_some_iff.mp hp
  cases heq
  have hfree : st.used k = false := by simpa using List.find?_some hfind
  refine ⟨h.congr rfl fun f hf => ?_, Function.update_self .., fun f hf hk => ?_⟩
  · change update st.used k true f.kpage = true
    rw [Function.update_apply, h.used f hf, ite_self]
  · have hused := h.used f hf
    rw [hk, hfree] at hused
    cases hused

theorem Table.obtain (h : Table st) (ho : st.obtainPage b t = some (k, st')) :
    Table st' ∧ st'.used k = true ∧ ∀ f ∈ st'.frames, f.kpage ≠ k := by
  unfold State.obtainPage at ho
  cases hp : st.pallocGetPage with
  | some r =>
      rw [hp] at ho
      cases ho
      exact h.palloc hp
  | none =>
      rw [hp] at ho
      obtain ⟨st₁, he, hget⟩ := Option.bind_eq_some_iff.mp ho
      obtain ⟨j, hframes, hused⟩ := evict_table he
      have h₁ : Table st₁ := h.remove hframes fun i hi => by rw [hused, Function.update_of_ne hi]
      exact h₁.palloc hget

/-- `vm_frame_allocate`, when `malloc` returns memory of its own. -/
theorem Table.allocate {a : Answers} {r : Option ℕ} (h : Table st)
    (hg : FrameCall.Proper st (.allocate p a)) (ha : st.vmFrameAllocate a p = some (r, st')) :
    Table st' := by
  unfold State.vmFrameAllocate at ha
  simp only [Option.bind_eq_bind] at ha
  obtain ⟨⟨k, st₁⟩, ho, ha⟩ := Option.bind_eq_some_iff.mp ha
  obtain ⟨h₁, hk, hne⟩ := h.obtain ho
  cases hb : a.frameEntry with
  | none =>
      simp only [hb, Option.some.injEq, Prod.mk.injEq] at ha
      exact ha.2 ▸ h₁
  | some blk =>
      simp only [hb, Option.some.injEq, Prod.mk.injEq] at ha
      obtain ⟨-, rfl⟩ := ha
      have hnew := hg blk hb k st₁ ho
      refine ⟨?_, ?_, fun f hf => ?_⟩
      · rw [List.map_append, List.nodup_append]
        refine ⟨h₁.blocks, List.nodup_singleton _, fun i hi j hj => ?_⟩
        obtain ⟨f, hf, rfl⟩ := List.mem_map.mp hi
        rw [List.mem_singleton.mp hj]
        exact hnew f hf
      · rw [List.map_append, List.nodup_append]
        refine ⟨h₁.kpages, List.nodup_singleton _, fun i hi j hj => ?_⟩
        obtain ⟨f, hf, rfl⟩ := List.mem_map.mp hi
        rw [List.mem_singleton.mp hj]
        exact hne f hf
      · rcases List.mem_append.mp hf with hf | hf
        · exact h₁.used f hf
        · rw [List.mem_singleton.mp hf]
          exact hk

theorem init_table (st : State) : Table st.vmFrameInit := ⟨List.nodup_nil, List.nodup_nil, nofun⟩

theorem Table.step {c : FrameCall} (h : Table st) (hg : c.Proper st) (hs : c.step st = some st') :
    Table st' := by
  cases c with
  | allocate p a =>
      obtain ⟨⟨r, st₁⟩, ha, rfl⟩ := Option.map_eq_some_iff.mp hs
      exact h.allocate hg ha
  | free k =>
      obtain ⟨hframes, hused⟩ := vmFrameFree_eq hs
      exact h.remove hframes fun j hj => by rw [hused, Function.update_of_ne hj]
  | removeEntry k =>
      have hs : st.vmFrameRemoveEntry k = some st' := hs
      unfold State.vmFrameRemoveEntry at hs
      split_ifs at hs
      cases hs
      exact h.remove rfl fun _ _ => rfl
  | pin k =>
      have hs : st.vmFramePin k = some st' := hs
      unfold State.vmFramePin at hs
      split_ifs at hs
      cases hs
      refine h.map (g := FrameEntry.pin k) (fun f => ?_) rfl rfl
      unfold FrameEntry.pin
      split_ifs <;> exact ⟨rfl, rfl⟩
  | unpin k =>
      have hs : st.vmFrameUnpin k = some st' := hs
      unfold State.vmFrameUnpin at hs
      split_ifs at hs
      cases hs
      refine h.map (g := FrameEntry.unpin k) (fun f => ?_) rfl rfl
      unfold FrameEntry.unpin
      split_ifs <;> exact ⟨rfl, rfl⟩
  | other o =>
      cases hs
      exact h.congr rfl hg

/-! ### The hand -/

/-- The entries that the hand comes to before the end of the list; none if it points to memory
that is no entry's. -/
def State.ahead (st : State) : List FrameEntry :=
  match st.clockPtr with
  | .null | .listEnd => st.frames
  | .elem b => (st.frames.dropWhile (·.block ≠ b)).tail

/-- Some entry of the list is not pinned, and is not accessed, or not any more because the bit of
its address has been cleared for an entry before it. -/
def State.HasVictim (st : State) (t : ℕ) (l : List FrameEntry) : Prop :=
  ∃ pre f post, l = pre ++ f :: post ∧ f.pinned = false ∧
    (st.pagedirIsAccessed (t, f.page.2) = true →
      ∃ e ∈ pre, e.pinned = false ∧ e.page.2 = f.page.2)

/-- Everything that `clock_frame_next` returns to the loop is an entry, and so is the victim, which
is not pinned. -/
def LoopLive (frames : List FrameEntry) (b : Bool) (t n : ℕ) (st : State) : Prop :=
  (∃ f st', State.pickLoop b t n st = some (f, st') ∧ f ∈ frames ∧ f.pinned = false) ∧
    ∀ x ∈ State.pickElems b t n st, ∃ f ∈ frames, x = some f

/-- `pick_frame_to_evict` yields an entry that is not pinned, and everything that
`clock_frame_next` returns to it is an entry. -/
def PicksLive (st : State) (b : Bool) (t : ℕ) : Prop :=
  (∃ f st', st.pickFrameToEvict b t = some (f, st') ∧ f ∈ st.frames ∧ f.pinned = false) ∧
    ∀ x ∈ State.pickElems b t (st.frames.length + st.frames.length + 1) st,
      ∃ f ∈ st.frames, x = some f

theorem ahead_suffix (st : State) : st.ahead <:+ st.frames := by
  unfold State.ahead
  cases st.clockPtr with
  | elem b => exact (List.tail_suffix _).trans (List.dropWhile_suffix _)
  | _ => exact List.suffix_refl _

/-- Nothing is ahead: the end of the list, or memory that is no entry's. -/
theorem clockFrameNext_nil (h : st.ahead = []) :
    st.clockFrameNext = none ∨ ∃ st', st.clockFrameNext = some (none, st') := by
  unfold State.ahead at h
  unfold State.clockFrameNext
  cases hc : st.clockPtr with
  | elem b =>
      rw [hc] at h
      dsimp only at h ⊢
      cases hd : st.frames.dropWhile (·.block ≠ b) with
      | nil => exact .inl rfl
      | cons g l =>
          rw [hd] at h
          obtain rfl : l = [] := h
          exact .inr ⟨_, rfl⟩
  | _ =>
      rw [hc] at h
      dsimp only at h ⊢
      rw [h]
      exact .inl rfl

/-- The hand moves to the entry that is next. -/
theorem clockFrameNext_cons (h : st.ahead = e :: l) :
    st.clockFrameNext = some (some e, { st with clockPtr := .elem e.block }) := by
  unfold State.ahead at h
  unfold State.clockFrameNext
  cases hc : st.clockPtr with
  | elem b =>
      rw [hc] at h
      dsimp only at h ⊢
      cases hd : st.frames.dropWhile (·.block ≠ b) with
      | nil =>
          rw [hd] at h
          cases h
      | cons g l' =>
          rw [hd] at h
          obtain rfl : l' = e :: l := h
          rfl
  | _ =>
      rw [hc] at h
      dsimp only at h ⊢
      rw [h]
      rfl

theorem ahead_next (hn : (st.frames.map FrameEntry.block).Nodup) (h : st.ahead = e :: l) :
    ({ st with clockPtr := .elem e.block } : State).ahead = l := by
  obtain ⟨pre, hpre⟩ := ahead_suffix st
  rw [h] at hpre
  rw [← hpre, List.map_append, List.map_cons, List.nodup_append] at hn
  have hne : ∀ f ∈ pre, decide (f.block ≠ e.block) = true := fun f hf =>
    decide_eq_true (hn.2.2 _ (List.mem_map_of_mem hf) _ List.mem_cons_self)
  change (st.frames.dropWhile (·.block ≠ e.block)).tail = l
  rw [← hpre, List.dropWhile_append_of_pos hne, List.dropWhile_cons_of_neg (by simp)]
  rfl

/-! ### Second chances -/

theorem lookupPage_clear (st : State) (p q : UserPage) : (st.pagedirClearAccessed p).lookupPage q =
    (st.lookupPage q).map fun e => if q = p then { e with accessed := false } else e := by
  unfold State.pagedirClearAccessed
  cases hp : st.lookupPage p with
  | none =>
      have hid : st.lookupPage q ≠ none → q ≠ p := by
        rintro hq rfl
        exact hq hp
      cases hq : st.lookupPage q with
      | none => rfl
      | some e =>
          rw [Option.map_some, if_neg (hid (by rw [hq]; nofun))]
  | some e =>
      obtain ⟨-, rfl⟩ := lookupPage_some hp
      unfold State.lookupPage
      by_cases ht : st.tables (q.1, q.2 / 1024) = true
      · dsimp only
        rw [if_pos ht, if_pos ht, Option.map_some, Function.update_apply]
        split_ifs with hqp
        · rw [hqp]
        · rfl
      · dsimp only
        rw [if_neg ht, if_neg ht]
        rfl

theorem accessed_clear (st : State) (p q : UserPage) :
    (st.pagedirClearAccessed p).pagedirIsAccessed q = true ↔
      st.pagedirIsAccessed q = true ∧ q ≠ p := by
  unfold State.pagedirIsAccessed
  rw [lookupPage_clear]
  cases st.lookupPage q with
  | none => simp
  | some e =>
      rw [Option.map_some, Option.any_some, Option.any_some]
      split_ifs with hqp
      · simp [hqp]
      · simp [hqp]

theorem clearAccessed_ahead (st : State) (p : UserPage) :
    (st.pagedirClearAccessed p).ahead = st.ahead := by
  unfold State.pagedirClearAccessed
  cases st.lookupPage p with
  | none => rfl
  | some e => rfl

theorem hasVictim_nil : ¬ st.HasVictim t [] := by
  rintro ⟨pre, f, post, h, -⟩
  exact List.append_ne_nil_of_right_ne_nil pre (List.cons_ne_nil f post) h.symm

theorem hasVictim_head
    (h : l.head?.any fun f => !f.pinned && !st.pagedirIsAccessed (t, f.page.2)) :
    st.HasVictim t l := by
  obtain ⟨f, hf, hv⟩ := (Option.any_eq_true _ _).mp h
  obtain ⟨l', hl⟩ := List.head?_eq_some_iff.mp hf
  obtain ⟨hp, ha⟩ := Bool.and_eq_true_iff.mp hv
  refine ⟨[], f, l', hl, by simpa using hp, fun hacc => ?_⟩
  rw [hacc] at ha
  cases ha

theorem hasVictim_pinned (he : e.pinned = true) :
    st.HasVictim t (e :: l) ↔ st.HasVictim t l := by
  constructor
  · rintro ⟨pre, f, post, h, hf, hacc⟩
    cases pre with
    | nil =>
        cases h
        rw [he] at hf
        cases hf
    | cons g pre =>
        cases h
        refine ⟨pre, f, post, rfl, hf, fun ha => ?_⟩
        obtain ⟨g, hg, hgp, hgf⟩ := hacc ha
        rcases List.mem_cons.mp hg with rfl | hg
        · rw [he] at hgp
          cases hgp
        · exact ⟨g, hg, hgp, hgf⟩
  · rintro ⟨pre, f, post, rfl, hf, hacc⟩
    refine ⟨e :: pre, f, post, rfl, hf, fun ha => ?_⟩
    obtain ⟨g, hg, hgp, hgf⟩ := hacc ha
    exact ⟨g, List.mem_cons_of_mem e hg, hgp, hgf⟩

/-- An accessed entry gets a second chance, and with it all entries of its address. -/
theorem hasVictim_accessed (he : e.pinned = false)
    (ha : st.pagedirIsAccessed (t, e.page.2) = true)
    (hclear : ∀ q, st₁.pagedirIsAccessed q = true ↔
      st.pagedirIsAccessed q = true ∧ q ≠ (t, e.page.2)) :
    st.HasVictim t (e :: l) ↔ st₁.HasVictim t l := by
  constructor
  · rintro ⟨pre, f, post, h, hf, hacc⟩
    cases pre with
    | nil =>
        cases h
        obtain ⟨g, hg, -⟩ := hacc ha
        cases hg
    | cons g pre =>
        cases h
        refine ⟨pre, f, post, rfl, hf, fun ha' => ?_⟩
        obtain ⟨hfa, hne⟩ := (hclear _).mp ha'
        obtain ⟨g, hg, hgp, hgf⟩ := hacc hfa
        rcases List.mem_cons.mp hg with rfl | hg
        · exact (hne (by rw [hgf])).elim
        · exact ⟨g, hg, hgp, hgf⟩
  · rintro ⟨pre, f, post, rfl, hf, hacc⟩
    refine ⟨e :: pre, f, post, rfl, hf, fun hfa => ?_⟩
    by_cases hpage : e.page.2 = f.page.2
    · exact ⟨e, List.mem_cons_self, he, hpage⟩
    · have hne : ((t, f.page.2) : UserPage) ≠ (t, e.page.2) := fun h =>
        hpage (congrArg Prod.snd h).symm
      obtain ⟨g, hg, hgp, hgf⟩ := hacc ((hclear _).mpr ⟨hfa, hne⟩)
      exact ⟨g, List.mem_cons_of_mem e hg, hgp, hgf⟩

theorem loopLive_next {frames : List FrameEntry} (he : e ∈ frames)
    (hloop : State.pickLoop b t (n + 1) st = State.pickLoop b t n st₁)
    (helems : State.pickElems b t (n + 1) st = some e :: State.pickElems b t n st₁) :
    LoopLive frames b t (n + 1) st ↔ LoopLive frames b t n st₁ := by
  unfold LoopLive
  rw [hloop, helems]
  refine and_congr_right fun _ => ⟨fun h x hx => h x (List.mem_cons_of_mem _ hx), fun h x hx => ?_⟩
  rcases List.mem_cons.mp hx with rfl | hx
  · exact ⟨e, he, rfl⟩
  · exact h x hx

/-- The loop is right exactly if a victim lies ahead. -/
theorem loopLive_iff (hn : (st.frames.map FrameEntry.block).Nodup) (hl : st.ahead = l)
    (hlen : l.length < n) : LoopLive st.frames b t n st ↔ st.HasVictim t l := by
  induction l generalizing st n with
  | nil =>
      obtain ⟨n, rfl⟩ := Nat.exists_eq_succ_of_ne_zero (Nat.ne_zero_of_lt hlen)
      refine ⟨fun ⟨_, hlive⟩ => ?_, fun h => (hasVictim_nil h).elim⟩
      have hmem : none ∈ State.pickElems b t (n + 1) st := by
        rcases clockFrameNext_nil hl with hnext | ⟨st', hnext⟩
        · rw [State.pickElems, hnext]
          exact List.mem_singleton_self _
        · rw [State.pickElems, hnext]
          exact List.mem_cons_self
      obtain ⟨f, -, hf⟩ := hlive none hmem
      cases hf
  | cons e l ih =>
      obtain ⟨n, rfl⟩ := Nat.exists_eq_succ_of_ne_zero (Nat.ne_zero_of_lt hlen)
      have hlen : l.length < n := Nat.lt_of_succ_lt_succ hlen
      have hnext := clockFrameNext_cons hl
      have hahead := ahead_next hn hl
      have hmem : e ∈ st.frames := (ahead_suffix st).subset (hl ▸ List.mem_cons_self)
      by_cases hp : e.pinned = true
      · rw [hasVictim_pinned hp]
        have hpass : LoopLive st.frames b t (n + 1) st ↔
            LoopLive st.frames b t n { st with clockPtr := .elem e.block } := by
          refine loopLive_next hmem ?_ ?_
          · rw [State.pickLoop, hnext]
            exact if_pos hp
          · rw [State.pickElems, hnext]
            dsimp only
            rw [if_pos hp]
        exact hpass.trans (ih hn hahead hlen)
      · have hp' : e.pinned = false := by simpa using hp
        by_cases ha : st.pagedirIsAccessed (t, e.page.2) = true
        · have ha' : ({ st with clockPtr := .elem e.block } : State).pagedirIsAccessed
              (t, e.page.2) = true := ha
          have hframes := (clearAccessed_same { st with clockPtr := .elem e.block }
            (t, e.page.2)).frames
          have hnext' := ih (by rw [hframes]; exact hn)
            ((clearAccessed_ahead _ (t, e.page.2)).trans hahead) hlen
          rw [hframes] at hnext'
          rw [hasVictim_accessed hp' ha (accessed_clear { st with clockPtr := .elem e.block } _)]
          refine (loopLive_next hmem ?_ ?_).trans hnext'
          · rw [State.pickLoop, hnext]
            exact (if_neg hp).trans (if_pos ha')
          · rw [State.pickElems, hnext]
            dsimp only
            rw [if_neg hp, if_pos ha']
        · have ha' : ({ st with clockPtr := .elem e.block } : State).pagedirIsAccessed
              (t, e.page.2) ≠ true := ha
          refine ⟨fun _ => ⟨[], e, l, rfl, hp', fun h => (ha h).elim⟩, fun _ => ⟨?_, ?_⟩⟩
          · refine ⟨e, { st with clockPtr := .elem e.block }, ?_, hmem, hp'⟩
            rw [State.pickLoop, hnext]
            exact (if_neg hp).trans (if_neg ha')
          · intro x hx
            rw [State.pickElems, hnext] at hx
            dsimp only at hx
            rw [if_neg hp, if_neg ha', List.mem_singleton] at hx
            exact ⟨e, hmem, hx⟩

theorem picksLive_iff (hn : (st.frames.map FrameEntry.block).Nodup) :
    PicksLive st b t ↔ st.HasVictim t st.ahead := by
  have hlen := (ahead_suffix st).length_le
  have hloop : LoopLive st.frames b t (st.frames.length + st.frames.length + 1) st ↔ _ :=
    loopLive_iff hn rfl (by omega)
  rw [← hloop]
  unfold PicksLive LoopLive State.pickFrameToEvict
  by_cases he : st.frames.isEmpty = true
  · -- neither holds of an empty list
    have hnil : st.frames = [] := List.isEmpty_iff.mp he
    rw [if_pos he, hnil]
    constructor
    · rintro ⟨⟨f, st', hpick, -⟩, -⟩
      cases hpick
    · rintro ⟨⟨f, st', -, hf, -⟩, -⟩
      cases hf
  · rw [if_neg he]

/-! ### Every run -/

/-- An allocation that has to evict, while some entry is not pinned, finds a victim ahead of the
hand. -/
def VictimAhead (st : State) : FrameCall → Prop
  | .allocate p _ => st.pallocGetPage = none → (∃ f ∈ st.frames, f.pinned = false) →
      st.HasVictim p.1 st.ahead
  | _ => True

/-- **The hand stays in the list** in every run whose evictions find a victim ahead of it: all that
`clock_frame_next` returns to `pick_frame_to_evict` are entries, and the victim is one that is not
pinned.  In every state of these runs the next eviction is of this kind exactly if it finds a victim
ahead. -/
theorem clock_live {st₀ : State} {h : List (State × FrameCall)}
    (hr : Run FrameCall.step (fun st c => c.Proper st ∧ VictimAhead st c) st₀.vmFrameInit h st) :
    (∀ y ∈ h, ∀ p a, y.2 = .allocate p a → y.1.pallocGetPage = none →
      (∃ f ∈ y.1.frames, f.pinned = false) → PicksLive y.1 a.endPinned p.1) ∧
    ∀ b t, PicksLive st b t ↔ st.HasVictim t st.ahead := by
  have htable {h' : List (State × FrameCall)} {s : State} (hr : Run FrameCall.step
      (fun st c => c.Proper st ∧ VictimAhead st c) st₀.vmFrameInit h' s) : Table s :=
    hr.invariant (I := fun _ s => Table s) (init_table st₀)
      fun _ _ _ _ _ hs hg hstep => hs.step hg.1 hstep
  refine ⟨fun y hy p a hc hnone hun => ?_, fun b t => picksLive_iff (htable hr).blocks⟩
  obtain ⟨⟨h', hr'⟩, ⟨-, hahead⟩, -⟩ := hr.of_mem hy
  rw [hc] at hahead
  exact (picksLive_iff (htable hr').blocks).mpr (hahead hnone hun)

/-! ### Two frames -/

/-- A pool of two pages; the pages of the user have supplemental entries. -/
def twoFrames : State :=
  { boot 2 (fun _ => false) (fun _ _ => 0) 4 (fun _ _ => 0) fun _ => [] with
    supt := fun _ => some ⟨none, .onFrame, false, 0, 0, 0, 0, 0, true⟩ }

/-- Two pages get the frames, in the blocks `1` and `2`. -/
def fillFrames : List FrameCall :=
  [.allocate (0, 0) ⟨some 1, true, true⟩, .unpin 0, .allocate (0, 1) ⟨some 2, true, true⟩, .unpin 1]

/-- A third page; the entry goes where the victim's was. -/
def thirdPage : FrameCall := .allocate (0, 2) ⟨some 1, true, true⟩

/-- A test for proper calls. -/
def properCall (st : State) : FrameCall → Bool
  | .allocate p a => a.frameEntry.all fun b =>
      (st.obtainPage a.endPinned p.1).all fun r => r.2.frames.all (·.block ≠ b)
  | .other _ => false
  | _ => true

theorem proper_of_properCall {c : FrameCall} (h : properCall st c) : c.Proper st := by
  cases c with
  | allocate p a =>
      intro b hb k st' ho f hf
      simp only [properCall, hb, ho, Option.all_some, List.all_eq_true, decide_eq_true_eq] at h
      exact h f hf
  | other => cases h
  | _ => trivial

/-- A test for a victim right in front of the hand. -/
def victimNext (st : State) (t : ℕ) : Bool :=
  st.ahead.head?.any fun f => !f.pinned && !st.pagedirIsAccessed (t, f.page.2)

theorem hasVictim_of_victimNext (h : victimNext st t) : st.HasVictim t st.ahead :=
  hasVictim_head h

/-- A test that the evictions of `fillFrames` and `thirdPage` pass. -/
def goodCall (st : State) (c : FrameCall) : Bool :=
  properCall st c &&
  match c with
  | .allocate p _ => st.pallocGetPage.isSome || victimNext st p.1
  | _ => true

theorem good_of_goodCall {c : FrameCall} (h : goodCall st c) : c.Proper st ∧ VictimAhead st c := by
  obtain ⟨hp, hv⟩ := Bool.and_eq_true_iff.mp h
  refine ⟨proper_of_properCall hp, ?_⟩
  cases c with
  | allocate p a =>
      intro hnone _
      rw [hnone] at hv
      exact hasVictim_of_victimNext hv
  | _ => trivial

theorem clock_live_thirdPage : ∃ h st st', Run FrameCall.step
      (fun st c => c.Proper st ∧ VictimAhead st c) twoFrames.vmFrameInit ((st, thirdPage) :: h) st' ∧
    st.pallocGetPage = none ∧ PicksLive st true 0 := by
  have hex : (execute (checked goodCall FrameCall.step) fillFrames twoFrames.vmFrameInit).any
      fun st => st.pallocGetPage.isNone && st.frames.any (!·.pinned) && goodCall st thirdPage &&
        (thirdPage.step st).isSome := by
    decide +kernel
  obtain ⟨st, hst, he⟩ := (Option.any_eq_true _ _).mp hex
  simp only [Bool.and_eq_true, Option.isNone_iff_eq_none, List.any_eq_true, Bool.not_eq_true'] at he
  obtain ⟨⟨⟨hnone, hun⟩, hgood⟩, hsome⟩ := he
  obtain ⟨st', hst'⟩ := Option.isSome_iff_exists.mp hsome
  have hrun := (execute_run (G := fun _ _ => True) (fun _ _ _ => trivial) .nil hst).of_checked
  have hfill : Run FrameCall.step (fun st c => c.Proper st ∧ VictimAhead st c)
      twoFrames.vmFrameInit _ st := hrun.mono fun _ _ hg => good_of_goodCall hg.1
  have hthird := hfill.cons (good_of_goodCall hgood) hst'
  obtain ⟨hlive, -⟩ := clock_live hthird
  exact ⟨_, st, st', hthird, hnone, hlive _ List.mem_cons_self _ _ rfl hnone hun⟩

/-- The second eviction finds the hand at the end: at the entry that lies where the first victim
was. -/
theorem clock_second_eviction : ∃ st,
    Reachable FrameCall.step (fun st c => c.Proper st) twoFrames.vmFrameInit st ∧
    st.pallocGetPage = none ∧ (∃ f ∈ st.frames, f.pinned = false) ∧ ∀ b t, ¬ PicksLive st b t := by
  have hex : (execute (checked properCall FrameCall.step) (fillFrames ++ [thirdPage, .unpin 0])
      twoFrames.vmFrameInit).any fun st => st.pallocGetPage.isNone && st.frames.any (!·.pinned) &&
        st.ahead.isEmpty := by
    decide +kernel
  obtain ⟨st, hst, he⟩ := (Option.any_eq_true _ _).mp hex
  simp only [Bool.and_eq_true, Option.isNone_iff_eq_none, List.any_eq_true, Bool.not_eq_true',
    List.isEmpty_iff] at he
  obtain ⟨⟨hnone, hun⟩, hahead⟩ := he
  have hrun := (execute_run (G := fun _ _ => True) (fun _ _ _ => trivial) .nil hst).of_checked
  have hrun := hrun.mono fun _ _ hg => proper_of_properCall hg.1
  have htable : Table st := hrun.invariant (I := fun _ s => Table s) (init_table _)
    fun _ _ _ _ _ hs hg hstep => hs.step hg hstep
  refine ⟨st, ⟨_, hrun⟩, hnone, hun, fun b t hlive => ?_⟩
  have hv := (picksLive_iff htable.blocks).mp hlive
  rw [hahead] at hv
  exact hasVictim_nil hv

end CSE130.Lab3.Vm
