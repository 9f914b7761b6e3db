import CSE130.Lab3.Reserve
import CSE130.Lab3.Accesses

/-! # What comes of a reservation

The allocations that a reservation still needs are known before (`needed`), and so is how many of
them can be made (`Room`).  An `Attempt` is a reservation with its log: it stops at the first
allocation that fails, unless this was for an index block.  Then sector 0 is overwritten in place
of the block, and what comes in below is not referenced. -/

namespace CSE130.Lab3.Files

open BlockTree Traced
open Function (update)
open State (reserveLoopLog reserveIndirectLog)

variable {st st' st₁ : State} {K X Z : Set Sector} {k : ℕ} {d d' : InodeDisk} {s e x : Sector}
  {m : Sector → Block}

/-! ### Outcomes -/

/-- What comes of the allocations `need`, the indices of which say for what they are: all of them
are made, or the first that fails is for an index block, and the inode is spoiled, or it is for
another sector, and the reservation fails.  It fails too when no sector is left for an index
block. -/
inductive Outcome (st : State) (need : List Bool) (st' : State) (ok spoiled : Bool) : Prop
  | served (hok : ok = true) (hs : spoiled = false) (hroom : Room st need.length)
      (hrest : ∀ j, Room st (need.length + j) ↔ Room st' j) (hfree : st.free = need.length + st'.free)
  | spoiled (j : ℕ) (hj : need[j]? = some true) (hroom : Room st j) (hnone : ¬Room st (j + 1))
      (hs : spoiled = true) (hfull : st.free = j → ok = false ∧ st'.free = 0)
  | stopped (j : ℕ) (hj : need[j]? = some false) (hroom : Room st j) (hnone : ¬Room st (j + 1))
      (hs : spoiled = false) (hok : ok = false) (hfree : st.free = j + st'.free)

theorem room_zero (st : State) : Room st 0 := ⟨Nat.zero_le _, fun _ _ _ hj => absurd hj (Nat.not_lt_zero _)⟩

theorem Outcome.refl (st : State) : Outcome st [] st true false :=
  .served rfl rfl (room_zero st) (fun j => by rw [List.length_nil, Nat.zero_add])
    (by rw [List.length_nil, Nat.zero_add])

theorem Outcome.trans {need₁ need₂ : List Bool} {ok spoiled₁ spoiled₂ : Bool}
    (h₁ : Outcome st need₁ st₁ true spoiled₁) (h₂ : Outcome st₁ need₂ st' ok spoiled₂) :
    Outcome st (need₁ ++ need₂) st' ok (spoiled₁ || spoiled₂) := by
  cases h₁ with
  | served _ hs hroom hrest hfree =>
      rw [hs, Bool.false_or]
      have hlast : ∀ j, (need₁ ++ need₂)[need₁.length + j]? = need₂[j]? := fun j => by
        rw [List.getElem?_append_right (Nat.le_add_right _ _), Nat.add_sub_cancel_left]
      cases h₂ with
      | served hok hs hroom₂ hrest₂ hfree₂ =>
          refine .served hok hs ?_ (fun j => ?_) ?_
          · rw [List.length_append]
            exact (hrest _).mpr hroom₂
          · rw [List.length_append, Nat.add_assoc, hrest]
            exact hrest₂ j
          · rw [List.length_append]
            omega
      | spoiled j hj hroom₂ hnone hs hfull =>
          exact .spoiled (need₁.length + j) ((hlast j).trans hj) ((hrest j).mpr hroom₂)
            (fun h => hnone ((hrest (j + 1)).mp h)) hs fun h => hfull (by omega)
      | stopped j hj hroom₂ hnone hs hok hfree₂ =>
          exact .stopped (need₁.length + j) ((hlast j).trans hj) ((hrest j).mpr hroom₂)
            (fun h => hnone ((hrest (j + 1)).mp h)) hs hok (by omega)
  | spoiled j hj hroom hnone hs hfull =>
      refine .spoiled j ?_ hroom hnone (by rw [hs, Bool.true_or]) fun h =>
        absurd (hfull h).1 Bool.noConfusion
      rw [List.getElem?_append_left (List.getElem?_eq_some_iff.mp hj).1, hj]
  | stopped _ _ _ _ _ hok => cases hok

theorem Outcome.stop {need₁ need₂ : List Bool} {s : Bool} (h : Outcome st need₁ st' false s) :
    Outcome st (need₁ ++ need₂) st' false s := by
  cases h with
  | served hok => cases hok
  | spoiled j hj hroom hnone hs hfull =>
      refine .spoiled j ?_ hroom hnone hs hfull
      rw [List.getElem?_append_left (List.getElem?_eq_some_iff.mp hj).1, hj]
  | stopped j hj hroom hnone hs hok hfree =>
      refine .stopped j ?_ hroom hnone hs hok hfree
      rw [List.getElem?_append_left (List.getElem?_eq_some_iff.mp hj).1, hj]

/-- What is spoiled is known before: an index block is the first that is not there. -/
theorem Outcome.spoiled_iff {need : List Bool} {ok s : Bool} (h : Outcome st need st' ok s) :
    s = true ↔ ∃ j, need[j]? = some true ∧ Room st j ∧ ¬Room st (j + 1) := by
  cases h with
  | served hok hs hroom =>
      refine iff_of_false (by rw [hs]; nofun) ?_
      rintro ⟨j, hj, -, hnone⟩
      exact hnone (hroom.mono (List.getElem?_eq_some_iff.mp hj).1)
  | spoiled j hj hroom hnone hs hfull => exact iff_of_true hs ⟨j, hj, hroom, hnone⟩
  | stopped j hj hroom hnone hs hok =>
      refine iff_of_false (by rw [hs]; nofun) ?_
      rintro ⟨l, hl, hroom', hnone'⟩
      obtain rfl : j = l := by
        rcases Nat.lt_trichotomy j l with hlt | heq | hgt
        · exact absurd (hroom'.mono hlt) hnone
        · exact heq
        · exact absurd (hroom.mono hgt) hnone'
      rw [hj] at hl
      cases hl

/-! ### What the allocations take from -/

/-- The `j`-th of the next writes of the bitmap goes through. -/
def State.Pays (st : State) (j : ℕ) : Prop :=
  st.freeMapFile = true → st.Short → st.heap j = true

/-- Every sector but the index blocks can be allocated: `free` sectors are free, and `pays` says
which writes of the bitmap go through.  A write that fails takes no sector. -/
def Suffices : List Bool → ℕ → (ℕ → Prop) → Prop
  | [], _, _ => True
  | index :: need, 0, pays => index = true ∧ Suffices need 0 pays
  | index :: need, free + 1, pays =>
      pays 0 ∧ Suffices need free (fun j => pays (j + 1)) ∨
        ¬pays 0 ∧ index = true ∧ Suffices need (free + 1) fun j => pays (j + 1)

/-- `free_map_allocate` looks for a free sector, and writes the bitmap if there is one. -/
theorem allocate_pays {r : Option Sector} (g : Ground K X st) (h : st.freeMapAllocate = (r, st')) :
    (st.free = 0 ∧ r = none ∧ st'.Pays = st.Pays) ∨
      0 < st.free ∧ (r.isSome = true ↔ st.Pays 0) ∧ st'.Pays = fun j => st.Pays (j + 1) := by
  unfold State.freeMapAllocate at h
  cases hscan : st.scan with
  | none =>
      rw [hscan] at h
      cases h
      exact .inl ⟨scan_none.mp hscan, rfl, rfl⟩
  | some t =>
      obtain ⟨-, ht⟩ := scan_some hscan
      have hpos : 0 < st.free := Nat.pos_of_ne_zero fun h0 => by
        rw [scan_none.mpr h0] at hscan
        cases hscan
      rw [hscan] at h
      refine .inr ⟨hpos, ?_⟩
      cases hf : st.freeMapFile with
      | false =>
          have hf' : (st.mark t true).freeMapFile = false := hf
          simp only [hf', Bool.false_eq_true, if_false] at h
          cases h
          unfold State.Pays
          rw [hf', hf]
          exact ⟨iff_of_true rfl nofun, funext fun j => propext (iff_of_true nofun nofun)⟩
      | true =>
          have g' := g.mark ht
          have hf' : (st.mark t true).freeMapFile = true := hf
          have hstill := bitmapWrite_still g' hf'
          have hheap := bitmapWrite_heap g' hf'
          have hroom := bitmapWrite_room g' hf'
          cases h₁ : (st.mark t true).bitmapWrite with
          | mk ok st₁ =>
              rw [h₁] at hstill hheap hroom
              simp only [hf', h₁, if_true] at h
              have hpays : st₁.Pays = fun j => st.Pays (j + 1) := by
                funext j
                unfold State.Pays
                rw [hstill.short, hheap, hstill.passive.freeMapFile]
                rfl
              have hok : ok = true ↔ st.Pays 0 := hroom.trans ⟨fun h _ => h, fun h => h hf⟩
              cases ok with
              | false =>
                  cases h
                  exact ⟨iff_of_false nofun fun h => Bool.noConfusion (hok.mpr h), hpays⟩
              | true =>
                  cases h
                  exact ⟨iff_of_true rfl (hok.mp rfl), hpays⟩

theorem suffices_taken {index : Bool} {rest : List Bool} (g : Ground K X st)
    (h : st.freeMapAllocate = (some s, st')) (hfree : st.free = st'.free + 1) :
    Suffices (index :: rest) st.free st.Pays ↔ Suffices rest st'.free st'.Pays := by
  obtain ⟨-, hr, -⟩ | ⟨-, hr, hpays⟩ := allocate_pays g h
  · cases hr
  · have h0 := hr.mp rfl
    rw [hfree, hpays, Suffices]
    exact ⟨fun h => (h.resolve_right fun hn => hn.1 h0).2, fun h => .inl ⟨h0, h⟩⟩

theorem suffices_refused {index : Bool} {rest : List Bool} (g : Ground K X st)
    (h : st.freeMapAllocate = (none, st')) (hfree : st'.free = st.free) :
    Suffices (index :: rest) st.free st.Pays ↔ index = true ∧ Suffices rest st'.free st'.Pays := by
  obtain ⟨h0, -, hpays⟩ | ⟨hpos, hr, hpays⟩ := allocate_pays g h
  · rw [hfree, hpays, h0]
    rfl
  · have h0 : ¬st.Pays 0 := fun h => nomatch hr.mpr h
    rw [hfree, hpays]
    cases hn : st.free with
    | zero => omega
    | succ n =>
        rw [Suffices]
        exact ⟨fun h => (h.resolve_left fun hn => h0 hn.1).2, fun h => .inr ⟨h0, h⟩⟩

/-! ### Attempts -/

/-- Sector 0 is written, in place of an index block. -/
def Spoils (log : List Access) : Bool := decide (.write 0 ∈ log)

@[simp] theorem spoils_append (l₁ l₂ : List Access) : Spoils (l₁ ++ l₂) = (Spoils l₁ || Spoils l₂) := by
  unfold Spoils
  rw [Bool.eq_iff_iff]
  simp

@[simp] theorem spoils_nil : Spoils [] = false := rfl

theorem spoils_taken (h : s ≠ 0) : Spoils [.allocate s, .write s] = false := by
  unfold Spoils
  refine decide_eq_false fun hm => ?_
  rcases List.mem_cons.mp hm with hm | hm
  · cases hm
  · exact h (Access.write.inj (List.mem_singleton.mp hm)).symm

theorem spoils_write (h : s ≠ 0) : Spoils [.write s] = false :=
  decide_eq_false fun hm => h (Access.write.inj (List.mem_singleton.mp hm)).symm

variable {L B C C₁ C₂ : List ℕ → Prop} {R R₁ R₂ R' : List ℕ → Sector → Prop} {ok ok₁ ok₂ : Bool}
  {P : State → Prop} {need need₁ need₂ : List Bool} {log log₁ log₂ : List Access}

/-- A reservation, its log, and what comes of the allocations `need`.  Where an index block is
missing it does not succeed in the sense of `Reserve`, whatever it returns. -/
structure Attempt (K X : Set Sector) (P : State → Prop) (L B C : List ℕ → Prop)
    (R R' : List ℕ → Sector → Prop) (need : List Bool) (log : List Access) (ok : Bool)
    (st st' : State) : Prop where
  reserve : Reserve K X L B C R R' (ok && !Spoils log) st st'
  settled : P st → Spoils log = true → ok = false
  writes : ∀ x, .write x ∈ log → x = 0 ∨ .allocate x ∈ log ∨ ∃ p, ¬L p ∧ R p x
  taken : ∀ x, st'.Used x → st.Used x ∨ .allocate x ∈ log
  outcome : Outcome st need st' ok (Spoils log)
  supplied : ∀ rest, Suffices (need ++ rest) st.free st.Pays ↔
    ok = true ∧ Suffices rest st'.free st'.Pays

theorem Attempt.refl (g : Ground K X st) (h : Placed (K ∪ X) st.Used R) :
    Attempt K X P L B (fun _ => False) R R [] [] true st st where
  reserve := .refl g h
  settled _ h := nomatch h
  writes _ h := nomatch h
  taken _ h := .inl h
  outcome := .refl st
  supplied _ := (and_iff_right rfl).symm

theorem Attempt.trans (hP : ∀ st st', Passive st st' → P st → P st') (g : Ground K X st)
    (h₁ : Attempt K X P L B C₁ R R₁ need₁ log₁ true st st₁)
    (h₂ : Attempt K X P L B C₂ R₁ R₂ need₂ log₂ ok st₁ st') :
    Attempt K X P L B (fun p => C₁ p ∨ C₂ p) R R₂ (need₁ ++ need₂) (log₁ ++ log₂) ok st st' where
  reserve := by
    have h := h₁.reserve.trans g h₂.reserve
    rw [spoils_append, Bool.not_or]
    rw [Bool.true_and, ← Bool.and_assoc, Bool.and_comm (!Spoils log₁), Bool.and_assoc] at h
    exact h
  settled hp hs := by
    rw [spoils_append, Bool.or_eq_true] at hs
    rcases hs with hs | hs
    · exact absurd (h₁.settled hp hs) Bool.noConfusion
    · exact h₂.settled (hP st st₁ h₁.reserve.passive hp) hs
  writes x hx := by
    rcases List.mem_append.mp hx with hx | hx
    · exact (h₁.writes x hx).imp_right fun h => h.imp_left (List.mem_append_left _)
    · rcases h₂.writes x hx with h0 | ha | ⟨p, hl, hp⟩
      · exact .inl h0
      · exact .inr (.inl (List.mem_append_right _ ha))
      · right
        rcases h₁.reserve.grows.source p x hp with hp | ⟨hn, hu, -⟩
        · exact .inr ⟨p, hl, hp⟩
        · exact .inl (List.mem_append_left _ ((h₁.taken x hu).resolve_left hn))
  taken x hx := by
    rcases h₂.taken x hx with hx | hx
    · exact (h₁.taken x hx).imp_right (List.mem_append_left _)
    · exact .inr (List.mem_append_right _ hx)
  outcome := by
    rw [spoils_append]
    exact h₁.outcome.trans h₂.outcome
  supplied rest := by
    rw [List.append_assoc, h₁.supplied, and_iff_right rfl]
    exact h₂.supplied rest

/-- The trees behind the one that has failed are not touched. -/
theorem Attempt.stop (h : Attempt K X P L B C R R' need₁ log false st st') :
    Attempt K X P L B C₁ R R' (need₁ ++ need₂) log false st st' where
  reserve := h.reserve.mono (fun _ h => h) nofun
  settled := h.settled
  writes := h.writes
  taken := h.taken
  outcome := h.outcome.stop
  supplied rest := by
    rw [List.append_assoc, h.supplied]
    exact iff_of_false (fun h => nomatch h.1) fun h => nomatch h.1

theorem Attempt.mono {B' C' : List ℕ → Prop} (h : Attempt K X P L B C R R' need log ok st st')
    (hB : ∀ p, B p → B' p) (hC : ok = true → ∀ p, C' p → C p) :
    Attempt K X P L B' C' R R' need log ok st st' :=
  { h with reserve := h.reserve.mono hB fun hok => hC (Bool.and_eq_true_iff.mp hok).1 }

theorem Attempt.replace {n i : ℕ} {lev : ℕ → ℕ} {root : ℕ → Sector} {e' : Sector} (hi : i < n)
    (hp : Placed (K ∪ X) st.Used (Forest st.disk n lev root))
    (h : Attempt K X P (fun p => p.length = lev i) B C (Refs st.disk (lev i) (root i))
      (Refs st'.disk (lev i) e') need log ok st st') :
    Attempt K X P (IsLeaf lev) (fun p => ∃ q, p = i :: q ∧ B q) (fun p => ∃ q, p = i :: q ∧ C q)
      (Forest st.disk n lev root) (Forest st'.disk n lev (update root i e')) need log ok st st' where
  reserve := h.reserve.replace hi hp
  settled := h.settled
  writes x hx := (h.writes x hx).imp_right fun h => h.imp_right fun ⟨p, hl, hp⟩ =>
    ⟨i :: p, hl, hi, hp⟩
  taken := h.taken
  outcome := h.outcome
  supplied := h.supplied

theorem room_write {b : Block} (j : ℕ) : Room (st.write s b) j ↔ Room st j := Iff.rfl

theorem Outcome.write {b : Block} {spoiled : Bool} (h : Outcome st need st' ok spoiled) :
    Outcome st need (st'.write s b) ok spoiled := by
  cases h with
  | served hok hs hroom hrest hfree =>
      exact .served hok hs hroom (fun j => (hrest j).trans (room_write j).symm) hfree
  | spoiled j hj hroom hnone hs hfull => exact .spoiled j hj hroom hnone hs hfull
  | stopped j hj hroom hnone hs hok hfree => exact .stopped j hj hroom hnone hs hok hfree

theorem Attempt.writes_below (he : e ≠ 0)
    (h : Attempt K X P (IsLeaf fun _ => k) B C (Forest st.disk 128 (fun _ => k) (word (st.disk e)))
      R' need log ok st st') : ∀ x, .write x ∈ log →
      x = 0 ∨ .allocate x ∈ log ∨ ∃ p : List ℕ, ¬p.length = k + 1 ∧ Refs st.disk (k + 1) e p x := by
  intro x hx
  refine (h.writes x hx).imp_right fun h => h.imp_right ?_
  rintro ⟨_ | ⟨j, p⟩, hl, hp⟩
  · exact hp.elim
  · exact ⟨j :: p, fun hlen => hl (Nat.succ_inj.mp hlen), refs_succ.mpr ⟨he, hp⟩⟩

theorem Attempt.node {b : ℕ → Sector} (he : e ≠ 0)
    (hp : Placed (K ∪ X) st.Used (Refs st.disk (k + 1) e))
    (h : Attempt K X P (IsLeaf fun _ => k) B C (Forest st.disk 128 (fun _ => k) (word (st.disk e)))
      (Forest st₁.disk 128 (fun _ => k) b) need log true st st₁) :
    Attempt K X P (fun p => p.length = k + 1) B C (Refs st.disk (k + 1) e)
      (Refs (st₁.write e (ofWords b)).disk (k + 1) e) need (log ++ [.write e]) true st
      (st₁.write e (ofWords b)) where
  reserve := by
    rw [spoils_append, spoils_write he, Bool.or_false]
    exact h.reserve.node he hp
  settled hP hs := by
    rw [spoils_append, spoils_write he, Bool.or_false] at hs
    exact h.settled hP hs
  writes x hx := by
    rcases List.mem_append.mp hx with hx | hx
    · exact (h.writes_below he x hx).imp_right fun h => h.imp_left (List.mem_append_left _)
    · obtain rfl := Access.write.inj (List.mem_singleton.mp hx)
      exact .inr (.inr ⟨[], (Nat.succ_ne_zero k).symm, refs_nil.mpr ⟨he, rfl⟩⟩)
  taken x hx := (h.taken x hx).imp_right (List.mem_append_left _)
  outcome := by
    rw [spoils_append, spoils_write he, Bool.or_false]
    exact h.outcome.write
  supplied := h.supplied

/-- An entry has failed, and the block above it is not written back. -/
theorem Attempt.abandon {b : ℕ → Sector} (he : e ≠ 0)
    (hp : Placed (K ∪ X) st.Used (Refs st.disk (k + 1) e))
    (h : Attempt K X P (IsLeaf fun _ => k) B C (Forest st.disk 128 (fun _ => k) (word (st.disk e)))
      (Forest st₁.disk 128 (fun _ => k) b) need log false st st₁) :
    Attempt K X P (fun p => p.length = k + 1) B C (Refs st.disk (k + 1) e)
      (Refs st₁.disk (k + 1) e) need log false st st₁ where
  reserve := h.reserve.abandon he hp
  settled := h.settled
  writes := h.writes_below he
  taken := h.taken
  outcome := h.outcome
  supplied := h.supplied

theorem Ground.ne_zero (g : Ground K X st) (hn : ¬st.Used s) : s ≠ 0 := by
  rintro rfl
  exact hn g.zero

theorem Attempt.fresh (hs : Still K (st.mark s true) st₁) (g : Ground K X st)
    (ha : st.freeMapAllocate = (some s, st₁)) (hn : ¬st.Used s) (hr : s < st.size) (hB : B [])
    (hC : ∀ p, C p → p = []) (b : Bool) :
    Attempt K X P (fun p => p.length = k) B C (Refs st.disk k 0) (Refs (st₁.write s zeros).disk k s)
      [b] [.allocate s, .write s] true st (st₁.write s zeros) where
  reserve := by
    rw [spoils_taken (g.ne_zero hn)]
    exact hs.reserve_fresh g ha hn hr hB hC
  settled _ h := by
    rw [spoils_taken (g.ne_zero hn)] at h
    cases h
  writes x hx := by
    rcases List.mem_cons.mp hx with hx | hx
    · cases hx
    · obtain rfl := Access.write.inj (List.mem_singleton.mp hx)
      exact .inr (.inl List.mem_cons_self)
  taken x hx := by
    have hx := used_mark.mp (hs.used.mp hx)
    split_ifs at hx with hxs
    · rw [hxs]
      exact .inr List.mem_cons_self
    · exact .inl hx
  outcome := by
    rw [spoils_taken (g.ne_zero hn)]
    have hroom := allocate_room g ha
    refine .served rfl rfl ((hroom 0).mpr (room_zero st₁)) (fun j => ?_) ?_
    · rw [List.length_singleton, Nat.add_comm]
      exact hroom j
    · have hfree : (st₁.write s zeros).free = (st.mark s true).free := hs.free
      have := free_mark hr hn
      rw [List.length_singleton]
      omega
  supplied rest := by
    have hfree : st₁.free = (st.mark s true).free := hs.free
    have := free_mark hr hn
    exact (suffices_taken g ha (by omega)).trans (and_iff_right rfl).symm

theorem Attempt.refused (hs : Still K st st₁) (g : Ground K X st)
    (ha : st.freeMapAllocate = (none, st₁)) (hf : st₁.allocFailed = true) :
    Attempt K X P (fun p => p.length = k) B C (Refs st.disk k 0) (Refs st₁.disk k 0) [false] []
      false st st₁ where
  reserve := (hs.mono (Set.subset_insert 0 K)).reserve g hf
  settled _ h := nomatch h
  writes _ h := nomatch h
  taken _ h := .inl (hs.used.mp h)
  outcome := .stopped 0 rfl (room_zero st) (allocate_no_room g ha) rfl rfl
    (by rw [hs.free, Nat.zero_add])
  supplied _ := suffices_refused g ha hs.free

/-- What the logged `f` does that reserves at most `128 ^ k` sectors below one entry. -/
def Attempts (K X : Set Sector) (P : State → Prop) (k : ℕ)
    (f : State → Sector → ℕ → Traced Unit Access (Bool × Sector × State)) : Prop :=
  ∀ (st : State) (e : Sector) (n : ℕ), Ground K X st →
    Placed (K ∪ X) st.Used (Refs st.disk k e) → 0 < n → n ≤ 128 ^ k →
    ∃ ok e' st', (f st e n).result = .ok (ok, e', st') ∧
      Attempt K X P (fun p => p.length = k) (Onto (Leaves k n)) (Leaves k n) (Refs st.disk k e)
        (Refs st'.disk k e') (needed st.disk k e n) (f st e n).log ok st st'

theorem reserveSectorLog_attempts (K X : Set Sector) (P : State → Prop) :
    Attempts K X P 0 fun st e _ => st.reserveSectorLog e := by
  intro st e n g hp hn _
  have hC : ∀ p, Leaves 0 n p → p = [] := fun p ⟨t, _, ht⟩ => ht
  have hB : Onto (Leaves 0 n) [] := ⟨[], ⟨0, hn, rfl⟩, List.nil_prefix⟩
  unfold State.reserveSectorLog needed
  dsimp only
  split_ifs with he
  · subst he
    rcases allocate_cases g with ⟨s, st₁, h, hfree, hs, hstill⟩ | ⟨st₁, h, hstill, hf, -⟩
    · rw [h]
      exact ⟨true, s, _, rfl, .fresh hstill g h hfree hs hB hC false⟩
    · rw [h]
      exact ⟨false, 0, _, rfl, .refused hstill g h hf⟩
  · have hrefl : Attempt K X P (fun p => p.length = 0) (Onto (Leaves 0 n)) (fun _ => False)
        (Refs st.disk 0 e) (Refs st.disk 0 e) [] [] true st st := .refl g hp
    refine ⟨true, e, st, rfl, { hrefl with reserve := { hrefl.reserve with
      complete := fun _ p h => ⟨e, ?_⟩ } }⟩
    rw [hC p h]
    exact refs_nil.mpr ⟨he, rfl⟩

/-! ### What is needed depends on the index blocks only -/

theorem neededLoop_congr {f f' : Sector → ℕ → List Bool} {unit : ℕ} {b b' : ℕ → Sector} :
    ∀ {count i n : ℕ},
      (∀ j n, i ≤ j → j < i + count → n ≤ unit → f (b j) n = f' (b' j) n) →
      neededLoop f unit b count i n = neededLoop f' unit b' count i n
  | 0, _, _, _ => rfl
  | count + 1, i, n, h => by
      unfold neededLoop
      rw [h i _ (Nat.le_refl i) (by omega) (Nat.min_le_right n unit),
        neededLoop_congr fun j n hj hj' hn => h j n (by omega) (by omega) hn]

theorem refs_zero_iff {m m' : Sector → Block} {e' : Sector}
    (h : ∀ p x, Refs m' k e' p x ↔ Refs m k e p x) : e' = 0 ↔ e = 0 := by
  constructor
  · intro he'
    by_contra he
    exact absurd he' ((h [] e).mpr (refs_nil.mpr ⟨he, rfl⟩)).root_ne
  · intro he
    by_contra he'
    exact absurd he ((h [] e').mp (refs_nil.mpr ⟨he', rfl⟩)).root_ne

theorem needed_of_refs {m m' : Sector → Block} : ∀ {k : ℕ} {e e' : Sector} {n : ℕ}, k ≤ 2 →
    n ≤ 128 ^ k → (∀ p x, Refs m' k e' p x ↔ Refs m k e p x) → needed m' k e' n = needed m k e n
  | 0, e, e', n, _, _, h => by
      have hzero : e' = 0 ↔ e = 0 := refs_zero_iff h
      unfold needed
      split_ifs with he' he he
      · rfl
      · exact absurd (hzero.mp he') he
      · exact absurd (hzero.mpr he) he'
      · rfl
  | k + 1, e, e', n, hk, hn, h => by
      have hzero : e' = 0 ↔ e = 0 := refs_zero_iff h
      have hcount := entries_le hn
      unfold needed
      dsimp only
      rw [unit_eq hk]
      split_ifs with he' he he
      · rw [neededLoop_congr fun _ _ _ _ hn => needed_of_refs (by omega) hn fun p x =>
          iff_of_false (fun h => absurd rfl h.root_ne) fun h => absurd rfl h.root_ne]
      · exact absurd (hzero.mp he') he
      · exact absurd (hzero.mpr he) he'
      · refine neededLoop_congr fun j _ _ hj hn => needed_of_refs (by omega) hn fun p x => ?_
        have hj : j < 128 := by omega
        exact ⟨fun hx => ((h (j :: p) x).mp ⟨he', hj, hx⟩).2.2,
          fun hx => ((h (j :: p) x).mpr ⟨he, hj, hx⟩).2.2⟩

theorem needed_congr {m m' : Sector → Block} {n : ℕ} (hk : k ≤ 2) (hn : n ≤ 128 ^ k)
    (hm : ∀ q y, Refs m k e q y → q.length < k → m' y = m y) : needed m' k e n = needed m k e n :=
  needed_of_refs hk hn fun _ _ => ⟨fun h => h.congr_symm hm, fun h => h.congr hm⟩

section Loop

variable {f : State → Sector → ℕ → Traced Unit Access (Bool × Sector × State)}
  {M W : ℕ} {lev : ℕ → ℕ} {mk : (ℕ → Sector) → ℕ → Sector}

variable (lev mk) in
/-- The loop reserves tree after tree: `mk` fs the array of the loop to the roots of the forest,
of which the first `M` are trees of `k` levels. -/
theorem reserveLoopLog_attempt (hP : ∀ st st', Passive st st' → P st → P st') (hk : k ≤ 2)
    (hf : Attempts K X P k f) (hMW : M ≤ W) (hlev : ∀ i, i < M → lev i = k)
    (hmk : ∀ b i, i < M → mk b i = b i)
    (hup : ∀ b i e, i < M → mk (update b i e) = update (mk b) i e) :
    ∀ (count i : ℕ) (st : State) (b : ℕ → Sector) (n : ℕ), i + count ≤ M →
      (n + (128 ^ k - 1)) / 128 ^ k = count → Ground K X st →
      Placed (K ∪ X) st.Used (Forest st.disk W lev (mk b)) →
      ∃ ok b' rest st',
        (reserveLoopLog f (128 ^ k) count i st b n).result = .ok (ok, b', rest, st') ∧
        (ok = true → rest = 0) ∧ Attempt K X P (IsLeaf lev) (Onto (LeavesFrom k i n))
          (LeavesFrom k i n) (Forest st.disk W lev (mk b)) (Forest st'.disk W lev (mk b'))
          (neededLoop (needed st.disk k) (128 ^ k) b count i n)
          (reserveLoopLog f (128 ^ k) count i st b n).log ok st st'
  | 0, i, st, b, n, _, hcount, g, hp => by
      have hunit : 0 < 128 ^ k := Nat.pow_pos (by omega)
      obtain rfl := entries_zero hunit hcount
      exact ⟨true, b, 0, st, rfl, fun _ => rfl, (Attempt.refl g hp).mono (fun _ h => h)
        fun _ p h => by
          obtain ⟨t, ht, -⟩ := h
          exact absurd ht (Nat.not_lt_zero t)⟩
  | count + 1, i, st, b, n, hi, hcount, g, hp => by
      have hunit : 0 < 128 ^ k := Nat.pow_pos (by omega)
      have hn := entries_pos hunit hcount
      have hiM : i < M := by omega
      have htree : Placed (K ∪ X) st.Used (Refs st.disk k (b i)) := by
        have h := hp.tree (show i < W by omega)
        rw [hlev i hiM, hmk b i hiM] at h
        exact h
      obtain ⟨ok, e, st₁, h₁, ha₁⟩ := hf st (b i) (min n (128 ^ k)) g htree (by omega) (by omega)
      have ha₂ : Attempt K X P (fun p => p.length = lev i) (Onto (Leaves k (min n (128 ^ k))))
          (Leaves k (min n (128 ^ k))) (Refs st.disk (lev i) (mk b i)) (Refs st₁.disk (lev i) e)
          (needed st.disk k (b i) (min n (128 ^ k))) (f st (b i) (min n (128 ^ k))).log ok st st₁ := by
        rw [hlev i hiM, hmk b i hiM]
        exact ha₁
      have ha₁' : Attempt K X P (IsLeaf lev) (Onto (LeavesFrom k i n))
          (fun p => ∃ q, p = i :: q ∧ Leaves k (min n (128 ^ k)) q) (Forest st.disk W lev (mk b))
          (Forest st₁.disk W lev (mk (update b i e)))
          (needed st.disk k (b i) (min n (128 ^ k))) (f st (b i) (min n (128 ^ k))).log ok st st₁ := by
        rw [hup b i e hiM]
        refine (ha₂.replace (by omega) hp).mono (fun p h => (onto_cons h).mono fun p h => ?_)
          fun _ _ h => h
        obtain ⟨t, ht, hp⟩ := leavesFrom_head (by omega) h
        exact ⟨t, by omega, hp⟩
      unfold reserveLoopLog neededLoop
      dsimp only
      rw [bind_of_ok h₁]
      dsimp only
      cases ok with
      | false =>
          refine ⟨false, _, n, st₁, rfl, by simp, ?_⟩
          rw [if_neg Bool.noConfusion, pure_log, List.append_nil]
          exact ha₁'.stop
      | true =>
          have hsub : n - min n (128 ^ k) = n - 128 ^ k := by omega
          have hnext := entries_next hunit hcount
          rw [← hsub] at hnext
          obtain ⟨ok, b', rest, st', h', hrest, ha'⟩ := reserveLoopLog_attempt hP hk hf hMW hlev hmk
            hup count (i + 1) st₁ (update b i e) (n - min n (128 ^ k)) (by omega) hnext
            ha₁'.reserve.ground (ha₁'.reserve.placed g hp)
          -- what is needed behind the tree has not changed
          have hneed : neededLoop (needed st₁.disk k) (128 ^ k) (update b i e) count (i + 1)
                (n - min n (128 ^ k)) =
              neededLoop (needed st.disk k) (128 ^ k) b count (i + 1) (n - min n (128 ^ k)) := by
            refine neededLoop_congr fun j l hj hj' hl => ?_
            rw [Function.update_of_ne (by omega)]
            refine needed_congr hk hl fun q y hq _ => ?_
            refine ha₂.reserve.beside hp (by omega) (show j < W by omega) (by omega) q y ?_
            rw [hlev j (by omega), hmk b j (by omega)]
            exact hq
          rw [hneed, hsub] at ha'
          rw [if_pos rfl, hsub] at *
          refine ⟨ok, b', rest, st', h', hrest, (ha₁'.trans hP g (ha'.mono ?_ fun _ _ h => h)).mono
            (fun _ h => h) fun _ p h => leavesFrom_split h⟩
          exact fun p h => h.mono fun p h => leavesFrom_tail h

end Loop

/-- The loop over the entries of an index block. -/
theorem blockLoop_attempt {f : State → Sector → ℕ → Traced Unit Access (Bool × Sector × State)}
    (hP : ∀ st st', Passive st st' → P st → P st') (hk : k ≤ 2)
    (hf : Attempts K X P k f) (g : Ground K X st) {b : ℕ → Sector} {n : ℕ} (hn : n ≤ 128 ^ (k + 1))
    (hp : Placed (K ∪ X) st.Used (Forest st.disk 128 (fun _ => k) b)) :
    ∃ ok b' rest st', (reserveLoopLog f (128 ^ k) ((n + (128 ^ k - 1)) / 128 ^ k) 0 st b n).result =
        .ok (ok, b', rest, st') ∧ (ok = true → rest = 0) ∧
      Attempt K X P (IsLeaf fun _ => k) (Onto (Leaves (k + 1) n)) (Leaves (k + 1) n)
        (Forest st.disk 128 (fun _ => k) b) (Forest st'.disk 128 (fun _ => k) b')
        (neededLoop (needed st.disk k) (128 ^ k) b ((n + (128 ^ k - 1)) / 128 ^ k) 0 n)
        (reserveLoopLog f (128 ^ k) ((n + (128 ^ k - 1)) / 128 ^ k) 0 st b n).log ok st st' := by
  have hcount := entries_le hn
  obtain ⟨ok, b', rest, st', h, hrest, ha⟩ := reserveLoopLog_attempt (fun _ => k) id hP hk hf
    (Nat.le_refl 128) (fun _ _ => rfl) (fun _ _ _ => rfl) (fun _ _ _ _ => rfl) _ 0 st b n
    (by omega) rfl g hp
  exact ⟨ok, b', rest, st', h, hrest, ha.mono (fun p h => h.mono fun p h => (leavesFrom_zero p).mp h)
    fun _ p h => (leavesFrom_zero p).mpr h⟩

theorem placed_zeros {Z : Set Sector} {U : Sector → Prop} {b : ℕ → Sector} (hb : ∀ j, b j = 0) :
    Placed Z U (Forest m 128 (fun _ => k) b) := by
  have hno : ∀ p x, ¬Forest m 128 (fun _ => k) b p x := by
    rintro (_ | ⟨j, p⟩) x h
    · exact h
    · exact h.2.root_ne (hb j)
  exact ⟨fun p q x h _ => absurd h (hno p x), fun p x h => absurd h (hno p x),
    fun p x h => absurd h (hno p x)⟩

/-- What `inode_reserve_indirect` does with the index block `e`. -/
def fillBlock (f : State → Sector → ℕ → Traced Unit Access (Bool × Sector × State)) (unit : ℕ)
    (st : State) (e : Sector) (n : ℕ) : Traced Unit Access (Bool × Sector × State) := do
  let (ok, blocks, rest, st) ←
    reserveLoopLog f unit ((n + (unit - 1)) / unit) 0 st (word (st.disk e)) n
  if ok then
    if rest = 0 then do
      access (.write e)
      pure (true, e, st.write e (ofWords blocks))
    else exit ()
  else pure (false, e, st)

theorem fillBlock_eq {f : State → Sector → ℕ → Traced Unit Access (Bool × Sector × State)} {unit n : ℕ}
    {b : ℕ → Sector} {rest : ℕ}
    (h : (reserveLoopLog f unit ((n + (unit - 1)) / unit) 0 st (word (st.disk e)) n).result =
      .ok (ok, b, rest, st₁)) (hrest : ok = true → rest = 0) :
    fillBlock f unit st e n =
      ⟨(reserveLoopLog f unit ((n + (unit - 1)) / unit) 0 st (word (st.disk e)) n).log ++
          if ok then [.write e] else [],
        .ok (ok, e, if ok then st₁.write e (ofWords b) else st₁)⟩ := by
  unfold fillBlock
  rw [bind_of_ok h]
  cases ok with
  | false => rfl
  | true =>
      dsimp only
      rw [if_pos rfl, if_pos (hrest rfl)]
      rfl

/-- The tree below an index block that is there. -/
theorem fillBlock_attempt {f : State → Sector → ℕ → Traced Unit Access (Bool × Sector × State)} {n : ℕ}
    (hP : ∀ st st', Passive st st' → P st → P st') (hk : k ≤ 2) (hf : Attempts K X P k f)
    (g : Ground K X st) (he : e ≠ 0) (hp : Placed (K ∪ X) st.Used (Refs st.disk (k + 1) e))
    (hn : n ≤ 128 ^ (k + 1)) :
    ∃ ok st', (fillBlock f (128 ^ k) st e n).result = .ok (ok, e, st') ∧
      Attempt K X P (fun p => p.length = k + 1) (Onto (Leaves (k + 1) n)) (Leaves (k + 1) n)
        (Refs st.disk (k + 1) e) (Refs st'.disk (k + 1) e)
        (neededLoop (needed st.disk k) (128 ^ k) (word (st.disk e)) ((n + (128 ^ k - 1)) / 128 ^ k) 0 n)
        (fillBlock f (128 ^ k) st e n).log ok st st' := by
  obtain ⟨ok, b, rest, st₁, h, hrest, ha⟩ := blockLoop_attempt hP hk hf g hn (hp.below he)
  rw [fillBlock_eq h hrest]
  refine ⟨ok, _, rfl, ?_⟩
  cases ok with
  | false =>
      simp only [Bool.false_eq_true, if_false, List.append_nil]
      exact ha.abandon he hp
  | true => exact ha.node he hp

/-- The tree below an index block that could not be allocated: sector 0 is taken for it. -/
theorem fillBlock_spoiled {f : State → Sector → ℕ → Traced Unit Access (Bool × Sector × State)} {n : ℕ}
    (hP : ∀ st st', Passive st st' → P st → P st') (hk : k ≤ 2) (hf : Attempts K X P k f)
    (g : Ground K X st) (hs : Still K st st₁) (hfail : st₁.allocFailed = true)
    (hn : n ≤ 128 ^ (k + 1)) :
    ∃ ok st', (fillBlock f (128 ^ k) (st₁.write 0 zeros) 0 n).result = .ok (ok, 0, st') ∧
      Reserve K X (fun p => p.length = k + 1) B C (Refs st.disk (k + 1) 0) (Refs st'.disk (k + 1) 0)
        false st st' ∧
      (∀ x, .write x ∈ (fillBlock f (128 ^ k) (st₁.write 0 zeros) 0 n).log →
        x = 0 ∨ .allocate x ∈ (fillBlock f (128 ^ k) (st₁.write 0 zeros) 0 n).log) ∧
      (∀ x, st'.Used x →
        st.Used x ∨ .allocate x ∈ (fillBlock f (128 ^ k) (st₁.write 0 zeros) 0 n).log) ∧
      ∀ rest, Suffices (neededLoop (needed (st₁.write 0 zeros).disk k) (128 ^ k)
          (word ((st₁.write 0 zeros).disk 0)) ((n + (128 ^ k - 1)) / 128 ^ k) 0 n ++ rest)
          st₁.free st₁.Pays ↔ ok = true ∧ Suffices rest st'.free st'.Pays := by
  have hs₀ : Still (insert 0 K) st (st₁.write 0 zeros) :=
    (hs.mono (Set.subset_insert 0 K)).trans ⟨passive_write st₁ 0 zeros, rfl, fun x hx =>
      Function.update_of_ne (ne_of_mem_of_not_mem (Set.mem_insert 0 K) hx).symm ..⟩
  have hzeros : ∀ j, word ((st₁.write 0 zeros).disk 0) j = 0 := fun j => by
    change word (update st₁.disk 0 zeros 0) j = 0
    rw [Function.update_self, word_zeros]
  obtain ⟨ok, b, rest, st₂, h, hrest, ha⟩ := blockLoop_attempt hP hk hf (g.still hs₀ g.insert_zero)
    hn (placed_zeros hzeros)
  have hno : ∀ p x, ¬Forest (st₁.write 0 zeros).disk 128 (fun _ => k)
      (word ((st₁.write 0 zeros).disk 0)) p x := by
    rintro (_ | ⟨j, p⟩) x h
    · exact h
    · exact h.2.root_ne (hzeros j)
  rw [fillBlock_eq h hrest]
  have hmem : ∀ a, a ∈ (reserveLoopLog f (128 ^ k) ((n + (128 ^ k - 1)) / 128 ^ k) 0
      (st₁.write 0 zeros) (word ((st₁.write 0 zeros).disk 0)) n).log ++
        (if ok then [Access.write 0] else []) → a = .write 0 ∨
      a ∈ (reserveLoopLog f (128 ^ k) ((n + (128 ^ k - 1)) / 128 ^ k) 0
        (st₁.write 0 zeros) (word ((st₁.write 0 zeros).disk 0)) n).log := by
    intro a ha
    rcases List.mem_append.mp ha with ha | ha
    · exact .inr ha
    · split_ifs at ha
      · exact .inl (List.mem_singleton.mp ha)
      · cases ha
  refine ⟨ok, _, rfl, ?_, fun x hx => ?_, fun x hx => ?_, fun rest => ?_⟩
  · have hr := Reserve.spoiled (B := B) (C := C) (k := k + 1) hs₀ hfail hno ha.reserve
      (m := (if ok = true then st₂.write 0 (ofWords b) else st₂).disk) fun x hx => by
        split_ifs
        · exact Function.update_of_ne hx ..
        · rfl
    cases ok with
    | false => exact hr
    | true => exact hr
  · rcases hmem _ hx with hx | hx
    · exact .inl (Access.write.inj hx)
    · rcases ha.writes x hx with h0 | ha | ⟨p, -, hp⟩
      · exact .inl h0
      · exact .inr (List.mem_append_left _ ha)
      · exact absurd hp (hno p x)
  · have hx : st₂.Used x := by
      cases ok with
      | false => exact hx
      | true => exact hx
    rcases ha.taken x hx with hx | hx
    · exact .inl (hs₀.used.mp hx)
    · exact .inr (List.mem_append_left _ hx)
  · have hsupplied := ha.supplied rest
    cases ok with
    | false => exact hsupplied
    | true => exact hsupplied

theorem reserveIndirectLog_succ (hk : k + 1 ≤ 2) (st : State) (e : Sector) (n : ℕ) :
    reserveIndirectLog (k + 1) st e n = (do
      let (e, st) ← st.indexSectorLog e
      fillBlock (reserveIndirectLog k) (128 ^ k) st e n) := by
  unfold reserveIndirectLog fillBlock
  rw [unit_eq hk]

theorem needed_succ (hk : k + 1 ≤ 2) (m : Sector → Block) (e : Sector) (n : ℕ) :
    needed m (k + 1) e n = (if e = 0 then [true] else []) ++ neededLoop (needed m k) (128 ^ k)
      (if e = 0 then fun _ => 0 else word (m e)) ((n + (128 ^ k - 1)) / 128 ^ k) 0 n := by
  rw [needed, unit_eq hk]
  split_ifs
  · rfl
  · rfl

theorem reserveIndirectLog_attempts (K X : Set Sector) :
    ∀ k, k ≤ 2 → Attempts K X Settled k (reserveIndirectLog k)
  | 0, _ => reserveSectorLog_attempts K X Settled
  | k + 1, hk => fun st e n g hp hn hle => by
      have hB : Onto (Leaves (k + 1) n) [] := ⟨_, ⟨0, hn, rfl⟩, List.nil_prefix⟩
      have ih := reserveIndirectLog_attempts K X k (by omega)
      have hP : ∀ st st' : State, Passive st st' → Settled st → Settled st' :=
        fun _ _ h => h.settled
      rw [reserveIndirectLog_succ hk, needed_succ hk]
      by_cases he : e = 0
      · subst he
        rw [if_pos rfl, if_pos rfl]
        rcases allocate_cases g with ⟨s, st₁, h, hfree, hs, hstill⟩ | ⟨st₁, h, hstill, hfail, hdry⟩
        · -- a new index block
          have hindex : st.indexSectorLog 0 =
              ⟨[.allocate s, .write s], .ok (s, st₁.write s zeros)⟩ := by
            unfold State.indexSectorLog
            rw [if_pos rfl, h]
            rfl
          have hfresh : Attempt K X Settled (fun p => p.length = k + 1) (Onto (Leaves (k + 1) n))
              (fun _ => False) _ _ _ _ true st (st₁.write s zeros) :=
            .fresh hstill g h hfree hs hB nofun true
          obtain ⟨ok, st', hres, ha⟩ := fillBlock_attempt hP (by omega) ih hfresh.reserve.ground
            (g.ne_zero hfree) (hfresh.reserve.placed g hp) hle
          refine ⟨ok, s, st', ?_, ?_⟩
          · rw [hindex]
            exact (result_bind_of_ok rfl _).trans hres
          have hneed : neededLoop (needed (st₁.write s zeros).disk k) (128 ^ k)
              (word ((st₁.write s zeros).disk s)) ((n + (128 ^ k - 1)) / 128 ^ k) 0 n =
              neededLoop (needed st.disk k) (128 ^ k) (fun _ => 0) ((n + (128 ^ k - 1)) / 128 ^ k) 0 n := by
            refine neededLoop_congr fun j l _ _ hl => ?_
            rw [show word ((st₁.write s zeros).disk s) j = 0 by
              change word (update st₁.disk s zeros s) j = 0
              rw [Function.update_self, word_zeros]]
            exact needed_congr (by omega) hl fun _ _ h => absurd rfl h.root_ne
          rw [hneed] at ha
          rw [hindex, bind_of_ok rfl]
          exact (hfresh.trans hP g ha).mono (fun _ h => h) fun _ p h => .inr h
        · -- sector 0 is taken
          have hindex : st.indexSectorLog 0 = ⟨[.write 0], .ok (0, st₁.write 0 zeros)⟩ := by
            unfold State.indexSectorLog
            rw [if_pos rfl, h]
            rfl
          obtain ⟨ok, st', hres, hreserve, hwrites, htaken, hsupplied⟩ :=
            fillBlock_spoiled hP (by omega) ih g hstill hfail hle
          have hresult : ((⟨[.write 0], .ok (0, st₁.write 0 zeros)⟩ : Traced Unit Access _) >>= fun x =>
              fillBlock (reserveIndirectLog k) (128 ^ k) x.2 x.1 n).result =
                .ok (ok, 0, st') := (result_bind_of_ok rfl _).trans hres
          have hspoils : Spoils ([.write 0] ++
              (fillBlock (reserveIndirectLog k) (128 ^ k) (st₁.write 0 zeros) 0 n).log) = true :=
            decide_eq_true List.mem_cons_self
          -- when nothing more can be allocated
          have hrefused : st₁.Dry → ok = false := fun hd => by
            obtain ⟨st₂, hsame, -⟩ := indexSector_refused (reserveIndirect_dry k) g h hstill hd hn
            rw [← reserveIndirectLog_value, value_eq_some, reserveIndirectLog_succ hk, hindex,
              hresult] at hsame
            exact congrArg Prod.fst (Except.ok.inj hsame)
          rw [hindex]
          refine ⟨ok, 0, st', hresult, ?_⟩
          rw [bind_of_ok rfl]
          refine ⟨?_, fun hset _ => hrefused (hdry hset), fun x hx => ?_, fun x hx => ?_, ?_,
            fun rest => ?_⟩
          · rw [hspoils, Bool.not_true, Bool.and_false]
            exact hreserve
          · rcases List.mem_cons.mp hx with hx | hx
            · exact .inl (Access.write.inj hx)
            · exact (hwrites x hx).imp_right fun h => .inl (List.mem_cons_of_mem _ h)
          · exact (htaken x hx).imp_right (List.mem_cons_of_mem _)
          · refine .spoiled 0 rfl (room_zero st) (allocate_no_room g h) hspoils fun hfree => ⟨?_, ?_⟩
            · exact hrefused (.inl (hstill.scan.trans (scan_none.mpr hfree)))
            · have := free_le hreserve.grows.used hreserve.passive.size
              omega
          · have hneed : neededLoop (needed (st₁.write 0 zeros).disk k) (128 ^ k)
                (word ((st₁.write 0 zeros).disk 0)) ((n + (128 ^ k - 1)) / 128 ^ k) 0 n =
                neededLoop (needed st.disk k) (128 ^ k) (fun _ => 0)
                  ((n + (128 ^ k - 1)) / 128 ^ k) 0 n := by
              refine neededLoop_congr fun j l _ _ hl => ?_
              rw [show word ((st₁.write 0 zeros).disk 0) j = 0 by
                change word (update st₁.disk 0 zeros 0) j = 0
                rw [Function.update_self, word_zeros]]
              exact needed_congr (by omega) hl fun _ _ h => absurd rfl h.root_ne
            rw [← hneed, List.singleton_append, List.cons_append]
            exact (suffices_refused g h hstill.free).trans ((and_iff_right rfl).trans (hsupplied rest))
      · have hindex : st.indexSectorLog e = pure (e, st) := if_neg he
        rw [if_neg he, if_neg he, hindex, Traced.pure_bind]
        obtain ⟨ok, st', hres, ha⟩ := fillBlock_attempt hP (by omega) ih g he hp hle
        exact ⟨ok, e, st', hres, ha⟩

/-! ### The tree of an inode -/

theorem filePath_indirect (t : ℕ) (ht : t < 128 ^ 1) : filePath (123 + t) = 123 :: leafPath 1 t := by
  unfold filePath
  rw [if_neg (by omega), if_pos (by omega), Nat.add_sub_cancel_left]

theorem filePath_doubly (t : ℕ) (_ : t < 128 ^ 2) : filePath (251 + t) = 124 :: leafPath 2 t := by
  unfold filePath
  rw [if_neg (by omega), if_neg (by omega), Nat.add_sub_cancel_left]

/-- The paths from `base` on. -/
def FileLeavesFrom (base n : ℕ) (p : List ℕ) : Prop := ∃ t, t < n ∧ p = filePath (base + t)

theorem fileLeaves_append {base u : ℕ} (hu : base ≤ u) (p : List ℕ) :
    FileLeaves u p ↔ FileLeaves base p ∨ FileLeavesFrom base (u - base) p := by
  constructor
  · rintro ⟨i, hi, rfl⟩
    by_cases hlt : i < base
    · exact .inl ⟨i, hlt, rfl⟩
    · exact .inr ⟨i - base, by omega, by rw [Nat.add_sub_cancel' (by omega)]⟩
  · rintro (⟨i, hi, rfl⟩ | ⟨t, ht, rfl⟩)
    · exact ⟨i, by omega, rfl⟩
    · exact ⟨base + t, by omega, rfl⟩

/-- The first `base` data sectors are not in a tree whose first data sector comes behind them. -/
theorem onto_fileLeaves_not {base j : ℕ} {q : List ℕ} (hj : j = 123 ∧ base ≤ 123 ∨ j = 124 ∧ base ≤ 251) :
    ¬Onto (FileLeaves base) (j :: q) := by
  rintro ⟨_, ⟨i, hi, rfl⟩, hp⟩
  unfold filePath at hp
  split_ifs at hp with h₁ h₂
  · have := (List.cons_prefix_cons.mp hp).1
    omega
  · have := (List.cons_prefix_cons.mp hp).1
    omega
  · have := (List.cons_prefix_cons.mp hp).1
    omega

theorem Reserve.outside {j : ℕ} (h : Reserve K X L B C R R' ok st st') (hB : ∀ q, ¬B (j :: q)) :
    ∀ q x, R' (j :: q) x ↔ R (j :: q) x := fun q x =>
  ⟨fun hx => (h.grows.source _ x hx).resolve_right fun h => hB q h.2.2, h.grows.keep _ x⟩

/-- The attempt to reserve the first `n` data sectors of an inode. -/
abbrev FileAttempt (K X : Set Sector) (P : State → Prop) (n : ℕ) (d d' : InodeDisk)
    (need : List Bool) (log : List Access) (ok : Bool) (st st' : State) : Prop :=
  Attempt K X P (IsLeaf levelOf) (Onto (FileLeaves n)) (FileLeaves n) (Owned st.disk d)
    (Owned st'.disk d') need log ok st st'

theorem direct_attempt (hP : ∀ st st', Passive st st' → P st → P st') (g : Ground K X st)
    (hp : Placed (K ∪ X) st.Used (Owned st.disk d)) {n : ℕ} (hn : n ≤ 123) :
    ∃ ok b rest st', (reserveLoopLog (fun st e _ => st.reserveSectorLog e) 1 n 0 st d.directBlocks
        n).result = .ok (ok, b, rest, st') ∧
      FileAttempt K X P n d { d with directBlocks := b }
        (neededLoop (needed st.disk 0) 1 d.directBlocks n 0 n)
        (reserveLoopLog (fun st e _ => st.reserveSectorLog e) 1 n 0 st d.directBlocks n).log ok st st' := by
  obtain ⟨ok, b, rest, st', h, -, ha⟩ := reserveLoopLog_attempt (M := 123) (W := 125) levelOf
    (fun b => rootOf { d with directBlocks := b }) hP (by omega)
    (reserveSectorLog_attempts K X P) (by omega) (fun i hi => by unfold levelOf; omega)
    (fun b i hi => if_pos hi) (rootOf_direct d) n 0 st d.directBlocks n (by omega) (by omega) g hp
  have hpath : ∀ p, LeavesFrom 0 0 n p ↔ FileLeaves n p := fun p => by
    unfold LeavesFrom FileLeaves
    refine exists_congr fun t => and_congr_right fun ht => ?_
    unfold filePath
    rw [if_pos (by omega), Nat.zero_add, Nat.pow_zero, Nat.div_one]
    rfl
  exact ⟨ok, b, rest, st', h, ha.mono (fun p h => h.mono fun p h => (hpath p).mp h)
    fun _ p h => (hpath p).mpr h⟩

/-- The indirect block, for `k = 1`, or the doubly indirect block, for `k = 2`, with the data
sectors from `base` on. -/
theorem indirect_attempt {base n : ℕ} {f : Sector → InodeDisk} (hk : k = 1 ∨ k = 2)
    (g : Ground K X st) (hp : Placed (K ∪ X) st.Used (Owned st.disk d)) (he : rootOf d (k + 122) = e)
    (hf : ∀ e, rootOf (f e) = update (rootOf d) (k + 122) e)
    (hbase : ∀ t, t < 128 ^ k → filePath (base + t) = (k + 122) :: leafPath k t)
    (h0 : 0 < n) (hn : n ≤ 128 ^ k) :
    ∃ ok e' st', (reserveIndirectLog k st e n).result = .ok (ok, e', st') ∧
      Attempt K X Settled (IsLeaf levelOf) (Onto (FileLeavesFrom base n)) (FileLeavesFrom base n)
        (Owned st.disk d) (Owned st'.disk (f e')) (needed st.disk k e n)
        (reserveIndirectLog k st e n).log ok st st' := by
  have hi : k + 122 < 125 := by omega
  have hlev : levelOf (k + 122) = k := Nat.add_sub_cancel ..
  have htree := hp.tree hi
  rw [hlev, he] at htree
  obtain ⟨ok, e', st', h, ha⟩ := reserveIndirectLog_attempts K X k (by omega) st e n g htree h0 hn
  have hpath : ∀ p, (∃ q, p = (k + 122) :: q ∧ Leaves k n q) ↔ FileLeavesFrom base n p := fun p => by
    constructor
    · rintro ⟨q, rfl, t, ht, rfl⟩
      exact ⟨t, ht, (hbase t (by omega)).symm⟩
    · rintro ⟨t, ht, rfl⟩
      exact ⟨_, hbase t (by omega), t, ht, rfl⟩
  refine ⟨ok, e', st', h, ?_⟩
  have ha' : Attempt K X Settled (fun p => p.length = levelOf (k + 122)) (Onto (Leaves k n))
      (Leaves k n) (Refs st.disk (levelOf (k + 122)) (rootOf d (k + 122)))
      (Refs st'.disk (levelOf (k + 122)) e') (needed st.disk k e n)
      (reserveIndirectLog k st e n).log ok st st' := by
    rw [hlev, he]
    exact ha
  unfold Owned
  rw [hf e']
  exact (ha'.replace hi hp).mono (fun p h => (onto_cons h).mono fun p h => (hpath p).mp h)
    fun _ p h => (hpath p).mpr h

theorem Attempt.weaken {Q : State → Prop} (h : Attempt K X P L B C R R' need log ok st st')
    (hQ : Q st → P st) : Attempt K X Q L B C R R' need log ok st st' :=
  { h with settled := fun hq => h.settled (hQ hq) }

/-- Behind the first `base` data sectors the next `n` are reserved. -/
theorem Attempt.behind {base n : ℕ} {d₁ d₂ : InodeDisk} (hP : ∀ st st', Passive st st' → P st → P st')
    (g : Ground K X st) (h₁ : FileAttempt K X P base d d₁ need₁ log₁ true st st₁)
    (h₂ : Attempt K X P (IsLeaf levelOf) (Onto (FileLeavesFrom base n)) (FileLeavesFrom base n)
      (Owned st₁.disk d₁) (Owned st'.disk d₂) need₂ log₂ ok st₁ st') :
    FileAttempt K X P (base + n) d d₂ (need₁ ++ need₂) (log₁ ++ log₂) ok st st' := by
  have hpath := fileLeaves_append (Nat.le_add_right base n)
  rw [Nat.add_sub_cancel_left] at hpath
  refine ((h₁.mono (fun p h => h.mono fun p h => (hpath p).mpr (.inl h)) fun _ _ h => h).trans hP g
    (h₂.mono (fun p h => h.mono fun p h => (hpath p).mpr (.inr h)) fun _ _ h => h)).mono
    (fun _ h => h) fun _ p h => (hpath p).mp h

theorem owned_indirect {q : List ℕ} : Owned m d (123 :: q) x ↔ Refs m 1 d.indirectBlock q x :=
  ⟨fun h => h.2, fun h => ⟨show 123 < 125 by omega, h⟩⟩

theorem owned_doubly {q : List ℕ} : Owned m d (124 :: q) x ↔ Refs m 2 d.doublyIndirectBlock q x :=
  ⟨fun h => h.2, fun h => ⟨show 124 < 125 by omega, h⟩⟩

theorem Attempt.give_up {base n : ℕ} (h : FileAttempt K X P base d d' need₁ log false st st')
    (hn : base ≤ n) : FileAttempt K X P n d d' (need₁ ++ need₂) log false st st' := by
  have h' : FileAttempt K X P n d d' need₁ log false st st' :=
    h.mono (fun _ h => h.mono fun _ ⟨i, hi, h⟩ => ⟨i, by omega, h⟩) nofun
  exact h'.stop

/-- `inode_reserve` reserves what the length needs, as far as the two index blocks reach. -/
theorem inodeReserveLog_attempt {length : ℤ} (g : Ground K X st)
    (hp : Placed (K ∪ X) st.Used (Owned st.disk d)) (h0 : 0 ≤ length) :
    ∃ ok d' st', FileAttempt K X (fun st => 123 < bytesToSectors length.toNat → Settled st)
        (min (bytesToSectors length.toNat) 16635) d d' (inodeNeeded st.disk d length)
        (st.inodeReserveLog d length).log ok st st' ∧
      d'.length = d.length ∧ d'.isDir = d.isDir ∧
      (st.inodeReserveLog d length).result =
        if ok = true ∧ 16635 < bytesToSectors length.toNat then .error () else .ok (ok, d', st') := by
  unfold State.inodeReserveLog inodeNeeded
  rw [if_neg (by omega)]
  generalize bytesToSectors length.toNat = n
  have hP : ∀ st st' : State, Passive st st' → (123 < n → Settled st) → 123 < n → Settled st' :=
    fun _ _ h hs hn => h.settled (hs hn)
  obtain ⟨ok, b, rest, st₁, h₁, ha₁⟩ := direct_attempt hP g hp (Nat.min_le_right n 123)
  dsimp only
  rw [bind_of_ok h₁]
  dsimp only
  cases ok with
  | false =>
      rw [if_pos rfl, pure_log, List.append_nil, List.append_assoc]
      exact ⟨false, _, st₁, ha₁.give_up (by omega), rfl, rfl, rfl⟩
  | true =>
  rw [if_neg (nofun : ¬true = false)]
  by_cases hn₁ : n ≤ 123
  · rw [if_pos hn₁, if_pos (show n ≤ 251 by omega), if_pos (show n - min n 123 = 0 by omega),
      pure_log, List.append_nil, List.append_nil, List.append_nil,
      show min n 16635 = min n 123 by omega]
    exact ⟨true, _, st₁, ha₁, rfl, rfl, (if_neg (by omega)).symm⟩
  rw [show min n 123 = 123 by omega] at *
  rw [if_neg hn₁, if_neg (show ¬n - 123 = 0 by omega)]
  -- the indirect block
  have hp₁ := ha₁.reserve.placed g hp
  have hneed₁ : ∀ j q y, 123 ≤ j → j ≤ 124 → (Owned st₁.disk { d with directBlocks := b } (j :: q) y ↔
      Owned st.disk d (j :: q) y) := fun j q y hj hj' =>
    ha₁.reserve.outside (fun q => onto_fileLeaves_not (by omega)) q y
  obtain ⟨ok, e, st₂, h₂, ha₂⟩ := indirect_attempt (n := min (n - 123) 128) (k := 1)
    (e := d.indirectBlock)
    (f := fun e => { d with directBlocks := b, indirectBlock := e }) (.inl rfl) ha₁.reserve.ground
    hp₁ rfl (rootOf_indirect { d with directBlocks := b }) filePath_indirect (by omega) (by omega)
  have ha₂' := ha₁.behind hP g (ha₂.weaken fun h => h (by omega))
  rw [needed_of_refs (m := st.disk) (e := d.indirectBlock) (by omega) (by omega) fun q y =>
    owned_indirect.symm.trans ((hneed₁ 123 q y (by omega) (by omega)).trans owned_indirect)] at ha₂'
  rw [bind_of_ok h₂]
  dsimp only
  cases ok with
  | false =>
      rw [if_pos rfl, pure_log, List.append_nil]
      exact ⟨false, _, st₂, ha₂'.give_up (by omega), rfl, rfl, rfl⟩
  | true =>
  rw [if_neg (nofun : ¬true = false)]
  by_cases hn₂ : n ≤ 251
  · rw [if_pos hn₂, if_pos (show n - 123 - min (n - 123) 128 = 0 by omega), pure_log,
      List.append_nil, List.append_nil, show min n 16635 = 123 + min (n - 123) 128 by omega]
    exact ⟨true, _, st₂, ha₂', rfl, rfl, (if_neg (by omega)).symm⟩
  rw [show min (n - 123) 128 = 128 by omega] at *
  rw [if_neg hn₂, if_neg (show ¬n - 123 - 128 = 0 by omega), show n - 123 - 128 = n - 251 by omega]
  -- the doubly indirect block
  have hp₂ := ha₂'.reserve.placed g hp
  have hneed₂ : ∀ q y, Owned st₂.disk { d with directBlocks := b, indirectBlock := e } (124 :: q) y ↔
      Owned st.disk d (124 :: q) y := fun q y =>
    ha₂'.reserve.outside (fun q => onto_fileLeaves_not (by omega)) q y
  obtain ⟨ok, e', st₃, h₃, ha₃⟩ := indirect_attempt (n := min (n - 251) (128 * 128)) (k := 2)
    (e := d.doublyIndirectBlock)
    (f := fun e' => { d with directBlocks := b, indirectBlock := e, doublyIndirectBlock := e' })
    (.inr rfl) ha₂'.reserve.ground hp₂ rfl
    (rootOf_doubly { d with directBlocks := b, indirectBlock := e }) filePath_doubly (by omega) (by omega)
  have ha₃' := ha₂'.behind hP g (ha₃.weaken fun h => h (by omega))
  rw [needed_of_refs (m := st.disk) (e := d.doublyIndirectBlock) (by omega) (by omega) fun q y =>
      owned_doubly.symm.trans ((hneed₂ q y).trans owned_doubly),
    show 123 + 128 + min (n - 251) (128 * 128) = min n 16635 by omega] at ha₃'
  rw [bind_of_ok h₃]
  dsimp only
  cases ok with
  | false =>
      rw [if_pos rfl, pure_log, List.append_nil, ← List.append_assoc]
      exact ⟨false, _, st₃, ha₃', rfl, rfl, rfl⟩
  | true =>
  rw [if_neg (nofun : ¬true = false)]
  by_cases hn₃ : n ≤ 16635
  · rw [if_pos (show n - 251 - min (n - 251) (128 * 128) = 0 by omega), pure_log, List.append_nil,
      ← List.append_assoc]
    exact ⟨true, _, st₃, ha₃', rfl, rfl, (if_neg (by omega)).symm⟩
  · rw [if_neg (show ¬n - 251 - min (n - 251) (128 * 128) = 0 by omega), exit_log, List.append_nil,
      ← List.append_assoc]
    exact ⟨true, _, st₃, ha₃', rfl, rfl, (if_pos ⟨rfl, by omega⟩).symm⟩

/-- The reservation of a whole inode. -/
abbrev FileReserve (K X : Set Sector) (n l : ℕ) (d d' : InodeDisk) (ok : Bool) (st st' : State) :
    Prop :=
  Reserve K X (IsLeaf levelOf) (Onto (FileLeaves n)) (FileLeaves l) (Owned st.disk d)
    (Owned st'.disk d') ok st st'

/-- Where no index block is missing, what is returned says whether all is there. -/
theorem Attempt.reserve_of (h : Attempt K X P L B C R R' need log ok st st') (hP : P st) :
    Reserve K X L B C R R' ok st st' := by
  have hr := h.reserve
  cases hs : Spoils log with
  | false =>
      rw [hs, Bool.not_false, Bool.and_true] at hr
      exact hr
  | true =>
      rw [h.settled hP hs, Bool.false_and] at hr
      rw [h.settled hP hs]
      exact hr

/-- No index block is taken to be sector 0 by a reservation that succeeds. -/
def Unspoiled (st : State) (d : InodeDisk) (length : ℤ) : Prop := ∀ d' st',
  st.inodeReserve d length = some (true, d', st') →
    Spoils (st.inodeReserveLog d length).log = false

/-- `inode_reserve` gives every data sector of the new length its place, or fails on the way. -/
theorem inodeReserve_some {length : ℤ} (g : Ground K X st)
    (hp : Placed (K ∪ X) st.Used (Owned st.disk d)) (h0 : 0 ≤ length)
    (hu : Unspoiled st d length) (hr : st.inodeReserve d length = some (ok, d', st')) :
    FileReserve K X (bytesToSectors length.toNat) (min (bytesToSectors length.toNat) 16635) d d' ok
        st st' ∧
      d'.length = d.length ∧ d'.isDir = d.isDir ∧
      (ok = true → bytesToSectors length.toNat ≤ 16635) := by
  obtain ⟨ok₁, d₁, st₁, ha, hl, hd, h⟩ := inodeReserveLog_attempt g hp h0
  have hr' := hr
  rw [← inodeReserveLog_value, value_eq_some, h] at hr'
  split_ifs at hr' with hbig
  cases hr'
  refine ⟨?_, hl, hd, fun hok => not_lt.mp fun hlt => hbig ⟨hok, hlt⟩⟩
  have hreserve : FileReserve K X (bytesToSectors length.toNat)
      (min (bytesToSectors length.toNat) 16635) d d' (ok && !Spoils (st.inodeReserveLog d length).log)
      st st' := ha.reserve.mono (fun p h => h.mono fun p ⟨i, hi, h⟩ => ⟨i, by omega, h⟩) fun _ _ h => h
  cases ok with
  | false => exact hreserve
  | true =>
      rw [hu d' st' hr] at hreserve
      exact hreserve

theorem unspoiled_of_attempt {length : ℤ} (g : Ground K X st)
    (hp : Placed (K ∪ X) st.Used (Owned st.disk d))
    (hs : ∀ d' st', FileAttempt K X (fun st => 123 < bytesToSectors length.toNat → Settled st)
      (min (bytesToSectors length.toNat) 16635) d d' (inodeNeeded st.disk d length)
      (st.inodeReserveLog d length).log true st st' → Spoils (st.inodeReserveLog d length).log = false) :
    Unspoiled st d length := by
  intro d' st' hr
  by_cases hneg : length < 0
  · rw [show st.inodeReserve d length = some (false, d, st) from if_pos hneg] at hr
    cases hr
  · obtain ⟨ok₁, d₁, st₁, ha, -, -, h⟩ := inodeReserveLog_attempt g hp (not_lt.mp hneg)
    rw [← inodeReserveLog_value, value_eq_some, h] at hr
    split_ifs at hr
    cases hr
    exact hs _ _ ha

theorem unspoiled_of_settled {length : ℤ} (g : Ground K X st)
    (hp : Placed (K ∪ X) st.Used (Owned st.disk d))
    (hset : 123 < bytesToSectors length.toNat → Settled st) : Unspoiled st d length :=
  unspoiled_of_attempt g hp fun _ _ ha => by
    by_contra hs
    exact absurd (ha.settled hset (Bool.eq_true_of_not_eq_false hs)) Bool.noConfusion

/-- `inode_reserve` gives every data sector of the new length its place, or fails on the way. -/
theorem inodeReserve_cases {length : ℤ} (g : Ground K X st)
    (hp : Placed (K ∪ X) st.Used (Owned st.disk d))
    (hset : 123 < bytesToSectors length.toNat → Settled st) (h0 : 0 ≤ length) :
    ∃ ok d' st', FileReserve K X (bytesToSectors length.toNat)
        (min (bytesToSectors length.toNat) 16635) d d' ok st st' ∧
      d'.length = d.length ∧ d'.isDir = d.isDir ∧
      st.inodeReserve d length =
        if ok = true ∧ 16635 < bytesToSectors length.toNat then none else some (ok, d', st') := by
  obtain ⟨ok, d', st', ha, hl, hd, h⟩ := inodeReserveLog_attempt g hp h0
  refine ⟨ok, d', st', (ha.reserve_of hset).mono (fun p h => h.mono fun p ⟨i, hi, h⟩ =>
    ⟨i, by omega, h⟩) fun _ _ h => h, hl, hd, ?_⟩
  rw [← inodeReserveLog_value, Traced.value, h]
  split_ifs
  · rfl
  · rfl

end CSE130.Lab3.Files
