import CSE130.Lab3.Cache
import Mathlib.Logic.Function.Iterate

/-! # The eviction of the buffer cache

The loop of `buffer_cache_evict` looks at one entry after another from the hand on.  Whatever the
flags of the entries are, it ends within one round and one entry: what it has passed has lost its
reference bit, so that at the latest the entry at which it began is taken on the second visit. -/

namespace CSE130.Lab3.Cache

open Function (update)

variable {c c' c'' : Cache} {i j : Slot} {k n : ℕ}

/-- The entry that the loop examines. -/
def examined (c : Cache) : Entry := c.entries c.clock

/-- The loop ends at the examined entry. -/
def Takes (c : Cache) : Prop := c.examined.occupied = false ∨ c.examined.access = false

instance : Decidable c.Takes := inferInstanceAs (Decidable (_ ∨ _))

/-- A turn of the loop that passes the examined entry. -/
def secondChance (c : Cache) : Cache := (c.setEntry c.clock { c.examined with access := false }).tick

/-- What follows when the loop has ended. -/
def take (c : Cache) : Option (Slot × Cache) :=
  if c.examined.occupied = false then some (c.clock, c)
  else do
    let c ← c.flushDirty c.clock
    some (c.clock, c.setEntry c.clock { c.entries c.clock with occupied := false })

/-- Reference bits have been cleared, and nothing else has changed but the hand. -/
structure Cleared (c c' : Cache) : Prop where
  entries : ∀ j, c'.entries j = { c.entries j with access := (c'.entries j).access }
  access : ∀ j, (c'.entries j).access → (c.entries j).access
  lockHeld : c'.lockHeld = c.lockHeld
  device : c'.device = c.device
  size : c'.size = c.size

theorem Cleared.refl (c : Cache) : Cleared c c := ⟨fun _ => rfl, fun _ h => h, rfl, rfl, rfl⟩

theorem Cleared.trans (h : Cleared c c') (h' : Cleared c' c'') : Cleared c c'' where
  entries j := by
    conv_lhs => rw [h'.entries j, h.entries j]
  access j hj := h.access j (h'.access j hj)
  lockHeld := h'.lockHeld.trans h.lockHeld
  device := h'.device.trans h.device
  size := h'.size.trans h.size

theorem secondChance_entries (c : Cache) :
    c.secondChance.entries = update c.entries c.clock { c.examined with access := false } := rfl

theorem secondChance_access (c : Cache) : (c.secondChance.entries c.clock).access = false := by
  rw [secondChance_entries, Function.update_self]

theorem secondChance_cleared (c : Cache) : Cleared c c.secondChance := by
  refine ⟨fun j => ?_, fun j hj => ?_, rfl, rfl, rfl⟩
  · rw [secondChance_entries]
    by_cases hji : j = c.clock
    · subst hji
      rw [Function.update_self]
      rfl
    · rw [Function.update_of_ne hji]
  · rw [secondChance_entries] at hj
    by_cases hji : j = c.clock
    · subst hji
      rw [Function.update_self] at hj
      cases hj
    · rwa [Function.update_of_ne hji] at hj

theorem iterate_cleared (c : Cache) (k : ℕ) : Cleared c (secondChance^[k] c) := by
  induction k with
  | zero => exact Cleared.refl c
  | succ k ih =>
      rw [Function.iterate_succ_apply']
      exact ih.trans (secondChance_cleared _)

theorem iterate_clock (c : Cache) (k : ℕ) :
    ((secondChance^[k] c).clock : ℕ) = (c.clock + k) % bufferCacheSize := by
  induction k with
  | zero => exact (Nat.mod_eq_of_lt c.clock.isLt).symm
  | succ k ih =>
      have htick (d : Cache) : (d.secondChance.clock : ℕ) = (d.clock + 1) % bufferCacheSize := rfl
      rw [Function.iterate_succ_apply', htick, ih, Nat.mod_add_mod, Nat.add_assoc]

theorem takes_round (c : Cache) : Takes (secondChance^[bufferCacheSize] c) := by
  have hclock : (secondChance^[bufferCacheSize] c).clock = c.clock := by
    apply Fin.ext
    rw [iterate_clock, Nat.add_mod_right, Nat.mod_eq_of_lt c.clock.isLt]
  have haccess : ((secondChance^[bufferCacheSize] c).entries c.clock).access = false := by
    rw [Function.iterate_succ_apply]
    refine Bool.eq_false_iff.mpr fun h => ?_
    have := (iterate_cleared c.secondChance 63).access c.clock h
    rw [secondChance_access] at this
    cases this
  refine Or.inr ?_
  unfold examined
  rwa [hclock]

/-- The loop ends after `k` second chances. -/
structure StopsAfter (c : Cache) (k : ℕ) : Prop where
  passed : ∀ j < k, ¬ Takes (secondChance^[j] c)
  taken : Takes (secondChance^[k] c)

theorem exists_stopsAfter (c : Cache) : ∃ k ≤ bufferCacheSize, StopsAfter c k := by
  have h : ∃ k, Takes (secondChance^[k] c) := ⟨_, takes_round c⟩
  exact ⟨Nat.find h, Nat.find_min' h (takes_round c), fun _ hj => Nat.find_min h hj, Nat.find_spec h⟩

theorem StopsAfter.pred (h : StopsAfter c (k + 1)) : StopsAfter c.secondChance k := by
  refine ⟨fun j hj => ?_, ?_⟩
  · rw [← Function.iterate_succ_apply]
    exact h.passed (j + 1) (by omega)
  · rw [← Function.iterate_succ_apply]
    exact h.taken

/-- The loop and what follows, with any number of turns that is large enough. -/
theorem evictLoop_eq (h : StopsAfter c k) (hn : k < n) :
    evictLoop n c = take (secondChance^[k] c) := by
  induction k generalizing c n with
  | zero =>
      obtain ⟨n, rfl⟩ := Nat.exists_eq_succ_of_ne_zero hn.ne'
      unfold evictLoop take
      by_cases ho : (c.entries c.clock).occupied = false
      · rw [if_pos ho]
        exact (if_pos ho).symm
      · have ha : (c.entries c.clock).access = false := h.taken.resolve_left ho
        dsimp only
        rw [if_neg ho, if_neg (by simp [ha])]
        have ho' : ¬ (secondChance^[0] c).examined.occupied = false := ho
        exact (if_neg ho').symm
  | succ k ih =>
      obtain ⟨n, rfl⟩ := Nat.exists_eq_succ_of_ne_zero (by omega : n ≠ 0)
      obtain ⟨ho, ha⟩ := not_or.mp (h.passed 0 (Nat.succ_pos k))
      have ho : ¬ (c.entries c.clock).occupied = false := ho
      have ha : (c.entries c.clock).access = true := Bool.eq_true_of_not_eq_false ha
      unfold evictLoop
      dsimp only
      rw [if_neg ho, if_pos ha, Function.iterate_succ_apply]
      exact ih h.pred (by omega)

/-- The victim's sector, if it has to be written back, is on the device. -/
def Writable (e : Entry) (size : Sector) : Prop := e.occupied → e.dirty → e.diskSector < size

/-- The slot `i` has been made free. -/
structure Evicted (c : Cache) (i : Slot) (c' : Cache) : Prop where
  vacant : (c'.entries i).occupied = false
  written : (c.entries i).occupied → (c.entries i).dirty →
    c'.device (c.entries i).diskSector = (c.entries i).buffer
  device : ∀ s, ((c.entries i).occupied → (c.entries i).dirty → s ≠ (c.entries i).diskSector) →
    c'.device s = c.device s
  others : ∀ j ≠ i, c'.entries j = { c.entries j with access := (c'.entries j).access }
  access : ∀ j, (c'.entries j).access → (c.entries j).access
  lockHeld : c'.lockHeld = c.lockHeld
  size : c'.size = c.size

/-- The bits that were cleared before do not matter. -/
theorem Evicted.of_cleared (h : Cleared c c') (he : Evicted c' i c'') : Evicted c i c'' := by
  have hi := h.entries i
  have hocc : (c'.entries i).occupied = (c.entries i).occupied := by rw [hi]
  have hdirty : (c'.entries i).dirty = (c.entries i).dirty := by rw [hi]
  have hsector : (c'.entries i).diskSector = (c.entries i).diskSector := by rw [hi]
  have hbuffer : (c'.entries i).buffer = (c.entries i).buffer := by rw [hi]
  constructor
  · exact he.vacant
  · rw [← hocc, ← hdirty, ← hsector, ← hbuffer]
    exact he.written
  · rw [← hocc, ← hdirty, ← hsector, ← h.device]
    exact he.device
  · intro j hj
    conv_lhs => rw [he.others j hj, h.entries j]
  · exact fun j hj => h.access j (he.access j hj)
  · exact he.lockHeld.trans h.lockHeld
  · exact he.size.trans h.size

/-- The victim is written back if it is dirty. -/
theorem flushDirty_eq (hl : c.lockHeld) (ho : (c.entries i).occupied)
    (hw : Writable (c.entries i) c.size) :
    ∃ c' b, c.flushDirty i = some c' ∧ c'.clock = c.clock ∧ c'.lockHeld = c.lockHeld ∧
      c'.size = c.size ∧ c'.entries = update c.entries i { c.entries i with dirty := b } ∧
      c'.device = if (c.entries i).dirty then
        update c.device (c.entries i).diskSector (c.entries i).buffer else c.device := by
  unfold flushDirty
  by_cases hd : (c.entries i).dirty
  · rw [if_pos hd, if_pos hd]
    unfold bufferCacheFlush blockWrite
    rw [if_pos ⟨hl, ho⟩, if_pos hd, if_pos (hw ho hd)]
    exact ⟨_, false, rfl, rfl, rfl, rfl, rfl, rfl⟩
  · rw [if_neg hd, if_neg hd]
    exact ⟨c, (c.entries i).dirty, rfl, rfl, rfl, rfl, (Function.update_eq_self i c.entries).symm, rfl⟩

theorem take_spec (hl : c.lockHeld) (hw : Writable c.examined c.size) :
    ∃ c', c.take = some (c.clock, c') ∧ Evicted c c.clock c' := by
  unfold take
  by_cases ho : c.examined.occupied = false
  · have hfree : ¬ (c.entries c.clock).occupied := by
      rw [show (c.entries c.clock).occupied = false from ho]
      decide
    exact ⟨c, if_pos ho, ho, fun h => absurd h hfree, fun _ _ => rfl, fun _ _ => rfl, fun _ h => h,
      rfl, rfl⟩
  have hocc : (c.entries c.clock).occupied = true := Bool.eq_true_of_not_eq_false ho
  obtain ⟨c', b, hf, hclock, hlock, hsize, hentries, hdevice⟩ := flushDirty_eq hl hocc hw
  refine ⟨c'.setEntry c.clock { c'.entries c.clock with occupied := false }, ?_, ?_⟩
  · rw [if_neg ho, hf]
    dsimp only [Option.bind_eq_bind, Option.bind_some]
    rw [hclock]
  have hnew (j : Slot) : (c'.setEntry c.clock { c'.entries c.clock with occupied := false }).entries j
      = if j = c.clock then { c'.entries c.clock with occupied := false } else c.entries j := by
    unfold setEntry
    dsimp only
    rw [Function.update_apply]
    split
    · rfl
    · rename_i hj
      rw [hentries, Function.update_of_ne hj]
  have hself : (c'.entries c.clock).access = (c.entries c.clock).access := by
    rw [hentries, Function.update_self]
  have hdev (d : Cache) : (d.setEntry c.clock { d.entries c.clock with occupied := false }).device
      = d.device := rfl
  constructor
  · rw [hnew, if_pos rfl]
  · intro _ hd
    rw [hdev, hdevice, if_pos hd, Function.update_self]
  · intro s hs
    rw [hdev, hdevice]
    split
    · rename_i hd
      rw [Function.update_of_ne (hs hocc hd)]
    · rfl
  · intro j hj
    rw [hnew, if_neg hj]
  · intro j hj
    rw [hnew] at hj
    split at hj
    · rename_i hji
      rw [hji, ← hself]
      exact hj
    · exact hj
  · exact hlock
  · exact hsize

theorem exists_take (c : Cache) (hl : c.lockHeld) : ∃ k ≤ bufferCacheSize, StopsAfter c k ∧
    c.bufferCacheEvict = take (secondChance^[k] c) := by
  obtain ⟨k, hk, hstop⟩ := exists_stopsAfter c
  refine ⟨k, hk, hstop, ?_⟩
  unfold bufferCacheEvict
  rw [if_pos hl]
  exact evictLoop_eq hstop (Nat.lt_succ_of_le hk)

theorem take_iterate (hl : c.lockHeld) (k : ℕ)
    (hw : Writable (c.entries (secondChance^[k] c).clock) c.size) :
    ∃ c', take (secondChance^[k] c) = some ((secondChance^[k] c).clock, c') ∧
      Evicted c (secondChance^[k] c).clock c' := by
  have hc := iterate_cleared c k
  have hw' : Writable (examined (secondChance^[k] c)) (secondChance^[k] c).size := by
    unfold examined
    rw [hc.size, hc.entries]
    exact hw
  obtain ⟨c', ht, he⟩ := take_spec (hc.lockHeld.trans hl) hw'
  exact ⟨c', ht, he.of_cleared hc⟩

/-- Between two operations of the file system the device takes every write-back. -/
theorem Inv.evicts (hi : Inv c) (hl : c.lockHeld) :
    ∃ i c', c.bufferCacheEvict = some (i, c') ∧ Evicted c i c' := by
  obtain ⟨k, -, -, heq⟩ := exists_take c hl
  obtain ⟨c', ht, he⟩ := take_iterate hl k fun ho _ => hi.inRange _ ho
  exact ⟨_, c', heq.trans ht, he⟩

/-- **`buffer_cache_evict` ends** after `k + 1 ≤ 65` examined entries, whatever their flags are and
wherever the hand is.  What remains is the write-back, which the device refuses only if the victim's
sector is past its end. -/
theorem bufferCacheEvict_spec (c : Cache) (hl : c.lockHeld) :
    ∃ k ≤ bufferCacheSize, StopsAfter c k ∧
      c.bufferCacheEvict = take (secondChance^[k] c) ∧
      (Writable (c.entries (secondChance^[k] c).clock) c.size →
        ∃ c', c.bufferCacheEvict = some ((secondChance^[k] c).clock, c') ∧
          Evicted c (secondChance^[k] c).clock c') := by
  obtain ⟨k, hk, hstop, heq⟩ := exists_take c hl
  refine ⟨k, hk, hstop, heq, fun hw => ?_⟩
  obtain ⟨c', ht, he⟩ := take_iterate hl k hw
  exact ⟨c', heq.trans ht, he⟩

/-- A cache with the hand at slot 5, and every entry is in use, dirty and just read. -/
def busy : Cache where
  entries i := ⟨true, UInt32.ofNat i, Vector.replicate 512 7, true, true⟩
  clock := ⟨5, by decide⟩
  lockHeld := true
  device _ := Vector.replicate 512 0
  size := 64

theorem bufferCacheEvict_busy :
    ∃ k ≤ bufferCacheSize, StopsAfter busy k ∧
      busy.bufferCacheEvict = take (secondChance^[k] busy) ∧
      (Writable (busy.entries (secondChance^[k] busy).clock) busy.size →
        ∃ c', busy.bufferCacheEvict = some ((secondChance^[k] busy).clock, c') ∧
          Evicted busy (secondChance^[k] busy).clock c') :=
  bufferCacheEvict_spec busy rfl

end CSE130.Lab3.Cache
