import CSE130.Lib.Transition
import CSE130.Lib.WriteBack
import Mathlib.Data.Fintype.Card

/-! # The buffer cache of Lab 3 (`filesys/cache.c`)

Sixty-four entries over `fs_device`, one lock, and a clock hand that `buffer_cache_evict` moves.
Every operation holds `buffer_cache_lock` from its first statement to its last, so the operations
of any number of threads take place one after the other, and one operation is one step.

`none` is a kernel panic: a failed `ASSERT`, an access past the end of the device, or a
`lock_acquire` of a lock that is held, which here can only be by the same thread.

The cache refines a map from sectors to their contents (`WriteBack.view`): `Cache.abs` is the
write-back cache behind the entries, and every function moves it by operations of
`WriteBack`. -/

namespace CSE130.Lab3

open Function (update)
open Transition

/-- `block_sector_t`. -/
abbrev Sector := UInt32

/-- `BLOCK_SECTOR_SIZE` bytes. -/
abbrev Buffer := Vector UInt8 512

/-- `BUFFER_CACHE_SIZE`. -/
abbrev bufferCacheSize : ℕ := 64

/-- An index of `cache`. -/
abbrev Slot := Fin bufferCacheSize

/-- `struct buffer_cache_entry_t`. -/
structure Entry where
  occupied : Bool
  diskSector : Sector
  buffer : Buffer
  dirty : Bool
  access : Bool

/-- The static variables of `cache.c`, and the device. -/
structure Cache where
  entries : Slot → Entry
  /-- `clock` of `buffer_cache_evict`. -/
  clock : Slot
  /-- `buffer_cache_lock` is held by the running thread. -/
  lockHeld : Bool
  device : Sector → Buffer
  /-- `block_size(fs_device)`. -/
  size : Sector

namespace Cache

/-- Assign to an entry. -/
def setEntry (c : Cache) (i : Slot) (e : Entry) : Cache := { c with entries := update c.entries i e }

/-- `lock_acquire(&buffer_cache_lock)`. -/
def lockAcquire (c : Cache) : Option Cache :=
  if c.lockHeld then none else some { c with lockHeld := true }

/-- `lock_release(&buffer_cache_lock)`. -/
def lockRelease (c : Cache) : Option Cache :=
  if c.lockHeld then some { c with lockHeld := false } else none

/-- `block_read(fs_device, ..)`. -/
def blockRead (c : Cache) (s : Sector) : Option Buffer :=
  if s < c.size then some (c.device s) else none

/-- `block_write(fs_device, ..)`. -/
def blockWrite (c : Cache) (s : Sector) (b : Buffer) : Option Cache :=
  if s < c.size then some { c with device := update c.device s b } else none

/-- `buffer_cache_init`. -/
def bufferCacheInit (c : Cache) : Cache :=
  { c with lockHeld := false, entries := fun i => { c.entries i with occupied := false } }

/-- `buffer_cache_flush`. -/
def bufferCacheFlush (c : Cache) (i : Slot) : Option Cache :=
  if c.lockHeld ∧ (c.entries i).occupied then
    if (c.entries i).dirty then do
      let c ← c.blockWrite (c.entries i).diskSector (c.entries i).buffer
      some (c.setEntry i { c.entries i with dirty := false })
    else some c
  else none

/-- The body of the loop of `buffer_cache_close`. -/
def flushOccupied (c : Cache) (i : Slot) : Option Cache :=
  if (c.entries i).occupied = false then some c else c.bufferCacheFlush i

/-- `buffer_cache_close`. -/
def bufferCacheClose (c : Cache) : Option Cache := do
  let c ← c.lockAcquire
  let c ← (List.finRange bufferCacheSize).foldlM flushOccupied c
  c.lockRelease

/-- `buffer_cache_lookup`. -/
def bufferCacheLookup (c : Cache) (s : Sector) : Option Slot :=
  (List.finRange bufferCacheSize).find? fun i =>
    (c.entries i).occupied && (c.entries i).diskSector == s

/-- `if (slot->dirty) buffer_cache_flush (slot)` of `buffer_cache_evict`. -/
def flushDirty (c : Cache) (i : Slot) : Option Cache :=
  if (c.entries i).dirty then c.bufferCacheFlush i else some c

/-- `clock ++; clock %= BUFFER_CACHE_SIZE`. -/
def tick (c : Cache) : Cache :=
  { c with clock := ⟨(c.clock + 1) % bufferCacheSize, Nat.mod_lt _ (by decide)⟩ }

/-- The `while (true)` of `buffer_cache_evict` and the eviction after it, for at most `n` turns
of the loop. -/
def evictLoop : ℕ → Cache → Option (Slot × Cache)
  | 0, _ => none
  | n + 1, c =>
      let e := c.entries c.clock
      if e.occupied = false then some (c.clock, c)
      else if e.access then evictLoop n (c.setEntry c.clock { e with access := false }).tick
      else do
        let c ← c.flushDirty c.clock
        some (c.clock, c.setEntry c.clock { c.entries c.clock with occupied := false })

/-- `buffer_cache_evict`.  Every turn of its loop clears a reference bit, so 65 turns are never
exceeded (`evictLoop_spec`). -/
def bufferCacheEvict (c : Cache) : Option (Slot × Cache) :=
  if c.lockHeld then evictLoop (bufferCacheSize + 1) c else none

/-- The lookup, and on a miss the eviction and the filling of the slot, with which
`buffer_cache_read` and `buffer_cache_write` begin. -/
def slotOf (c : Cache) (s : Sector) : Option (Slot × Cache) :=
  match c.bufferCacheLookup s with
  | some i => some (i, c)
  | none => do
      let (i, c) ← c.bufferCacheEvict
      if (c.entries i).occupied = false then
        let c := c.setEntry i { c.entries i with occupied := true, diskSector := s, dirty := false }
        let b ← c.blockRead s
        some (i, c.setEntry i { c.entries i with buffer := b })
      else none

/-- `buffer_cache_read`: what is copied to `target`, and the cache. -/
def bufferCacheRead (c : Cache) (s : Sector) : Option (Buffer × Cache) := do
  let c ← c.lockAcquire
  let (i, c) ← c.slotOf s
  let c := c.setEntry i { c.entries i with access := true }
  let target := (c.entries i).buffer
  let c ← c.lockRelease
  some (target, c)

/-- `buffer_cache_write`. -/
def bufferCacheWrite (c : Cache) (s : Sector) (source : Buffer) : Option Cache := do
  let c ← c.lockAcquire
  let (i, c) ← c.slotOf s
  let c := c.setEntry i { c.entries i with access := true, dirty := true, buffer := source }
  c.lockRelease

/-- The contents of a sector: the buffer of the entry that holds it, or the device. -/
def contents (c : Cache) (s : Sector) : Buffer :=
  match c.bufferCacheLookup s with
  | some i => (c.entries i).buffer
  | none => c.device s

end Cache

/-- The operations of the file system on the cache. -/
inductive CacheOp where
  | read (s : Sector)
  | write (s : Sector) (b : Buffer)
  | close

/-- One operation. -/
def cacheStep : CacheOp → Cache → Option Cache
  | .read s, c => (c.bufferCacheRead s).map Prod.snd
  | .write s b, c => c.bufferCacheWrite s b
  | .close, c => c.bufferCacheClose

variable {c c' c₀ : Cache} {i j : Slot} {s : Sector} {b : Buffer} {n : ℕ}
  {h : List (Cache × CacheOp)}

/-! ### The write-back cache behind the entries -/

namespace Cache

/-- The write-back cache: an entry holds its sector while it is occupied. -/
def abs (c : Cache) : WriteBack Slot Sector Buffer where
  held i := if (c.entries i).occupied then some (c.entries i).diskSector else none
  dirty i := (c.entries i).dirty
  data i := (c.entries i).buffer
  store := c.device

theorem held_abs : c.abs.held i = some s ↔ (c.entries i).occupied ∧ (c.entries i).diskSector = s := by
  unfold abs
  by_cases h : (c.entries i).occupied <;> simp [h]

theorem free_abs : c.abs.held i = none ↔ (c.entries i).occupied = false := by
  unfold abs
  by_cases h : (c.entries i).occupied <;> simp [h]

theorem lookup_some (h : c.bufferCacheLookup s = some i) : c.abs.held i = some s := by
  have := List.find?_some h
  rw [held_abs]
  simpa using this

theorem lookup_none (h : c.bufferCacheLookup s = none) (i : Slot) : c.abs.held i ≠ some s := by
  intro hi
  have := List.find?_eq_none.mp h i (List.mem_finRange i)
  rw [held_abs] at hi
  simp [hi.1, hi.2] at this

/-- No entry holds a sector past the end of the device. -/
def InRange (c : Cache) : Prop := ∀ i, (c.entries i).occupied → (c.entries i).diskSector < c.size

/-- What is true between two operations, apart from the lock. -/
structure Inv (c : Cache) : Prop where
  coherent : c.abs.Coherent
  inRange : InRange c

theorem contents_eq_view (hc : c.abs.Coherent) : c.contents = c.abs.view := by
  funext s
  unfold contents
  split
  · rename_i i h
    exact (hc.view_held (lookup_some h)).symm
  · rename_i h
    exact (WriteBack.view_free (lookup_none h)).symm

/-- The invariant and the view are kept, and the lock and the size are as before. -/
structure Keeps (c c' : Cache) : Prop where
  inv : Inv c'
  view : c'.abs.view = c.abs.view
  lockHeld : c'.lockHeld = c.lockHeld
  size : c'.size = c.size

theorem Keeps.trans {c₁ c₂ c₃ : Cache} (h : Keeps c₁ c₂) (h' : Keeps c₂ c₃) : Keeps c₁ c₃ :=
  ⟨h'.inv, h'.view.trans h.view, h'.lockHeld.trans h.lockHeld, h'.size.trans h.size⟩

theorem abs_setEntry (c : Cache) (i : Slot) (e : Entry) : (c.setEntry i e).abs =
    ⟨update c.abs.held i (if e.occupied then some e.diskSector else none),
      update c.abs.dirty i e.dirty, update c.abs.data i e.buffer, c.device⟩ := by
  refine WriteBack.ext (funext fun j => ?_) (funext fun j => ?_) (funext fun j => ?_) rfl
  all_goals
    simp only [abs, setEntry, Function.update_apply]
    split <;> rfl

theorem InRange.setEntry (hr : InRange c) {e : Entry} (he : e.occupied → e.diskSector < c.size) :
    InRange (c.setEntry i e) := by
  intro j hj
  unfold Cache.setEntry at hj ⊢
  dsimp only at hj ⊢
  rw [Function.update_apply] at hj ⊢
  split at hj
  · rename_i hji
    rw [if_pos hji]
    exact he hj
  · rename_i hji
    rw [if_neg hji]
    exact hr j hj

theorem abs_access (c : Cache) (i : Slot) (x : Bool) :
    (c.setEntry i { c.entries i with access := x }).abs = c.abs := by
  rw [abs_setEntry]
  exact WriteBack.ext (Function.update_eq_self i c.abs.held)
    (Function.update_eq_self i c.abs.dirty) (Function.update_eq_self i c.abs.data) rfl

/-- Statements that leave the sectors of the entries and the device alone. -/
theorem Inv.keeps (hi : Inv c) (ha : c'.abs = c.abs) (hs : c'.size = c.size)
    (hl : c'.lockHeld = c.lockHeld) : Keeps c c' := by
  refine ⟨⟨ha ▸ hi.coherent, fun i ho => ?_⟩, by rw [ha], hl, hs⟩
  have hheld : c.abs.held i = some (c'.entries i).diskSector := by
    rw [← ha]
    exact held_abs.mpr ⟨ho, rfl⟩
  obtain ⟨ho', he⟩ := held_abs.mp hheld
  rw [hs, ← he]
  exact hi.inRange i ho'

/-! ### The functions -/

/-- `buffer_cache_flush` writes a dirty entry back, and clears its dirty bit. -/
theorem flush_spec (hi : Inv c) (hl : c.lockHeld) (ho : (c.entries i).occupied) :
    ∃ c', c.bufferCacheFlush i = some c' ∧ Keeps c c' ∧ c'.clock = c.clock ∧
      c'.entries = update c.entries i { c.entries i with dirty := false } := by
  unfold bufferCacheFlush
  rw [if_pos ⟨hl, ho⟩]
  by_cases hd : (c.entries i).dirty
  · have hheld : c.abs.held i = some (c.entries i).diskSector := held_abs.mpr ⟨ho, rfl⟩
    have hlt := hi.inRange i ho
    have habs : (setEntry { c with
        device := (update c.device (c.entries i).diskSector (c.entries i).buffer) } i
          { c.entries i with dirty := false }).abs =
        c.abs.writeBack i (c.entries i).diskSector := by
      rw [abs_setEntry]
      exact WriteBack.ext (Function.update_eq_self i c.abs.held) rfl
        (Function.update_eq_self i c.abs.data) rfl
    unfold blockWrite
    rw [if_pos hd, if_pos hlt]
    refine ⟨_, rfl, ⟨⟨?_, hi.inRange.setEntry fun _ => hlt⟩, ?_, rfl, rfl⟩, rfl, rfl⟩
    · rw [habs]
      exact hi.coherent.writeBack hheld
    · rw [habs]
      exact hi.coherent.view_writeBack hheld
  · have hd : (c.entries i).dirty = false := by simpa using hd
    refine ⟨c, by simp [hd], hi.keeps rfl rfl rfl, rfl, ?_⟩
    rw [← hd]
    exact (Function.update_eq_self i c.entries).symm

theorem abs_vacate (c : Cache) (i : Slot) :
    (c.setEntry i { c.entries i with occupied := false }).abs = c.abs.drop i := by
  rw [abs_setEntry]
  exact WriteBack.ext rfl (Function.update_eq_self i c.abs.dirty)
    (Function.update_eq_self i c.abs.data) rfl

theorem vacate_keeps (hi : Inv c) (hd : (c.entries i).dirty = false) :
    Keeps c (c.setEntry i { c.entries i with occupied := false }) := by
  refine ⟨⟨?_, hi.inRange.setEntry nofun⟩, ?_, rfl, rfl⟩
  · rw [abs_vacate]
    exact hi.coherent.drop
  · rw [abs_vacate]
    exact hi.coherent.view_drop hd

theorem flushDirty_spec (hi : Inv c) (hl : c.lockHeld) (ho : (c.entries i).occupied) :
    ∃ c', c.flushDirty i = some c' ∧ Keeps c c' ∧ c'.clock = c.clock ∧
      (c'.entries i).dirty = false ∧ c'.abs.held = c.abs.held := by
  obtain ⟨c', hf, hk, hclock, he⟩ := flush_spec hi hl ho
  unfold flushDirty
  by_cases hd : (c.entries i).dirty
  · refine ⟨c', by rw [if_pos hd, hf], hk, hclock, by rw [he, Function.update_self], ?_⟩
    funext j
    unfold abs
    dsimp only
    rw [he, Function.update_apply]
    split
    · rename_i hji
      rw [hji, if_pos ho]
    · rfl
  · exact ⟨c, by rw [if_neg hd], hi.keeps rfl rfl rfl, rfl, by simpa using hd, rfl⟩

/-- The number of reference bits that are set. -/
def accessed (c : Cache) : ℕ := (Finset.univ.filter fun i => (c.entries i).access).card

theorem accessed_lt_size (c : Cache) : accessed c < bufferCacheSize + 1 := by
  have := Finset.card_filter_le (Finset.univ : Finset Slot) fun i => (c.entries i).access
  rw [Finset.card_univ, Fintype.card_fin] at this
  exact Nat.lt_succ_of_le this

/-- A turn of the loop that does not end it clears a reference bit. -/
theorem accessed_tick (ha : (c.entries i).access) :
    accessed (c.setEntry i { c.entries i with access := false }).tick < accessed c := by
  unfold accessed
  refine Finset.card_lt_card ⟨fun j hj => ?_, fun hsub => ?_⟩
  · have hj := (Finset.mem_filter.mp hj).2
    refine Finset.mem_filter.mpr ⟨Finset.mem_univ j, ?_⟩
    unfold tick setEntry at hj
    dsimp only at hj
    rw [Function.update_apply] at hj
    split at hj
    · cases hj
    · exact hj
  · have hi := (Finset.mem_filter.mp (hsub (Finset.mem_filter.mpr ⟨Finset.mem_univ i, ha⟩))).2
    unfold tick setEntry at hi
    dsimp only at hi
    rw [Function.update_self] at hi
    cases hi

/-- **The clock algorithm ends** with a slot that is not occupied; it has written the victim back,
and no sector has entered the cache. -/
theorem evictLoop_spec : ∀ {n : ℕ} {c : Cache}, Inv c → c.lockHeld → accessed c < n →
    ∃ i c', evictLoop n c = some (i, c') ∧ Keeps c c' ∧ (c'.entries i).occupied = false ∧
      ∀ j s, c'.abs.held j = some s → c.abs.held j = some s := by
  intro n
  induction n with
  | zero =>
      intro c _ _ hn
      omega
  | succ n ih =>
      intro c hi hl hn
      unfold evictLoop
      by_cases ho : (c.entries c.clock).occupied
      · have hocc : ¬ (c.entries c.clock).occupied = false := by simp [ho]
        by_cases ha : (c.entries c.clock).access
        · -- a second chance
          have habs : (c.setEntry c.clock { c.entries c.clock with access := false }).tick.abs =
              c.abs := abs_access c c.clock false
          have hlt := accessed_tick ha
          have hk : Keeps c (c.setEntry c.clock { c.entries c.clock with access := false }).tick :=
            hi.keeps habs rfl rfl
          obtain ⟨i, c', he, hk', hfree, hsub⟩ := ih hk.inv hl (by omega)
          refine ⟨i, c', ?_, hk.trans hk', hfree, fun j s hj => habs ▸ hsub j s hj⟩
          dsimp only
          rw [if_neg hocc, if_pos ha, he]
        · obtain ⟨c', hf, hk, hclock, hd, hheld⟩ := flushDirty_spec hi hl ho
          refine ⟨c.clock, c'.setEntry c.clock { c'.entries c.clock with occupied := false }, ?_,
            hk.trans (vacate_keeps hk.inv hd), ?_, fun j s hj => ?_⟩
          · dsimp only
            rw [if_neg hocc, if_neg ha, hf]
            dsimp only [Option.bind_eq_bind, Option.bind_some]
            rw [hclock]
          · unfold setEntry
            dsimp only
            rw [Function.update_self]
          · rw [abs_vacate] at hj
            rw [← hheld]
            exact (WriteBack.Coherent.held_drop.mp hj).2
      · have hocc : (c.entries c.clock).occupied = false := by simpa using ho
        exact ⟨c.clock, c, if_pos hocc, hi.keeps rfl rfl rfl, hocc, fun _ _ hj => hj⟩

theorem abs_fill (c : Cache) (i : Slot) (s : Sector) :
    ((c.setEntry i { c.entries i with occupied := true, diskSector := s, dirty := false }).setEntry i
      { c.entries i with
        occupied := true, diskSector := s, dirty := false, buffer := c.device s }).abs =
      c.abs.load i s := by
  rw [abs_setEntry, abs_setEntry]
  exact WriteBack.ext (Function.update_idem ..) (Function.update_idem ..)
    (Function.update_idem ..) rfl

/-- The slot in which `buffer_cache_read` and `buffer_cache_write` find the sector. -/
theorem slotOf_spec (hi : Inv c) (hl : c.lockHeld) (hs : s < c.size) :
    ∃ i c', c.slotOf s = some (i, c') ∧ Keeps c c' ∧ c'.abs.held i = some s := by
  unfold slotOf
  split
  · rename_i i h
    exact ⟨i, c, rfl, hi.keeps rfl rfl rfl, lookup_some h⟩
  · -- a miss
    rename_i h
    obtain ⟨i, c₁, he, hk, hfree, hsub⟩ := evictLoop_spec hi hl (accessed_lt_size c)
    have hnew (j : Slot) : c₁.abs.held j ≠ some s := fun hj => lookup_none h j (hsub j s hj)
    have hheld : c₁.abs.held i = none := free_abs.mpr hfree
    have hs₁ : s < c₁.size := hk.size ▸ hs
    have habs := abs_fill c₁ i s
    have hrange := (hk.inv.inRange.setEntry (i := i) (e := { c₁.entries i with
      occupied := true, diskSector := s, dirty := false }) fun _ => hs₁).setEntry (i := i)
      (e := { c₁.entries i with
        occupied := true, diskSector := s, dirty := false, buffer := c₁.device s }) fun _ => hs₁
    refine ⟨i, _, ?_, hk.trans ⟨⟨?_, hrange⟩, ?_, rfl, rfl⟩, ?_⟩
    · unfold bufferCacheEvict
      rw [if_pos hl, he]
      dsimp only [Option.bind_eq_bind, Option.bind_some]
      rw [if_pos hfree]
      unfold blockRead
      simp [setEntry, hs₁]
    · rw [habs]
      exact hk.inv.coherent.load hheld hnew
    · rw [habs]
      exact hk.inv.coherent.view_load hheld hnew
    · rw [habs]
      exact (WriteBack.Coherent.held_load hheld).mpr (.inl ⟨rfl, rfl⟩)

/-- Sectors past the end of the device are never found, and cannot be read in. -/
theorem slotOf_none (hi : Inv c) (hl : c.lockHeld) (hs : ¬ s < c.size) : c.slotOf s = none := by
  unfold slotOf
  split
  · rename_i i h
    obtain ⟨ho, he⟩ := held_abs.mp (lookup_some h)
    exact (hs (he ▸ hi.inRange i ho)).elim
  · obtain ⟨i, c₁, he, hk, hfree, -⟩ := evictLoop_spec hi hl (accessed_lt_size c)
    have hs₁ : ¬ s < c₁.size := hk.size ▸ hs
    unfold bufferCacheEvict
    rw [if_pos hl, he]
    dsimp only [Option.bind_eq_bind, Option.bind_some]
    rw [if_pos hfree]
    unfold blockRead
    simp [setEntry, hs₁]

/-- Between two operations the lock is free. -/
structure Idle (c : Cache) : Prop where
  inv : Inv c
  lockFree : c.lockHeld = false

theorem Idle.acquire (hc : Idle c) : ∃ c', c.lockAcquire = some c' ∧ Inv c' ∧ c'.lockHeld ∧
    c'.abs = c.abs ∧ c'.size = c.size := by
  refine ⟨{ c with lockHeld := true }, ?_, ⟨hc.inv.coherent, hc.inv.inRange⟩, rfl, rfl, rfl⟩
  unfold lockAcquire
  rw [hc.lockFree]
  rfl

theorem Inv.release (hi : Inv c) (hl : c.lockHeld) : ∃ c', c.lockRelease = some c' ∧ Idle c' ∧
    c'.abs = c.abs ∧ c'.size = c.size := by
  refine ⟨{ c with lockHeld := false }, ?_, ⟨⟨hi.coherent, hi.inRange⟩, rfl⟩, rfl, rfl⟩
  unfold lockRelease
  rw [if_pos hl]

theorem read_spec (hc : Idle c) (hs : s < c.size) : ∃ c', c.bufferCacheRead s =
    some (c.abs.view s, c') ∧ Idle c' ∧ c'.abs.view = c.abs.view ∧ c'.size = c.size := by
  obtain ⟨c₁, h₁, hi₁, hl₁, ha₁, hz₁⟩ := hc.acquire
  obtain ⟨i, c₂, h₂, hk₂, hheld⟩ := slotOf_spec hi₁ hl₁ (hz₁.symm ▸ hs)
  have ha₃ := abs_access c₂ i true
  have hk₃ := hk₂.inv.keeps ha₃ rfl rfl
  obtain ⟨c', h₄, hc', ha', hz'⟩ := hk₃.inv.release (hk₃.lockHeld.trans (hk₂.lockHeld.trans hl₁))
  have hview : c'.abs.view = c.abs.view := by rw [ha', hk₃.view, hk₂.view, ha₁]
  have hbuf : ((c₂.setEntry i { c₂.entries i with access := true }).entries i).buffer =
      c.abs.view s := by
    rw [← ha₁, ← hk₂.view, hk₂.inv.coherent.view_held hheld]
    unfold setEntry
    dsimp only
    rw [Function.update_self]
    rfl
  refine ⟨c', ?_, hc', hview, hz'.trans (hk₃.size.trans (hk₂.size.trans hz₁))⟩
  unfold bufferCacheRead
  rw [h₁]
  dsimp only [Option.bind_eq_bind, Option.bind_some]
  rw [h₂]
  dsimp only [Option.bind_some]
  rw [h₄, hbuf]
  rfl

theorem abs_store (c : Cache) (i : Slot) (b : Buffer) :
    (c.setEntry i { c.entries i with access := true, dirty := true, buffer := b }).abs =
      c.abs.put i b := by
  rw [abs_setEntry]
  exact WriteBack.ext (Function.update_eq_self i c.abs.held) rfl rfl rfl

theorem write_spec (hc : Idle c) (hs : s < c.size) : ∃ c', c.bufferCacheWrite s b = some c' ∧
    Idle c' ∧ c'.abs.view = update c.abs.view s b ∧ c'.size = c.size := by
  obtain ⟨c₁, h₁, hi₁, hl₁, ha₁, hz₁⟩ := hc.acquire
  obtain ⟨i, c₂, h₂, hk₂, hheld⟩ := slotOf_spec hi₁ hl₁ (hz₁.symm ▸ hs)
  have ha₃ := abs_store c₂ i b
  have hi₃ : Inv (c₂.setEntry i { c₂.entries i with access := true, dirty := true, buffer := b }) :=
    ⟨ha₃ ▸ hk₂.inv.coherent.put, hk₂.inv.inRange.setEntry (hk₂.inv.inRange i)⟩
  obtain ⟨c', h₄, hc', ha', hz'⟩ := hi₃.release (hk₂.lockHeld.trans hl₁)
  refine ⟨c', ?_, hc', ?_, hz'.trans (hk₂.size.trans hz₁)⟩
  · unfold bufferCacheWrite
    rw [h₁]
    dsimp only [Option.bind_eq_bind, Option.bind_some]
    rw [h₂]
    exact h₄
  · rw [ha', ha₃, hk₂.inv.coherent.view_put hheld, hk₂.view, ha₁]

/-- An access past the end of the device panics. -/
theorem access_none (hc : Idle c) (hs : ¬ s < c.size) :
    c.bufferCacheRead s = none ∧ c.bufferCacheWrite s b = none := by
  obtain ⟨c₁, h₁, hi₁, hl₁, ha₁, hz₁⟩ := hc.acquire
  have h₂ := slotOf_none hi₁ hl₁ (hz₁.symm ▸ hs)
  unfold bufferCacheRead bufferCacheWrite
  rw [h₁]
  dsimp only [Option.bind_eq_bind, Option.bind_some]
  rw [h₂]
  exact ⟨rfl, rfl⟩

/-- The entry has nothing to write back. -/
def CleanAt (c : Cache) (i : Slot) : Prop := (c.entries i).occupied → (c.entries i).dirty = false

theorem flushOccupied_spec (hi : Inv c) (hl : c.lockHeld) : ∃ c', c.flushOccupied i = some c' ∧
    Keeps c c' ∧ CleanAt c' i ∧ ∀ j, CleanAt c j → CleanAt c' j := by
  unfold flushOccupied
  by_cases ho : (c.entries i).occupied
  · obtain ⟨c', hf, hk, -, he⟩ := flush_spec hi hl ho
    refine ⟨c', by rw [if_neg (by simp [ho]), hf], hk, fun _ => ?_, fun j hj hj' => ?_⟩
    · rw [he, Function.update_self]
    · rw [he, Function.update_apply] at hj' ⊢
      split
      · rfl
      · rename_i hji
        rw [if_neg hji] at hj'
        exact hj hj'
  · have ho : (c.entries i).occupied = false := by simpa using ho
    exact ⟨c, if_pos ho, hi.keeps rfl rfl rfl, by simp [CleanAt, ho], fun _ hj => hj⟩

theorem flushAll_spec : ∀ {l : List Slot} {c : Cache}, Inv c → c.lockHeld →
    ∃ c', l.foldlM flushOccupied c = some c' ∧ Keeps c c' ∧
      ∀ i, i ∈ l ∨ CleanAt c i → CleanAt c' i := by
  intro l
  induction l with
  | nil =>
      intro c hi _
      refine ⟨c, rfl, hi.keeps rfl rfl rfl, fun i h => ?_⟩
      exact h.resolve_left List.not_mem_nil
  | cons i l ih =>
      intro c hi hl
      obtain ⟨c₁, h₁, hk₁, hclean, hrest⟩ := flushOccupied_spec (i := i) hi hl
      obtain ⟨c', h', hk', hall⟩ := ih hk₁.inv (hk₁.lockHeld.trans hl)
      refine ⟨c', ?_, hk₁.trans hk', fun j hj => hall j ?_⟩
      · rw [List.foldlM_cons, h₁]
        exact h'
      · rcases hj with hj | hj
        · rcases List.mem_cons.mp hj with rfl | hj
          · exact .inr hclean
          · exact .inl hj
        · exact .inr (hrest j hj)

theorem close_spec (hc : Idle c) : ∃ c', c.bufferCacheClose = some c' ∧ Idle c' ∧
    c'.abs.view = c.abs.view ∧ c'.device = c.abs.view ∧ c'.size = c.size := by
  obtain ⟨c₁, h₁, hi₁, hl₁, ha₁, hz₁⟩ := hc.acquire
  obtain ⟨c₂, h₂, hk₂, hclean⟩ := flushAll_spec (l := List.finRange bufferCacheSize) hi₁ hl₁
  obtain ⟨c', h₃, hc', ha', hz'⟩ := hk₂.inv.release (hk₂.lockHeld.trans hl₁)
  have hview : c'.abs.view = c.abs.view := by rw [ha', hk₂.view, ha₁]
  have hstore : c'.abs.view = c'.abs.store := by
    refine hc'.inv.coherent.view_eq_store fun i s hs => ?_
    rw [ha'] at hs ⊢
    exact hclean i (.inl (List.mem_finRange i)) (held_abs.mp hs).1
  refine ⟨c', ?_, hc', hview, hstore.symm.trans hview, hz'.trans (hk₂.size.trans hz₁)⟩
  unfold bufferCacheClose
  rw [h₁]
  dsimp only [Option.bind_eq_bind, Option.bind_some]
  rw [h₂]
  exact h₃

theorem init_spec (c : Cache) : Idle c.bufferCacheInit ∧ c.bufferCacheInit.abs.view = c.device := by
  have hfree (i : Slot) (s : Sector) : c.bufferCacheInit.abs.held i ≠ some s := by
    rw [Ne, held_abs]
    exact fun h => Bool.noConfusion h.1
  refine ⟨⟨⟨⟨fun i j s h => (hfree i s h).elim, fun i s h => (hfree i s h).elim⟩, nofun⟩, rfl⟩, ?_⟩
  funext s
  exact WriteBack.view_free fun i => hfree i s

end Cache

/-! ### Runs -/

/-- Every operation, at any time. -/
def anyOp (_ : Cache) (_ : CacheOp) : Prop := True

/-- The data of the last write to every sector; a history lists the latest operation first. -/
def lastWrite (device : Sector → Buffer) : List (Cache × CacheOp) → Sector → Buffer
  | [] => device
  | (_, .write s b) :: h => update (lastWrite device h) s b
  | (_, .read _) :: h => lastWrite device h
  | (_, .close) :: h => lastWrite device h

theorem idle_step {o : CacheOp} (hc : c.Idle) (hs : cacheStep o c = some c') : c'.Idle ∧
    ∀ device h, c.abs.view = lastWrite device h → c'.abs.view = lastWrite device ((c, o) :: h) := by
  cases o with
  | read s =>
      have hs : (c.bufferCacheRead s).map Prod.snd = some c' := hs
      by_cases hlt : s < c.size
      · obtain ⟨c₁, h₁, hc₁, hview, -⟩ := Cache.read_spec hc hlt
        rw [h₁] at hs
        cases hs
        exact ⟨hc₁, fun _ _ h => hview.trans h⟩
      · rw [(Cache.access_none (b := c.device s) hc hlt).1] at hs
        cases hs
  | write s b =>
      have hs : c.bufferCacheWrite s b = some c' := hs
      by_cases hlt : s < c.size
      · obtain ⟨c₁, h₁, hc₁, hview, -⟩ := Cache.write_spec (b := b) hc hlt
        rw [h₁] at hs
        cases hs
        refine ⟨hc₁, fun device h hh => ?_⟩
        rw [hview, hh]
        rfl
      · rw [(Cache.access_none hc hlt).2] at hs
        cases hs
  | close =>
      have hs : c.bufferCacheClose = some c' := hs
      obtain ⟨c₁, h₁, hc₁, hview, -⟩ := Cache.close_spec hc
      rw [h₁] at hs
      cases hs
      exact ⟨hc₁, fun _ _ h => hview.trans h⟩

/-- In every run the view is that of the writes so far. -/
theorem run_view (hr : Run cacheStep anyOp c₀.bufferCacheInit h c) :
    c.Idle ∧ c.abs.view = lastWrite c₀.device h := by
  refine hr.invariant (I := fun h c => c.Idle ∧ c.abs.view = lastWrite c₀.device h)
    (Cache.init_spec c₀) ?_
  rintro h c o c' - ⟨hc, hview⟩ - hs
  obtain ⟨hc', hnext⟩ := idle_step hc hs
  exact ⟨hc', hnext _ _ hview⟩

/-- **The buffer cache refines the disk.**  After any sequence of operations no sector is in two
entries, clean entries equal the device, and the contents are those of the last writes.  A read
returns the contents, a write changes them at its own sector only, and closing leaves them on the
device.  Operations inside the device succeed, those outside panic. -/
theorem cache_refines_disk (hr : Run cacheStep anyOp c₀.bufferCacheInit h c) :
    (∀ i j, (c.entries i).occupied → (c.entries j).occupied →
      (c.entries i).diskSector = (c.entries j).diskSector → i = j) ∧
    (∀ i, (c.entries i).occupied → (c.entries i).dirty = false →
      (c.entries i).buffer = c.device (c.entries i).diskSector) ∧
    c.contents = lastWrite c₀.device h ∧
    (∀ s, if s < c.size then ∃ c', c.bufferCacheRead s = some (lastWrite c₀.device h s, c') ∧
        c'.contents = c.contents
      else c.bufferCacheRead s = none) ∧
    (∀ s b, if s < c.size then ∃ c', c.bufferCacheWrite s b = some c' ∧
        c'.contents = update c.contents s b
      else c.bufferCacheWrite s b = none) ∧
    ∃ c', c.bufferCacheClose = some c' ∧ c'.contents = c.contents ∧ c'.device = c.contents := by
  obtain ⟨hc, hview⟩ := run_view hr
  have hcontents := Cache.contents_eq_view hc.inv.coherent
  refine ⟨fun i j hi hj he => ?_, fun i hi hd => ?_, hcontents.trans hview, fun s => ?_,
    fun s b => ?_, ?_⟩
  · exact hc.inv.coherent.unique i j _ (Cache.held_abs.mpr ⟨hi, he⟩) (Cache.held_abs.mpr ⟨hj, rfl⟩)
  · exact hc.inv.coherent.clean i _ (Cache.held_abs.mpr ⟨hi, rfl⟩) hd
  · split
    · rename_i hlt
      obtain ⟨c', h', hc', hview', -⟩ := Cache.read_spec hc hlt
      refine ⟨c', by rw [h', hview], ?_⟩
      rw [Cache.contents_eq_view hc'.inv.coherent, hview', hcontents]
    · rename_i hlt
      exact (Cache.access_none (b := c.device s) hc hlt).1
  · split
    · rename_i hlt
      obtain ⟨c', h', hc', hview', -⟩ := Cache.write_spec (b := b) hc hlt
      refine ⟨c', h', ?_⟩
      rw [Cache.contents_eq_view hc'.inv.coherent, hview', hcontents]
    · rename_i hlt
      exact (Cache.access_none hc hlt).2
  · obtain ⟨c', h', hc', hview', hdevice, -⟩ := Cache.close_spec hc
    refine ⟨c', h', ?_, hdevice.trans hcontents.symm⟩
    rw [Cache.contents_eq_view hc'.inv.coherent, hview', hcontents]

/-- A device of 16 sectors of zeros, before `buffer_cache_init`. -/
def blankDisk : Cache :=
  { entries := fun _ => ⟨true, 0, Vector.replicate 512 0, true, true⟩
    clock := 0
    lockHeld := false
    device := fun _ => Vector.replicate 512 0
    size := 16 }

/-- Sector 3 is written twice. -/
def rewrites : List CacheOp :=
  [.write 3 (Vector.replicate 512 1), .read 5, .write 3 (Vector.replicate 512 2)]

theorem cache_refines_disk_rewrite :
    ∃ c, execute cacheStep rewrites blankDisk.bufferCacheInit = some c ∧
      ∃ c', c.bufferCacheRead 3 = some (Vector.replicate 512 2, c') ∧ c'.contents = c.contents := by
  have hsize : (execute cacheStep rewrites blankDisk.bufferCacheInit).map Cache.size = some 16 := by
    decide +kernel
  obtain ⟨c, hc, hsize⟩ := Option.map_eq_some_iff.mp hsize
  have hrun : Run cacheStep anyOp blankDisk.bufferCacheInit _ c :=
    execute_run (fun _ _ _ => trivial) Run.nil hc
  have hread := (cache_refines_disk hrun).2.2.2.1 3
  rw [if_pos (by rw [hsize]; decide)] at hread
  have hlast : lastWrite blankDisk.device
      (trace cacheStep rewrites blankDisk.bufferCacheInit ++ []) 3 = Vector.replicate 512 2 := rfl
  rw [hlast] at hread
  exact ⟨c, hc, hread⟩

end CSE130.Lab3
