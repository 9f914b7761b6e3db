import CSE130.Lab3.Contents

/-! # What a reservation writes, and what it maps

`inode_reserve_indirect` does not look at the result of `free_map_allocate` when it allocates an
index block.  It writes sector 0 exactly when an index block is the first sector that cannot be
allocated (`reserve_writes_own`).  Otherwise, or when it then fails because the disk is full,
`index_to_sector` finds what it has reserved (`reserve_lookup`). -/

namespace CSE130.Lab3.Files

open BlockTree Traced
open Function (update)

variable {st st' : State} {K X : Set Sector} {d d' : InodeDisk} {m : Sector → Block} {length : ℤ}
  {log : List Access} {x : Sector}

/-! ### Writes -/

/-- Every sector that is written was allocated in the call, or it is an index block of the inode
`d`. -/
def OwnWrites (m : Sector → Block) (d : InodeDisk) (log : List Access) : Prop :=
  ∀ x, .write x ∈ log → x ≠ 0 ∧ (.allocate x ∈ log ∨ x ∈ indexSectors m d)

/-- The first allocation that cannot be made is not for an index block. -/
def Indexed (st : State) (need : List Bool) : Prop :=
  ∀ j, need[j]? = some true → Room st j → Room st (j + 1)

theorem inodeNeeded_of_neg (h : length < 0) : inodeNeeded m d length = [] := by
  unfold inodeNeeded bytesToSectors
  rw [Int.toNat_of_nonpos (by omega)]
  rfl

theorem inodeReserveLog_of_neg (h : length < 0) : st.inodeReserveLog d length = pure (false, d, st) :=
  if_pos h

theorem FileAttempt.ownWrites {P : State → Prop} {n : ℕ} {need : List Bool} {ok : Bool}
    (h : FileAttempt K X P n d d' need log ok st st') (hs : Spoils log = false) :
    OwnWrites st.disk d log := by
  intro x hx
  have h0 : x ≠ 0 := by
    rintro rfl
    exact absurd hx (of_decide_eq_false hs)
  exact ⟨h0, (h.writes x hx).resolve_left h0⟩

/-- **A reservation writes only what it owns** unless an index block is the first sector that
cannot be allocated. -/
theorem reserve_writes_own (g : Ground K X st) (hp : Placed (K ∪ X) st.Used (Owned st.disk d)) :
    OwnWrites st.disk d (st.inodeReserveLog d length).log ↔
      Indexed st (inodeNeeded st.disk d length) := by
  by_cases hneg : length < 0
  · rw [inodeReserveLog_of_neg hneg, inodeNeeded_of_neg hneg]
    exact iff_of_true (fun _ hx => nomatch hx) fun _ hj => nomatch hj
  · obtain ⟨ok, d', st', ha, -⟩ := inodeReserveLog_attempt g hp (not_lt.mp hneg)
    have hspoiled := ha.outcome.spoiled_iff
    constructor
    · intro hown j hj hroom
      by_contra hnone
      have hzero := of_decide_eq_true (hspoiled.mpr ⟨j, hj, hroom, hnone⟩)
      exact (hown 0 hzero).1 rfl
    · intro hindexed
      refine FileAttempt.ownWrites ha (Bool.eq_false_iff.mpr fun hs => ?_)
      obtain ⟨j, hj, hroom, hnone⟩ := hspoiled.mp hs
      exact hnone (hindexed j hj hroom)

theorem room_of_memory (hm : ∀ k, st.heap k = true) (k : ℕ) : Room st k ↔ k ≤ st.free :=
  ⟨And.left, fun h => ⟨h, fun _ _ j _ => hm j⟩⟩

theorem indexed_of_memory {need : List Bool} (hm : ∀ k, st.heap k = true) (hle : need.length ≤ st.free) :
    Indexed st need := by
  intro j hj _
  have hlt := (List.getElem?_eq_some_iff.mp hj).1
  exact (room_of_memory hm _).mpr (Nat.le_trans hlt hle)

/-- The sectors of an inode of 124 sectors, and how many are free on a formatted disk. -/
def roomForIndexed : Option Bool := do
  let st ← State.format (fun _ => zeros) 200 fun _ => true
  some (decide ((inodeNeeded st.disk ⟨fun _ => 0, 0, 0, false, 124 * 512⟩ (124 * 512)).length ≤ st.free))

/-- A new inode of 124 sectors, with an index block, on a formatted disk. -/
theorem reserve_writes_own_formatted : ∃ st₀,
    State.format (fun _ => zeros) 200 (fun _ => true) = some st₀ ∧
    OwnWrites st₀.disk ⟨fun _ => 0, 0, 0, false, 124 * 512⟩
      ((st₀.call fun _ => true).inodeReserveLog ⟨fun _ => 0, 0, 0, false, 124 * 512⟩ (124 * 512)).log := by
  have h : roomForIndexed = some true := by decide +kernel
  unfold roomForIndexed at h
  obtain ⟨st₀, h₀, hroom⟩ := Option.bind_eq_some_iff.mp h
  have hle := of_decide_eq_true (Option.some.inj hroom)
  exact ⟨st₀, h₀, (reserve_writes_own (inv_format h₀).call.ground placed_empty).mpr
    (indexed_of_memory (fun _ => rfl) hle)⟩

/-- What is written when 123 sectors are free and an index block is needed next. -/
def fullDisk : Option (List Bool) := do
  let st ← State.format (fun _ => zeros) 127 fun _ => true
  some [decide (.write 0 ∈
    (st.inodeReserveLog ⟨fun _ => 0, 0, 0, false, 124 * 512⟩ (124 * 512)).log)]

/-- On a full disk the inode of the free map is overwritten. -/
theorem reserve_writes_zero : ∃ st₀,
    State.format (fun _ => zeros) 127 (fun _ => true) = some st₀ ∧
    .write 0 ∈ (st₀.inodeReserveLog ⟨fun _ => 0, 0, 0, false, 124 * 512⟩ (124 * 512)).log ∧
    ¬OwnWrites st₀.disk ⟨fun _ => 0, 0, 0, false, 124 * 512⟩
      (st₀.inodeReserveLog ⟨fun _ => 0, 0, 0, false, 124 * 512⟩ (124 * 512)).log := by
  have h : fullDisk = some [true] := by decide +kernel
  unfold fullDisk at h
  simp only [Option.bind_eq_bind, Option.bind_eq_some_iff] at h
  obtain ⟨st₀, h₀, hfacts⟩ := h
  simp only [Option.some.injEq, List.cons.injEq] at hfacts
  have hzero := of_decide_eq_true hfacts.1
  exact ⟨st₀, h₀, hzero, fun hown => (hown 0 hzero).1 rfl⟩

/-! ### Lookup -/

/-- No allocation for an index block is the first that cannot be made while sectors are free. -/
def Granted (st : State) (need : List Bool) : Prop :=
  ∀ j, need[j]? = some true → Room st j → j < st.free → Room st (j + 1)

theorem granted_of_memory (hm : ∀ k, st.heap k = true) (need : List Bool) : Granted st need :=
  fun j _ _ hlt => (room_of_memory hm (j + 1)).mpr hlt

theorem Outcome.served_of_granted {need : List Bool} {s : Bool} (h : Outcome st need st' true s)
    (hg : Granted st need) : s = false := by
  cases h with
  | served _ hs => exact hs
  | spoiled j hj hroom hnone _ hfull =>
      refine absurd (hfull (Nat.le_antisymm (not_lt.mp fun hlt => ?_) hroom.1)).1 Bool.noConfusion
      exact hnone (hg j hj hroom hlt)
  | stopped _ _ _ _ _ hok => cases hok

theorem unspoiled_of_granted (g : Ground K X st) (hp : Placed (K ∪ X) st.Used (Owned st.disk d))
    (hg : Granted st (inodeNeeded st.disk d length)) : Unspoiled st d length :=
  unspoiled_of_attempt g hp fun _ _ ha => ha.outcome.served_of_granted hg

theorem reserve_same (g : Ground K X st)
    (hp : Placed (K ∪ X) st.Used (Owned st.disk d)) (h0 : 0 ≤ length)
    (hg : Granted st (inodeNeeded st.disk d length)) {ok : Bool}
    (hr : st.inodeReserve d length = some (ok, d', st')) :
    (st'.freeMap = st.freeMap ↔ inodeNeeded st.disk d length = [] ∨ ¬Room st 1) ∧
      (ok = false → inodeNeeded st.disk d length ≠ []) ∧
      (inodeNeeded st.disk d length ≠ [] → ¬Room st 1 → ok = false) := by
  obtain ⟨ok₁, d₁, st₁, ha, -, -, h⟩ := inodeReserveLog_attempt g hp h0
  rw [← inodeReserveLog_value, value_eq_some, h] at hr
  split_ifs at hr with hbig
  cases hr
  have hused := ha.reserve.grows.used
  have hsize := ha.reserve.passive.size
  -- the free map is the same when no fewer sectors are free
  have hsame : st'.freeMap = st.freeMap ↔ st'.free = st.free := by
    constructor
    · intro hmap
      unfold State.free
      rw [hmap, hsize]
    · intro hfree
      funext x
      rw [Bool.eq_iff_iff]
      refine ⟨fun hx => ?_, hused x⟩
      by_contra hn
      have hlt := free_lt hused hsize (hsize ▸ ha.reserve.ground.range x hx) hn hx
      omega
  rw [hsame]
  have hne : ∀ {j : ℕ} {b : Bool}, (inodeNeeded st.disk d length)[j]? = some b →
      inodeNeeded st.disk d length ≠ [] := fun hj h => by
    rw [h] at hj
    cases hj
  cases ha.outcome with
  | served hok _ hroom _ hfree =>
      rw [hok]
      refine ⟨?_, nofun, fun hn hno => absurd (hroom.mono (List.length_pos_iff.mpr hn)) hno⟩
      constructor
      · intro h
        exact .inl (List.eq_nil_of_length_eq_zero (by omega))
      · rintro (h | h)
        · rw [h, List.length_nil] at hfree
          omega
        · by_contra hn
          exact h (hroom.mono (by omega))
  | spoiled j hj hroom hnone _ hfull =>
      have hfree : st.free = j :=
        Nat.le_antisymm (not_lt.mp fun hlt => hnone (hg j hj hroom hlt)) hroom.1
      obtain ⟨hok, hzero⟩ := hfull hfree
      rw [hok, hzero]
      refine ⟨⟨fun h => .inr fun hroom => ?_, ?_⟩, fun _ => hne hj, fun _ _ => rfl⟩
      · have := hroom.1
        omega
      · rintro (h | h)
        · exact absurd h (hne hj)
        · by_contra hn
          exact h (hroom.mono (by omega))
  | stopped j hj hroom hnone _ hok hfree =>
      rw [hok]
      refine ⟨⟨fun h => .inr ?_, ?_⟩, fun _ => hne hj, fun _ _ => rfl⟩
      · obtain rfl : j = 0 := by omega
        exact hnone
      · rintro (h | h)
        · exact absurd h (hne hj)
        · by_contra hn
          exact h (hroom.mono (by omega))

theorem reserve_failed (g : Ground K X st)
    (hp : Placed (K ∪ X) st.Used (Owned st.disk d)) (h0 : 0 ≤ length)
    (hg : Granted st (inodeNeeded st.disk d length)) {ok : Bool}
    (hr : st.inodeReserve d length = some (ok, d', st')) :
    ok = false ∧ st'.freeMap = st.freeMap ↔ inodeNeeded st.disk d length ≠ [] ∧ ¬Room st 1 := by
  obtain ⟨hsame, hfailed, hfull⟩ := reserve_same g hp h0 hg hr
  constructor
  · rintro ⟨hok, hmap⟩
    exact ⟨hfailed hok, (hsame.mp hmap).resolve_left (hfailed hok)⟩
  · rintro ⟨hneed, hnone⟩
    exact ⟨hfull hneed hnone, hsame.mpr (.inr hnone)⟩

/-- The first `n` data sectors of the inode `d` are found, each in a place of its own. -/
structure Mapped (n : ℕ) (d : InodeDisk) (st : State) : Prop where
  used : ∀ i, i < n → indexToSector st.disk d i ≠ 0 ∧ st.Used (indexToSector st.disk d i)
  distinct : ∀ i j, i < n → j < n → indexToSector st.disk d i = indexToSector st.disk d j → i = j
  data : ∀ i, i < n → indexToSector st.disk d i ∉ indexSectors st.disk d

theorem mapped_of_placed {Z : Set Sector} {n : ℕ} (hp : Placed Z st.Used (Owned st.disk d))
    (hn : n ≤ 16635) (hc : ∀ i, i < n → ∃ x, Owned st.disk d (filePath i) x) : Mapped n d st := by
  have hplace : ∀ i, i < n → Owned st.disk d (filePath i) (indexToSector st.disk d i) := fun i hi => by
    obtain ⟨x, hx⟩ := hc i hi
    rw [indexToSector_eq (by omega) hx]
    exact hx
  refine ⟨fun i hi => ⟨?_, hp.used _ _ (hplace i hi)⟩, fun i j hi hj h => ?_, fun i hi h => ?_⟩
  · obtain ⟨q, hq, -⟩ := filePath_cons i
    have hx := hplace i hi
    rw [hq] at hx
    exact hx.2.ne_zero
  · have hx := hplace i hi
    rw [h] at hx
    exact filePath_inj (by omega) (by omega) (hp.sole _ _ _ hx (hplace j hj))
  · obtain ⟨p, hl, hx⟩ := h
    rw [← hp.sole _ _ _ (hplace i hi) hx] at hl
    exact hl (isLeaf_filePath i)

/-- **Reservation and lookup agree** as long as `malloc` has not failed for an index block. -/
theorem reserve_lookup (g : Ground K X st) (hp : Placed (K ∪ X) st.Used (Owned st.disk d))
    (hn : bytesToSectors length.toNat ≤ 16635) (hg : Granted st (inodeNeeded st.disk d length))
    (hr : st.inodeReserve d length = some (true, d', st')) :
    Mapped (bytesToSectors length.toNat) d' st' ∧
      ∀ i, i < 16635 → (∃ x, Owned st.disk d (filePath i) x) →
        indexToSector st'.disk d' i = indexToSector st.disk d i := by
  have h0 : 0 ≤ length := by
    by_contra hneg
    unfold State.inodeReserve at hr
    rw [if_pos (by omega)] at hr
    cases hr
  obtain ⟨hreserve, -⟩ := inodeReserve_some g hp h0 (unspoiled_of_granted g hp hg) hr
  rw [min_eq_left hn] at hreserve
  refine ⟨mapped_of_placed (hreserve.placed g hp) hn fun i hi => hreserve.complete rfl _ ⟨i, hi, rfl⟩,
    fun i hi ⟨x, hx⟩ => ?_⟩
  rw [indexToSector_eq hi hx, indexToSector_eq hi (hreserve.grows.keep _ x hx)]

/-! An inode with its direct and its indirect blocks, on a disk with free sectors. -/

def mappedInode : InodeDisk := ⟨fun i => UInt32.ofNat (i + 4), 127, 0, false, 251 * 512⟩

def mappedState (heap : ℕ → Bool) : State where
  disk x := if x = 127 then ofWords fun j => UInt32.ofNat (j + 128) else zeros
  freeMap x := decide (x < 256)
  size := 300
  freeMapFile := true
  openInodes := update (fun _ => none) 0 (some ⟨1, false, 0, ⟨fun _ => 2, 0, 0, false, 40⟩⟩)
  live _ := false
  heap := heap
  allocFailed := false

variable {heap : ℕ → Bool}

theorem mappedState_ground : Ground {2} ∅ (mappedState heap) where
  zero := by
    change decide ((0 : Sector) < 256) = true
    decide
  range x hx := by
    have hlt : x < 256 := of_decide_eq_true hx
    exact UInt32.lt_trans hlt (show (256 : Sector) < 300 by decide)
  used x hx := by
    obtain rfl : x = 2 := hx.resolve_right id
    change decide ((2 : Sector) < 256) = true
    decide
  fixedZero := id
  disjoint _ h := h.elim
  backed _ := by
    refine ⟨⟨1, false, 0, ⟨fun _ => 2, 0, 0, false, 40⟩⟩, rfl,
      show 40 = bitmapFileSize 300 by decide, fun m' _ pos hpos => ?_⟩
    have hpos : pos < 40 := hpos
    unfold byteToSector indexToSector
    rw [if_pos ⟨by omega, by exact_mod_cast hpos⟩, Int.toNat_natCast, if_pos (by omega)]
    rfl

theorem mappedInode_owned {p : List ℕ} (h : Owned (mappedState heap).disk mappedInode p x) :
    (∃ j, j ≤ 123 ∧ p = [j] ∧ x = UInt32.ofNat (j + 4)) ∨
      ∃ j, j < 128 ∧ p = [123, j] ∧ x = UInt32.ofNat (j + 128) := by
  cases p with
  | nil => exact h.elim
  | cons j p =>
      obtain ⟨hj, h⟩ := h
      rcases Nat.lt_trichotomy j 123 with hlt | rfl | hgt
      · have hlev : levelOf j = 0 := by unfold levelOf; omega
        have hroot : rootOf mappedInode j = UInt32.ofNat (j + 4) := if_pos hlt
        rw [hlev, hroot] at h
        cases p with
        | nil => exact .inl ⟨j, by omega, rfl, (refs_nil.mp h).2⟩
        | cons _ _ => exact h.elim
      · have h : Refs (mappedState heap).disk 1 127 p x := h
        cases p with
        | nil => exact .inl ⟨123, by omega, rfl, (refs_nil.mp h).2⟩
        | cons j p =>
            obtain ⟨-, hj, h⟩ := h
            have h : Refs (mappedState heap).disk 0 (word (ofWords fun j => UInt32.ofNat (j + 128)) j) p x := h
            rw [word_ofWords] at h
            cases p with
            | nil => exact .inr ⟨j, hj, rfl, (refs_nil.mp h).2⟩
            | cons _ _ => exact h.elim
      · obtain rfl : j = 124 := by omega
        exact absurd rfl h.root_ne

theorem mappedInode_placed :
    Placed ({2} ∪ ∅) (mappedState heap).Used (Owned (mappedState heap).disk mappedInode) where
  sole p q x hp hq := by
    obtain ⟨i, hi, rfl, rfl⟩ | ⟨i, hi, rfl, rfl⟩ := mappedInode_owned hp
    all_goals
      obtain ⟨j, hj, rfl, h⟩ | ⟨j, hj, rfl, h⟩ := mappedInode_owned hq
      all_goals
        have := congrArg UInt32.toNat h
        rw [UInt32.toNat_ofNat', UInt32.toNat_ofNat'] at this
        first
        | omega
        | rw [show i = j by omega]
  used p x hp := by
    refine decide_eq_true (UInt32.lt_iff_toNat_lt.mpr ?_)
    change x.toNat < 256
    obtain ⟨i, hi, rfl, rfl⟩ | ⟨i, hi, rfl, rfl⟩ := mappedInode_owned hp
    all_goals
      rw [UInt32.toNat_ofNat']
      omega
  apart p x hp hx := by
    obtain rfl : x = 2 := hx.resolve_right id
    obtain ⟨i, hi, rfl, h⟩ | ⟨i, hi, rfl, h⟩ := mappedInode_owned hp
    all_goals
      have := congrArg UInt32.toNat h
      rw [UInt32.toNat_ofNat'] at this
      change 2 = _ at this
      omega

/-- Whether a sector is reserved for the index 251, and whether it is not found. -/
def lastSector (heap : ℕ → Bool) : Option (Bool × Bool) := do
  let (ok, d, st) ← (mappedState heap).inodeReserve mappedInode (252 * 512)
  some (ok, indexToSector st.disk d 251 == 0)

theorem reserve_lookup_mapped : ∃ d' st',
    (mappedState fun _ => true).inodeReserve mappedInode (252 * 512) = some (true, d', st') ∧
    Mapped 252 d' st' := by
  have h : lastSector (fun _ => true) = some (true, false) := by decide +kernel
  unfold lastSector at h
  simp only [Option.bind_eq_bind, Option.bind_eq_some_iff] at h
  obtain ⟨⟨ok, d', st'⟩, hr, hfacts⟩ := h
  obtain rfl : ok = true := congrArg Prod.fst (Option.some.inj hfacts)
  exact ⟨d', st', hr, (reserve_lookup mappedState_ground mappedInode_placed (by decide)
    (fun j _ _ hlt => ⟨hlt, fun _ _ _ _ => rfl⟩) hr).1⟩

/-- When `malloc` fails for both index blocks, and then recovers, both are sector 0: the
reservation succeeds, and its last sector is not found. -/
theorem reserve_lookup_lost :
    Ground {2} ∅ (mappedState fun k => k == 2) ∧
    Placed ({2} ∪ ∅) (mappedState fun k => k == 2).Used
      (Owned (mappedState fun k => k == 2).disk mappedInode) ∧
    ∃ d' st', (mappedState fun k => k == 2).inodeReserve mappedInode (252 * 512) =
        some (true, d', st') ∧
      indexToSector st'.disk d' 251 = 0 ∧ ¬Mapped 252 d' st' := by
  have h : lastSector (fun k => k == 2) = some (true, true) := by decide +kernel
  unfold lastSector at h
  simp only [Option.bind_eq_bind, Option.bind_eq_some_iff] at h
  obtain ⟨⟨ok, d', st'⟩, hr, hfacts⟩ := h
  obtain rfl : ok = true := congrArg Prod.fst (Option.some.inj hfacts)
  have h0 := eq_of_beq (congrArg Prod.snd (Option.some.inj hfacts))
  exact ⟨mappedState_ground, mappedInode_placed, d', st', hr, h0, fun hm =>
    (hm.used 251 (by omega)).1 h0⟩

end CSE130.Lab3.Files
