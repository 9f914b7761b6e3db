import CSE130.Lab3.Owners

/-! # Writing to an inode

`inode_write_at` first lets the tree of the inode grow when the write goes past the end of file
(`inodeExtend_extended`), and then changes nothing but data sectors of the inode (`Inside`).  Both
keep the invariant. -/

namespace CSE130.Lab3.Files

open BlockTree
open Function (update)

variable {st st' st₁ st₂ : State} {K X : Set Sector} {d d' d₀ : InodeDisk} {m m' : Sector → Block}
  {s t x y : Sector} {p q : List ℕ} {i : Inode}

/-! ### Extending an inode -/

/-- What `inode_write_at` has done to the inode before it writes the bytes. -/
structure Extended (st : State) (s : Sector) (i : Inode) (ok : Bool) (i' : Inode) (st' : State) :
    Prop where
  inv : Inv st'
  loc : Local s st st'
  live : st'.live = st.live
  openInodes : st'.openInodes s = some i'
  counts : i'.openCnt = i.openCnt ∧ i'.removed = i.removed ∧ i'.denyWriteCnt = i.denyWriteCnt
  grows : Grows (insert s st.freeMapData) (IsLeaf levelOf)
    (fun p => ok = true → Onto (FileLeaves (bytesToSectors i'.data.length)) p)
    (Owned st.disk i.data) (Owned st'.disk i'.data) st.disk st'.disk st.Used st'.Used
  tight : ok = true → ∀ x, st'.Used x → st.Used x ∨ ∃ p, Owned st'.disk i'.data p x
  stored : ok = true → rootOf (.ofBlock (st.disk s)) = rootOf i.data →
    rootOf (.ofBlock (st'.disk s)) = rootOf i'.data
  failed : ok = false → i'.data.length = i.data.length

theorem Extended.refl {ok : Bool} (h : Inv st) (hi : st.openInodes s = some i) :
    Extended st s i ok i st where
  inv := h
  loc := ⟨rfl, rfl, fun _ _ => rfl, fun _ _ => rfl, fun _ _ _ _ _ => rfl, fun _ hx _ => hx, h.range⟩
  live := rfl
  openInodes := hi
  counts := ⟨rfl, rfl, rfl⟩
  grows := by
    have hd := dataOf_open hi
    have hs := h.opened s i hi
    refine .refl (fun p q x hp hq => ?_) fun p x hp => h.used s p x ⟨hs, .inr (hd ▸ hp)⟩
    exact (h.sole s p x s q ⟨hs, .inr (hd ▸ hp)⟩ ⟨hs, .inr (hd ▸ hq)⟩).2
  tight _ _ hx := .inl hx
  stored _ h := h
  failed _ := rfl

/-- The tree after a reservation, when the inode has been written to its sector or not. -/
theorem Reserve.patch {n l : ℕ} {ok : Bool} (h : Inv st) (hi : st.openInodes s = some i)
    (hr : FileReserve st.freeMapData st.freeMapIndex n l i.data d' ok st st₁)
    (hm : ∀ x, x ≠ s → st'.disk x = st₁.disk x) (hu : st'.freeMap = st₁.freeMap) :
    Grows (insert s st.freeMapData) (IsLeaf levelOf) (Onto (FileLeaves n)) (Owned st.disk i.data)
        (Owned st'.disk d') st.disk st'.disk st.Used st'.Used ∧
      ∀ p x, Owned st'.disk d' p x ↔ Owned st₁.disk d' p x := by
  have hs := h.opened s i hi
  have hus := h.used s [] s (owns_self hs)
  have hroot : ∀ p, ¬Owned st₁.disk d' p s := fun p hp => by
    rcases hr.grows.source p s hp with hp | ⟨hn, -⟩
    · rw [← dataOf_open hi] at hp
      obtain ⟨-, rfl⟩ := h.sole s p s s [] ⟨hs, .inr hp⟩ (owns_self hs)
      exact hp
    · exact hn hus
  have hindex : ∀ q y, Owned st₁.disk d' q y → ¬IsLeaf levelOf q → st'.disk y = st₁.disk y :=
    fun q y hq _ => hm y fun hy => hroot q (hy ▸ hq)
  have howned : ∀ p x, Owned st'.disk d' p x ↔ Owned st₁.disk d' p x := fun p x =>
    ⟨Forest.congr_symm hindex, Forest.congr hindex⟩
  have hused : st'.Used = st₁.Used := by
    unfold State.Used
    rw [hu]
  refine ⟨?_, howned⟩
  rw [hused]
  have hpatch : Grows (insert s st.freeMapData) (IsLeaf levelOf) (Onto (FileLeaves n))
      (Owned st.disk i.data) (Owned st₁.disk d') st.disk st'.disk st.Used st₁.Used := hr.grows.patch
    (fun x hx => Set.mem_insert_of_mem s hx) (fun x hx => hm x (ne_of_mem_of_not_mem (Set.mem_insert s _) hx).symm)
    fun p x hx hn hk => by
      rcases Set.mem_insert_iff.mp hk with rfl | hk
      · exact hroot p hx
      · exact hn (h.ground.used x (.inl hk))
  exact hpatch.restrict (fun p x hx => (howned p x).mpr (hr.grows.keep p x hx)) fun p x =>
    (howned p x).mp

theorem Extended.of_reserve {n l : ℕ} {ok : Bool} {i' : Inode} (h : Inv st) (h0 : s ≠ 0)
    (hi : st.openInodes s = some i)
    (hr : FileReserve st.freeMapData st.freeMapIndex n l i.data d ok st st₁)
    (hm : ∀ x, x ≠ s → st'.disk x = st₁.disk x) (hp : st' = { st₁.setInode s (some i') with disk := st'.disk })
    (hroot : rootOf i'.data = rootOf d)
    (hcounts : i'.openCnt = i.openCnt ∧ i'.removed = i.removed ∧ i'.denyWriteCnt = i.denyWriteCnt)
    (hcomplete : (∀ p x, Owned st.disk i.data p x → Owned st'.disk i'.data p x) →
      (ok = true → ∀ p, FileLeaves l p → ∃ x, Owned st'.disk i'.data p x) →
      Complete st'.disk i'.data ∧ Older (.ofBlock (st'.disk s)) i'.data)
    (hn : ok = true → n = bytesToSectors i'.data.length)
    (hstored : ok = true → rootOf (.ofBlock (st'.disk s)) = rootOf i'.data)
    (hfailed : ok = false → i'.data.length = i.data.length) : Extended st s i ok i' st' := by
  have hs := h.opened s i hi
  have hfree : st'.freeMap = st₁.freeMap := by
    rw [hp]
    rfl
  have hlive : st'.live = st.live := by
    rw [hp]
    exact hr.passive.live
  have ho : st'.openInodes = update st.openInodes s (some i') := by
    rw [hp]
    change update st₁.openInodes s (some i') = _
    rw [hr.passive.openInodes]
  have hoi : st'.openInodes s = some i' := by
    rw [ho, Function.update_self]
  have howned : Owned st'.disk i'.data = Owned st'.disk d := by
    unfold Owned
    rw [hroot]
  obtain ⟨hg, hiff⟩ := hr.patch h hi hm hfree
  rw [← howned] at hg
  have hused : ∀ x, st'.Used x ↔ st₁.Used x := fun x => by
    unfold State.Used
    rw [hfree]
  have hloc : Local s st st' := .of_grows hs (dataOf_open hi) hg
    (by rw [hp]; exact hr.passive.size) (by rw [hp]; exact hr.passive.freeMapFile) hlive
    (fun t ht => by rw [ho, Function.update_of_ne ht]) fun x hx => by
      rw [← hr.passive.size]
      exact hr.ground.range x ((hused x).mp hx)
  obtain ⟨hc, holder⟩ := hcomplete hg.keep fun hok p hp => by
    obtain ⟨x, hx⟩ := hr.complete hok p hp
    refine ⟨x, ?_⟩
    rw [howned]
    exact (hiff p x).mpr hx
  have hd' := dataOf_open hoi
  have hgrows := hg
  rw [← hd', ← dataOf_open hi] at hgrows
  obtain ⟨hown, hsole⟩ := h.own_of_grows hs (hg.used s (h.used s [] s (owns_self hs))) hgrows
  refine ⟨h.step_local h0 hloc hown hsole (fun _ => ?_) fun j hj => ?_, hloc, hlive, hoi, hcounts,
    hg.mono fun p hp hok => hn hok ▸ hp, fun hok x hx => ?_, fun hok _ => hstored hok, hfailed⟩
  · rw [hd']
    exact hc
  · obtain rfl := Option.some.inj (hoi.symm.trans hj)
    rw [hlive]
    exact ⟨hs, holder⟩
  · refine (hr.tight hok x ((hused x).mp hx)).imp id fun ⟨p, hpx⟩ => ⟨p, ?_⟩
    rw [howned]
    exact (hiff p x).mpr hpx

/-- The call needs no index block, or `malloc` is steady. -/
def Covered (length : ℤ) (heap : ℕ → Bool) : Prop := length ≤ 123 * 512 ∨ Steady heap

theorem Covered.settled {length : ℤ} {heap : ℕ → Bool} (h : Covered length heap)
    (hh : Steady heap → Steady st.heap) (hn : 123 < bytesToSectors length.toNat) : Settled st := by
  rcases h with hl | hs
  · unfold bytesToSectors at hn
    omega
  · exact fun _ => hh hs

theorem inodeExtend_unspoiled {size : ℤ} {offset : ℕ} {ok : Bool} {i' : Inode} (h : Inv st)
    (h0 : s ≠ 0) (hi : st.openInodes s = some i) (hu : Unspoiled st i.data (offT (offset + size)))
    (he : st.inodeExtend s i size offset = some (ok, i', st')) : Extended st s i ok i' st' := by
  unfold State.inodeExtend at he
  split_ifs at he with hb
  · simp only [Option.bind_eq_bind, Option.bind_eq_some_iff] at he
    obtain ⟨⟨ok₁, d, st₁⟩, hres, he⟩ := he
    by_cases hneg : offT (offset + size) < 0
    · unfold State.inodeReserve at hres
      rw [if_pos hneg] at hres
      cases hres
      cases he
      have hst : st.setInode s (some i) = st := by
        unfold State.setInode
        rw [← hi, Function.update_eq_self]
      rw [show ({ i with data := i.data } : Inode) = i from rfl, hst]
      exact .refl h hi
    · have hs := h.opened s i hi
      have hplaced := h.placed h0 hs
      rw [dataOf_open hi] at hplaced
      obtain ⟨hr, hlen, -, hbig⟩ := inodeReserve_some h.ground hplaced (not_lt.mp hneg) hu hres
      cases ok₁ with
      | false =>
          cases he
          have hc := h.complete s hs
          rw [dataOf_open hi] at hc
          have hself : st₁.disk s = st.disk s := by
            refine hr.grows.disk s (h.used s [] s (owns_self hs))
              (fun hk => h.apart_freeMap h0 (owns_self hs) (.inl hk)) h0 fun p hp => ?_
            rw [← dataOf_open hi] at hp
            obtain ⟨-, rfl⟩ := h.sole s p s s [] ⟨hs, .inr hp⟩ (owns_self hs)
            exact hp.elim
          refine .of_reserve h h0 hi hr (fun _ _ => rfl) rfl rfl ⟨rfl, rfl, rfl⟩
            (fun hk _ => ⟨⟨?_, fun j hj => ?_⟩, ?_⟩) nofun nofun fun _ => hlen
          · change bytesToSectors d.length ≤ 16635
            rw [hlen]
            exact hc.small
          · change j < bytesToSectors d.length at hj
            rw [hlen] at hj
            exact (hc.place j hj).imp fun x hx => hk _ x hx
          · change Older (.ofBlock (st₁.disk s)) d
            rw [hself]
            exact (h.older s i hi h0).kept hk hc hlen
      | true =>
          cases he
          have hsmall := hbig rfl
          have hblock : rootOf (.ofBlock (update st₁.disk s
              (InodeDisk.toBlock { d with length := (offT (offset + size)).toNat }) s)) =
                rootOf d := by
            rw [Function.update_self, rootOf_ofBlock]
            rfl
          refine .of_reserve h h0 hi hr (fun x hx => Function.update_of_ne hx ..) rfl rfl
            ⟨rfl, rfl, rfl⟩ (fun _ hplace => ⟨⟨hsmall, fun j hj => ?_⟩, ?_⟩) (fun _ => rfl)
            (fun _ => hblock) nofun
          · exact hplace rfl _ ⟨j, by rw [min_eq_left hsmall]; exact hj, rfl⟩
          · change Older (.ofBlock (update st₁.disk s _ s)) _
            rw [Function.update_self]
            exact older_ofBlock hsmall
  · cases he
    exact .refl h hi

theorem inodeExtend_extended {size : ℤ} {offset : ℕ} {ok : Bool} {i' : Inode} (h : Inv st)
    (h0 : s ≠ 0) (hi : st.openInodes s = some i) (hcov : Covered (offT (offset + size)) st.heap)
    (he : st.inodeExtend s i size offset = some (ok, i', st')) : Extended st s i ok i' st' := by
  have hplaced := h.placed h0 (h.opened s i hi)
  rw [dataOf_open hi] at hplaced
  exact inodeExtend_unspoiled h h0 hi
    (unspoiled_of_settled h.ground hplaced (hcov.settled id)) he

theorem offT_eq {x : ℤ} (h : offT x = x) : -2 ^ 31 ≤ x ∧ x < 2 ^ 31 := by
  unfold offT at h
  rw [Int.bmod_def] at h
  split_ifs at h <;> omega

theorem offT_of_lt {x : ℤ} (h0 : 0 ≤ x) (h : x < 2 ^ 31) : offT x = x := by
  unfold offT
  rw [Int.bmod_def]
  split_ifs <;> omega

theorem offT_neg {x : ℤ} (h0 : 2 ^ 31 ≤ x) (h : x < 2 ^ 32) : offT x < 0 := by
  unfold offT
  rw [Int.bmod_def]
  split_ifs <;> omega

theorem Inv.sector_ne (h : Inv st) (hi : st.openInodes s = some i) {pos : ℕ}
    (hpos : pos < i.data.length) : byteToSector st.disk i.data pos ≠ noSector := by
  have hs := h.opened s i hi
  have hc := h.complete s hs
  rw [dataOf_open hi] at hc
  obtain ⟨x, hx, hb⟩ := hc.sector hpos
  rw [hb]
  rintro rfl
  rw [← dataOf_open hi] at hx
  exact h.noSector_free (h.used s _ _ ⟨hs, .inr hx⟩)

/-- The length after a write, and that only a write past the end of file changes it. -/
theorem inodeExtend_length {size : ℤ} {offset : ℕ} {i' : Inode} (h : Inv st)
    (hi : st.openInodes s = some i) (hpos : 1 ≤ size) (hsize : offT size = size)
    (hoffset : offT offset = offset)
    (he : st.inodeExtend s i size offset = some (true, i', st')) :
    i' = i ∧ st' = st ∧ offset + size ≤ i.data.length ∨
      i.data.length < offset + size ∧ (i'.data.length : ℤ) = offset + size := by
  have h1 := offT_eq hsize
  have h2 := offT_eq hoffset
  unfold State.inodeExtend at he
  split_ifs at he with hb
  · simp only [Option.bind_eq_bind, Option.bind_eq_some_iff] at he
    obtain ⟨⟨ok, d, st₁⟩, hres, he⟩ := he
    cases ok with
    | false => cases he
    | true =>
        cases he
        have hlt : (offset : ℤ) + size < 2 ^ 31 := by
          by_contra hge
          have hneg := offT_neg (not_lt.mp hge) (by omega)
          unfold State.inodeReserve at hres
          rw [if_pos hneg] at hres
          cases hres
        refine .inr ⟨?_, ?_⟩
        · by_contra hle
          rw [offT_of_lt (by omega) (by omega)] at hb
          obtain ⟨pos, hp⟩ : ∃ pos : ℕ, (pos : ℤ) = offset + size - 1 :=
            ⟨(offset + size - 1).toNat, by omega⟩
          rw [← hp] at hb
          exact h.sector_ne hi (by omega) hb
        · change ((offT (offset + size)).toNat : ℤ) = _
          rw [offT_of_lt (by omega) hlt]
          omega
  · cases he
    refine .inl ⟨rfl, rfl, ?_⟩
    by_contra hgt
    refine hb ?_
    unfold byteToSector
    rw [if_neg]
    rintro ⟨hp0, hp1⟩
    rcases lt_or_ge ((offset : ℤ) + size - 1) (2 ^ 31) with hlt | hge
    · rw [offT_of_lt (by omega) hlt] at hp1
      omega
    · have := offT_neg hge (by omega)
      omega

/-! ### Writing the bytes -/

/-- Nothing has changed but the data sectors of an open inode and the answers of `malloc`. -/
structure Inside (s : Sector) (i : Inode) (st st' : State) : Prop where
  size : st'.size = st.size
  freeMapFile : st'.freeMapFile = st.freeMapFile
  freeMap : st'.freeMap = st.freeMap
  live : st'.live = st.live
  openInodes : st'.openInodes = st.openInodes
  disk : ∀ x, x ∉ dataSectors st.disk i.data → st'.disk x = st.disk x

namespace Inside

theorem used_iff (hw : Inside s i st st') : st'.Used x ↔ st.Used x := by
  unfold State.Used
  rw [hw.freeMap]

theorem loc (hw : Inside s i st st') (h : Inv st) (hi : st.openInodes s = some i) :
    Local s st st' where
  size := hw.size
  freeMapFile := hw.freeMapFile
  live _ _ := by rw [hw.live]
  openInodes _ _ := by rw [hw.openInodes]
  disk x _ _ _ hn := hw.disk x fun ⟨p, _, hx⟩ =>
    hn p ⟨h.opened s i hi, .inr (by rw [dataOf_open hi]; exact hx)⟩
  used _ hx _ := hw.used_iff.mpr hx
  range x hx := h.range x (hw.used_iff.mp hx)

theorem owned_iff (hw : Inside s i st st') (h : Inv st) (hi : st.openInodes s = some i) :
    Owned st'.disk i.data p x ↔ Owned st.disk i.data p x := by
  have hindex : ∀ q y, Owned st.disk i.data q y → ¬IsLeaf levelOf q → st'.disk y = st.disk y := by
    refine fun q y hq hl => hw.disk y fun ⟨r, hr, hy⟩ => hl ?_
    rw [← dataOf_open hi] at hq hy
    obtain ⟨-, rfl⟩ := h.sole s q y s r ⟨h.opened s i hi, .inr hq⟩ ⟨h.opened s i hi, .inr hy⟩
    exact hr
  exact ⟨Forest.congr_symm hindex, Forest.congr hindex⟩

theorem sector_eq (hw : Inside s i st st') (h : Inv st) (hi : st.openInodes s = some i) :
    st'.disk s = st.disk s := hw.disk s fun ⟨p, hp, hx⟩ => by
  have hs := h.opened s i hi
  rw [← dataOf_open hi] at hx
  obtain ⟨-, rfl⟩ := h.sole s p s s [] ⟨hs, .inr hx⟩ (owns_self hs)
  exact hp

theorem inv (hw : Inside s i st st') (h : Inv st) (h0 : s ≠ 0) (hi : st.openInodes s = some i) :
    Inv st' := by
  have hi' : st'.openInodes s = some i := by
    rw [hw.openInodes, hi]
  have hs := h.opened s i hi
  have howns : ∀ p x, st'.Owns s p x ↔ st.Owns s p x := fun p x => by
    unfold State.Owns
    rw [hw.live, dataOf_open hi, dataOf_open hi', hw.owned_iff h hi]
  refine h.step_local h0 (hw.loc h hi) (fun p x hx => ?_) (fun p q x hp hq => ?_) (fun _ => ?_)
    fun j hj => ?_
  · have hx := (howns p x).mp hx
    exact ⟨hw.used_iff.mpr (h.used s p x hx), fun _ => ⟨p, hx⟩⟩
  · exact (h.sole s p x s q ((howns p x).mp hp) ((howns q x).mp hq)).2
  · have hc := h.complete s hs
    rw [dataOf_open hi] at hc
    rw [dataOf_open hi']
    exact ⟨hc.small, fun j hj => (hc.place j hj).imp fun x hx => (hw.owned_iff h hi).mpr hx⟩
  · obtain rfl := Option.some.inj (hi'.symm.trans hj)
    rw [hw.live, hw.sector_eq h hi]
    exact ⟨hs, h.older s i hi h0⟩

end Inside

theorem writeLoop_inside {bounce failed : Bool} {buffer : ℕ → UInt8} {fuel : ℕ} {size : ℤ}
    {offset done : ℕ} {heap : ℕ → Bool} (h : Inv st) (hi : st.openInodes s = some i) :
    Inside s i st { st with
      disk := (writeLoop i.data bounce buffer fuel st.disk size offset done).1
      heap := heap
      allocFailed := failed } := by
  refine ⟨rfl, rfl, rfl, rfl, rfl, fun x hx => ?_⟩
  have hs := h.opened s i hi
  have hc := h.complete s hs
  rw [dataOf_open hi] at hc
  refine writeLoop_other hc.backed (fun y hy hy' => ?_) hx
  obtain ⟨p, hp, hpy⟩ := hy
  obtain ⟨q, hq, hqy⟩ := hy'
  rw [← dataOf_open hi] at hpy hqy
  obtain ⟨-, rfl⟩ := h.sole s p y s q ⟨hs, .inr hpy⟩ ⟨hs, .inr hqy⟩
  exact hp hq

/-- Only an inode that is open is written. -/
theorem inodeWriteAt_open {buffer : ℕ → UInt8} {size : ℤ} {offset n : ℕ}
    (hw : st.inodeWriteAt s buffer size offset = some (n, st')) : ∃ i, st.openInodes s = some i := by
  cases hi : st.openInodes s with
  | none =>
      unfold State.inodeWriteAt at hw
      rw [hi] at hw
      cases hw
  | some i => exact ⟨i, rfl⟩

theorem inodeClose_open (hc : st.inodeClose s = some st') : ∃ i, st.openInodes s = some i := by
  cases hi : st.openInodes s with
  | none =>
      unfold State.inodeClose at hc
      rw [hi] at hc
      cases hc
  | some i => exact ⟨i, rfl⟩

/-- The cases of `inode_write_at`. -/
theorem inodeWriteAt_cases {buffer : ℕ → UInt8} {size : ℤ} {offset n : ℕ}
    (hi : st.openInodes s = some i) (hw : st.inodeWriteAt s buffer size offset = some (n, st')) :
    n = 0 ∧ st' = st ∧ i.denyWriteCnt ≠ 0 ∨ i.denyWriteCnt = 0 ∧ ∃ ok i' st₁,
      st.inodeExtend s i size offset = some (ok, i', st₁) ∧
      (ok = false ∧ n = 0 ∧ st' = st₁ ∨ ok = true ∧
        n = (writeLoop i'.data (st₁.heap 0) buffer size.toNat st₁.disk size offset 0).2 ∧
        st' = { st₁ with
          disk := (writeLoop i'.data (st₁.heap 0) buffer size.toNat st₁.disk size offset 0).1
          heap := fun k => st₁.heap (k + 1)
          allocFailed := st₁.allocFailed || needsBounce i'.data size.toNat size offset && !st₁.heap 0 }) := by
  unfold State.inodeWriteAt at hw
  rw [hi] at hw
  by_cases hd : i.denyWriteCnt = 0
  · simp only [hd, ne_eq, not_true, if_false, Option.bind_eq_bind, Option.bind_eq_some_iff] at hw
    obtain ⟨⟨ok, i', st₁⟩, he, hw⟩ := hw
    refine .inr ⟨hd, ok, i', st₁, he, ?_⟩
    cases ok with
    | false =>
        cases hw
        exact .inl ⟨rfl, rfl, rfl⟩
    | true =>
        cases hw
        exact .inr ⟨rfl, rfl, rfl⟩
  · simp only [ne_eq, hd, not_false_iff, if_true] at hw
    cases hw
    exact .inl ⟨rfl, rfl, hd⟩

theorem Extended.own {ok : Bool} {i' : Inode} (hx : Extended st s i ok i' st') (h : Inv st)
    (hi : st.openInodes s = some i) (hp : st'.Owns s p x) (hu : st.Used x) :
    ∃ q, st.Owns s q x := by
  have hs := h.opened s i hi
  have hg := hx.grows
  rw [← dataOf_open hi, ← dataOf_open hx.openInodes] at hg
  exact ((h.own_of_grows hs (hg.used s (h.used s [] s (owns_self hs))) hg).1 p x hp).2 hu

theorem inodeWriteAt_local {buffer : ℕ → UInt8} {size : ℤ} {offset n : ℕ} (h : Inv st) (h0 : s ≠ 0)
    (hi : st.openInodes s = some i) (hcov : Covered (offT (offset + size)) st.heap)
    (hw : st.inodeWriteAt s buffer size offset = some (n, st')) : Inv st' ∧ Local s st st' := by
  rcases inodeWriteAt_cases hi hw with ⟨-, rfl, -⟩ | ⟨-, ok, i', st₁, he, hcase⟩
  · have hx : Extended _ s i true i _ := .refl h hi
    exact ⟨h, hx.loc⟩
  · have hx := inodeExtend_extended h h0 hi hcov he
    rcases hcase with ⟨-, -, rfl⟩ | ⟨-, -, rfl⟩
    · exact ⟨hx.inv, hx.loc⟩
    · refine ⟨(writeLoop_inside hx.inv hx.openInodes).inv hx.inv h0 hx.openInodes,
        hx.loc.trans h h0 ?_ fun p x hp hu => hx.own h hi hp hu⟩
      exact (writeLoop_inside hx.inv hx.openInodes).loc hx.inv hx.openInodes

end CSE130.Lab3.Files
