import CSE130.Lab3.Extend
import CSE130.Lib.Transition

/-! # No sector has two owners

The other operations on inodes, and a new file system: the invariant holds after every run in
which `malloc` does not recover in the middle of a call that needs index blocks
(`sector_owners`).  When it does, an index block may be taken to be sector 0
(`sector_owners_transient`). -/

namespace CSE130.Lab3.Files

open BlockTree Transition
open Function (update)

variable {st st' st₁ st₂ : State} {K X : Set Sector} {d d' d₀ : InodeDisk} {m m' : Sector → Block}
  {s t x y : Sector} {p q : List ℕ} {i : Inode}

/-! ### Creating an inode -/

theorem Inv.not_live (h : Inv st) (hn : ¬st.Used s) : st.live s = false := by
  cases hl : st.live s with
  | false => rfl
  | true => exact absurd (h.used s [] s (owns_self hl)) hn

theorem Inv.not_open (h : Inv st) (hn : st.live s = false) : st.openInodes s = none := by
  cases ho : st.openInodes s with
  | none => rfl
  | some i =>
      rw [h.opened s i ho] at hn
      cases hn

theorem Inv.ne_zero (h : Inv st) (hn : ¬st.Used s) : s ≠ 0 := fun h0 => hn (h0 ▸ h.ground.zero)

/-- Sectors have been taken, and nothing else has changed but the contents of the free map's file
and of sectors that were free. -/
structure Takes (st st' : State) : Prop where
  size : st'.size = st.size
  freeMapFile : st'.freeMapFile = st.freeMapFile
  openInodes : st'.openInodes = st.openInodes
  disk : ∀ x, st.Used x → x ∉ st.freeMapData → x ≠ 0 → st'.disk x = st.disk x
  used : ∀ x, st.Used x → st'.Used x
  range : ∀ x, st'.Used x → x < st.size

/-- Some sector that was free has become the sector of a new inode, or not. -/
theorem Takes.loc (ht : Takes st st') (hl : ∀ t, t ≠ s → st'.live t = st.live t) : Local s st st' where
  size := ht.size
  freeMapFile := ht.freeMapFile
  live := hl
  openInodes _ _ := by rw [ht.openInodes]
  disk x hx hk h0 _ := ht.disk x hx hk h0
  used x hx _ := ht.used x hx
  range := ht.range

theorem Takes.inv (ht : Takes st st') (h : Inv st) (hl : st'.live = st.live) : Inv st' := by
  have hn := h.noSector_free
  have hlive : st'.live noSector = false := by
    rw [hl]
    exact h.not_live hn
  refine h.step_local (h.ne_zero hn) (ht.loc fun t _ => by rw [hl]) (fun p x hx => ?_)
    (fun p q x hx => ?_) (fun hx => ?_) fun i hi => ?_
  · rw [hx.1] at hlive
    cases hlive
  · rw [hx.1] at hlive
    cases hlive
  · rw [hx] at hlive
    cases hlive
  · rw [ht.openInodes, h.not_open (h.not_live hn)] at hi
    cases hi

theorem owned_empty {isDir : Bool} {l : ℕ} : ¬Owned m ⟨fun _ => 0, 0, 0, isDir, l⟩ p x := by
  cases p with
  | nil => exact id
  | cons j p =>
      rw [owned_cons]
      rintro ⟨-, h⟩
      refine h.root_ne ?_
      unfold rootOf
      split_ifs <;> rfl

/-- What `filesys_create` does when it succeeds. -/
structure Created (s : Sector) (st st' : State) : Prop where
  free : ¬st.Used s
  inv : Inv st'
  takes : Takes st st'
  live : st'.live = update st.live s true
  tight : ∀ x, st'.Used x → st.Used x ∨ ∃ p, st'.Owns s p x
  source : ∀ p x, st'.Owns s p x → ¬st.Used x
  exact : ∀ p x, Owned st'.disk (st'.dataOf s) p x →
    Onto (FileLeaves (bytesToSectors (st'.dataOf s).length)) p
  blank : ∀ x ∈ dataSectors st'.disk (st'.dataOf s), st'.disk x = zeros

theorem malloc_still (st : State) : Still K st st.malloc.2 :=
  ⟨⟨rfl, rfl, rfl, rfl, fun h k => h (k + 1), fun h => by
    change (st.allocFailed || _) = true
    rw [h, Bool.true_or]⟩, rfl, fun _ _ => rfl⟩

theorem placed_empty {Z : Set Sector} {isDir : Bool} {l : ℕ} {U : Sector → Prop} :
    Placed Z U (Owned m ⟨fun _ => 0, 0, 0, isDir, l⟩) :=
  ⟨fun _ _ _ h => absurd h owned_empty, fun _ _ h => absurd h owned_empty,
    fun _ _ h => absurd h owned_empty⟩

theorem inodeCreate_cases {length : ℤ} {isDir ok : Bool} (g : Ground K X st) (hs : s ∉ X)
    (hset : 123 < bytesToSectors length.toNat → Settled st)
    (hc : st.inodeCreate s length isDir = some (ok, st')) :
    Ground K X st' ∧ Passive st st' ∧ (∀ x, st.Used x → st'.Used x) ∧
      (∀ x, st.Used x → x ∉ K → x ≠ 0 → x ≠ s → st'.disk x = st.disk x) ∧
      (ok = true → ∃ d st₁, d.length = length.toNat ∧ bytesToSectors length.toNat ≤ 16635 ∧
        FileReserve K X (bytesToSectors length.toNat) (bytesToSectors length.toNat)
          ⟨fun _ => 0, 0, 0, isDir, length.toNat⟩ d true st.malloc.2 st₁ ∧
        st' = st₁.write s d.toBlock) := by
  unfold State.inodeCreate at hc
  split_ifs at hc with hneg
  have hmalloc := malloc_still (K := K) st
  rcases hm : st.malloc with ⟨ok₁, st₁⟩
  rw [hm] at hc hmalloc
  have g₁ := g.still hmalloc g.disjoint
  cases ok₁ with
  | false =>
      cases hc
      exact ⟨g₁, hmalloc.passive, fun x hx => hmalloc.used.mpr hx, fun x _ hk _ _ =>
        hmalloc.disk x hk, nofun⟩
  | true =>
      simp only [if_true, Option.bind_eq_bind, Option.bind_eq_some_iff] at hc
      obtain ⟨⟨ok₂, d, st₂⟩, hres, hc⟩ := hc
      obtain ⟨ok₃, d₃, st₃, hr, hlen, -, hres'⟩ := inodeReserve_cases g₁ placed_empty
        (fun hn => hmalloc.passive.settled (hset hn)) (not_lt.mp hneg)
      rw [hres'] at hres
      split_ifs at hres with hbig
      cases hres
      have hdisk : ∀ x, st.Used x → x ∉ K → x ≠ 0 → st₂.disk x = st.disk x := fun x hx hk h0 =>
        (hr.grows.disk x (hmalloc.used.mpr hx) hk h0 fun p hp => absurd hp owned_empty).trans
          (hmalloc.disk x hk)
      have hpassive := hmalloc.passive.trans hr.passive
      have hused : ∀ x, st.Used x → st₂.Used x := fun x hx => hr.grows.used x (hmalloc.used.mpr hx)
      cases ok₂ with
      | false =>
          cases hc
          exact ⟨hr.ground, hpassive, hused, fun x hx hk h0 _ => hdisk x hx hk h0, nofun⟩
      | true =>
          have hsmall : bytesToSectors length.toNat ≤ 16635 := by
            by_contra hgt
            exact hbig ⟨rfl, not_le.mp hgt⟩
          cases hc
          rw [min_eq_left hsmall] at hr
          refine ⟨hr.ground.write hs, hpassive.trans (passive_write st₂ s _), hused,
            fun x hx hk h0 hxs => (Function.update_of_ne hxs ..).trans (hdisk x hx hk h0),
            fun _ => ⟨d, st₂, hlen, hsmall, hr, rfl⟩⟩

theorem Still.takes (hs : Still st.freeMapData st st') (h : Inv st) : Takes st st' where
  size := hs.passive.size
  freeMapFile := hs.passive.freeMapFile
  openInodes := hs.passive.openInodes
  disk x _ hk _ := hs.disk x hk
  used _ hx := hs.used.mpr hx
  range x hx := h.range x (hs.used.mp hx)

theorem Created.of_reserve {n : ℕ} {isDir : Bool} {l : ℕ} (h : Inv st) (hs : ¬st.Used s)
    (ht : Takes st st') (hu : ∀ x, st₁.Used x ↔ st.Used x ∨ x = s)
    (hr : FileReserve K X n n ⟨fun _ => 0, 0, 0, isDir, l⟩ d true st₁ st₂)
    (hn : n = bytesToSectors d.length) (hsmall : n ≤ 16635)
    (hst : st' = { st₂.write s d.toBlock with live := update st.live s true }) :
    Created s st st' := by
  have hnone := h.not_open (h.not_live hs)
  have hlive : st'.live = update st.live s true := by
    rw [hst]
  have hself : st'.disk s = d.toBlock := by
    rw [hst]
    exact Function.update_self ..
  have hdisk : ∀ x, x ≠ s → st'.disk x = st₂.disk x := fun x hx => by
    rw [hst]
    exact Function.update_of_ne hx ..
  have hused : ∀ x, st'.Used x ↔ st₂.Used x := fun x => by
    rw [hst]
    rfl
  have hdata : st'.dataOf s = .ofBlock d.toBlock := by
    rw [dataOf_closed (by rw [ht.openInodes, hnone]), hself]
  -- the sectors of the new tree were free
  have hsource : ∀ p x, Owned st₂.disk d p x → ¬st₁.Used x ∧ st₂.Used x ∧ Onto (FileLeaves n) p :=
    fun p x hx => (hr.grows.source p x hx).resolve_left owned_empty
  have hne : ∀ p x, Owned st₂.disk d p x → x ≠ s := fun p x hx hxs =>
    (hsource p x hx).1 ((hu x).mpr (.inr hxs))
  have howned : ∀ p x, Owned st'.disk (st'.dataOf s) p x ↔ Owned st₂.disk d p x := fun p x => by
    rw [hdata]
    unfold Owned
    rw [rootOf_ofBlock]
    have hindex : ∀ q y, Owned st₂.disk d q y → ¬IsLeaf levelOf q → st'.disk y = st₂.disk y :=
      fun q y hq _ => hdisk y (hne q y hq)
    exact ⟨Forest.congr_symm hindex, Forest.congr hindex⟩
  have hself_used : st'.Used s := (hused s).mpr (hr.grows.used s ((hu s).mpr (.inr rfl)))
  have hlive_self : st'.live s = true := by
    rw [hlive, Function.update_self]
  have howns : ∀ p x, st'.Owns s p x → st'.Used x ∧ ¬st.Used x := by
    rintro p x ⟨-, ⟨rfl, rfl⟩ | hx⟩
    · exact ⟨hself_used, hs⟩
    · obtain ⟨hn, hu', -⟩ := hsource p x ((howned p x).mp hx)
      exact ⟨(hused x).mpr hu', fun hx => hn ((hu x).mpr (.inl hx))⟩
  have hinv : Inv st' := by
    refine h.step_local (h.ne_zero hs) (ht.loc fun t hts => ?_) (fun p x hx => ?_)
      (fun p q x hp hq => ?_) (fun _ => ⟨?_, fun i hi => ?_⟩) fun i hi => ?_
    · rw [hlive, Function.update_of_ne hts]
    · exact ⟨(howns p x hx).1, fun hx' => absurd hx' (howns p x hx).2⟩
    · obtain ⟨-, ⟨rfl, rfl⟩ | hp⟩ := hp
      · obtain ⟨-, ⟨rfl, -⟩ | hq⟩ := hq
        · rfl
        · exact absurd rfl (hne q x ((howned q x).mp hq))
      · obtain ⟨-, ⟨rfl, rfl⟩ | hq⟩ := hq
        · exact absurd rfl (hne p x ((howned p x).mp hp))
        · exact hr.grows.sole p q x ((howned p x).mp hp) ((howned q x).mp hq)
    · rw [hdata, length_ofBlock (hn ▸ hsmall), ← hn]
      exact hsmall
    · rw [hdata, length_ofBlock (hn ▸ hsmall), ← hn] at hi
      obtain ⟨x, hx⟩ := hr.complete rfl _ ⟨i, hi, rfl⟩
      exact ⟨x, (howned _ x).mpr hx⟩
    · rw [ht.openInodes, hnone] at hi
      cases hi
  refine ⟨hs, hinv, ht, hlive, fun x hx => ?_, fun p x hx => (howns p x hx).2, fun p x hx => ?_,
    fun x ⟨p, hp, hx⟩ => ?_⟩
  · rcases hr.tight rfl x ((hused x).mp hx) with hx | ⟨p, hx⟩
    · rcases (hu x).mp hx with hx | rfl
      · exact .inl hx
      · exact .inr ⟨[], owns_self hlive_self⟩
    · exact .inr ⟨p, hlive_self, .inr ((howned p x).mpr hx)⟩
  · rw [hdata, length_ofBlock (hn ▸ hsmall), ← hn]
    exact (hsource p x ((howned p x).mp hx)).2.2
  · have hx := (howned p x).mp hx
    rw [hdisk x (hne p x hx)]
    exact hr.grows.blank p x hx hp (hsource p x hx).1

theorem filesysCreate_cases {length : ℤ} {isDir added : Bool} (h : Inv st)
    (hcov : Covered length st.heap) (hc : st.filesysCreate length isDir added = some st') :
    Takes st st' ∧ st'.live = st.live ∨ ∃ s, Created s st st' := by
  unfold State.filesysCreate at hc
  have g := h.ground
  rcases allocate_cases g with ⟨s, st₁, ha, hfree, hsize, hstill⟩ | ⟨st₁, ha, hstill, -⟩
  · rw [ha] at hc
    simp only [Option.bind_eq_bind, Option.bind_eq_some_iff] at hc
    obtain ⟨⟨ok, st₂⟩, hcreate, hc⟩ := hc
    have hZ : s ∉ st.freeMapData ∪ st.freeMapIndex := fun hs => hfree (g.used s hs)
    have g₁ := (g.mark hsize).still hstill g.disjoint
    have hused₁ : ∀ x, st₁.Used x ↔ st.Used x ∨ x = s := fun x => by
      rw [hstill.used, used_mark]
      by_cases hx : x = s <;> simp [hx]
    have hpassive₁ := (passive_mark st s true).trans hstill.passive
    obtain ⟨g₂, hpassive₂, hused₂, hdisk₂, hok⟩ := inodeCreate_cases g₁ (fun hs => hZ (.inr hs))
      (hcov.settled hpassive₁.steady) hcreate
    have hpassive := hpassive₁.trans hpassive₂
    have hne : ∀ x, st.Used x → x ≠ s := fun x hx hxs => hfree (hxs ▸ hx)
    have htakes : Takes st st₂ :=
      { size := hpassive.size
        freeMapFile := hpassive.freeMapFile
        openInodes := hpassive.openInodes
        disk := fun x hx hk h0 => (hdisk₂ x ((hused₁ x).mpr (.inl hx)) hk h0 (hne x hx)).trans
          (hstill.disk x hk)
        used := fun x hx => hused₂ x ((hused₁ x).mpr (.inl hx))
        range := fun x hx => by
          rw [← hpassive.size]
          exact g₂.range x hx }
    split_ifs at hc with hboth
    · right
      cases hc
      obtain ⟨rfl, -⟩ := Bool.and_eq_true_iff.mp hboth
      obtain ⟨d, st₃, hlen, hsmall, hr, hst⟩ := hok rfl
      have hmalloc : ∀ x, st₁.malloc.2.Used x ↔ st.Used x ∨ x = s := hused₁
      refine ⟨s, .of_reserve h hfree ⟨htakes.size, htakes.freeMapFile, htakes.openInodes,
        htakes.disk, htakes.used, htakes.range⟩ hmalloc hr (by rw [hlen]) hsmall ?_⟩
      rw [← hpassive.live, hst]
    · left
      obtain ⟨st₃, hrel, hreleased⟩ := freeMapRelease_released g₂
        (hpassive.freeMapFile.trans h.freeMapFile) (hused₂ s ((hused₁ s).mpr (.inr rfl)))
        (h.ne_zero hfree) hZ
      rw [hrel] at hc
      cases hc
      refine ⟨?_, hreleased.passive.live.trans hpassive.live⟩
      exact
        { size := hreleased.passive.size.trans htakes.size
          freeMapFile := hreleased.passive.freeMapFile.trans htakes.freeMapFile
          openInodes := hreleased.passive.openInodes.trans htakes.openInodes
          disk := fun x hx hk h0 => (hreleased.disk x hk).trans (htakes.disk x hx hk h0)
          used := fun x hx => (hreleased.used x).mpr ⟨htakes.used x hx, hne x hx⟩
          range := fun x hx => htakes.range x ((hreleased.used x).mp hx).1 }
  · rw [ha] at hc
    cases hc
    exact .inl ⟨hstill.takes h, hstill.passive.live⟩

/-! ### Opening and closing -/

/-- An entry of the list of open inodes changes. -/
theorem local_setInode (h : Inv st) (o : Option Inode) : Local s st (st.setInode s o) :=
  ⟨rfl, rfl, fun _ _ => rfl, fun _ ht => Function.update_of_ne ht .., fun _ _ _ _ _ => rfl,
    fun _ hx _ => hx, h.range⟩

theorem dataOf_setInode (i : Inode) : (st.setInode s (some i)).dataOf s = i.data :=
  dataOf_open (Function.update_self (f := st.openInodes) ..)

theorem dataOf_setInode_none : (st.setInode s none).dataOf s = .ofBlock (st.disk s) :=
  dataOf_closed (Function.update_self (f := st.openInodes) ..)

theorem Inv.setInode {o : Option Inode} (h : Inv st) (h0 : s ≠ 0) (hs : st.live s = true)
    (hd : (st.setInode s o).dataOf s = d)
    (hsub : ∀ p x, Owned st.disk d p x → Owned st.disk (st.dataOf s) p x)
    (hc : Complete st.disk d) (ho : o.isSome → Older (.ofBlock (st.disk s)) d) :
    Inv (st.setInode s o) := by
  have howns : ∀ p x, (st.setInode s o).Owns s p x → st.Owns s p x := by
    rintro p x ⟨-, hx⟩
    rw [hd] at hx
    exact ⟨hs, hx.imp id (hsub p x)⟩
  refine h.step_local h0 (local_setInode h o) (fun p x hx => ?_) (fun p q x hp hq => ?_)
    (fun _ => hd ▸ hc) fun i hi => ⟨hs, ?_⟩
  · exact ⟨h.used s p x (howns p x hx), fun _ => ⟨p, howns p x hx⟩⟩
  · exact (h.sole s p x s q (howns p x hp) (howns q x hq)).2
  · have hi' : o = some i := by
      change update st.openInodes s o s = some i at hi
      rw [Function.update_self] at hi
      exact hi
    have hdata : d = i.data := by
      rw [← hd, hi', dataOf_setInode]
    rw [← hdata]
    exact ho (by rw [hi']; rfl)

theorem Inv.recount {i' : Inode} (h : Inv st) (h0 : s ≠ 0) (hi : st.openInodes s = some i)
    (hd : i'.data = i.data) : Inv (st.setInode s (some i')) := by
  have hs := h.opened s i hi
  have hc := h.complete s hs
  rw [dataOf_open hi] at hc
  refine h.setInode h0 hs (d := i.data) ?_ (fun p x hx => ?_) hc fun _ => h.older s i hi h0
  · rw [dataOf_setInode]
    exact hd
  · rw [dataOf_open hi]
    exact hx

theorem Older.refl (d : InodeDisk) : Older d d := ⟨rfl, fun _ => .inr rfl, fun _ _ => rfl⟩

theorem Takes.malloc (h : Inv st) : Takes st st.malloc.2 := (malloc_still st).takes h

theorem inodeOpen_cases (st : State) (s : Sector) :
    (∃ i, st.openInodes s = some i ∧
      (st.inodeOpen s).2 = st.setInode s (some { i with openCnt := i.openCnt + 1 })) ∨
    st.openInodes s = none ∧ ((st.inodeOpen s).2 = st.malloc.2 ∨
      (st.inodeOpen s).2 = st.malloc.2.setInode s (some ⟨1, false, 0, .ofBlock (st.disk s)⟩)) := by
  unfold State.inodeOpen
  cases ho : st.openInodes s with
  | some i => exact .inl ⟨i, rfl, rfl⟩
  | none =>
      refine .inr ⟨rfl, ?_⟩
      rcases hm : st.malloc with ⟨ok, st₁⟩
      have hdisk : st₁.disk = st.disk := congrArg (fun r => r.2.disk) hm.symm
      cases ok with
      | false => exact .inl rfl
      | true =>
          rw [← hdisk]
          exact .inr rfl

theorem Inv.open (h : Inv st) (h0 : s ≠ 0) (hs : st.live s = true) : Inv (st.inodeOpen s).2 := by
  rcases inodeOpen_cases st s with ⟨i, hi, he⟩ | ⟨ho, he | he⟩
  · rw [he]
    exact h.recount h0 hi rfl
  · rw [he]
    exact (Takes.malloc h).inv h rfl
  · have hc := h.complete s hs
    rw [dataOf_closed ho] at hc
    rw [he]
    refine ((Takes.malloc h).inv h rfl).setInode h0 hs (dataOf_setInode _) (fun p x hx => ?_) hc
      fun _ => .refl _
    rw [dataOf_closed (show st.malloc.2.openInodes s = none from ho)]
    exact hx

theorem inodeOpen_local (h : Inv st) : Local s st (st.inodeOpen s).2 := by
  rcases inodeOpen_cases st s with ⟨i, hi, he⟩ | ⟨ho, he | he⟩
  · rw [he]
    exact local_setInode h _
  · rw [he]
    exact ⟨rfl, rfl, fun _ _ => rfl, fun _ _ => rfl, fun _ _ _ _ _ => rfl, fun _ hx _ => hx, h.range⟩
  · rw [he]
    exact ⟨rfl, rfl, fun _ _ => rfl, fun _ ht => Function.update_of_ne ht .., fun _ _ _ _ _ => rfl,
      fun _ hx _ => hx, h.range⟩

/-- The sectors that the last closing of a removed inode gives back. -/
def Ours (st : State) (s : Sector) (i : Inode) (x : Sector) : Prop :=
  x = s ∨ ∃ p, Cut (FileLeaves (bytesToSectors i.data.length)) (Owned st.disk i.data) p x

theorem Ground.setInode {o : Option Inode} (g : Ground K X st) (h0 : s ≠ 0) :
    Ground K X (st.setInode s o) :=
  { g with
    backed := fun hf => by
      obtain ⟨i, hi, hb⟩ := g.backed hf
      exact ⟨i, (Function.update_of_ne h0.symm ..).trans hi, hb⟩ }

/-- The last closing of a removed inode gives back its sectors. -/
theorem inodeClose_released (h : Inv st) (h0 : s ≠ 0) (hi : st.openInodes s = some i)
    (hcnt : i.openCnt - 1 = 0) (hrem : i.removed = true) :
    ∃ st₁, st.inodeClose s = some { st₁ with live := update st₁.live s false } ∧
      Released st.freeMapData st.freeMapIndex (Ours st s i) (st.setInode s none) st₁ := by
  have hs := h.opened s i hi
  have hd := dataOf_open hi
  have hplaced := h.placed h0 hs
  have hc := h.complete s hs
  rw [hd] at hplaced hc
  have hroot : ∀ p, ¬Owned st.disk i.data p s := fun p hp => by
    rw [← hd] at hp
    obtain ⟨-, rfl⟩ := h.sole s p s s [] ⟨hs, .inr hp⟩ (owns_self hs)
    exact hp
  obtain ⟨st₁, h₁, hr₁⟩ := freeMapRelease_released (h.ground.setInode (o := none) h0) h.freeMapFile
    (h.used s [] s (owns_self hs)) h0 (h.apart_freeMap h0 (owns_self hs))
  obtain ⟨st₂, h₂, hr₂⟩ := inodeDeallocate_released (m := st.disk) (d := i.data) hr₁.ground
    (hr₁.passive.freeMapFile.trans h.freeMapFile) hr₁.disk rfl hc.small
    ⟨fun p q x hp hq => hplaced.sole p q x hp.2 hq.2, fun p x hp =>
      (hr₁.used x).mpr ⟨hplaced.used p x hp.2, fun hx => hroot p (hx ▸ hp.2)⟩,
      fun p x hp => hplaced.apart p x hp.2⟩
    fun p ⟨j, hj, hp⟩ => hp ▸ hc.place j hj
  refine ⟨st₂, ?_, hr₁.trans hr₂ fun _ => Iff.rfl⟩
  unfold State.inodeClose
  rw [hi]
  simp only [hcnt, hrem, if_true, Option.bind_eq_bind]
  rw [h₁, Option.bind_some, h₂, Option.bind_some]

theorem inodeClose_removed (h : Inv st) (h0 : s ≠ 0) (hi : st.openInodes s = some i)
    (hcnt : i.openCnt - 1 = 0) (hrem : i.removed = true) :
    ∃ st', st.inodeClose s = some st' ∧ Local s st st' ∧ Inv st' ∧
      st'.live = update st.live s false ∧ ∀ x, st'.Used x ↔ st.Used x ∧ ¬Ours st s i x := by
  have hs := h.opened s i hi
  obtain ⟨st₂, hclose, hr⟩ := inodeClose_released h h0 hi hcnt hrem
  have hown : ∀ x, Ours st s i x → ∃ p, st.Owns s p x := by
    rintro x (rfl | ⟨p, hp⟩)
    · exact ⟨[], owns_self hs⟩
    · exact ⟨p, hs, .inr ((dataOf_open hi).symm ▸ hp.2)⟩
  have hlive : st₂.live = st.live := hr.passive.live
  have hopen : st₂.openInodes = update st.openInodes s none := hr.passive.openInodes
  have hused : ∀ x, st₂.Used x ↔ st.Used x ∧ ¬Ours st s i x := hr.used
  have hloc : Local s st { st₂ with live := update st₂.live s false } :=
    { size := hr.passive.size
      freeMapFile := hr.passive.freeMapFile
      live := fun t ht => (Function.update_of_ne ht ..).trans (congrFun hlive t)
      openInodes := fun t ht => (congrFun hopen t).trans (Function.update_of_ne ht ..)
      disk := fun x _ hk _ _ => hr.disk x hk
      used := fun x hx hn => (hused x).mpr ⟨hx, fun ho => (hown x ho).elim hn⟩
      range := fun x hx => h.range x ((hused x).mp hx).1 }
  have hdead : ¬(update st₂.live s false) s = true := by
    rw [Function.update_self]
    exact Bool.false_ne_true
  refine ⟨_, hclose, hloc, h.step_local h0 hloc (fun p x hx => absurd hx.1 hdead)
    (fun p q x hx => absurd hx.1 hdead) (fun hx => absurd hx hdead) fun j hj => ?_, ?_, hused⟩
  · change st₂.openInodes s = some j at hj
    rw [hopen, Function.update_self] at hj
    cases hj
  · rw [hlive]

theorem inodeClose_cases (h : Inv st) (h0 : s ≠ 0) (hc : st.inodeClose s = some st') :
    (∃ i, st.openInodes s = some i ∧ i.removed = true ∧ st'.live = update st.live s false ∧
        Local s st st' ∧ Inv st') ∨
      (∃ i, st.openInodes s = some i ∧ st' = st.setInode s none) ∨
      ∃ i i', st.openInodes s = some i ∧ st' = st.setInode s (some i') ∧
        Inode.data i' = Inode.data i := by
  cases hi : st.openInodes s with
  | none =>
      unfold State.inodeClose at hc
      rw [hi] at hc
      cases hc
  | some i =>
      by_cases hlast : i.openCnt - 1 = 0 ∧ i.removed = true
      · obtain ⟨st₁, h₁, hloc, hinv, hl, -⟩ := inodeClose_removed h h0 hi hlast.1 hlast.2
        obtain rfl := Option.some.inj (h₁.symm.trans hc)
        exact .inl ⟨i, rfl, hlast.2, hl, hloc, hinv⟩
      · unfold State.inodeClose at hc
        rw [hi] at hc
        dsimp only at hc
        split_ifs at hc with hcnt hrem
        · exact absurd ⟨hcnt, hrem⟩ hlast
        · cases hc
          exact .inr (.inl ⟨i, rfl, rfl⟩)
        · cases hc
          exact .inr (.inr ⟨i, _, rfl, rfl, rfl⟩)

theorem inodeClose_local (h : Inv st) (h0 : s ≠ 0) (hc : st.inodeClose s = some st') :
    Inv st' ∧ Local s st st' := by
  rcases inodeClose_cases h h0 hc with ⟨i, -, -, -, hloc, hinv⟩ | ⟨i, hi, rfl⟩ | ⟨i, i', hi, rfl, hd⟩
  · exact ⟨hinv, hloc⟩
  · have hs := h.opened s i hi
    have holder := h.older s i hi h0
    have hcomplete := h.complete s hs
    rw [dataOf_open hi] at hcomplete
    refine ⟨h.setInode h0 hs dataOf_setInode_none (fun p x hx => ?_)
      (holder.complete hcomplete) nofun, local_setInode h none⟩
    rw [dataOf_open hi]
    exact holder.owned hx
  · exact ⟨h.recount h0 hi hd, local_setInode h _⟩

/-! ### The invariant of all runs -/

/-- The state in which a call begins. -/
abbrev State.call (st : State) (heap : ℕ → Bool) : State :=
  { st with heap := heap, allocFailed := false }

theorem Inv.call {heap : ℕ → Bool} (h : Inv st) : Inv (st.call heap) :=
  ⟨h.sole, h.used, h.range, h.complete, h.opened, h.older, h.freeMapFile, h.freeMap⟩

/-- In each call that needs index blocks, `malloc` does not recover once it has failed. -/
def Sound (_ : State) (a : Action × (ℕ → Bool)) : Prop :=
  match a.1 with
  | .create length _ _ => Covered length a.2
  | .write _ _ size offset => Covered (offT (offset + size)) a.2
  | _ => True

/-- The inode that an operation works on, when it is there already. -/
def Action.inode : Action → Option Sector
  | .create _ _ _ => none
  | .open s => some s
  | .write s _ _ _ => some s
  | .remove s => some s
  | .close s => some s
  | .denyWrite s => some s
  | .allowWrite s => some s

/-- `inode_remove`, `inode_deny_write` and `inode_allow_write` leave the data of the inode. -/
theorem recount_cases {a : Action} (ha : a = .remove s ∨ a = .denyWrite s ∨ a = .allowWrite s)
    (hs : act a st = some st') : s ≠ 0 ∧ ∃ i i', st.openInodes s = some i ∧
      st' = st.setInode s (some i') ∧ Inode.data i' = Inode.data i := by
  cases hi : st.openInodes s with
  | none =>
      rcases ha with rfl | rfl | rfl
      · simp [act, State.inodeRemove, hi] at hs
      · simp [act, State.inodeDenyWrite, hi] at hs
      · simp [act, State.inodeAllowWrite, hi] at hs
  | some i =>
      rcases ha with rfl | rfl | rfl
      · unfold act State.inodeRemove at hs
        dsimp only at hs
        split_ifs at hs with h0
        rw [hi] at hs
        cases hs
        exact ⟨h0, i, _, rfl, rfl, rfl⟩
      · unfold act State.inodeDenyWrite at hs
        dsimp only at hs
        split_ifs at hs with h0
        rw [hi] at hs
        dsimp only at hs
        split_ifs at hs
        cases hs
        exact ⟨h0, i, _, rfl, rfl, rfl⟩
      · unfold act State.inodeAllowWrite at hs
        dsimp only at hs
        split_ifs at hs with h0
        rw [hi] at hs
        dsimp only at hs
        split_ifs at hs
        cases hs
        exact ⟨h0, i, _, rfl, rfl, rfl⟩

/-- What an operation does with the inode that it works on. -/
inductive Acts (s : Sector) (st : State) : Action → State → Prop
  | opened (hs : st.live s = true) : Acts s st (.open s) (st.inodeOpen s).2
  | written {buffer : ℕ → UInt8} {size : ℤ} {offset n : ℕ} {i : Inode} {st' : State}
      (hi : st.openInodes s = some i) (hsize : offT size = size) (hoffset : offT offset = offset)
      (hw : st.inodeWriteAt s buffer size offset = some (n, st')) :
      Acts s st (.write s buffer size offset) st'
  | closed {st' : State} (hc : st.inodeClose s = some st') : Acts s st (.close s) st'
  | recounted {a : Action} {i i' : Inode} (hi : st.openInodes s = some i)
      (hd : Inode.data i' = Inode.data i) : Acts s st a (st.setInode s (some i'))

theorem act_acts {a : Action} (ha : a.inode = some s) (hs : act a st = some st') :
    s ≠ 0 ∧ Acts s st a st' := by
  have hrecount : ∀ {a : Action}, a = .remove s ∨ a = .denyWrite s ∨ a = .allowWrite s →
      act a st = some st' → s ≠ 0 ∧ Acts s st a st' := by
    intro a ha hs
    obtain ⟨h0, i, i', hi, rfl, hd⟩ := recount_cases ha hs
    exact ⟨h0, .recounted hi hd⟩
  cases a with
  | create length isDir added => cases ha
  | «open» t =>
      cases ha
      unfold act at hs
      dsimp only at hs
      split_ifs at hs with hc
      cases hs
      exact ⟨hc.2, .opened hc.1⟩
  | write t buffer size offset =>
      cases ha
      unfold act at hs
      dsimp only at hs
      split_ifs at hs with hc
      obtain ⟨⟨n, st₁⟩, hw, rfl⟩ := Option.map_eq_some_iff.mp hs
      obtain ⟨i, hi⟩ := inodeWriteAt_open hw
      exact ⟨hc.1, .written hi hc.2.1 hc.2.2 hw⟩
  | remove t =>
      cases ha
      exact hrecount (.inl rfl) hs
  | close t =>
      cases ha
      unfold act at hs
      dsimp only at hs
      split_ifs at hs with h0
      exact ⟨h0, .closed hs⟩
  | denyWrite t =>
      cases ha
      exact hrecount (.inr (.inl rfl)) hs
  | allowWrite t =>
      cases ha
      exact hrecount (.inr (.inr rfl)) hs

theorem act_create {length : ℤ} {isDir added : Bool} (hs : act (.create length isDir added) st = some st') :
    offT length = length ∧ st.filesysCreate length isDir added = some st' := by
  unfold act at hs
  dsimp only at hs
  split_ifs at hs with hl
  exact ⟨hl, hs⟩

/-- One operation keeps the invariant, and works on one inode, or makes a new one. -/
theorem act_local {a : Action} (h : Inv st) (hg : Sound st (a, st.heap)) (hs : act a st = some st') :
    Inv st' ∧ ∃ u, Local u st st' ∧ (a.inode = some u ∨ a.inode = none ∧ st.live u = false) := by
  cases ha : a.inode with
  | none =>
      cases a with
      | create length isDir added =>
          rcases filesysCreate_cases h hg (act_create hs).2 with ⟨ht, hl⟩ | ⟨s, hc⟩
          · exact ⟨ht.inv h hl, noSector, ht.loc fun _ _ => by rw [hl],
              .inr ⟨rfl, h.not_live h.noSector_free⟩⟩
          · refine ⟨hc.inv, s, hc.takes.loc fun t ht => ?_, .inr ⟨rfl, h.not_live hc.free⟩⟩
            rw [hc.live, Function.update_of_ne ht]
      | _ => cases ha
  | some s =>
      obtain ⟨h0, hacts⟩ := act_acts ha hs
      cases hacts with
      | opened hlive => exact ⟨h.open h0 hlive, s, inodeOpen_local h, .inl rfl⟩
      | written hi _ _ hw =>
          obtain ⟨hinv, hloc⟩ := inodeWriteAt_local h h0 hi hg hw
          exact ⟨hinv, s, hloc, .inl rfl⟩
      | closed hc =>
          obtain ⟨hinv, hloc⟩ := inodeClose_local h h0 hc
          exact ⟨hinv, s, hloc, .inl rfl⟩
      | recounted hi hd => exact ⟨h.recount h0 hi hd, s, local_setInode h _, .inl rfl⟩

theorem act_live {a : Action} (h : Inv st) (ha : a.inode = some s) (hs : act a st = some st') :
    s ≠ 0 ∧ st.live s = true := by
  obtain ⟨h0, hacts⟩ := act_acts ha hs
  refine ⟨h0, ?_⟩
  cases hacts with
  | opened hlive => exact hlive
  | written hi => exact h.opened s _ hi
  | closed hc =>
      rcases inodeClose_cases h h0 hc with ⟨i, hi, -⟩ | ⟨i, hi, -⟩ | ⟨i, i', hi, -⟩
      all_goals exact h.opened s i hi
  | recounted hi => exact h.opened s _ hi

/-- The operation after which there is a new inode. -/
theorem act_created {a : Action} (h : Inv st) (hg : Sound st (a, st.heap)) (hs : act a st = some st')
    (hold : st.live s = false) (hnew : st'.live s = true) : Created s st st' := by
  obtain ⟨-, u, hloc, hu⟩ := act_local h hg hs
  have hsu : s = u := by
    by_contra hne
    rw [hloc.live s hne, hold] at hnew
    cases hnew
  subst hsu
  rcases hu with hu | ⟨hu, -⟩
  · rw [(act_live h hu hs).2] at hold
    cases hold
  cases a with
  | create length isDir added =>
      rcases filesysCreate_cases h hg (act_create hs).2 with ⟨-, hl⟩ | ⟨t, ht⟩
      · rw [hl, hold] at hnew
        cases hnew
      · have hst : s = t := by
          by_contra hne
          rw [ht.live, Function.update_of_ne hne, hold] at hnew
          cases hnew
        rw [hst]
        exact ht
  | _ => cases hu

theorem Inv.step {a : Action × (ℕ → Bool)} (h : Inv st) (hg : Sound st a)
    (hs : step a st = some st') : Inv st' :=
  (act_local h.call hg hs).1

/-! ### A new file system -/

/-- A sector that no inode has is given back. -/
theorem Inv.unmark (h : Inv st) (hn : ∀ t p, ¬st.Owns t p s) : Inv (st.mark s false) where
  sole := h.sole
  used t p x hx := by
    have hxs : x ≠ s := by
      rintro rfl
      exact hn t p hx
    rw [used_mark, if_neg hxs]
    exact h.used t p x hx
  range x hx := by
    have hx := used_mark.mp hx
    split_ifs at hx with hxs
    exact h.range x hx
  complete := h.complete
  opened := h.opened
  older := h.older
  freeMapFile := h.freeMapFile
  freeMap := h.freeMap

/-- The free map's inode has been created and opened. -/
theorem inv_freeMap {n : ℕ} {l : ℕ} {b : Bool} {size : Sector}
    (hr : FileReserve ∅ ∅ n n ⟨fun _ => 0, 0, 0, b, l⟩ d true st st₁)
    (hn : n = bytesToSectors d.length) (hsmall : n ≤ 16635) (hl : d.length = bitmapFileSize size)
    (hsize : st₁.size = size) (hsize' : st'.size = size) (hfree : st'.freeMap = st₁.freeMap)
    (hdisk : st'.disk = update st₁.disk 0 d.toBlock) (hfile : st'.freeMapFile = true)
    (hopen : st'.openInodes =
      update (fun _ => none) 0 (some ⟨1, false, 0, .ofBlock d.toBlock⟩))
    (hlive : st'.live = update (fun _ => false) 0 true) :
    Inv st' ∧ ∀ t p x, st'.Owns t p x → x = 0 ∨ ¬st.Used x := by
  have hi : st'.openInodes 0 = some ⟨1, false, 0, .ofBlock d.toBlock⟩ := by
    rw [hopen, Function.update_self]
  have hlive' : ∀ t, st'.live t = true ↔ t = 0 := fun t => by
    rw [hlive, Function.update_apply]
    split_ifs with ht <;> simp [ht]
  have hopen' : ∀ t i, st'.openInodes t = some i → t = 0 := fun t i ht => by
    by_contra ht0
    rw [hopen, Function.update_of_ne ht0] at ht
    cases ht
  have howned : ∀ p x, Owned st'.disk (st'.dataOf 0) p x ↔ Owned st₁.disk d p x := fun p x => by
    rw [dataOf_open hi]
    unfold Owned
    dsimp only
    rw [rootOf_ofBlock]
    have hindex : ∀ q y, Owned st₁.disk d q y → ¬IsLeaf levelOf q → st'.disk y = st₁.disk y :=
      fun q y hq _ => by
        rw [hdisk, Function.update_of_ne hq.ne_zero]
    exact ⟨Forest.congr_symm hindex, Forest.congr hindex⟩
  have hused : ∀ x, st'.Used x ↔ st₁.Used x := fun x => by
    unfold State.Used
    rw [hfree]
  refine ⟨⟨fun s p x t q hs ht => ?_, fun s p x hs => ?_, fun x hx => ?_,
    fun s hs => ⟨?_, fun j hj => ?_⟩, fun s i h => (hlive' s).mpr (hopen' s i h),
    fun s i h h0 => absurd (hopen' s i h) h0, hfile, ⟨_, hi, ?_⟩⟩, fun t p x hx => ?_⟩
  · have h0 := (hlive' s).mp hs.1
    have h0' := (hlive' t).mp ht.1
    subst h0 h0'
    refine ⟨rfl, ?_⟩
    obtain ⟨-, ⟨rfl, rfl⟩ | hs⟩ := hs
    · obtain ⟨-, ⟨rfl, -⟩ | ht⟩ := ht
      · rfl
      · exact absurd rfl ht.ne_zero
    · obtain ⟨-, ⟨rfl, rfl⟩ | ht⟩ := ht
      · exact absurd rfl hs.ne_zero
      · exact hr.grows.sole p q x ((howned p x).mp hs) ((howned q x).mp ht)
  · have h0 := (hlive' s).mp hs.1
    subst h0
    rw [hused]
    obtain ⟨-, ⟨-, rfl⟩ | hs⟩ := hs
    · exact hr.ground.zero
    · exact ((hr.grows.source p x ((howned p x).mp hs)).resolve_left owned_empty).2.1
  · rw [hsize', ← hsize]
    exact hr.ground.range x ((hused x).mp hx)
  · have h0 := (hlive' s).mp hs
    subst h0
    rw [dataOf_open hi]
    change bytesToSectors (InodeDisk.ofBlock d.toBlock).length ≤ 16635
    rw [length_ofBlock (hn ▸ hsmall), ← hn]
    exact hsmall
  · have h0 := (hlive' s).mp hs
    subst h0
    rw [dataOf_open hi] at hj
    change j < bytesToSectors (InodeDisk.ofBlock d.toBlock).length at hj
    rw [length_ofBlock (hn ▸ hsmall), ← hn] at hj
    obtain ⟨x, hx⟩ := hr.complete rfl _ ⟨j, hj, rfl⟩
    exact ⟨x, (howned _ x).mpr hx⟩
  · change (InodeDisk.ofBlock d.toBlock).length = _
    rw [length_ofBlock (hn ▸ hsmall), hl, hsize']
  · obtain rfl := (hlive' t).mp hx.1
    obtain ⟨-, ⟨-, rfl⟩ | hx⟩ := hx
    · exact .inl rfl
    · exact .inr ((hr.grows.source p x ((howned p x).mp hx)).resolve_left owned_empty).1

theorem inodeOpen_closed (ho : st.openInodes s = none) (hm : (st.inodeOpen s).1 = true) :
    (st.inodeOpen s).2 =
      st.malloc.2.setInode s (some ⟨1, false, 0, .ofBlock (st.disk s)⟩) := by
  unfold State.inodeOpen at hm ⊢
  rw [ho] at hm ⊢
  rcases hmalloc : st.malloc with ⟨ok, st₁⟩
  rw [hmalloc] at hm
  have hdisk : st₁.disk = st.disk := congrArg (fun r => r.2.disk) hmalloc.symm
  cases ok with
  | false => cases hm
  | true => rw [← hdisk]; rfl

theorem Created.root (h : Inv st) (h1 : st.Used 1) (hn : ∀ t p, ¬st.Owns t p 1)
    (hc : st.inodeCreate 1 320 true = some (true, st₁)) :
    Created 1 (st.mark 1 false) { st₁ with live := update st₁.live 1 true } := by
  have h' := h.unmark hn
  have g := h.ground
  have hset : 123 < bytesToSectors (320 : ℤ).toNat → Settled st := fun hlt => absurd hlt (by decide)
  have hX : (1 : Sector) ∉ st.freeMapIndex := fun ⟨p, _, hp⟩ => hn 0 p ⟨h.live_zero, .inr hp⟩
  obtain ⟨g₁, hpassive, hused, hdisk, hok⟩ := inodeCreate_cases g hX hset hc
  obtain ⟨d, st₂, hlen, hsmall, hr, rfl⟩ := hok rfl
  have hu : ∀ x, st.malloc.2.Used x ↔ (st.mark 1 false).Used x ∨ x = 1 := fun x => by
    rw [used_mark]
    change st.Used x ↔ _
    by_cases hx : x = 1 <;> simp [hx, h1]
  have hne : ∀ x, (st.mark 1 false).Used x → st.Used x ∧ x ≠ 1 := fun x hx => by
    have hx := used_mark.mp hx
    split_ifs at hx with h
    exact ⟨hx, h⟩
  have ht : Takes (st.mark 1 false)
      { st₂.write 1 d.toBlock with live := update (st₂.write 1 d.toBlock).live 1 true } :=
    ⟨hpassive.size, hpassive.freeMapFile, hpassive.openInodes,
      fun x hx hk h0 => hdisk x (hne x hx).1 hk h0 (hne x hx).2, fun x hx => hused x (hne x hx).1,
      fun x hx => hpassive.size ▸ g₁.range x hx⟩
  refine .of_reserve h' (by rw [used_mark]; simp) ht hu hr (by rw [hlen]) hsmall ?_
  rw [hpassive.live]
  rfl

/-- Before formatting, only the sectors of the two inodes are marked. -/
def unformatted (disk : Sector → Block) (size : Sector) (heap : ℕ → Bool) : State :=
  ⟨disk, fun s => s == 0 || s == 1, size, false, fun _ => none, fun _ => false, heap, false⟩

theorem unformatted_ground {disk : Sector → Block} {size : Sector} {heap : ℕ → Bool}
    (hlt : 1 < size) : Ground ∅ ∅ (unformatted disk size heap) where
  zero := rfl
  range x hx := by
    rcases Bool.or_eq_true_iff.mp hx with hx | hx
    · rw [beq_iff_eq.mp hx]
      exact UInt32.lt_trans (show (0 : Sector) < 1 by decide) hlt
    · rw [beq_iff_eq.mp hx]
      exact hlt
  used _ hx := by simp at hx
  fixedZero := id
  disjoint _ hx := hx.elim
  backed hf := by cases hf

/-- The calls of formatting: the inode of the free map's file is made and opened, the bitmap
written, and the inode of the root directory made. -/
theorem format_calls {disk : Sector → Block} {size : Sector} {heap : ℕ → Bool}
    (hf : State.format disk size heap = some st) : 1 < size ∧ ∃ st₁ st₃ st₄ st₅ : State,
      (unformatted disk size heap).inodeCreate 0 (bitmapFileSize size) false = some (true, st₁) ∧
      ({ st₁ with live := update st₁.live 0 true } : State).inodeOpen 0 = (true, st₃) ∧
      ({ st₃ with freeMapFile := true } : State).bitmapWrite = (true, st₄) ∧
      st₄.inodeCreate 1 320 true = some (true, st₅) ∧
      st = { st₅ with live := update st₅.live 1 true } := by
  unfold State.format at hf
  split_ifs at hf with hsize
  simp only [Option.bind_eq_bind, Option.bind_eq_some_iff] at hf
  obtain ⟨⟨ok₁, st₁⟩, hcreate, hf⟩ := hf
  cases ok₁ with
  | false => cases hf
  | true =>
  dsimp only at hf
  rcases hopen : ({ st₁ with live := update st₁.live 0 true } : State).inodeOpen 0 with ⟨ok₃, st₃⟩
  rw [hopen] at hf
  cases ok₃ with
  | false => cases hf
  | true =>
  dsimp only at hf
  rcases hbitmap : ({ st₃ with freeMapFile := true } : State).bitmapWrite with ⟨ok₄, st₄⟩
  rw [hbitmap] at hf
  cases ok₄ with
  | false => cases hf
  | true =>
  obtain ⟨⟨ok₅, st₅⟩, hroot, hf⟩ := Option.bind_eq_some_iff.mp hf
  cases ok₅ with
  | false => cases hf
  | true =>
  cases hf
  exact ⟨UInt32.not_le.mp hsize, st₁, st₃, st₄, st₅, hcreate, hopen, hbitmap, hroot, rfl⟩

/-- The bitmap is written behind the open inode of its file. -/
theorem bitmapWrite_local (h : Inv st) (hb : st.bitmapWrite = (true, st')) (hu : st.Used 1)
    (hnot : ∀ t p, ¬st.Owns t p 1) : st'.live = st.live ∧ st'.openInodes = st.openInodes ∧
      Local 1 st st' ∧ Inv st' ∧ st'.Used 1 ∧ ∀ t p, ¬st'.Owns t p 1 := by
  have hstill : Still st.freeMapData st st' := by
    have h := bitmapWrite_still h.ground h.freeMapFile
    rw [hb] at h
    exact h
  have htakes := hstill.takes h
  have hloc : Local 1 st st' := htakes.loc fun _ _ => by rw [hstill.passive.live]
  refine ⟨hstill.passive.live, hstill.passive.openInodes, hloc, htakes.inv h hstill.passive.live,
    htakes.used 1 hu, fun t p hp => ?_⟩
  by_cases ht : t = 1
  · have hl := hp.1
    rw [hstill.passive.live, ht] at hl
    exact hnot 1 [] (owns_self hl)
  · exact hnot t p ((hloc.owns_iff h ht).mp hp)

theorem format_cases {disk : Sector → Block} {size : Sector} {heap : ℕ → Bool}
    (hf : State.format disk size heap = some st) : ∃ (st₀ st₁ st₃ st₄ st₅ : State) (d : InodeDisk),
      Ground ∅ ∅ st₀ ∧ st₀.freeMapFile = false ∧ st₀.heap = heap ∧
      st₀.inodeCreate 0 (bitmapFileSize size) false = some (true, st₁) ∧
      st₃.heap = (fun k => st₁.heap (k + 1)) ∧ st₃.disk = st₁.disk ∧ st₃.disk 0 = d.toBlock ∧
      st₃.openInodes = update (fun _ => none) 0 (some ⟨1, false, 0, .ofBlock d.toBlock⟩) ∧
      st₄.live = update (fun _ => false) 0 true ∧ st₄.openInodes = st₃.openInodes ∧
      Inv st₃ ∧ Local 1 st₃ st₄ ∧ Inv st₄ ∧ st₄.Used 1 ∧ (∀ u q, ¬st₄.Owns u q 1) ∧
      st₃.bitmapWrite = (true, st₄) ∧ st₄.inodeCreate 1 320 true = some (true, st₅) ∧
      st = { st₅ with live := update st₅.live 1 true } := by
  obtain ⟨hlt, st₁, st₃, st₄, st₅, hcreate, hopen, hbitmap, hroot, rfl⟩ := format_calls hf
  have g : Ground ∅ ∅ (unformatted disk size heap) := unformatted_ground hlt
  obtain ⟨-, -, -, -, hok⟩ := inodeCreate_cases g id (fun _ hf => by cases hf) hcreate
  obtain ⟨d, st₂, hlen, hsmall, hr, rfl⟩ := hok rfl
  have hpassive := hr.passive
  have hnone : st₂.openInodes = fun _ => none := hpassive.openInodes
  have hlive : st₂.live = fun _ => false := hpassive.live
  have hst₃ : st₃ = _ := (congrArg Prod.snd hopen).symm.trans
    (inodeOpen_closed (congrFun hnone 0) (congrArg Prod.fst hopen))
  have hdisk₃ : st₃.disk = update st₂.disk 0 d.toBlock := by
    rw [hst₃]
    rfl
  have hlive₃ : st₃.live = update (fun _ => false) 0 true := by
    rw [hst₃]
    change update st₂.live 0 true = _
    rw [hlive]
  have hopen₃ : st₃.openInodes =
      update (fun _ => none) 0 (some ⟨1, false, 0, .ofBlock d.toBlock⟩) := by
    rw [hst₃]
    change update st₂.openInodes 0 (some ⟨1, false, 0, .ofBlock (update st₂.disk 0 d.toBlock 0)⟩) = _
    rw [Function.update_self, hnone]
  have hfirst : (unformatted disk size heap).Used 1 := rfl
  obtain ⟨hinv₃, hown₃⟩ : Inv { st₃ with freeMapFile := true } ∧
      ∀ t p x, ({ st₃ with freeMapFile := true } : State).Owns t p x →
        x = 0 ∨ ¬(unformatted disk size heap).malloc.2.Used x := by
    refine inv_freeMap hr (by rw [hlen]) hsmall hlen hpassive.size ?_ ?_ hdisk₃ rfl hopen₃ hlive₃
    · rw [hst₃]
      exact hpassive.size
    · rw [hst₃]
      rfl
  have hused₃ : ({ st₃ with freeMapFile := true } : State).Used 1 := by
    rw [hst₃]
    exact hr.grows.used 1 hfirst
  obtain ⟨hlive₄, hopen₄, hloc, hinv₄, hused₄, hn⟩ := bitmapWrite_local hinv₃ hbitmap hused₃
    fun t p hp => by
      rcases hown₃ t p 1 hp with h0 | hn
      · exact absurd h0 (by decide)
      · exact hn hfirst
  refine ⟨unformatted disk size heap, _, { st₃ with freeMapFile := true }, st₄, st₅, d, g, rfl, rfl,
    hcreate, ?_, hdisk₃, ?_, hopen₃, hlive₄.trans hlive₃, hopen₄, hinv₃, hloc, hinv₄, hused₄, hn,
    hbitmap, hroot, rfl⟩
  · rw [hst₃]
    rfl
  · rw [hdisk₃, Function.update_self]

/-- A new file system: the root directory is the only inode beside that of the free map. -/
theorem format_created {disk : Sector → Block} {size : Sector} {heap : ℕ → Bool}
    (hf : State.format disk size heap = some st) :
    ∃ st₁ d, Inv st₁ ∧ Created 1 st₁ st ∧ (∀ t, t ≠ 0 → st₁.live t = false) ∧
      st₁.openInodes = update (fun _ => none) 0 (some ⟨1, false, 0, d⟩) := by
  obtain ⟨-, -, st₃, st₄, st₅, d, -, -, -, -, -, -, -, hopen₃, hlive₄, hopen₄, -, -, hinv₄, hused₄, hn,
    -, hroot, rfl⟩ := format_cases hf
  refine ⟨_, _, hinv₄.unmark hn, .root hinv₄ hused₄ hn hroot, fun t ht => ?_, hopen₄.trans hopen₃⟩
  change st₄.live t = false
  rw [hlive₄, Function.update_of_ne ht]

theorem inv_format {disk : Sector → Block} {size : Sector} {heap : ℕ → Bool}
    (hf : State.format disk size heap = some st) : Inv st := by
  obtain ⟨_, _, -, hc, -⟩ := format_created hf
  exact hc.inv

/-- **No sector has two owners**, and the free map marks every owned sector: after every run in
which, in each call that needs index blocks, `malloc` does not recover once it has failed. -/
theorem sector_owners {disk : Sector → Block} {size : Sector} {heap : ℕ → Bool} {st₀ : State}
    (hf : State.format disk size heap = some st₀) (hr : Reachable step Sound st₀ st) :
    (∀ s p x t q, st.Owns s p x → st.Owns t q x → s = t ∧ p = q) ∧
      ∀ s p x, st.Owns s p x → st.Used x := by
  have h : Inv st := hr.invariant (inv_format hf) fun _ _ _ _ h hg hs => h.step hg hs
  exact ⟨h.sole, h.used⟩

theorem sector_owners_write : ∃ st₀ st, State.format (fun _ => zeros) 40 (fun _ => true) = some st₀ ∧
    Reachable step Sound st₀ st ∧ st.live 4 = true ∧
    (∀ s p x t q, st.Owns s p x → st.Owns t q x → s = t ∧ p = q) ∧
      ∀ s p x, st.Owns s p x → st.Used x := by
  have h : ((State.format (fun _ => zeros) 40 fun _ => true).bind fun st₀ =>
      (execute step [(.create 600 false true, fun _ => true), (.open 4, fun _ => true),
        (.write 4 (fun _ => 7) 3 2000, fun _ => true)] st₀).map fun st => st.live 4) = some true := by
    decide +kernel
  obtain ⟨st₀, h₀, h⟩ := Option.bind_eq_some_iff.mp h
  obtain ⟨st, h, hl⟩ := Option.map_eq_some_iff.mp h
  have hr : Reachable step Sound st₀ st := by
    refine execute_reachable (fun st a ha => ?_) .refl h
    simp only [List.mem_cons, List.not_mem_nil, or_false] at ha
    rcases ha with rfl | rfl | rfl
    · exact .inl (by decide)
    · trivial
    · exact .inl (by decide)
  exact ⟨st₀, st, h₀, hr, hl, sector_owners h₀ hr⟩

/-! A file of 123 sectors grows by a byte, and `malloc` fails once, for the index block: sector 0
is taken for it, and is given back with the file. -/

/-- What is to be seen of the run. -/
def transientRun : Option (List Bool) := do
  let st₀ ← State.format (fun _ => zeros) 200 fun _ => true
  let st₁ ← step (.create (123 * 512) false true, fun _ => true) st₀
  let st₂ ← step (.open 4, fun _ => true) st₁
  let (n, _) ← (st₂.call fun k => k != 0).inodeWriteAt 4 (fun _ => 7) 1 (123 * 512)
  let st₃ ← step (.write 4 (fun _ => 7) 1 (123 * 512), fun k => k != 0) st₂
  let st₄ ← step (.remove 4, fun _ => true) st₃
  let i ← st₄.openInodes 4
  let st₅ ← step (.close 4, fun _ => true) st₄
  some [st₀.live 4, st₀.freeMap 0, st₁.live 4, st₂.live 4, n == 1, st₃.live 4, st₄.live 4,
    i.openCnt == 1, i.removed, st₅.live 0, st₅.freeMap 0]

theorem transientRun_eq : transientRun =
    some [false, true, true, true, true, true, true, true, true, true, false] := by
  decide +kernel

theorem transient_run : ∃ st₀ st₁ st₂ st₃ st₄ st₅ i r,
    State.format (fun _ => zeros) 200 (fun _ => true) = some st₀ ∧
    step (.create (123 * 512) false true, fun _ => true) st₀ = some st₁ ∧
    step (.open 4, fun _ => true) st₁ = some st₂ ∧
    (st₂.call fun k => k != 0).inodeWriteAt 4 (fun _ => 7) 1 (123 * 512) = some (1, r) ∧
    step (.write 4 (fun _ => 7) 1 (123 * 512), fun k => k != 0) st₂ = some st₃ ∧
    step (.remove 4, fun _ => true) st₃ = some st₄ ∧ st₄.openInodes 4 = some i ∧
    step (.close 4, fun _ => true) st₄ = some st₅ ∧
    (st₀.live 4 = false ∧ st₀.freeMap 0 = true ∧ st₁.live 4 = true ∧ st₂.live 4 = true ∧
      st₃.live 4 = true ∧ st₄.live 4 = true) ∧
    (i.openCnt = 1 ∧ i.removed = true ∧ st₅.live 0 = true ∧ st₅.freeMap 0 = false) := by
  have h := transientRun_eq
  unfold transientRun at h
  simp only [Option.bind_eq_bind, Option.bind_eq_some_iff] at h
  obtain ⟨st₀, h₀, st₁, h₁, st₂, h₂, ⟨n, r⟩, hw, st₃, h₃, st₄, h₄, i, hi, st₅, h₅, hfacts⟩ := h
  simp only [Option.some.injEq, List.cons.injEq, beq_iff_eq] at hfacts
  obtain ⟨hl₀, hf₀, hl₁, hl₂, rfl, hl₃, hl₄, hcnt, hrem, hl₅, hf₅, -⟩ := hfacts
  exact ⟨st₀, st₁, st₂, st₃, st₄, st₅, i, r, h₀, h₁, h₂, hw, h₃, h₄, hi, h₅,
    ⟨hl₀, hf₀, hl₁, hl₂, hl₃, hl₄⟩, hcnt, hrem, hl₅, hf₅⟩

/-- Without the condition the free map may lose a sector of a live inode. -/
theorem sector_owners_transient :
    ∃ st₀ st, State.format (fun _ => zeros) 200 (fun _ => true) = some st₀ ∧
      Reachable step (fun _ _ => True) st₀ st ∧ st.Owns 0 [] 0 ∧ ¬st.Used 0 := by
  obtain ⟨st₀, st₁, st₂, st₃, st₄, st₅, i, r, h₀, h₁, h₂, -, h₃, h₄, -, h₅, -, -, -, hl, hf⟩ :=
    transient_run
  refine ⟨st₀, st₅, h₀, ((((Reachable.refl.tail trivial h₁).tail trivial h₂).tail trivial h₃).tail
    trivial h₄).tail trivial h₅, owns_self hl, ?_⟩
  unfold State.Used
  rw [hf]
  exact Bool.false_ne_true

end CSE130.Lab3.Files
