import CSE130.Lab3.Reservation

/-! # The sectors of a file that could not grow

When `inode_reserve` fails half-way, what it has allocated stays marked in the free map.  The length
of the inode is not raised, and `inode_deallocate` goes by the length: the sectors are not given
back when the file is removed, unless there are none (`growth_regained`). -/

namespace CSE130.Lab3.Files

open BlockTree
open Function (update)

variable {st st' st₁ : State} {s x y : Sector} {i i' : Inode} {d : InodeDisk} {m : Sector → Block}
  {buffer : ℕ → UInt8} {size : ℤ} {offset n : ℕ} {p q : List ℕ}

/-! ### Removing a file and closing it -/

/-- So many calls of `inode_close`. -/
def State.closeTimes (s : Sector) : ℕ → State → Option State
  | 0, st => some st
  | k + 1, st => (st.inodeClose s).bind (closeTimes s k)

/-- The file is removed, and every opener closes it. -/
def State.discard (st : State) (s : Sector) : Option State :=
  (st.openInodes s).bind fun i => (st.inodeRemove s).bind (State.closeTimes s i.openCnt)

theorem closeTimes_removed (h0 : s ≠ 0) : ∀ (k : ℕ) {st : State} {i : Inode}, Inv st →
    st.openInodes s = some i → i.removed = true → i.openCnt = k + 1 →
    ∃ st', State.closeTimes s (k + 1) st = some st' ∧ ∀ x, st'.Used x ↔ st.Used x ∧ ¬Ours st s i x
  | 0, st, i, h, hi, hrem, hcnt => by
      obtain ⟨st', hc, -, -, -, hused⟩ := inodeClose_removed h h0 hi (by omega) hrem
      exact ⟨st', by rw [State.closeTimes, hc]; rfl, hused⟩
  | k + 1, st, i, h, hi, hrem, hcnt => by
      have hc : st.inodeClose s = some (st.setInode s (some { i with openCnt := i.openCnt - 1 })) := by
        unfold State.inodeClose
        rw [hi]
        dsimp only
        rw [if_neg (by omega)]
      have hinv : Inv (st.setInode s (some { i with openCnt := i.openCnt - 1 })) := h.recount h0 hi rfl
      obtain ⟨st', hclose, hused⟩ := closeTimes_removed h0 k hinv (Function.update_self ..) hrem
        (show i.openCnt - 1 = k + 1 by omega)
      refine ⟨st', ?_, hused⟩
      rw [State.closeTimes, hc]
      exact hclose

theorem discard_used (h : Inv st) (h0 : s ≠ 0) (hi : st.openInodes s = some i)
    (hd : st.discard s = some st') (hx : st.Used x) (hno : ¬Ours st s i x) : st'.Used x := by
  have hremove : st.inodeRemove s = some (st.setInode s (some { i with removed := true })) := by
    rw [State.inodeRemove, hi]
    rfl
  unfold State.discard at hd
  rw [hi, Option.bind_some, hremove, Option.bind_some] at hd
  cases hcnt : i.openCnt with
  | zero =>
      rw [hcnt] at hd
      cases hd
      exact hx
  | succ k =>
      have hinv : Inv (st.setInode s (some { i with removed := true })) := h.recount h0 hi rfl
      obtain ⟨st₂, hclose, hused⟩ := closeTimes_removed h0 k hinv (Function.update_self ..) rfl hcnt
      rw [hcnt] at hd hclose
      rw [hclose] at hd
      cases hd
      exact (hused x).mpr ⟨hx, hno⟩

theorem refs_prefix : ∀ {p q : List ℕ} {k : ℕ} {e : Sector}, Refs m k e q y → p <+: q →
    ∃ x, Refs m k e p x
  | [], _, _, e, h, _ => ⟨e, refs_nil.mpr ⟨h.root_ne, rfl⟩⟩
  | _ :: _, [], _, _, _, hp => absurd hp (by simp)
  | j :: p, _ :: q, 0, _, h, _ => h.elim
  | j :: p, _ :: q, k + 1, e, h, hp => by
      obtain ⟨rfl, hrest⟩ := List.cons_prefix_cons.mp hp
      obtain ⟨hne, hj, h⟩ := h
      obtain ⟨x, hx⟩ := refs_prefix h hrest
      exact ⟨x, hne, hj, hx⟩

theorem owned_prefix {j : ℕ} (h : Owned m d q y) (hp : j :: p <+: q) : ∃ x, Owned m d (j :: p) x := by
  cases q with
  | nil => exact h.elim
  | cons l q =>
      obtain ⟨rfl, hrest⟩ := List.cons_prefix_cons.mp hp
      obtain ⟨x, hx⟩ := refs_prefix h.2 hrest
      exact ⟨x, h.1, hx⟩

/-! ### The write that fails -/

theorem Extended.not_ours (hx : Extended st s i false i' st') (h : Inv st)
    (hi : st.openInodes s = some i) (hn : ¬st.Used x) : ¬Ours st' s i' x := by
  have hs := h.opened s i hi
  rintro (rfl | ⟨p, ⟨_, ⟨j, hj, rfl⟩, hp⟩, hx'⟩)
  · exact hn (h.used x [] x (owns_self hs))
  · rw [hx.failed rfl] at hj
    obtain ⟨y, hy⟩ := (h.opened_data hi).1.place j hj
    cases p with
    | nil => exact hx'.elim
    | cons l p =>
        -- the path was there before, and leads to the same sector
        obtain ⟨z, hz⟩ := owned_prefix hy hp
        obtain rfl := Forest.unique hx' (hx.grows.keep _ z hz)
        exact hn (h.used s _ x ⟨hs, .inr (by rw [dataOf_open hi]; exact hz)⟩)

/-- Every sector that was taken is free again when the file is removed and closed. -/
def Regained (st st' : State) (s : Sector) : Prop :=
  ∀ x, ¬st.Used x → st'.Used x → ∃ st₂, st'.discard s = some st₂ ∧ ¬st₂.Used x

/-- **When a failed extension loses nothing**: only if there was no free sector to begin with. -/
theorem growth_regained (h : Inv st) (h0 : s ≠ 0) (hi : st.openInodes s = some i)
    (hdeny : i.denyWriteCnt = 0)
    (hend : byteToSector st.disk i.data (offT (offset + size - 1)) = noSector)
    (hpos : 0 ≤ offT (offset + size)) (hmem : ∀ k, st.heap k = true) {d' : InodeDisk}
    (hr : st.inodeReserve i.data (offT (offset + size)) = some (false, d', st₁))
    (hw : st.inodeWriteAt s buffer size offset = some (n, st')) :
    Regained st st' s ↔ st.scan = none := by
  have hplaced := h.placed h0 (h.opened s i hi)
  rw [dataOf_open hi] at hplaced
  have hg := granted_of_memory hmem (inodeNeeded st.disk i.data (offT (offset + size)))
  have hfailed := reserve_failed h.ground hplaced hpos hg hr
  have he : st.inodeExtend s i size offset = some (false, { i with data := d' },
      st₁.setInode s (some { i with data := d' })) := by
    unfold State.inodeExtend
    rw [if_pos hend, hr]
    rfl
  have hx := inodeExtend_unspoiled h h0 hi (unspoiled_of_granted h.ground hplaced hg) he
  have hst : st' = st₁.setInode s (some { i with data := d' }) := by
    rcases inodeWriteAt_cases hi hw with ⟨-, -, hne⟩ | ⟨-, ok, i', st₂, he', hcase⟩
    · exact absurd hdeny hne
    · rw [he] at he'
      cases he'
      rcases hcase with ⟨-, -, rfl⟩ | ⟨hok, -⟩
      · rfl
      · cases hok
  rw [← hst] at hx
  have hmap : st'.freeMap = st₁.freeMap := by
    rw [hst]
    rfl
  rw [← hmap] at hfailed
  constructor
  · intro hregained
    rw [scan_none]
    by_contra hfree
    have hroom : Room st 1 := (room_of_memory hmem 1).mpr (by omega)
    have hne : st'.freeMap ≠ st.freeMap := fun hsame => (hfailed.mp ⟨rfl, hsame⟩).2 hroom
    refine hne (funext fun x => ?_)
    rw [Bool.eq_iff_iff]
    refine ⟨fun hx' => ?_, hx.grows.used x⟩
    by_contra hn
    obtain ⟨st₂, hdiscard, hfree₂⟩ := hregained x hn hx'
    exact hfree₂ (discard_used hx.inv h0 hx.openInodes hdiscard hx' (hx.not_ours h hi hn))
  · intro hscan x hn hx'
    have hlt : x < st.size := hx.loc.size ▸ hx.inv.range x hx'
    have hmark := free_mark hlt hn
    rw [scan_none.mp hscan] at hmark
    omega

/-! ### A write of one byte to the second sector of an empty file -/

/-- What is to be seen of the write on a disk of `size` sectors: whether the sector 5 is in use
before it, after it, and when the file is gone. -/
def growthRun (size : Sector) : Option (List Bool) := do
  let st₀ ← State.format (fun _ => zeros) size fun _ => true
  let st₁ ← step (.create 0 false true, fun _ => true) st₀
  let st₂ ← step (.open 4, fun _ => true) st₁
  let i ← st₂.openInodes 4
  let (ok, _) ← (st₂.call fun _ => true).inodeReserve i.data (offT ((512 : ℕ) + 1))
  let (_, st₃) ← (st₂.call fun _ => true).inodeWriteAt 4 (fun _ => 7) 1 512
  let st₄ ← st₃.discard 4
  some [i.denyWriteCnt == 0, byteToSector st₂.disk i.data (offT ((512 : ℕ) + 1 - 1)) == noSector, ok, st₂.scan.isNone,
    st₂.freeMap 5, st₃.freeMap 5, st₄.freeMap 5]

-- With two free sectors the file grows, and its sectors are free when it is gone.
example : growthRun 7 = some [true, true, true, false, false, true, false] := by decide +kernel

theorem growth_run {size : Sector} {b₁ b₂ b₃ b₄ : Bool}
    (h : growthRun size = some [true, true, false, b₁, b₂, b₃, b₄]) :
    ∃ st₀ st₁ st₂ i d' st' n st₃ st₄,
      State.format (fun _ => zeros) size (fun _ => true) = some st₀ ∧
      step (.create 0 false true, fun _ => true) st₀ = some st₁ ∧
      step (.open 4, fun _ => true) st₁ = some st₂ ∧ Inv (st₂.call fun _ => true) ∧
      (st₂.call fun _ => true).openInodes 4 = some i ∧ i.denyWriteCnt = 0 ∧
      byteToSector st₂.disk i.data (offT ((512 : ℕ) + 1 - 1)) = noSector ∧
      (st₂.call fun _ => true).inodeReserve i.data (offT ((512 : ℕ) + 1)) =
        some (false, d', st') ∧
      (st₂.call fun _ => true).inodeWriteAt 4 (fun _ => 7) 1 512 = some (n, st₃) ∧
      st₃.discard 4 = some st₄ ∧ st₂.scan.isNone = b₁ ∧ st₂.freeMap 5 = b₂ ∧ st₃.freeMap 5 = b₃ ∧
      st₄.freeMap 5 = b₄ := by
  unfold growthRun at h
  simp only [Option.bind_eq_bind, Option.bind_eq_some_iff] at h
  obtain ⟨st₀, h₀, st₁, h₁, st₂, h₂, i, hi, ⟨ok, d', st'⟩, hr, ⟨n, st₃⟩, hw, st₄, hd, hfacts⟩ := h
  simp only [Option.some.injEq, List.cons.injEq, beq_iff_eq, and_true] at hfacts
  obtain ⟨hdeny, hend, rfl, hfacts⟩ := hfacts
  have hfirst : Sound st₀ (.create 0 false true, fun _ => true) := Or.inl (by decide)
  have hsecond : Sound st₁ (.open 4, fun _ => true) := trivial
  exact ⟨st₀, st₁, st₂, i, d', st', n, st₃, st₄, h₀, h₁, h₂,
    (((inv_format h₀).step hfirst h₁).step hsecond h₂).call, hi, hdeny, hend, hr, hw, hd, hfacts⟩

/-- On a full disk the write takes nothing. -/
theorem growth_regained_full : ∃ st₀ st₁ st₂ n st₃,
    State.format (fun _ => zeros) 5 (fun _ => true) = some st₀ ∧
    step (.create 0 false true, fun _ => true) st₀ = some st₁ ∧
    step (.open 4, fun _ => true) st₁ = some st₂ ∧
    (st₂.call fun _ => true).inodeWriteAt 4 (fun _ => 7) 1 512 = some (n, st₃) ∧
    Regained (st₂.call fun _ => true) st₃ 4 := by
  have h : growthRun 5 = some [true, true, false, true, false, false, false] := by decide +kernel
  obtain ⟨st₀, st₁, st₂, i, d', st', n, st₃, st₄, h₀, h₁, h₂, hinv, hi, hdeny, hend, hr, hw, -, hscan,
    -⟩ := growth_run h
  exact ⟨st₀, st₁, st₂, n, st₃, h₀, h₁, h₂, hw, (growth_regained hinv (by decide) hi hdeny hend
    (by decide) (fun _ => rfl) hr hw).mpr (Option.isNone_iff_eq_none.mp hscan)⟩

/-- With one free sector it is lost. -/
theorem growth_lost : ∃ st₀ st₁ st₂ n st₃ st₄,
    State.format (fun _ => zeros) 6 (fun _ => true) = some st₀ ∧
    step (.create 0 false true, fun _ => true) st₀ = some st₁ ∧
    step (.open 4, fun _ => true) st₁ = some st₂ ∧
    (st₂.call fun _ => true).inodeWriteAt 4 (fun _ => 7) 1 512 = some (n, st₃) ∧
    st₃.discard 4 = some st₄ ∧ ¬st₂.Used 5 ∧ st₃.Used 5 ∧ st₄.Used 5 ∧
    ¬Regained (st₂.call fun _ => true) st₃ 4 := by
  have h : growthRun 6 = some [true, true, false, false, false, true, true] := by decide +kernel
  obtain ⟨st₀, st₁, st₂, i, d', st', n, st₃, st₄, h₀, h₁, h₂, -, -, -, -, -, hw, hd, -, hn, hu₃, hu₄⟩ :=
    growth_run h
  have hfree : ¬st₂.Used 5 := Bool.eq_false_iff.mp hn
  refine ⟨st₀, st₁, st₂, n, st₃, st₄, h₀, h₁, h₂, hw, hd, hfree, hu₃, hu₄, fun hregained => ?_⟩
  obtain ⟨st₅, hd₅, hfree₅⟩ := hregained 5 hfree hu₃
  obtain rfl := Option.some.inj (hd.symm.trans hd₅)
  exact hfree₅ hu₄

end CSE130.Lab3.Files