import CSE130.Lib.OrderedLocks
import Mathlib.Tactic.IntervalCases

/-! # The cart manager of Assignment 3 (`cartman.c`)

A cart that arrives at a junction gets a thread of its own (`thread_routine`), which takes the
semaphores of the two junctions of its track, reserves them, crosses, and gives everything back.
The manager keeps the reservations; here they are recorded with the number of the thread.

The threads take the lower junction first, on the last track too, which closes the ring: so the
threads are processes that take locks in order (`ordered_threadRoutine`). -/

namespace CSE130.Assignment3

open OrderedLocks Transition
open Function (update)

/-- The functions of the manager. -/
inductive Call where
  | reserve (cart junction : ℕ)
  | cross (cart track junction : ℕ)
  | release (cart junction : ℕ)

/-- The operations of a thread. -/
abbrev Instr := Op ℕ Call

/-- `NUM_JUNCTIONS`. -/
def numJunctions : ℕ := 17

/-- `destination` in `thread_routine`: junction A unless something else is found. -/
def destination (maxTrack track junction : ℕ) : ℕ :=
  if track = maxTrack then
    if junction = 0 then maxTrack else 0
  else if junction = track then junction + 1
  else if junction > track then junction - 1
  else 0

/-- `thread_routine`. -/
def threadRoutine (maxTrack cart track junction : ℕ) : List Instr :=
  let destination := destination maxTrack track junction
  (if junction < destination then
    [.wait junction, .wait destination, .call (.reserve cart junction),
      .call (.reserve cart destination)]
  else
    [.wait destination, .wait junction, .call (.reserve cart destination),
      .call (.reserve cart junction)]) ++
  [.call (.cross cart track junction), .call (.release cart junction), .post junction,
    .call (.release cart destination), .post destination]

/-- The reservations: the threads that have reserved a junction. -/
abbrev Reservations := ℕ → List ℕ

/-- What the functions of the manager do to the reservations. -/
def perform (k : ℕ) (c : Call) (r : Reservations) : Reservations :=
  match c with
  | .reserve _ junction => update r junction (r junction ++ [k])
  | .cross _ _ _ => r
  | .release _ junction => update r junction ((r junction).erase k)

/-- `junction_lock`, the reservations and the threads. -/
abbrev State := System ℕ Call Reservations

/-- `cartman`. -/
def cartman (tracks : ℕ) : State := ⟨fun j => if j < tracks then 1 else 0, fun _ => [], []⟩

/-- A cart arrives, or a thread does its next operation. -/
inductive Event where
  | arrive (cart track junction : ℕ)
  | run (k : ℕ)

def step (maxTrack : ℕ) : Event → State → Option State
  | .arrive cart track junction => OrderedLocks.step perform
      (.start (threadRoutine maxTrack cart track junction))
  | .run k => OrderedLocks.step perform (.run k)

/-- The junctions of a track. -/
def ends (maxTrack track : ℕ) : ℕ × ℕ := (track, if track = maxTrack then 0 else track + 1)

/-- The cart is at an end of its track. -/
def AtEnd (maxTrack track junction : ℕ) : Prop :=
  track ≤ maxTrack ∧ (junction = (ends maxTrack track).1 ∨ junction = (ends maxTrack track).2)

/-- Carts arrive at the ends of their tracks. -/
def Arrives (maxTrack : ℕ) (_ : State) : Event → Prop
  | .arrive _ track junction => AtEnd maxTrack track junction
  | .run _ => True

/-! ### One thread -/

/-- The program of a thread that crosses from `a` to `b` and takes `lo` before `hi`. -/
def crossing (cart track lo hi a b : ℕ) : List Instr :=
  [.wait lo, .wait hi, .call (.reserve cart lo), .call (.reserve cart hi),
    .call (.cross cart track a), .call (.release cart a), .post a, .call (.release cart b), .post b]

variable {maxTrack cart track junction lo hi a b n j k tracks : ℕ} {st st' : State}

theorem destination_eq (h1 : 1 ≤ maxTrack) :
    destination maxTrack track (ends maxTrack track).1 = (ends maxTrack track).2 ∧
      destination maxTrack track (ends maxTrack track).2 = (ends maxTrack track).1 := by
  unfold destination ends
  by_cases hlast : track = maxTrack
  · have h0 : maxTrack ≠ 0 := by omega
    simp [hlast, h0]
  · simp [hlast]

theorem threadRoutine_eq (cart : ℕ) (h1 : 1 ≤ maxTrack) (h : AtEnd maxTrack track junction) :
    ∃ lo hi a b, threadRoutine maxTrack cart track junction = crossing cart track lo hi a b ∧
      lo < hi ∧ hi ≤ maxTrack ∧ (a = lo ∧ b = hi ∨ a = hi ∧ b = lo) ∧
      (lo = (ends maxTrack track).1 ∧ hi = (ends maxTrack track).2 ∨
        lo = (ends maxTrack track).2 ∧ hi = (ends maxTrack track).1) := by
  obtain ⟨hle, hend⟩ := h
  obtain ⟨hfst, hsnd⟩ := (destination_eq h1 : destination maxTrack track _ = _ ∧ _)
  have hne : (ends maxTrack track).1 ≠ (ends maxTrack track).2 ∧
      (ends maxTrack track).1 ≤ maxTrack ∧ (ends maxTrack track).2 ≤ maxTrack := by
    unfold ends
    dsimp only
    split_ifs <;> omega
  unfold threadRoutine
  generalize (ends maxTrack track).1 = e₁ at *
  generalize (ends maxTrack track).2 = e₂ at *
  rcases hend with rfl | rfl
  · by_cases hlt : junction < e₂
    · refine ⟨junction, e₂, junction, e₂, ?_, hlt, hne.2.2, .inl ⟨rfl, rfl⟩, .inl ⟨rfl, rfl⟩⟩
      simp [hfst, hlt, crossing]
    · refine ⟨e₂, junction, junction, e₂, ?_, by omega, hne.2.1, .inr ⟨rfl, rfl⟩, .inr ⟨rfl, rfl⟩⟩
      simp [hfst, hlt, crossing]
  · by_cases hlt : junction < e₁
    · refine ⟨junction, e₁, junction, e₁, ?_, hlt, hne.2.1, .inl ⟨rfl, rfl⟩, .inr ⟨rfl, rfl⟩⟩
      simp [hsnd, hlt, crossing]
    · refine ⟨e₁, junction, junction, e₁, ?_, by omega, hne.2.2, .inr ⟨rfl, rfl⟩, .inl ⟨rfl, rfl⟩⟩
      simp [hsnd, hlt, crossing]

/-- Whether a thread has reserved a junction, after an operation. -/
def Instr.book (r : ℕ → Bool) : Instr → ℕ → Bool
  | .call (.reserve _ j) => update r j true
  | .call (.release _ j) => update r j false
  | _ => r

/-- The junctions that a thread has reserved after the first `n` operations of its program. -/
def booked (p : List Instr) (n : ℕ) : ℕ → Bool := (p.take n).foldl Instr.book fun _ => false

variable {p : List Instr} {op : Instr}

theorem booked_succ (h : p[n]? = some op) : booked p (n + 1) = Instr.book (booked p n) op := by
  simp [booked, List.take_add_one, h]

/-- What a thread has to have when it does an operation. -/
def Instr.Ready (maxTrack : ℕ) (p : List Instr) (n : ℕ) : Instr → Prop
  | .call (.reserve _ j) => held p n j = true ∧ booked p n j = false
  | .call (.release _ j) => booked p n j = true
  | .call (.cross _ track _) =>
      booked p n (ends maxTrack track).1 = true ∧ booked p n (ends maxTrack track).2 = true
  | .post j => booked p n j = false
  | .wait _ => True

/-- A program of the cart manager. -/
structure Proper (maxTrack : ℕ) (p : List Instr) : Prop where
  ordered : Ordered (Finset.range (maxTrack + 1)) p
  ready : ∀ n op, p[n]? = some op → Instr.Ready maxTrack p n op
  held_of_booked : ∀ n j, n ≤ p.length → booked p n j = true → held p n j = true

theorem proper_crossing (hlt : lo < hi) (hle : hi ≤ maxTrack) (hab : a = lo ∧ b = hi ∨ a = hi ∧ b = lo)
    (hends : lo = (ends maxTrack track).1 ∧ hi = (ends maxTrack track).2 ∨
      lo = (ends maxTrack track).2 ∧ hi = (ends maxTrack track).1) :
    Proper maxTrack (crossing cart track lo hi a b) := by
  have hne : lo ≠ hi := hlt.ne
  have hcases : ∀ {n op}, (crossing cart track lo hi a b)[n]? = some op → n < 9 := by
    intro n op hop
    exact (List.getElem?_eq_some_iff.mp hop).1
  -- the nine operations of a thread, for carts in both directions
  refine ⟨⟨fun n j hop => ?_, fun n j hop => ?_, fun j => ?_⟩, fun n op hop => ?_,
    fun n j hn => ?_⟩
  · have h9 := hcases hop
    interval_cases n <;> simp [crossing] at hop <;> subst hop
    · simp [held]
      omega
    · simp [held, crossing, Op.hold, Function.update_apply]
      omega
  · have h9 := hcases hop
    interval_cases n <;> simp [crossing] at hop <;> subst hop
    · rcases hab with ⟨rfl, rfl⟩ | ⟨rfl, rfl⟩ <;> simp [held, crossing, Op.hold, hne] <;> omega
    · rcases hab with ⟨rfl, rfl⟩ | ⟨rfl, rfl⟩ <;> simp [held, crossing, Op.hold, hne, hne.symm] <;>
        omega
  · rcases hab with ⟨rfl, rfl⟩ | ⟨rfl, rfl⟩ <;>
      simp [held, crossing, Op.hold, Function.update_apply] <;> tauto
  · have h9 := hcases hop
    rcases hab with ⟨rfl, rfl⟩ | ⟨rfl, rfl⟩ <;> interval_cases n <;> simp [crossing] at hop <;>
      subst hop <;>
      simp [Instr.Ready, held, booked, crossing, Op.hold, Instr.book, Function.update_apply, hne,
        hne.symm]
    all_goals rcases hends with ⟨h1, h2⟩ | ⟨h1, h2⟩ <;> simp [← h1, ← h2]
  · have h9 : n ≤ 9 := hn
    rcases hab with ⟨rfl, rfl⟩ | ⟨rfl, rfl⟩ <;> interval_cases n <;>
      simp [held, booked, crossing, Op.hold, Instr.book, Function.update_apply] <;> tauto

theorem proper_threadRoutine (h1 : 1 ≤ maxTrack) (h : AtEnd maxTrack track junction) :
    Proper maxTrack (threadRoutine maxTrack cart track junction) := by
  obtain ⟨lo, hi, a, b, heq, hlt, hle, hab, hends⟩ := threadRoutine_eq cart h1 h
  rw [heq]
  exact proper_crossing hlt hle hab hends

/-! ### All threads -/

/-- The invariant: the semaphores have owners, and exactly the threads that have reserved a
junction are recorded for it. -/
structure Inv (maxTrack : ℕ) (st : State) : Prop where
  owned : ∃ owner, Owned (Finset.range (maxTrack + 1)) st owner
  proper : ∀ (k : ℕ) p n, st.procs[k]? = some (p, n) → Proper maxTrack p
  recorded : ∀ j (k : ℕ), k ∈ st.data j ↔ ∃ p n, st.procs[k]? = some (p, n) ∧ booked p n j = true
  nodup : ∀ j, (st.data j).Nodup

theorem inv_cartman (h2 : 2 ≤ tracks) : Inv (tracks - 1) (cartman tracks) where
  owned := by
    refine ⟨_, owned_init (fun j hj => if_pos ?_) rfl⟩
    have hlt := Finset.mem_range.mp hj
    omega
  proper k p n h := by simp [cartman] at h
  recorded j k := by simp [cartman]
  nodup j := List.nodup_nil

namespace Inv

/-- A junction that a thread has locked can be reserved by that thread only. -/
theorem eq_of_mem (h : Inv maxTrack st) (hk : st.procs[k]? = some (p, n)) (hj : held p n j = true)
    {l : ℕ} (hl : l ∈ st.data j) : l = k := by
  obtain ⟨owner, howned⟩ := h.owned
  obtain ⟨q, m, hq, hb⟩ := (h.recorded j l).mp hl
  have hheld := (h.proper l q m hq).held_of_booked m j (howned.ordered l q m hq).2 hb
  exact howned.exclusive hq hk hheld hj

theorem data_eq (h : Inv maxTrack st) (hk : st.procs[k]? = some (p, n)) (hj : held p n j = true) :
    st.data j = if booked p n j = true then [k] else [] := by
  have hall : ∀ l ∈ st.data j, l = k := fun l hl => h.eq_of_mem hk hj hl
  have hmem : k ∈ st.data j ↔ booked p n j = true := by
    rw [h.recorded]
    constructor
    · rintro ⟨q, m, hq, hb⟩
      cases hk.symm.trans hq
      exact hb
    · intro hb
      exact ⟨p, n, hk, hb⟩
  split_ifs with hb
  · refine List.perm_singleton.mp
      ((List.perm_ext_iff_of_nodup (h.nodup j) (List.nodup_singleton k)).mpr fun l => ?_)
    rw [List.mem_singleton]
    constructor
    · exact hall l
    · rintro rfl
      exact hmem.mpr hb
  · refine List.eq_nil_iff_forall_not_mem.mpr fun l hl => hb (hmem.mp ?_)
    rw [← hall l hl]
    exact hl

theorem start (h : Inv maxTrack st) (hp : Proper maxTrack p) :
    Inv maxTrack { st with procs := st.procs ++ [(p, 0)] } where
  owned := by
    obtain ⟨owner, howned⟩ := h.owned
    exact ⟨owner, howned.start hp.ordered⟩
  proper k q n hq := by
    rcases getElem?_concat_iff.mp hq with hq | ⟨-, hq⟩
    · exact h.proper k q n hq
    · cases hq
      exact hp
  recorded j k := by
    rw [h.recorded]
    constructor
    · rintro ⟨q, n, hq, hb⟩
      exact ⟨q, n, getElem?_concat_iff.mpr (.inl hq), hb⟩
    · rintro ⟨q, n, hq, hb⟩
      rcases getElem?_concat_iff.mp hq with hq | ⟨-, hq⟩
      · exact ⟨q, n, hq, hb⟩
      · cases hq
        simp [booked] at hb
  nodup := h.nodup

/-- What the next operation of a thread does to the reservations. -/
theorem exec_data {st₁ : State} (h : Inv maxTrack st) (hk : st.procs[k]? = some (p, n))
    (hop : p[n]? = some op) (hexec : op.exec perform k st = some st₁) :
    ∀ j, (k ∈ st₁.data j ↔ booked p (n + 1) j = true) ∧
      (∀ l, l ≠ k → (l ∈ st₁.data j ↔ l ∈ st.data j)) ∧ (st₁.data j).Nodup := by
  have hproper := h.proper k p n hk
  have hready := hproper.ready n op hop
  have hself : ∀ j, k ∈ st.data j ↔ booked p n j = true := by
    intro j
    rw [h.recorded]
    constructor
    · rintro ⟨q, m, hq, hb⟩
      cases hk.symm.trans hq
      exact hb
    · intro hb
      exact ⟨p, n, hk, hb⟩
  rw [booked_succ hop]
  have hsame : st₁.data = st.data → Instr.book (booked p n) op = booked p n → ∀ j,
      (k ∈ st₁.data j ↔ Instr.book (booked p n) op j = true) ∧
      (∀ l, l ≠ k → (l ∈ st₁.data j ↔ l ∈ st.data j)) ∧ (st₁.data j).Nodup := by
    intro hdata hbook j
    rw [hdata, hbook]
    exact ⟨hself j, fun _ _ => Iff.rfl, h.nodup j⟩
  cases op with
  | wait i =>
      simp only [Op.exec] at hexec
      split_ifs at hexec
      cases hexec
      exact hsame rfl rfl
  | post i =>
      cases hexec
      exact hsame rfl rfl
  | call c =>
      cases hexec
      cases c with
      | cross cart track i => exact hsame rfl rfl
      | reserve cart i =>
          intro j
          by_cases hji : j = i
          · subst hji
            have hnil := h.data_eq hk hready.1
            rw [hready.2] at hnil
            simp [perform, Instr.book, hnil]
          · simp only [perform, Instr.book, Function.update_of_ne hji]
            exact ⟨hself j, fun _ _ => trivial, h.nodup j⟩
      | release cart i =>
          intro j
          by_cases hji : j = i
          · subst hji
            simp only [perform, Instr.book, Function.update_self]
            refine ⟨?_, fun l hl => List.mem_erase_of_ne hl, (h.nodup j).erase k⟩
            simp [(h.nodup j).mem_erase_iff]
          · simp only [perform, Instr.book, Function.update_of_ne hji]
            exact ⟨hself j, fun _ _ => trivial, h.nodup j⟩

theorem run (h : Inv maxTrack st) (hs : OrderedLocks.step perform (.run k) st = some st') :
    Inv maxTrack st' := by
  obtain ⟨owner, howned⟩ := h.owned
  have howned' := howned.run hs
  obtain ⟨p, n, op, st₁, hk, hop, hexec, rfl⟩ := run_cases hs
  have hdata := h.exec_data hk hop hexec
  have hlt := (List.getElem?_eq_some_iff.mp hk).1
  obtain ⟨hprocs, -⟩ := exec_cases hexec
  refine ⟨howned', fun l q m hq => ?_, fun j l => ?_, fun j => (hdata j).2.2⟩
  · by_cases hlk : l = k
    · subst hlk
      simp [hprocs, hlt] at hq
      obtain ⟨rfl, rfl⟩ := hq
      exact h.proper l p n hk
    · simp [hprocs, List.getElem?_set_ne (Ne.symm hlk)] at hq
      exact h.proper l q m hq
  · by_cases hlk : l = k
    · subst hlk
      simp [hprocs, hlt, (hdata j).1]
    · rw [(hdata j).2.1 l hlk, h.recorded]
      simp [hprocs, List.getElem?_set_ne (Ne.symm hlk)]

theorem step {e : Event} (h : Inv maxTrack st) (h1 : 1 ≤ maxTrack) (he : Arrives maxTrack st e)
    (hs : Assignment3.step maxTrack e st = some st') : Inv maxTrack st' := by
  cases e with
  | arrive cart track junction =>
      cases hs
      exact h.start (proper_threadRoutine h1 he)
  | run k => exact h.run hs

end Inv

/-- The next operation of the thread `k` is allowed: it reserves a junction that nobody has
reserved, it has reserved what it releases and both ends of the track that it crosses, and there
is such a semaphore. -/
def Allowed (maxTrack : ℕ) (st : State) (k : ℕ) : Instr → Prop
  | .call (.reserve _ j) => st.data j = []
  | .call (.release _ j) => st.data j = [k]
  | .call (.cross _ track _) =>
      st.data (ends maxTrack track).1 = [k] ∧ st.data (ends maxTrack track).2 = [k]
  | .wait j => j < numJunctions
  | .post j => j < numJunctions

theorem Inv.allowed (h : Inv maxTrack st) (hmax : maxTrack < numJunctions)
    (hk : st.procs[k]? = some (p, n)) (hop : p[n]? = some op) : Allowed maxTrack st k op := by
  have hproper := h.proper k p n hk
  have hready := hproper.ready n op hop
  have hbooked : ∀ {j}, booked p n j = true → st.data j = [k] := by
    intro j hj
    have hle := (List.getElem?_eq_some_iff.mp hop).1.le
    rw [h.data_eq hk (hproper.held_of_booked n j hle hj), if_pos hj]
  cases op with
  | wait j =>
      have hj := Finset.mem_range.mp (hproper.ordered.wait n j hop).1
      exact lt_of_lt_of_le hj hmax
  | post j =>
      have hj := Finset.mem_range.mp (hproper.ordered.post n j hop).1
      exact lt_of_lt_of_le hj hmax
  | call c =>
      cases c with
      | reserve cart j =>
          have hdata := h.data_eq hk hready.1
          rw [hready.2] at hdata
          exact hdata
      | cross cart track j => exact ⟨hbooked hready.1, hbooked hready.2⟩
      | release cart j => exact hbooked hready

/-- **The cart manager is safe and free from deadlock**: in every reachable state the next
operation of each thread is allowed, no junction is reserved by two carts, and while a thread has
not finished some thread can go on. -/
theorem cart_manager (h2 : 2 ≤ tracks) (h17 : tracks ≤ numJunctions)
    (hr : Reachable (step (tracks - 1)) (Arrives (tracks - 1)) (cartman tracks) st) :
    (∀ (k : ℕ) p n op, st.procs[k]? = some (p, n) → p[n]? = some op →
      Allowed (tracks - 1) st k op) ∧
    (∀ j, (st.data j).length ≤ 1) ∧
    ((∃ (k : ℕ) (p : List Instr) (n : ℕ), st.procs[k]? = some (p, n) ∧ n < p.length) →
      ∃ k st', step (tracks - 1) (.run k) st = some st') := by
  have h : Inv (tracks - 1) st := hr.invariant (inv_cartman h2)
    fun _ _ _ _ h hg hs => h.step (by omega) hg hs
  obtain ⟨owner, howned⟩ := h.owned
  refine ⟨fun k p n op hk hop => h.allowed (by omega) hk hop, fun j => ?_, ?_⟩
  · cases hdata : st.data j with
    | nil => exact Nat.zero_le 1
    | cons k l =>
        obtain ⟨p, n, hk, hb⟩ := (h.recorded j k).mp (by simp [hdata])
        have hheld := (h.proper k p n hk).held_of_booked n j (howned.ordered k p n hk).2 hb
        have hsingle := h.data_eq hk hheld
        rw [if_pos hb, hdata] at hsingle
        simp [hsingle]
  · rintro ⟨k, p, n, hk, hn⟩
    exact howned.progress perform hk hn

/-- Three tracks: the carts on the first and on the last track both want the junction A. -/
theorem cart_manager_ring : ∃ st, Reachable (step (3 - 1)) (Arrives (3 - 1)) (cartman 3) st ∧
    st.procs.length = 2 ∧ st.data 0 = [1] ∧
    (∀ (k : ℕ) p n op, st.procs[k]? = some (p, n) → p[n]? = some op → Allowed (3 - 1) st k op) ∧
    (∀ j, (st.data j).length ≤ 1) ∧
    ((∃ (k : ℕ) (p : List Instr) (n : ℕ), st.procs[k]? = some (p, n) ∧ n < p.length) →
      ∃ k st', step (3 - 1) (.run k) st = some st') := by
  have h : (execute (step 2) [.arrive 7 0 0, .arrive 8 2 2, .run 1, .run 1, .run 1]
      (cartman 3)).map (fun st => (st.procs.length, st.data 0)) = some (2, [1]) := rfl
  obtain ⟨st, hst, hfacts⟩ := Option.map_eq_some_iff.mp h
  obtain ⟨hlen, hdata⟩ := Prod.mk.inj hfacts
  have hr : Reachable (step (3 - 1)) (Arrives (3 - 1)) (cartman 3) st := by
    refine execute_reachable (fun _ a ha => ?_) .refl hst
    simp only [List.mem_cons, List.not_mem_nil, or_false] at ha
    rcases ha with rfl | rfl | rfl | rfl | rfl
    · exact ⟨by decide, .inl rfl⟩
    · exact ⟨by decide, .inl rfl⟩
    all_goals trivial
  exact ⟨st, hr, hlen, hdata, cart_manager (by decide) (by decide) hr⟩

end CSE130.Assignment3
