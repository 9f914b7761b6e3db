import CSE130.Lab2.Donation
import Mathlib.Logic.Relation

/-! # Revocation of donated priorities

A thread on whose locks nobody is blocked should be back at `priority_old`.  `lock_release`
recomputes the priority from the `donators` list of the caller, and so it matters that this list
names the locks of the caller that somebody waits for (`Recorded`).

Two statements can leave a boost behind (`revokes`): `donate`, which follows a `blocker` whether
or not the thread still waits for that lock, and a `lock_release` of a lock without `donator`,
which recomputes nothing. -/

namespace CSE130.Lab2

open Function (update)
open Transition

variable {k k' : Kernel} {f : Frame} {st : List Frame} {l m n : Lock} {t u h : Thread}
  {v : ℕ → BitVec 32} {a : Action} {es : List Event} {E E' : Thread → Prop}
  {F F' : Thread → Lock → Prop}

/-- Nobody waits for a lock of `t`. -/
def Kernel.Unawaited (k : Kernel) (t : Thread) : Prop :=
  ∀ l, k.holder l = some t → k.waiters (.lock l) = []

/-- Lock `n` on a `donators` list: `t` holds it, and its donator waits for it. -/
def Kernel.Recorded (k : Kernel) (t : Thread) (n : Lock) : Prop :=
  k.holder n = some t ∧ ∃ d, k.donator n = some d ∧ d ∈ k.waiters (.lock n)

/-- The holder of `m` waits for `n`. -/
def Kernel.Link (k : Kernel) (m n : Lock) : Prop :=
  ∃ h, k.holder m = some h ∧ h ∈ k.waiters (.lock n)

/-- Control moves only in `schedule()`, and
* `donate` follows the `blocker` of a thread only to a lock that the thread waits for;
* a release of a lock without `donator` finds the caller without a boost, or with another lock
  that somebody waits for. -/
def revokes (k : Kernel) (a : Action) : Prop :=
  coop k a ∧
  match a, k.code with
  | .run, .donateNext m :: _ => ∀ h n g, k.holder m = some h → k.blocker h = some n →
      k.holder n = some g → k.priority g < k.priority k.current → h ∈ k.waiters (.lock n)
  | .run, .lockReleaseRevoke l :: _ => k.donator l = none →
      k.priority k.current = k.priorityOld k.current ∨
        ∃ m, k.holder m = some k.current ∧ k.waiters (.lock m) ≠ []
  | _, _ => True

/-- Boosts and records are as they should be, but for the threads `E` and the records `F`. -/
def RevokedBut (k : Kernel) (E : Thread → Prop) (F : Thread → Lock → Prop) : Prop :=
  (∀ t, k.Unawaited t → k.priority t = k.priorityOld t ∨ E t) ∧
  (∀ t n, n ∈ k.donators t → k.Recorded t n ∨ F t n) ∧
  ∀ t, (k.donators t).Nodup

namespace RevokedBut

theorem unboosted (hr : RevokedBut k E F) (ht : k.Unawaited t) :
    k.priority t = k.priorityOld t ∨ E t := hr.1 t ht

theorem recorded (hr : RevokedBut k E F) (hn : n ∈ k.donators t) : k.Recorded t n ∨ F t n :=
  hr.2.1 t n hn

theorem nodup (hr : RevokedBut k E F) : ∀ t, (k.donators t).Nodup := hr.2.2

theorem mono (hr : RevokedBut k E F) (hE : ∀ t, E t → E' t) (hF : ∀ t n, F t n → F' t n) :
    RevokedBut k E' F' :=
  ⟨fun t ht => (hr.unboosted ht).imp_right (hE t), fun t n hn => (hr.recorded hn).imp_right (hF t n),
    hr.nodup⟩

end RevokedBut

/-- Every boost and every record is as it should be. -/
def Revoked (k : Kernel) : Prop := RevokedBut k (fun _ => False) (fun _ _ => False)

/-- The caller of `lock_acquire(l)` has recorded its donation and does not wait yet. -/
def Pending (k : Kernel) (l : Lock) (t : Thread) (n : Lock) : Prop :=
  n = l ∧ k.holder l = some t ∧ k.donator l = some k.current

/-- The caller of `lock_acquire(l)` may have boosted the holder of `l`, and does not wait yet. -/
def Donated (k : Kernel) (l : Lock) : Prop :=
  RevokedBut k (fun t => k.holder l = some t) (Pending k l)

/-- `donate` has come to lock `m` from the call of `lock_acquire(l)`. -/
def Came (k : Kernel) (l m : Lock) : Prop :=
  Relation.ReflTransGen k.Link l m ∧ (m = l ∨ k.waiters (.lock m) ≠ [])

/-- What is known at each statement. -/
def RevokedAt (k : Kernel) : Frame → List Frame → Prop
  | .lockAcquirePush l, _ => Revoked k ∧ ∀ t, l ∉ k.donators t
  | .lockAcquireDonator l, _ =>
      RevokedBut k (fun _ => False) (fun t n => n = l ∧ k.holder l = some t)
  | .lockAcquireCompare l, _ | .lockAcquireBlocker l, _ =>
      RevokedBut k (fun _ => False) (Pending k l)
  | .donate m, st | .donateNext m, st =>
      ∀ l st', st = .lockAcquireDown l :: st' → Donated k l ∧ Came k l m
  | .lockAcquireDown l, _ | .semaphoreDown (.lock l), _ => Donated k l
  | .lockReleaseRevoke l, _ => RevokedBut k (fun t => t = k.current)
      (fun t n => n = l ∧ t = k.current ∧ k.donator l ≠ none)
  | _, _ => Revoked k

/-- The invariant by phases. -/
def AtRevocation : Kernel → Prop := Phase Revoked RevokedAt

theorem Revoked.resumes (h : Revoked k) (g : Frame) (st : List Frame) (hg : g.resumes) :
    RevokedAt k g st := by
  cases g <;> first | exact h | exact hg.elim

theorem Revoked.but (hr : Revoked k) : RevokedBut k E F := hr.mono (fun _ => False.elim)
  (fun _ _ => False.elim)

theorem RevokedBut.revoked (hr : RevokedBut k E F) (hE : ∀ t, ¬ E t) (hF : ∀ t n, ¬ F t n) :
    Revoked k := hr.mono (fun t h => hE t h) (fun t n h => hF t n h)

/-! ### The statements that matter -/

theorem Revoked.hold (hr : Revoked k) (hfree : k.holder l = none)
    (hh : k'.holder = update k.holder l (some k.current)) (hd : k'.donators = k.donators)
    (hd' : k'.donator = k.donator) (hw : k'.waiters = k.waiters)
    (hp : k'.priority = k.priority) (ho : k'.priorityOld = k.priorityOld) : Revoked k' := by
  have hne {n : Lock} {t : Thread} (hn : k.holder n = some t) : n ≠ l := by
    rintro rfl
    cases hfree.symm.trans hn
  have hstill {n : Lock} {t : Thread} (hn : k.holder n = some t) : k'.holder n = some t := by
    rw [hh, Function.update_of_ne (hne hn), hn]
  refine ⟨fun t ht => ?_, fun t n hn => ?_, hd ▸ hr.nodup⟩
  · rw [hp, ho]
    exact hr.unboosted fun n hn => hw ▸ ht n (hstill hn)
  · obtain ⟨hheld, d, hdn, hdw⟩ := (hr.recorded (hd ▸ hn)).resolve_right id
    exact .inl ⟨hstill hheld, d, hd' ▸ hdn, hw ▸ hdw⟩

theorem Revoked.release (hr : Revoked k) (hheld : k.holder l = some k.current)
    (hh : k'.holder = update k.holder l none) (hd : k'.donators = k.donators)
    (hd' : k'.donator = k.donator) (hw : k'.waiters = k.waiters)
    (hp : k'.priority = k.priority) (ho : k'.priorityOld = k.priorityOld)
    (hc : k'.current = k.current) : RevokedBut k' (fun t => t = k'.current)
      (fun t n => n = l ∧ t = k'.current ∧ k'.donator l ≠ none) := by
  refine ⟨fun t ht => ?_, fun t n hn => ?_, hd ▸ hr.nodup⟩
  · by_cases hcur : t = k.current
    · exact .inr (hcur.trans hc.symm)
    · left
      rw [hp, ho]
      refine (hr.unboosted fun n hn => ?_).resolve_right id
      have hne : n ≠ l := by
        rintro rfl
        cases hheld.symm.trans hn
        exact hcur rfl
      rw [← hw]
      exact ht n (by rw [hh, Function.update_of_ne hne, hn])
  · obtain ⟨hheld', d, hdn, hdw⟩ := (hr.recorded (hd ▸ hn)).resolve_right id
    by_cases hne : n = l
    · subst hne
      cases hheld.symm.trans hheld'
      exact .inr ⟨rfl, hc.symm, by rw [hd', hdn]; nofun⟩
    · exact .inl ⟨by rw [hh, Function.update_of_ne hne, hheld'], d, hd' ▸ hdn, hw ▸ hdw⟩

/-- The part of `lock_release` that `lock->donator` decides about, when it is `NULL`. -/
theorem RevokedAt.revokeNone (hP : RevokedAt k (.lockReleaseRevoke l) st)
    (hg : revokes k .run) (hcode : k.code = .lockReleaseRevoke l :: st)
    (hnone : k.donator l = none) (hd : k'.donator = update k.donator l none)
    (hds : k'.donators = k.donators) (hh : k'.holder = k.holder) (hw : k'.waiters = k.waiters)
    (hp : k'.priority = k.priority) (ho : k'.priorityOld = k.priorityOld) : Revoked k' := by
  have hr : RevokedBut k _ _ := hP
  have hg := hg.2
  rw [hcode] at hg
  have hsame : k'.donator = k.donator :=
    hd.trans (Function.update_eq_self_iff.mpr hnone.symm)
  refine ⟨fun t ht => ?_, fun t n hn => ?_, hds ▸ hr.nodup⟩
  · rw [hp, ho]
    have ht : k.Unawaited t := fun n hn => hw ▸ ht n (hh ▸ hn)
    rcases hr.unboosted ht with heq | rfl
    · exact .inl heq
    · rcases hg hnone with heq | ⟨m, hm, hne⟩
      · exact .inl heq
      · exact (hne (ht m hm)).elim
  · rw [hds] at hn
    rcases hr.recorded hn with hrec | ⟨-, -, hne⟩
    · unfold Kernel.Recorded
      rw [hh, hsame, hw]
      exact .inl hrec
    · exact (hne hnone).elim

/-- The revocation: a priority above `priority_old` is left only for a recorded donation. -/
theorem RevokedAt.revoke {ds : List Lock} {q : ℤ} (hP : RevokedAt k (.lockReleaseRevoke l) st)
    (hp : List.Perm ds ((k.donators k.current).erase l))
    (hq : IsMaxDonation { k with donator := update k.donator l none } (k.priorityOld k.current)
      ds q)
    (hds : k'.donators = update (fun t => (k.donators t).erase l) k.current ds)
    (hd : k'.donator = update k.donator l none) (hpr : k'.priority = update k.priority k.current q)
    (hh : k'.holder = k.holder) (hw : k'.waiters = k.waiters)
    (ho : k'.priorityOld = k.priorityOld) : Revoked k' := by
  have hr : RevokedBut k _ _ := hP
  have hmem {t : Thread} {n : Lock} (hn : n ∈ k'.donators t) : n ≠ l ∧ n ∈ k.donators t := by
    rw [hds, Function.update_apply] at hn
    have hn : n ∈ (k.donators t).erase l := by
      split at hn
      · rename_i he
        rw [he]
        exact hp.subset hn
      · exact hn
    exact (hr.nodup t).mem_erase_iff.mp hn
  have hrec {t : Thread} {n : Lock} (hn : n ∈ k'.donators t) : k.Recorded t n :=
    (hr.recorded (hmem hn).2).resolve_right fun he => (hmem hn).1 he.1
  refine ⟨fun t ht => ?_, fun t n hn => ?_, fun t => ?_⟩
  · have ht' : k.Unawaited t := fun n hn => hw ▸ ht n (hh ▸ hn)
    left
    rw [hpr, ho, Function.update_apply]
    split
    · rename_i he
      obtain ⟨-, -, hmax⟩ := hq
      rcases hmax with rfl | ⟨n, hn, -⟩
      · rw [he]
      · -- somebody waits for the lock of the donation that is left
        have hn : n ∈ k'.donators k.current := by rw [hds, Function.update_self]; exact hn
        obtain ⟨hheld, d, -, hdw⟩ := hrec hn
        rw [he] at ht'
        rw [ht' n hheld] at hdw
        cases hdw
    · rename_i he
      exact (hr.unboosted ht').resolve_right he
  · obtain ⟨hheld, d, hdn, hdw⟩ := hrec hn
    exact .inl ⟨hh ▸ hheld, d, by rw [hd, Function.update_of_ne (hmem hn).1, hdn], hw ▸ hdw⟩
  · rw [hds, Function.update_apply]
    split
    · exact hp.nodup_iff.mpr ((hr.nodup _).erase l)
    · exact (hr.nodup t).erase l

theorem RevokedAt.push (hP : RevokedAt k (.lockAcquirePush l) st) (hheld : k.holder l = some h)
    (hds : k'.donators = update k.donators h (k.donators h ++ [l]))
    (hd : k'.donator = k.donator) (hh : k'.holder = k.holder) (hw : k'.waiters = k.waiters)
    (hp : k'.priority = k.priority) (ho : k'.priorityOld = k.priorityOld) :
    RevokedAt k' (.lockAcquireDonator l) st := by
  obtain ⟨hr, hnew⟩ := hP
  have hrec {t : Thread} {n : Lock} (hn : k.Recorded t n) : k'.Recorded t n := by
    unfold Kernel.Recorded
    rw [hh, hd, hw]
    exact hn
  refine ⟨fun t ht => ?_, fun t n hn => ?_, fun t => ?_⟩
  · rw [hp, ho]
    refine hr.unboosted fun n hn => ?_
    rw [← hw]
    exact ht n (hh ▸ hn)
  · rw [hds, Function.update_apply] at hn
    split at hn
    · rename_i he
      rw [List.mem_append, List.mem_singleton] at hn
      rcases hn with hn | rfl
      · exact .inl (hrec ((hr.recorded hn).resolve_right id |> fun h' => he ▸ h'))
      · exact .inr ⟨rfl, by rw [hh, hheld, he]⟩
    · exact .inl (hrec ((hr.recorded hn).resolve_right id))
  · rw [hds, Function.update_apply]
    split
    · refine List.nodup_append.mpr ⟨hr.nodup h, List.nodup_singleton l, fun a ha b hb => ?_⟩
      rintro rfl
      exact hnew h (List.mem_singleton.mp hb ▸ ha)
    · exact hr.nodup t

theorem RevokedAt.donator (hP : RevokedAt k (.lockAcquireDonator l) st)
    (hd : k'.donator = update k.donator l (some k.current)) (hds : k'.donators = k.donators)
    (hh : k'.holder = k.holder) (hw : k'.waiters = k.waiters) (hp : k'.priority = k.priority)
    (ho : k'.priorityOld = k.priorityOld) (hc : k'.current = k.current) :
    RevokedAt k' (.lockAcquireCompare l) st := by
  have hr : RevokedBut k _ _ := hP
  refine ⟨fun t ht => ?_, fun t n hn => ?_, hds ▸ hr.nodup⟩
  · rw [hp, ho]
    refine hr.unboosted fun n hn => ?_
    rw [← hw]
    exact ht n (hh ▸ hn)
  · rw [hds] at hn
    by_cases hne : n = l
    · subst hne
      refine .inr ⟨rfl, ?_, by rw [hd, hc, Function.update_self]⟩
      rw [hh]
      rcases hr.recorded hn with hrec | hrec
      · exact hrec.1
      · exact hrec.2
    · obtain ⟨hheld, d, hdn, hdw⟩ := (hr.recorded hn).resolve_right fun he => hne he.1
      exact .inl ⟨hh ▸ hheld, d, by rw [hd, Function.update_of_ne hne, hdn], hw ▸ hdw⟩

theorem Came.congr (hc : Came k l m) (hh : k'.holder = k.holder) (hw : k'.waiters = k.waiters) :
    Came k' l m := by
  have hlink : k'.Link = k.Link := by
    funext m n
    rw [Kernel.Link, Kernel.Link, hh, hw]
  unfold Came
  rw [hlink, hw]
  exact hc

/-- `donate` raises the holder of a lock that is, or will be, waited for. -/
theorem RevokedAt.raise {q : ℤ} (hP : RevokedAt k (.donate m) st) (hheld : k.holder m = some h)
    (hp : k'.priority = update k.priority h q) (hds : k'.donators = k.donators)
    (hd : k'.donator = k.donator) (hh : k'.holder = k.holder) (hw : k'.waiters = k.waiters)
    (ho : k'.priorityOld = k.priorityOld) (hc : k'.current = k.current) :
    RevokedAt k' (.donateNext m) st := by
  intro l st' he
  obtain ⟨hr, hcame⟩ := hP l st' he
  refine ⟨⟨fun t ht => ?_, fun t n hn => ?_, hds ▸ hr.nodup⟩, hcame.congr hh hw⟩
  · have ht : k.Unawaited t := fun n hn => hw ▸ ht n (hh ▸ hn)
    rw [hp, ho, hh, Function.update_apply]
    split
    · rename_i heq
      subst heq
      rcases hcame.2 with rfl | hne
      · exact .inr hheld
      · exact (hne (ht m hheld)).elim
    · exact hr.unboosted ht
  · unfold Kernel.Recorded Pending
    rw [hh, hd, hw, hc]
    exact hr.recorded (hds ▸ hn)

theorem RevokedAt.next {g : Thread} (hP : RevokedAt k (.donateNext m) st) (hg : revokes k .run)
    (hcode : k.code = .donateNext m :: st) (hheld : k.holder m = some h)
    (hb : k.blocker h = some n) (hn : k.holder n = some g)
    (hlt : k.priority g < k.priority k.current) : RevokedAt k (.donate n) st := by
  have hg := hg.2
  rw [hcode] at hg
  have hwait : h ∈ k.waiters (.lock n) := hg h n g hheld hb hn hlt
  intro l st' he
  obtain ⟨hr, hcame⟩ := hP l st' he
  exact ⟨hr, hcame.1.tail ⟨h, hheld, hwait⟩, .inr (List.ne_nil_of_mem hwait)⟩

theorem Revoked.waiters (hr : Revoked k)
    (hw : ∀ n t, k.holder n = some t → k'.waiters (.lock n) = k.waiters (.lock n))
    (hds : k'.donators = k.donators) (hd : k'.donator = k.donator) (hh : k'.holder = k.holder)
    (hp : k'.priority = k.priority) (ho : k'.priorityOld = k.priorityOld) : Revoked k' := by
  refine ⟨fun t ht => ?_, fun t n hn => ?_, hds ▸ hr.nodup⟩
  · rw [hp, ho]
    exact hr.unboosted fun n hn => hw n t hn ▸ ht n (hh ▸ hn)
  · obtain ⟨hheld, d, hdn, hdw⟩ := (hr.recorded (hds ▸ hn)).resolve_right id
    exact .inl ⟨hh ▸ hheld, d, hd ▸ hdn, (hw n t hheld).symm ▸ hdw⟩

theorem Donated.block (hr : Donated k l)
    (hw : k'.waiters = update k.waiters (.lock l) (k.current :: k.waiters (.lock l)))
    (hds : k'.donators = k.donators) (hd : k'.donator = k.donator) (hh : k'.holder = k.holder)
    (hp : k'.priority = k.priority) (ho : k'.priorityOld = k.priorityOld) : Revoked k' := by
  have hself : k'.waiters (.lock l) = k.current :: k.waiters (.lock l) := by
    rw [hw, Function.update_self]
  have hother {n : Lock} (hn : n ≠ l) : k'.waiters (.lock n) = k.waiters (.lock n) := by
    rw [hw, Function.update_of_ne (by simpa using hn)]
  refine ⟨fun t ht => ?_, fun t n hn => ?_, hds ▸ hr.nodup⟩
  · have hne {n : Lock} (hn : k.holder n = some t) : n ≠ l := by
      rintro rfl
      have hnil := ht n (hh ▸ hn)
      rw [hself] at hnil
      cases hnil
    rw [hp, ho]
    refine (hr.unboosted fun n hn => ?_).imp_right fun hl => hne hl rfl
    rw [← hother (hne hn)]
    exact ht n (hh ▸ hn)
  · left
    rcases hr.recorded (hds ▸ hn) with ⟨hheld, d, hdn, hdw⟩ | ⟨rfl, hheld, hdn⟩
    · refine ⟨hh ▸ hheld, d, hd ▸ hdn, ?_⟩
      by_cases hne : n = l
      · subst hne
        rw [hself]
        exact List.mem_cons_of_mem _ hdw
      · rw [hother hne]
        exact hdw
    · exact ⟨hh ▸ hheld, k.current, hd ▸ hdn, by rw [hself]; exact List.mem_cons_self⟩

/-- A thread gets a new priority, as its own or as the one it goes back to. -/
theorem Revoked.set (hr : Revoked k)
    (hp : ∀ u, u ≠ t → k'.priority u = k.priority u ∧ k'.priorityOld u = k.priorityOld u)
    (ht : k.Unawaited t → k.priority t = k.priorityOld t → k'.priority t = k'.priorityOld t)
    (hds : ∀ u, k'.donators u = k.donators u ∨ k'.donators u = []) (hd : k'.donator = k.donator)
    (hh : k'.holder = k.holder) (hw : k'.waiters = k.waiters) : Revoked k' := by
  refine ⟨fun u hu => ?_, fun u n hn => ?_, fun u => ?_⟩
  · have hu : k.Unawaited u := fun n hn => hw ▸ hu n (hh ▸ hn)
    have heq := (hr.unboosted hu).resolve_right id
    left
    by_cases hut : u = t
    · subst hut
      exact ht hu heq
    · rw [(hp u hut).1, (hp u hut).2]
      exact heq
  · unfold Kernel.Recorded
    rw [hh, hd, hw]
    rcases hds u with hu | hu
    · exact hr.recorded (hu ▸ hn)
    · rw [hu] at hn
      cases hn
  · rcases hds u with hu | hu
    · exact hu ▸ hr.nodup u
    · rw [hu]
      exact List.nodup_nil

/-! ### Every statement -/

theorem RevokedAt.take {s : Semaphore} (hP : RevokedAt k f st) (hg : ∀ l, Guarded l es k)
    (hf : f = .semaphoreDown s ∨ f = .semaphoreDownLoop s) (hv : k.value s ≠ 0) : Revoked k := by
  rcases hf with rfl | rfl
  · cases s with
    | lock l =>
        -- the lock is free, and so the exceptions are none
        have hr : Donated k l := hP
        have hfree := ((hg l).free hv).2
        refine hr.revoked (fun t ht => ?_) fun t n hn => ?_
        · cases hfree.symm.trans ht
        · cases hfree.symm.trans hn.2.1
    | _ => exact hP
  · exact hP

theorem RevokedAt.block {s : Semaphore} (hP : RevokedAt k f st)
    (hf : f = .semaphoreDown s ∨ f = .semaphoreDownLoop s)
    (hw : k'.waiters = update k.waiters s (k.current :: k.waiters s))
    (hds : k'.donators = k.donators) (hd : k'.donator = k.donator) (hh : k'.holder = k.holder)
    (hp : k'.priority = k.priority) (ho : k'.priorityOld = k.priorityOld) : Revoked k' := by
  cases s with
  | lock l =>
      have hr : Donated k l := by
        rcases hf with rfl | rfl
        · exact hP
        · exact Revoked.but hP
      exact hr.block hw hds hd hh hp ho
  | _ =>
      have hr : Revoked k := by rcases hf with rfl | rfl <;> exact hP
      refine hr.waiters (fun n t _ => ?_) hds hd hh hp ho
      rw [hw, Function.update_of_ne (by simp)]

/-- A `semaphore_up` of a lock is that of its release, when the lock has no holder any more. -/
theorem Revoked.up {s : Semaphore} {ws : List Thread} (hr : Revoked k)
    (hg : ∀ l, Guarded l es k) (hcode : k.code = .semaphoreUp s :: st)
    (hw : k'.waiters = update k.waiters s ws) (hds : k'.donators = k.donators)
    (hd : k'.donator = k.donator) (hh : k'.holder = k.holder) (hp : k'.priority = k.priority)
    (ho : k'.priorityOld = k.priorityOld) : Revoked k' := by
  refine hr.waiters (fun n t hn => ?_) hds hd hh hp ho
  have hne : Semaphore.lock n ≠ s := by
    rintro rfl
    have hfree := ((hg n).inside k.current ⟨st, .inr (.inr hcode)⟩).2
    cases hfree.symm.trans hn
  rw [hw, Function.update_of_ne hne]

theorem AtRevocation.exec (hk : Cooperative k) (hguard : ∀ l, Guarded l es k)
    (ht : AtRevocation k) (hg : revokes k .run) (hcode : k.code = f :: st)
    (hx : Exec f (k.popped st) k') : AtRevocation k' := by
  have hP : RevokedAt k f st := (Phase.cons hcode).mp ht
  have hw : WellStacked (f :: st) := hk.wellStacked hcode
  have hret {X : Kernel} (hd : ¬ f.isDonate) (hc : X.code = st) (h : Revoked X) :
      AtRevocation X := Phase.ret hw hd hc h h.resumes
  have hstay : (k.popped st).code = st := popped_code k st
  cases hx with
  | acquireFree => exact Phase.push (Revoked.but (k := k) hP)
  | acquireHeld => exact Phase.push hP
  | @containsTrue _ l h hh =>
      have hr : Revoked k := hP
      exact Phase.push (hr.but : RevokedBut k _ _)
  | @containsFalse _ l h hh hn =>
      have hr : Revoked k := hP
      refine Phase.push ⟨hr, fun t hl => ?_⟩
      -- only the holder could have the lock on its list
      have hrec := ((hr.recorded hl).resolve_right id).1
      cases hrec.symm.trans hh
      exact hn hl
  | push hh => exact Phase.push (RevokedAt.push (k := k) hP hh rfl rfl rfl rfl rfl rfl)
  | donator => exact Phase.push (RevokedAt.donator (k := k) hP rfl rfl rfl rfl rfl rfl rfl)
  | compareTrue => exact Phase.push hP
  | compareFalse =>
      have hr : RevokedBut k _ _ := hP
      exact Phase.push (hr.mono (fun _ => False.elim) fun _ _ => id)
  | @blocker _ l =>
      have hr : RevokedBut k _ _ := hP
      refine Phase.push fun l' st' he => ?_
      rw [Kernel.push_code, List.cons.injEq] at he
      cases he.1
      exact ⟨hr.mono (fun _ => False.elim) fun _ _ => id, .refl, .inl rfl⟩
  | down => exact Phase.push hP
  | @hold _ l =>
      have hfree := ((hguard l).inside k.current ⟨st, .inl hcode⟩).2
      exact hret id hstay (Revoked.hold (k := k) hP hfree rfl rfl rfl rfl rfl rfl)
  | donate hh => exact Phase.pushed hstay (hP.raise hh rfl rfl rfl rfl rfl rfl rfl)
  | donateEnd | donateStop =>
      exact Phase.ret_donate hw hstay fun l st' he => (hP l st' he).1
  | donateNext hh hb hn hlt => exact Phase.pushed hstay (hP.next hg hcode hh hb hn hlt)
  | release hh => exact Phase.push (Revoked.release (k := k) hP hh rfl rfl rfl rfl rfl rfl rfl)
  | @revokeNone _ l hd =>
      have hr : Revoked { k.popped st with donator := update k.donator l none } :=
        hP.revokeNone hg hcode hd rfl rfl rfl rfl rfl rfl
      exact Phase.push hr
  | revoke hd hp hq =>
      exact Phase.push (RevokedAt.revoke (k := k) hP hp hq rfl rfl rfl rfl rfl rfl)
  | take hf hv =>
      have hd : ¬ f.isDonate := by rcases hf with rfl | rfl <;> exact id
      exact hret hd (by simp [Kernel.code]) (hP.take hguard hf hv)
  | upNone => exact hret id (by simp [Kernel.code]) hP
  | upStay =>
      exact hret id (by simp [Kernel.code, Kernel.woken])
        (Revoked.up (k := k) hP hguard hcode rfl rfl rfl rfl rfl rfl)
  | wait =>
      refine Phase.push (Revoked.waiters (k := k) hP (fun n t _ => ?_) rfl rfl rfl rfl rfl)
      show update k.waiters (.waiter k.frames) [] (.lock n) = k.waiters (.lock n)
      rw [Function.update_of_ne (by simp)]
  | waitDown | waitAcquire | broadcast | signal | allocate | unblock => exact Phase.push hP
  | waitReturn | signalNone | broadcastEnd | preemptStay | setStay => exact hret id hstay hP
  | @create _ p =>
      refine Phase.push (Revoked.set (k := k) (t := k.threads) hP (fun u hu => ?_) (fun _ _ => ?_)
        (fun u => ?_) rfl rfl rfl)
      · exact ⟨Function.update_of_ne hu .., Function.update_of_ne hu ..⟩
      · show update k.priority k.threads p k.threads = update k.priorityOld k.threads p k.threads
        rw [Function.update_self, Function.update_self]
      · show update k.donators k.threads [] u = _ ∨ update k.donators k.threads [] u = []
        rw [Function.update_apply]
        split
        · exact .inr rfl
        · exact .inl rfl
  | @setPriority _ n =>
      refine Phase.push (Revoked.set (k := k) (t := k.current) hP (fun u hu => ?_) (fun _ _ => ?_)
        (fun _ => .inl rfl) rfl rfl rfl)
      · exact ⟨Function.update_of_ne hu .., Function.update_of_ne hu ..⟩
      · show update k.priority k.current n k.current = update k.priorityOld k.current n k.current
        rw [Function.update_self, Function.update_self]
  | setOld hne =>
      refine hret id hstay (Revoked.set (k := k) (t := k.current) hP (fun u hu => ?_)
        (fun _ heq => (hne heq.symm).elim) (fun _ => .inl rfl) rfl rfl rfl)
      exact ⟨rfl, Function.update_of_ne hu ..⟩
  | @switch _ k₁ _ u ready hp hn =>
      have hr : Revoked (k₁.dispatch u ready) := by
        cases hp with
        | block hf => exact hP.block hf rfl rfl rfl rfl rfl rfl
        | up => exact Revoked.up (k := k) hP hguard hcode rfl rfl rfl rfl rfl rfl
        | _ => exact hP
      exact Phase.parked (hk.parks hcode hp _) hr hr.resumes

theorem reachable_atRevocation (hr : Reachable step revokes (boot v) k) : AtRevocation k := by
  refine Phase.reachable (fun _ _ hg => hg.1) ⟨fun _ _ => .inl rfl, nofun, fun _ => .nil⟩
    (fun k c hB => by cases c <;> exact hB) (fun k f st k' hr hk ht hg hcode hx => ?_) hr
  obtain ⟨es, hrun⟩ := hr
  have hguard := run_guarded (hrun.mono fun _ _ _ => trivial)
  exact AtRevocation.exec hk hguard ht hg hcode hx

/-- The statements between a donation and the wait that follows it, and between
`lock->holder = NULL` and the revocation. -/
def Frame.unsettled : Frame → Prop
  | .donate _ | .donateNext _ | .lockAcquireDown _ | .semaphoreDown (.lock _) => True
  | .lockReleaseRevoke _ => True
  | _ => False

/-- At the other statements only threads that are waited for are boosted. -/
theorem RevokedAt.unboosted (hP : RevokedAt k f st) (hf : ¬ f.unsettled) (ht : k.Unawaited t) :
    k.priority t = k.priorityOld t := by
  have hself {F : Thread → Lock → Prop} (hr : RevokedBut k (fun _ => False) F) :
      k.priority t = k.priorityOld t := (hr.unboosted ht).resolve_right id
  cases f with
  | donate | donateNext | lockAcquireDown | lockReleaseRevoke => exact (hf trivial).elim
  | semaphoreDown s =>
      cases s with
      | lock => exact (hf trivial).elim
      | _ => exact hself hP
  | lockAcquirePush => exact hself hP.1
  | _ => exact hself hP

/-- The holder of `m` is blocked on `n`. -/
def Kernel.Leads (k : Kernel) (m n : Lock) : Prop := ∃ h, k.holder m = some h ∧ k.BlockedIn h n

/-- **Donated priorities are revoked**: in every run whose steps meet `revokes`,
* every thread on whose locks nobody is blocked has its own priority, unless the running thread
  is between a donation and its wait or between giving up a lock and the revocation;
* `donate` boosts the holder of a lock only for a caller that is about to wait for it, directly or
  through a chain of locks whose holders are blocked. -/
theorem boosts_revoked (hr : Reachable step revokes (boot v) k) :
    ((∀ f st, k.code = f :: st → ¬ f.unsettled) → ∀ t,
      (∀ l, k.holder l = some t → ∀ u, ¬ k.BlockedIn u l) → k.priority t = k.priorityOld t) ∧
    ∀ m l st, k.code = .donate m :: .lockAcquireDown l :: st →
      Relation.ReflTransGen k.Leads l m := by
  have hat := reachable_atRevocation hr
  constructor
  · intro hf t ht
    have hun : k.Unawaited t := fun l hl =>
      List.eq_nil_iff_forall_not_mem.mpr fun u hu => ht l hl u ((blockedIn_iff hr).mpr hu)
    cases hcode : k.code with
    | nil => exact (((Phase.nil hcode).mp hat).unboosted hun).resolve_right id
    | cons f st =>
        exact (((Phase.cons hcode).mp hat).unboosted (hf f st hcode) hun)
  · intro m l st hcode
    have hcame := ((Phase.cons hcode).mp hat l st rfl).2.1
    refine Relation.ReflTransGen.mono (fun m n hmn => ?_) _ _ hcame
    obtain ⟨h, hh, hw⟩ := hmn
    exact ⟨h, hh, (blockedIn_iff hr).mpr hw⟩

-- A thread of priority 40 comes to wait for the lock of the initial thread, of priority 31.
example : (execute step (Call.steps (.lockAcquire 0) 4 ++ Call.steps (.threadCreate 40) 11 ++
    Call.steps (.lockAcquire 0) 10) (boot fun _ => 0)).any fun k =>
      k.current = 0 ∧ k.priority 0 = 40 ∧ k.priorityOld 0 = 31 := by
  decide +kernel

/-- Some thread is blocked on a lock of `t`. -/
def Kernel.awaited (k : Kernel) (t : Thread) : Bool :=
  (List.range k.threads).any fun u =>
    match k.stack u with
    | .semaphoreDownLoop (.lock l) :: _ => k.holder l = some t
    | _ => false

theorem Consistent.not_awaited (hk : Consistent k) (ha : ¬ k.awaited t) :
    ∀ l, k.holder l = some t → ∀ u, ¬ k.BlockedIn u l := by
  rintro l hl u ⟨-, st, hst⟩
  refine ha (List.any_eq_true.mpr ⟨u, List.mem_range.mpr ?_, by simp [hst, hl]⟩)
  by_contra hlt
  rw [hk.control.fresh u (not_lt.mp hlt)] at hst
  cases hst

/-- The chain of `chain`, and the initial thread releases lock `0`. -/
def releaseChain : List Action := chain ++ Call.steps (.lockRelease 0) 5

/-- A test that the steps of `releaseChain` pass. -/
def followsWaits (k : Kernel) (_ : Action) : Bool :=
  match k.code with
  | .donateNext m :: _ => (k.holder m).all fun h =>
      (k.blocker h).all fun n => h ∈ k.waiters (.lock n)
  | .lockReleaseRevoke l :: _ =>
      k.donator l ≠ none ∨ k.priority k.current = k.priorityOld k.current ∨
        (k.holder (.user 0) = some k.current ∧ k.waiters (.lock (.user 0)) ≠ [])
  | _ => true

theorem revokes_of_followsWaits (hc : coop k a) (hg : followsWaits k a) : revokes k a := by
  refine ⟨hc, ?_⟩
  unfold followsWaits at hg
  split
  · rename_i m st hcode
    intro h n g hh hb _ _
    simpa [hcode, hh, hb] using hg
  · rename_i l st hcode
    intro hd
    rw [hcode] at hg
    rcases of_decide_eq_true hg with hne | heq | hw
    · exact (hne hd).elim
    · exact .inl heq
    · exact .inr ⟨_, hw⟩
  · trivial

theorem boosts_revoked_releaseChain : ∃ k, Reachable step revokes (boot fun _ => 0) k ∧
    k.code = [] ∧ k.current = 2 ∧ k.holder (.user 0) = some 2 ∧ k.priority 2 = 33 ∧
    k.priority 0 = k.priorityOld 0 := by
  have hex : (execute (checked followsWaits step) releaseChain (boot fun _ => 0)).any fun k =>
      k.code = [] ∧ k.current = 2 ∧ k.holder (.user 0) = some 2 ∧ k.priority 2 = 33 ∧
      ¬ k.awaited 0 := by
    decide +kernel
  obtain ⟨k, hk, he⟩ := (Option.any_eq_true _ _).mp hex
  obtain ⟨hcode, hcur, hh, hp, ha⟩ := of_decide_eq_true he
  have hrun := execute_run (G := coop)
    (coop_of_call_run (by simp [releaseChain, chain, Call.steps])) .nil hk
  have hr : Reachable step revokes (boot fun _ => 0) k :=
    ⟨_, hrun.of_checked.mono fun _ _ h => revokes_of_followsWaits h.2 h.1⟩
  have hf (f : Frame) (st : List Frame) (he : k.code = f :: st) : ¬ f.unsettled := by
    rw [hcode] at he
    cases he
  exact ⟨k, hr, hcode, hcur, hh, hp,
    (boosts_revoked hr).1 hf 0 ((reachable_consistent hr).not_awaited ha)⟩

/-- Thread `2` has donated for lock `0`, acquired and released it, and sleeps holding lock `1`.  The
initial thread acquires lock `0` again, and thread `3` donates for lock `1`. -/
def boostStale : List Action :=
  Call.steps (.lockAcquire 0) 4 ++ Call.steps (.threadCreate 40) 11 ++
  Call.steps (.lockAcquire 1) 4 ++ Call.steps (.lockAcquire 0) 10 ++
  Call.steps (.lockRelease 0) 5 ++ Call.steps (.lockRelease 0) 3 ++
  Call.steps (.semaphoreDown 0) 1 ++ Call.steps (.lockAcquire 0) 4 ++
  Call.steps (.threadCreate 50) 11 ++ Call.steps (.lockAcquire 1) 12

/-- The initial thread is boosted, although nobody waits for a lock that it holds. -/
theorem stale_boost_remains : ∃ k, Reachable step coop (boot fun _ => 0) k ∧ k.code = [] ∧
    (∀ l, k.holder l = some 0 → ∀ u, ¬ k.BlockedIn u l) ∧ k.priority 0 = 50 ∧
    k.priorityOld 0 = 31 := by
  have hex : (execute step boostStale (boot fun _ => 0)).any fun k =>
      k.code = [] ∧ ¬ k.awaited 0 ∧ k.priority 0 = 50 ∧ k.priorityOld 0 = 31 := by
    decide +kernel
  obtain ⟨k, hk, he⟩ := (Option.any_eq_true _ _).mp hex
  obtain ⟨hcode, ha, hp, ho⟩ := of_decide_eq_true he
  have hr := execute_reachable (G := coop)
    (coop_of_call_run (by simp [boostStale, Call.steps])) .refl hk
  exact ⟨k, hr, hcode, (reachable_consistent hr).not_awaited ha, hp, ho⟩

end CSE130.Lab2
