import CSE130.Lab2.Donation

/-! # The chain that `donate` follows

`donate(lock)` goes from a lock to its holder, from there along `blocker` to the next lock, and
so on while the holders are below the running thread.  A step of this walk is sound
(`Follows`) if the holder exists, and if the holder's `blocker`, when there is one, is a lock
that has a holder and that the thread is blocked on.

`thread->blocker` is never cleared: it names the lock of the last `lock_acquire` in which the
thread donated (`donatedFor`), whether or not the thread still waits for it.
`donate_follows_iff` says when a call of `lock_acquire` walks a sound chain. -/

namespace CSE130.Lab2

open Function (update)
open Transition

variable {k k' X : Kernel} {f : Frame} {st : List Frame} {l m n : Lock} {t h : Thread}
  {v : ℕ → BitVec 32} {a : Action} {es : List Event} {d : Thread → Option Lock}

/-! ### The last donation of a thread -/

/-- The lock for which `t` donated in this event. -/
def donatesFor (t : Thread) (e : Event) : Option Lock :=
  match e.2, e.1.code with
  | .run, .lockAcquireBlocker l :: _ => if e.1.current = t then some l else none
  | _, _ => none

/-- The lock of the last `lock_acquire` in which `t` donated. -/
def donatedFor (t : Thread) (es : List Event) : Option Lock := es.findSome? (donatesFor t)

theorem Exec.blocker_cases (hx : Exec f k k') :
    (∃ l, f = .lockAcquireBlocker l ∧ k'.blocker = update k.blocker k.current (some l)) ∨
    ((∀ l, f ≠ .lockAcquireBlocker l) ∧
      (k'.blocker = k.blocker ∨ k'.blocker = update k.blocker k.threads none)) := by
  cases hx with
  | blocker => exact .inl ⟨_, rfl, rfl⟩
  | create => exact .inr ⟨nofun, .inr rfl⟩
  | take hf => exact .inr ⟨by rcases hf with rfl | rfl <;> exact nofun, .inl rfl⟩
  | switch hp =>
      cases hp with
      | block hf => exact .inr ⟨by rcases hf with rfl | rfl <;> exact nofun, .inl rfl⟩
      | _ => exact .inr ⟨nofun, .inl rfl⟩
  | _ => exact .inr ⟨nofun, .inl rfl⟩

/-- The `blocker` of a thread is the lock for which it donated last. -/
theorem run_blocker {G : Kernel → Action → Prop} (hr : Run step G (boot v) es k) :
    ∀ t, k.blocker t = donatedFor t es := by
  have hinv : (∀ t, k.blocker t = donatedFor t es) ∧ ∀ t, k.threads ≤ t → k.blocker t = none := by
    refine hr.invariant (I := fun es k => (∀ t, k.blocker t = donatedFor t es) ∧
      ∀ t, k.threads ≤ t → k.blocker t = none) ⟨fun _ => rfl, fun _ _ => rfl⟩
      fun es k a k' hr ⟨hb, hn⟩ _ hs => ?_
    have hcur := (reachable_consistent ⟨es, hr⟩).threads.current_lt
    cases step_inv hs with
    | @run _ _ f st hcode hx =>
        have hle : k.threads ≤ k'.threads := hx.counters.2.2.1
        rcases hx.blocker_cases with ⟨l, rfl, hb'⟩ | ⟨hne, hb'⟩
        · have hb' : k'.blocker = update k.blocker k.current (some l) := hb'
          refine ⟨fun t => ?_, fun t ht => ?_⟩
          · rw [hb', Function.update_apply, donatedFor, List.findSome?_cons, donatesFor, hcode]
            by_cases he : t = k.current
            · simp [he]
            · rw [if_neg he]
              simp only [if_neg (Ne.symm he)]
              exact hb t
          · have hlt : k.current < t := hcur.trans_le (hle.trans ht)
            rw [hb', Function.update_of_ne hlt.ne']
            exact hn t (hle.trans ht)
        · have hnone (t : Thread) : donatesFor t (k, .run) = none := by
            rw [donatesFor, hcode]
            split
            · rename_i heq
              exact (hne _ (List.cons.inj heq).1).elim
            · rfl
          have hsame : k'.blocker = k.blocker := by
            rcases hb' with hb' | hb'
            · exact hb'
            · refine hb'.trans (Function.update_eq_self_iff.mpr ?_)
              exact (hn k.threads le_rfl).symm
          refine ⟨fun t => ?_, fun t ht => ?_⟩
          · rw [hsame, donatedFor, List.findSome?_cons, hnone]
            exact hb t
          · rw [hsame]
            exact hn t (hle.trans ht)
    | _ => exact ⟨hb, hn⟩
  exact hinv.1

/-! ### The walk -/

/-- The statements of `lock_acquire` from the comparison to the return of `donate`. -/
def Frame.walks : Frame → Prop
  | .lockAcquireCompare _ | .lockAcquireBlocker _ | .donate _ | .donateNext _ => True
  | _ => False

/-- The running thread is in this part of `lock_acquire`. -/
def walking (k : Kernel) (a : Action) : Prop :=
  a = .run ∧ ∃ f st, k.code = f :: st ∧ f.walks

/-- If `donate` is about to read the holder of a lock, there is one; and the `blocker` of this
thread is `NULL`, or a lock that has a holder and that the thread is blocked on. -/
def Follows (k : Kernel) : Prop :=
  ∀ m st, k.code = .donate m :: st ∨ k.code = .donateNext m :: st →
    ∃ h, k.holder m = some h ∧ ∀ n, k.blocker h = some n →
      k.BlockedIn h n ∧ ∃ g, k.holder n = some g

/-- The threads to which a donation for `l` has to get: the holder of `l`, and with a thread that
is blocked on the lock `d` gives it the holder of this one, if it is below the running thread. -/
inductive Chain (k : Kernel) (d : Thread → Option Lock) (l : Lock) : Thread → Prop
  | holder {h : Thread} : k.holder l = some h → Chain k d l h
  | next {t g : Thread} {n : Lock} : Chain k d l t → d t = some n → k.BlockedIn t n →
      k.holder n = some g → k.priority g < k.priority k.current → Chain k d l g

theorem Chain.lt (hc : Chain k d l t) (hl : k.holder l = some h)
    (hlt : k.priority h < k.priority k.current) : k.priority t < k.priority k.current := by
  cases hc with
  | holder hh =>
      cases hl.symm.trans hh
      exact hlt
  | next _ _ _ _ hlt' => exact hlt'

/-- The walk from `k` comes to thread `t`. -/
def Visited (k : Kernel) (t : Thread) : Prop :=
  ∃ X m st, Reachable step walking k X ∧ X.code = .donateNext m :: st ∧ X.holder m = some t

/-- The `blocker` of every thread of the chain is `NULL` or a lock it is blocked on. -/
def Current (k : Kernel) (l : Lock) : Prop :=
  ∀ t n, Chain k k.blocker l t → k.blocker t = some n → k.BlockedIn t n

/-- Where the walk is. -/
def ChainAt (k : Kernel) (l : Lock) : Frame → Prop
  | .lockAcquireCompare m | .lockAcquireBlocker m => m = l
  | .donate m | .donateNext m => ∃ t, k.holder m = some t ∧ Chain k k.blocker l t
  | _ => True

/-- What a walk from `k` has changed when it is in `X`. -/
structure Walk (k : Kernel) (l : Lock) (X : Kernel) : Prop where
  consistent : Consistent X
  holder : X.holder = k.holder
  status : X.status = k.status
  current : X.current = k.current
  others : ∀ t, t ≠ k.current → X.stack t = k.stack t ∧ X.blocker t = k.blocker t
  self : X.priority k.current = k.priority k.current
  raised : ∀ t, X.priority t = k.priority t ∨
    X.priority t = k.priority k.current ∧ Visited k t
  chain : Current k l → Phase (fun _ => True) (fun _ f _ => ChainAt k l f) X

namespace Walk

theorem blockedIn (hw : Walk k l X) (ht : t ≠ k.current) : X.BlockedIn t n ↔ k.BlockedIn t n := by
  unfold Kernel.BlockedIn
  rw [hw.status, (hw.others t ht).1]

theorem keep (hw : Walk k l X) (hk' : Consistent k') (hh : k'.holder = X.holder)
    (hs : k'.status = X.status) (hc : k'.current = X.current)
    (ho : ∀ t, t ≠ X.current → k'.stack t = X.stack t ∧ k'.blocker t = X.blocker t)
    (hp : k'.priority = X.priority)
    (hchain : Current k l → Phase (fun _ => True) (fun _ f _ => ChainAt k l f) k') :
    Walk k l k' where
  consistent := hk'
  holder := hh.trans hw.holder
  status := hs.trans hw.status
  current := hc.trans hw.current
  others t ht := by
    obtain ⟨h₁, h₂⟩ := ho t (hw.current.symm ▸ ht)
    exact ⟨h₁.trans (hw.others t ht).1, h₂.trans (hw.others t ht).2⟩
  self := by
    rw [hp]
    exact hw.self
  raised := by
    rw [hp]
    exact hw.raised
  chain := hchain

theorem next {g h₀ : Thread} (hw : Walk k l X) (hcur : Current k l)
    (hl : k.holder l = some h₀) (hl' : k.priority h₀ < k.priority k.current)
    (hat : ChainAt k l (.donateNext m)) (hh : X.holder m = some h) (hb : X.blocker h = some n)
    (hn : X.holder n = some g) (hlt : X.priority g < X.priority X.current) :
    Chain k k.blocker l g := by
  obtain ⟨t, ht, hc⟩ := hat
  rw [hw.holder, ht, Option.some.injEq] at hh
  subst hh
  have hne : t ≠ k.current := by
    rintro rfl
    exact lt_irrefl _ (hc.lt hl hl')
  rw [(hw.others t hne).2] at hb
  rw [hw.holder] at hn
  rw [hw.current, hw.self] at hlt
  refine .next hc hb (hcur t n hc hb) hn ?_
  rcases hw.raised g with he | ⟨he, -⟩
  · exact he ▸ hlt
  · omega

theorem exec {h₀ : Thread} (hw : Walk k l X) (hr : Reachable step walking k k')
    (hk' : Consistent k') (hl : k.holder l = some h₀)
    (hl' : k.priority h₀ < k.priority k.current)
    (hcode : X.code = f :: st) (hf : f.walks) (hx : Exec f (X.popped st) k') : Walk k l k' := by
  have hstay : (X.popped st).code = st := popped_code X st
  have hstack {g : Frame} {t : Thread} (ht : t ≠ X.current) :
      ((X.popped st).push g).stack t = X.stack t := by
    simp [Kernel.push, Function.update_of_ne ht]
  have hwell : WellStacked (f :: st) := hcode ▸ hw.consistent.control.shape X.current
  have hat (hcur : Current k l) : ChainAt k l f := (Phase.cons hcode).mp (hw.chain hcur)
  cases hx with
  | compareTrue =>
      exact hw.keep hk' rfl rfl rfl (fun t ht => ⟨hstack ht, rfl⟩) rfl fun hcur =>
        Phase.push (hat hcur)
  | compareFalse =>
      exact hw.keep hk' rfl rfl rfl (fun t ht => ⟨hstack ht, rfl⟩) rfl fun hcur =>
        Phase.push trivial
  | @blocker _ m =>
      refine hw.keep hk' rfl rfl rfl (fun t ht => ⟨?_, Function.update_of_ne ht ..⟩) rfl
        fun hcur => Phase.push ?_
      · simp [Kernel.push, Function.update_of_ne ht]
      · obtain rfl : m = l := hat hcur
        exact ⟨h₀, hl, .holder hl⟩
  | @donate _ m h hh =>
      have hh : X.holder m = some h := hh
      have hself : X.priority X.current = k.priority k.current := hw.current ▸ hw.self
      refine ⟨hk', hw.holder, hw.status, hw.current, fun t ht => ?_, ?_, fun t => ?_,
        fun hcur => Phase.push (hat hcur)⟩
      · rw [← hw.current] at ht
        exact ⟨(hstack ht).trans (hw.others t (hw.current ▸ ht)).1,
          (hw.others t (hw.current ▸ ht)).2⟩
      · show update X.priority h (X.priority X.current) k.current = _
        rw [Function.update_apply]
        split
        · exact hself
        · exact hw.self
      · by_cases ht : t = h
        · subst ht
          exact .inr ⟨(Function.update_self ..).trans hself, _, m, _, hr, Kernel.push_code _ _, hh⟩
        · have hne : update X.priority h (X.priority X.current) t = X.priority t :=
            Function.update_of_ne ht ..
          exact (hw.raised t).imp hne.trans (And.imp_left hne.trans)
  | donateEnd | donateStop =>
      exact hw.keep hk' rfl rfl rfl (fun t ht => ⟨Function.update_of_ne ht .., rfl⟩) rfl
        fun hcur => Phase.ret_donate hwell hstay fun _ _ _ => trivial
  | donateNext hh hb hn hlt =>
      exact hw.keep hk' rfl rfl rfl (fun t ht => ⟨hstack ht, rfl⟩) rfl fun hcur =>
        Phase.push ⟨_, hw.holder ▸ hn, hw.next hcur hl hl' (hat hcur) hh hb hn hlt⟩
  | take h => rcases h with rfl | rfl <;> exact hf.elim
  | switch hp =>
      cases hp with
      | block h => rcases h with rfl | rfl <;> exact hf.elim
      | _ => exact hf.elim
  | _ => exact hf.elim

end Walk

theorem reachable_walk (hk : Consistent k) (hcode : k.code = .lockAcquireCompare l :: st)
    (hl : k.holder l = some h) (hlt : k.priority h < k.priority k.current)
    (hr : Reachable step walking k X) : Walk k l X := by
  refine hr.invariant ⟨hk, rfl, rfl, rfl, fun _ _ => ⟨rfl, rfl⟩, rfl, fun _ => .inl rfl,
    fun _ => (Phase.cons hcode).mpr rfl⟩ fun X a X' hr hw hg hs => ?_
  obtain ⟨rfl, f, st', hcode', hf⟩ := hg
  cases step_inv hs with
  | run hcode'' hx =>
      have hfx := hcode'.symm.trans hcode''
      rw [List.cons.injEq] at hfx
      exact hw.exec (hr.tail ⟨rfl, f, st', hcode', hf⟩ hs) (hw.consistent.step hs) hl hlt hcode''
        (hfx.1 ▸ hf) hx

theorem visited_donate (hr : Reachable step walking k X) (hcode : X.code = .donate m :: st)
    (hh : X.holder m = some t) : Visited k t := by
  have hs : step .run X = some (Kernel.push { X.popped st with
      priority := update X.priority t (X.priority X.current) } (.donateNext m)) := by
    simp [step, stepRun, hcode, exec, hh, Kernel.popped]
  exact ⟨_, m, _, hr.tail ⟨rfl, _, st, hcode, trivial⟩ hs, Kernel.push_code _ _, hh⟩

theorem visited_blocker (hr : Reachable step walking k X)
    (hcode : X.code = .lockAcquireBlocker l :: st) (hl : X.holder l = some t) : Visited k t := by
  have hs : step .run X = some ((Kernel.push { X.popped st with
      blocker := update X.blocker X.current (some l) } (.lockAcquireDown l)).push (.donate l)) := by
    simp [step, stepRun, hcode, exec, Kernel.popped]
  exact visited_donate (hr.tail ⟨rfl, _, st, hcode, trivial⟩ hs) (Kernel.push_code _ _) hl

theorem visited_holder (hcode : k.code = .lockAcquireCompare l :: st)
    (hl : k.holder l = some h) (hlt : k.priority h < k.priority k.current) : Visited k h := by
  have hs : step .run k = some ((k.popped st).push (.lockAcquireBlocker l)) := by
    simp [step, stepRun, hcode, exec, hl, hlt, Kernel.popped]
  exact visited_blocker (Reachable.refl.tail ⟨rfl, _, st, hcode, trivial⟩ hs)
    (Kernel.push_code _ _) hl

/-- If every step of the walk is sound, the walk comes to all threads of the chain. -/
theorem Chain.visited (hk : Consistent k) (hcode : k.code = .lockAcquireCompare l :: st)
    (hl : k.holder l = some h) (hlt : k.priority h < k.priority k.current)
    (hc : Chain k k.blocker l t) : Visited k t := by
  induction hc with
  | holder hh =>
      cases hl.symm.trans hh
      exact visited_holder hcode hl hlt
  | @next t g n hc hb ht hn hgt ih =>
      obtain ⟨X, m, st', hr, hcode', hm⟩ := ih
      have hw := reachable_walk hk hcode hl hlt hr
      have hne : t ≠ k.current := by
        rintro rfl
        exact lt_irrefl _ (hc.lt hl hlt)
      rcases hw.raised g with hg | ⟨-, hg⟩
      · have hn' : X.holder n = some g := hw.holder ▸ hn
        have hs : step .run X = some ((X.popped st').push (.donate n)) := by
          have hb' : X.blocker t = some n := (hw.others t hne).2.trans hb
          have hlt' : X.priority g < X.priority X.current := by
            rw [hg, hw.current, hw.self]
            exact hgt
          simp [step, stepRun, hcode', exec, hm, hb', hn', hlt', Kernel.popped]
        exact visited_donate (hr.tail ⟨rfl, _, st', hcode', trivial⟩ hs) (Kernel.push_code _ _) hn'
      · exact hg

/-- **When `donate` walks a sound chain.**  In every state in which a `lock_acquire(l)` is about
to donate, the walk that follows is sound if and only if every thread of the chain has never
donated, or is still blocked on the lock for which it donated last, and this lock is held. -/
theorem donate_follows_iff (hr : Run step coop (boot v) es k)
    (hcode : k.code = .lockAcquireCompare l :: st) (hl : k.holder l = some h)
    (hlt : k.priority h < k.priority k.current) :
    (∀ X, Reachable step walking k X → Follows X) ↔
      ∀ t n, Chain k (donatedFor · es) l t → donatedFor t es = some n →
        k.BlockedIn t n ∧ ∃ g, k.holder n = some g := by
  have hk := reachable_consistent ⟨es, hr⟩
  have hbt (t : Thread) : donatedFor t es = k.blocker t := (run_blocker hr t).symm
  simp only [hbt]
  constructor
  · intro H t n hc ht
    obtain ⟨X, m, st', hrX, hcodeX, hm⟩ := hc.visited hk hcode hl hlt
    have hw := reachable_walk hk hcode hl hlt hrX
    have hne : t ≠ k.current := by
      rintro rfl
      exact lt_irrefl _ (hc.lt hl hlt)
    obtain ⟨t', ht', hf⟩ := H X hrX m st' (.inr hcodeX)
    cases hm.symm.trans ht'
    obtain ⟨hblock, g, hg⟩ := hf n ((hw.others t hne).2.trans ht)
    exact ⟨(hw.blockedIn hne).mp hblock, g, hw.holder ▸ hg⟩
  · intro H X hrX m st' hcodeX
    have hw := reachable_walk hk hcode hl hlt hrX
    have hat : ∃ t, k.holder m = some t ∧ Chain k k.blocker l t := by
      have hphase := hw.chain fun t n hc ht => (H t n hc ht).1
      rcases hcodeX with hc | hc <;> exact (Phase.cons hc).mp hphase
    obtain ⟨t, hm, hc⟩ := hat
    have hne : t ≠ k.current := by
      rintro rfl
      exact lt_irrefl _ (hc.lt hl hlt)
    refine ⟨t, hw.holder ▸ hm, fun n hn => ?_⟩
    obtain ⟨hblock, g, hg⟩ := H t n hc ((hw.others t hne).2.symm.trans hn)
    exact ⟨(hw.blockedIn hne).mpr hblock, g, hw.holder ▸ hg⟩

/-- Thread `2` holds lock `1` and is blocked on lock `0`, for which it has donated to the initial
thread, and thread `3` comes to donate for lock `1`. -/
def meetChain : List Action :=
  Call.steps (.lockAcquire 0) 4 ++ Call.steps (.threadCreate 32) 11 ++
  Call.steps (.lockAcquire 1) 4 ++ Call.steps (.lockAcquire 0) 10 ++
  Call.steps (.threadCreate 33) 11 ++ Call.steps (.lockAcquire 1) 4

theorem donate_follows_meetChain : ∃ k, Reachable step coop (boot fun _ => 0) k ∧
    k.code = [.lockAcquireCompare (.user 1)] ∧ k.holder (.user 1) = some 2 ∧
    k.blocker 2 = some (.user 0) ∧ ∀ X, Reachable step walking k X → Follows X := by
  have hex : (execute step meetChain (boot fun _ => 0)).any fun k =>
      k.code = [.lockAcquireCompare (.user 1)] ∧ k.holder (.user 1) = some 2 ∧
      k.priority 2 < k.priority k.current ∧ k.holder (.user 0) = some 0 ∧
      k.blocker 2 = some (.user 0) ∧ k.blocker 0 = none ∧ 2 ∈ k.waiters (.lock (.user 0)) := by
    decide +kernel
  obtain ⟨k, hk, he⟩ := (Option.any_eq_true _ _).mp hex
  obtain ⟨hcode, h1, hlt, h0, hb, hb0, hw⟩ := of_decide_eq_true he
  obtain ⟨es, hr⟩ : Reachable step coop (boot fun _ => 0) k :=
    execute_reachable (coop_of_call_run (by simp [meetChain, Call.steps])) .refl hk
  have hb2 := (run_blocker hr 2).symm.trans hb
  have hbm := (run_blocker hr 0).symm.trans hb0
  have hmem (t : Thread) (hc : Chain k (donatedFor · es) (.user 1) t) : t = 2 ∨ t = 0 := by
    induction hc with
    | holder hh => exact .inl (Option.some.inj (hh.symm.trans h1))
    | next _ hd _ hn _ ih =>
        rcases ih with rfl | rfl
        · cases hd.symm.trans hb2
          exact .inr (Option.some.inj (hn.symm.trans h0))
        · cases hd.symm.trans hbm
  refine ⟨k, ⟨_, hr⟩, hcode, h1, hb, (donate_follows_iff hr hcode h1 hlt).mpr fun t n hc ht => ?_⟩
  rcases hmem t hc with rfl | rfl
  · cases ht.symm.trans hb2
    exact ⟨(blockedIn_iff ⟨_, hr⟩).mpr hw, 0, h0⟩
  · cases ht.symm.trans hbm

/-- Thread `2` holds lock `1`, and has acquired and released lock `0` after it donated for it;
thread `3` comes to donate for lock `1`. -/
def meetStale : List Action :=
  Call.steps (.lockAcquire 0) 4 ++ Call.steps (.threadCreate 40) 11 ++
  Call.steps (.lockAcquire 1) 4 ++ Call.steps (.lockAcquire 0) 10 ++
  Call.steps (.lockRelease 0) 5 ++ Call.steps (.lockRelease 0) 3 ++
  Call.steps (.threadCreate 50) 11 ++ Call.steps (.lockAcquire 1) 4

/-- Then `donate` follows the `blocker` that thread `2` has kept to lock `0`, which is free, and
dereferences its holder. -/
theorem donate_derefs_null : ∃ k X, Reachable step coop (boot fun _ => 0) k ∧
    k.code = [.lockAcquireCompare (.user 1)] ∧ k.holder (.user 1) = some 2 ∧
    k.priority 2 < k.priority k.current ∧ Reachable step walking k X ∧ ¬ Follows X ∧
    step .run X = none := by
  have hex : (execute step meetStale (boot fun _ => 0)).any fun k =>
      k.code = [.lockAcquireCompare (.user 1)] ∧ k.holder (.user 1) = some 2 ∧
      k.priority 2 < k.priority k.current ∧ k.blocker 2 = some (.user 0) ∧
      k.holder (.user 0) = none ∧ k.current ≠ 2 := by
    decide +kernel
  obtain ⟨k, hk, he⟩ := (Option.any_eq_true _ _).mp hex
  obtain ⟨hcode, h1, hlt, hb, h0, hne⟩ := of_decide_eq_true he
  have hr := execute_reachable (G := coop)
    (coop_of_call_run (by simp [meetStale, Call.steps])) .refl hk
  obtain ⟨X, m, st, hrX, hcodeX, hm⟩ := visited_holder hcode h1 hlt
  have hw := reachable_walk (reachable_consistent hr) hcode h1 hlt hrX
  have hbX : X.blocker 2 = some (.user 0) := (hw.others 2 hne.symm).2.trans hb
  have h0X : X.holder (.user 0) = none := hw.holder ▸ h0
  refine ⟨k, X, hr, hcode, h1, hlt, hrX, fun hf => ?_, ?_⟩
  · obtain ⟨h, hh, hf⟩ := hf m st (.inr hcodeX)
    cases hm.symm.trans hh
    obtain ⟨-, g, hg⟩ := hf _ hbX
    cases h0X.symm.trans hg
  · simp [step, stepRun, hcodeX, exec, hm, hbX, h0X]

end CSE130.Lab2
