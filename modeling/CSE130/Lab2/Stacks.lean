import CSE130.Lib.Transition
import CSE130.Lab2.Steps

/-! # Control: the shape of the stacks

`Flow k f fs` is the control-flow graph of the code: executing `f` leaves `fs` in its place
on the running thread's stack, where `n` and `m` are the numbers of the next `waiter` semaphore
and of the next thread.

From it comes the shape of every stack (`WellStacked`): at most one *outer* frame, that of a
function which calls the lock and semaphore functions, lies at the bottom, and `semaphore_down`
and `donate` sit on the callers they return to.  A thread *parked* by a voluntary switch is at
an outer frame, in the loop of `semaphore_down` or of `idle`, or outside the functions. -/

namespace CSE130.Lab2

open Function (update)
open Transition

variable {k k' : Kernel} {f g : Frame} {fs st : List Frame} {t u : Thread}

/-! ### The control-flow graph -/

/-- Executing `f` leaves `fs` in its place. -/
inductive Flow (k : Kernel) : Frame → List Frame → Prop
  | ret (f : Frame) : f ≠ .idle → Flow k f []
  | acquireFree (l : Lock) : Flow k (.lockAcquire l) [.lockAcquireDown l]
  | acquireHeld (l : Lock) : Flow k (.lockAcquire l) [.lockAcquireContains l]
  | containsTrue (l : Lock) : Flow k (.lockAcquireContains l) [.lockAcquireDonator l]
  | containsFalse (l : Lock) : Flow k (.lockAcquireContains l) [.lockAcquirePush l]
  | push (l : Lock) : Flow k (.lockAcquirePush l) [.lockAcquireDonator l]
  | donator (l : Lock) : Flow k (.lockAcquireDonator l) [.lockAcquireCompare l]
  | compareTrue (l : Lock) : Flow k (.lockAcquireCompare l) [.lockAcquireBlocker l]
  | compareFalse (l : Lock) : Flow k (.lockAcquireCompare l) [.lockAcquireDown l]
  | blocker (l : Lock) : Flow k (.lockAcquireBlocker l) [.donate l, .lockAcquireDown l]
  | down (l : Lock) :
      Flow k (.lockAcquireDown l) [.semaphoreDown (.lock l), .lockAcquireHold l]
  | donate (l : Lock) : Flow k (.donate l) [.donateNext l]
  | donateNext (l l' : Lock) : Flow k (.donateNext l) [.donate l']
  | release (l : Lock) : Flow k (.lockRelease l) [.lockReleaseRevoke l]
  | revoke (l : Lock) : Flow k (.lockReleaseRevoke l) [.semaphoreUp (.lock l)]
  | block {f : Frame} (s : Semaphore) : f = .semaphoreDown s ∨ f = .semaphoreDownLoop s →
      Flow k f [.semaphoreDownLoop s]
  | wait (c : Condvar) (l : Lock) :
      Flow k (.condvarWait c l) [.lockRelease l, .condvarWaitDown c l k.frames]
  | waitDown (c : Condvar) (l : Lock) (w : ℕ) :
      Flow k (.condvarWaitDown c l w) [.semaphoreDown (.waiter w), .condvarWaitAcquire l w]
  | waitAcquire (l : Lock) (w : ℕ) :
      Flow k (.condvarWaitAcquire l w) [.lockAcquire l, .condvarWaitReturn w]
  | signal (c : Condvar) (l : Lock) (w : ℕ) : w ∈ k.condWaiters c →
      Flow k (.condvarSignal c l) [.semaphoreUp (.waiter w)]
  | broadcast (c : Condvar) (l : Lock) :
      Flow k (.condvarBroadcast c l) [.condvarSignal c l, .condvarBroadcast c l]
  | create (p : ℤ) : Flow k (.threadCreate p) [.lockAcquire .tid, .allocateTid k.threads]
  | allocate (t : Thread) :
      Flow k (.allocateTid t) [.lockRelease .tid, .threadCreateUnblock t]
  | unblock (t : Thread) : Flow k (.threadCreateUnblock t) [.threadCreatePreempt t]
  | setPriority (p g : ℤ) :
      Flow k (.threadSetPriority p g) [.threadSetPriorityPreempt p g]
  | idle : Flow k .idle [.idle]

/-- Executing a statement rewrites the top of the running thread's stack along `Flow`. -/
theorem Exec.flow (hx : Exec f (k.popped st) k') (hs : k.stack k.threads = [])
    (hc : k.current ≠ k.threads) : ∃ fs, Flow k f fs ∧
      k'.stack = update k.stack k.current (fs ++ st) := by
  have stay : update k.stack k.current st = update k.stack k.current ([] ++ st) := rfl
  cases hx with
  | acquireFree => exact ⟨_, .acquireFree _, by simp [Kernel.push]⟩
  | acquireHeld => exact ⟨_, .acquireHeld _, by simp [Kernel.push]⟩
  | containsTrue => exact ⟨_, .containsTrue _, by simp [Kernel.push]⟩
  | containsFalse => exact ⟨_, .containsFalse _, by simp [Kernel.push]⟩
  | push => exact ⟨_, .push _, by simp [Kernel.push]⟩
  | donator => exact ⟨_, .donator _, by simp [Kernel.push]⟩
  | compareTrue => exact ⟨_, .compareTrue _, by simp [Kernel.push]⟩
  | compareFalse => exact ⟨_, .compareFalse _, by simp [Kernel.push]⟩
  | blocker => exact ⟨_, .blocker _, by simp [Kernel.push]⟩
  | down => exact ⟨_, .down _, by simp [Kernel.push]⟩
  | donate => exact ⟨_, .donate _, by simp [Kernel.push]⟩
  | donateNext => exact ⟨_, .donateNext _ _, by simp [Kernel.push]; rfl⟩
  | release => exact ⟨_, .release _, by simp [Kernel.push]⟩
  | revokeNone => exact ⟨_, .revoke _, by simp [Kernel.push]⟩
  | revoke => exact ⟨_, .revoke _, by simp [Kernel.push]⟩
  | take hf => exact ⟨_, .ret _ (by rcases hf with rfl | rfl <;> simp), stay⟩
  | wait => exact ⟨_, .wait _ _, by simp [Kernel.push]; rfl⟩
  | waitDown => exact ⟨_, .waitDown _ _ _, by simp [Kernel.push]⟩
  | waitAcquire => exact ⟨_, .waitAcquire _ _, by simp [Kernel.push]⟩
  | signal _ _ hp =>
      exact ⟨_, .signal _ _ _ (hp.subset List.mem_cons_self), by simp [Kernel.push]⟩
  | broadcast => exact ⟨_, .broadcast _ _, by simp [Kernel.push]⟩
  | create =>
      -- the stack of the new thread is empty before and after
      have he : update (update k.stack k.current st) k.threads [] = update k.stack k.current st := by
        rw [Function.update_eq_self_iff, Function.update_of_ne hc.symm, hs]
      exact ⟨_, .create _, by simp [Kernel.push, Kernel.initThread, Kernel.popped, he]⟩
  | allocate => exact ⟨_, .allocate _, by simp [Kernel.push, Kernel.allocateTid]⟩
  | unblock => exact ⟨_, .unblock _, by simp [Kernel.push]⟩
  | setPriority => exact ⟨_, .setPriority _ _, by simp [Kernel.push]⟩
  | switch hp =>
      cases hp with
      | block hf => exact ⟨_, .block _ hf, by simp [Kernel.blockedOn, Kernel.dispatch]⟩
      | idle => exact ⟨_, .idle, by simp [Kernel.push, Kernel.dispatch]⟩
      | _ => exact ⟨_, .ret _ (by simp), stay⟩
  | _ => exact ⟨_, .ret _ (by simp), stay⟩

/-! ### Well-formed stacks -/

/-- The frames from which `lock_acquire`, `lock_release`, `semaphore_down` or `condvar_signal`
has been called and will return. -/
def Frame.isOuter : Frame → Prop
  | .condvarWaitDown .. | .condvarWaitAcquire .. | .condvarWaitReturn _ => True
  | .condvarBroadcast .. | .allocateTid _ | .threadCreateUnblock _ => True
  | _ => False

/-- The frames of the functions that nothing modelled calls. -/
def Frame.isBase : Frame → Prop
  | .condvarWait .. | .threadCreate _ | .threadCreatePreempt _ => True
  | .threadSetPriority .. | .threadSetPriorityPreempt .. => True
  | .threadYield | .threadExit | .idle => True
  | f => f.isOuter

/-- The frames of `donate`. -/
def Frame.isDonate : Frame → Prop
  | .donate _ | .donateNext _ => True
  | _ => False

/-- Nothing, or one outer frame. -/
def Outer (st : List Frame) : Prop := st = [] ∨ ∃ f, st = [f] ∧ f.isOuter

/-- What lies below `semaphore_down(s)`. -/
def DownBelow (s : Semaphore) (st : List Frame) : Prop :=
  match s with
  | .sema _ => st = []
  | .lock l => ∃ st', st = .lockAcquireHold l :: st' ∧ Outer st'
  | .waiter w => ∃ l, st = [.condvarWaitAcquire l w]

/-- What lies below `f`. -/
def Below (f : Frame) (st : List Frame) : Prop :=
  match f with
  | .semaphoreDown s | .semaphoreDownLoop s => DownBelow s st
  | .donate _ | .donateNext _ => ∃ l st', st = .lockAcquireDown l :: st' ∧ Outer st'
  | f => (f.isBase → st = []) ∧ Outer st

/-- The stacks that the code builds. -/
def WellStacked : List Frame → Prop
  | [] => True
  | f :: st => Below f st

theorem Frame.isOuter.isBase (h : f.isOuter) : f.isBase := by
  cases f <;> simp_all [Frame.isOuter, Frame.isBase]

theorem Outer.wellStacked (h : Outer st) : WellStacked st := by
  obtain rfl | ⟨f, rfl, hf⟩ := h
  · trivial
  · have hb := hf.isBase
    cases f <;> simp_all [WellStacked, Below, Frame.isOuter, Outer]

theorem Outer.mem (h : Outer st) (hg : g ∈ st) : g.isOuter := by
  obtain rfl | ⟨f, rfl, hf⟩ := h
  · cases hg
  · rwa [List.mem_singleton.mp hg]

theorem Below.mem (h : Below f st) (hg : g ∈ st) :
    g.isOuter ∨ ∃ l, g = .lockAcquireHold l ∨ (g = .lockAcquireDown l ∧ f.isDonate) := by
  cases f with
  | semaphoreDown s | semaphoreDownLoop s =>
      cases s with
      | sema i =>
          have hnil : st = [] := h
          rw [hnil] at hg
          cases hg
      | lock l =>
          obtain ⟨st', rfl, ho⟩ := h
          rcases List.mem_cons.mp hg with rfl | hg
          · exact .inr ⟨l, .inl rfl⟩
          · exact .inl (ho.mem hg)
      | waiter w =>
          obtain ⟨l, rfl⟩ := h
          rw [List.mem_singleton.mp hg]
          exact .inl trivial
  | donate _ | donateNext _ =>
      obtain ⟨l, st', rfl, ho⟩ := h
      rcases List.mem_cons.mp hg with rfl | hg
      · exact .inr ⟨l, .inr ⟨rfl, trivial⟩⟩
      · exact .inl (ho.mem hg)
  | _ => exact .inl (h.2.mem hg)

theorem Flow.wellStacked (hf : Flow k f fs) (h : WellStacked (f :: st)) :
    WellStacked (fs ++ st) := by
  have hnil : Outer [] := .inl rfl
  have hone {f : Frame} (h : f.isOuter) : Outer [f] := .inr ⟨f, rfl, h⟩
  cases hf with
  | ret hi =>
      cases f with
      | semaphoreDown s | semaphoreDownLoop s =>
          cases s with
          | sema i => simp only [WellStacked, Below, DownBelow] at h; subst h; trivial
          | lock l =>
              obtain ⟨st', rfl, ho⟩ := h
              exact ⟨nofun, ho⟩
          | waiter w =>
              obtain ⟨l, rfl⟩ := h
              exact (hone (f := .condvarWaitAcquire l w) trivial).wellStacked
      | donate l | donateNext l =>
          obtain ⟨l', st', rfl, ho⟩ := h
          exact ⟨nofun, ho⟩
      | _ => exact h.2.wellStacked
  | blocker l => exact ⟨l, st, rfl, h.2⟩
  | down l => exact ⟨st, rfl, h.2⟩
  | donate l => exact h
  | donateNext l l' => exact h
  | block s hs => rcases hs with rfl | rfl <;> exact h
  | wait c l => obtain rfl := h.1 trivial; exact ⟨nofun, hone trivial⟩
  | waitDown c l w => obtain rfl := h.1 trivial; exact ⟨l, rfl⟩
  | waitAcquire l w => obtain rfl := h.1 trivial; exact ⟨nofun, hone trivial⟩
  | broadcast c l => obtain rfl := h.1 trivial; exact ⟨nofun, hone trivial⟩
  | create p => obtain rfl := h.1 trivial; exact ⟨nofun, hone trivial⟩
  | allocate t => obtain rfl := h.1 trivial; exact ⟨nofun, hone trivial⟩
  | unblock t => obtain rfl := h.1 trivial; exact ⟨fun _ => rfl, hnil⟩
  | setPriority p g => obtain rfl := h.1 trivial; exact ⟨fun _ => rfl, hnil⟩
  | idle => obtain rfl := h.1 trivial; exact ⟨fun _ => rfl, hnil⟩
  | _ => exact ⟨nofun, h.2⟩

/-! ### Parked threads -/

/-- Where `schedule()` leaves a thread. -/
def Parked (st : List Frame) : Prop :=
  Outer st ∨ st = [.idle] ∨ ∃ s st', st = .semaphoreDownLoop s :: st'

theorem Parks.parked (hp : Parks f (k.popped st) k') (hw : WellStacked (f :: st)) :
    Parked (k'.stack k.current) := by
  have hcur (h : Outer st) : Parked ((k.popped st).stack k.current) := by
    rw [popped_stack, Function.update_self]
    exact .inl h
  cases hp with
  | @block _ _ s hf hv =>
      refine .inr (.inr ⟨s, st, ?_⟩)
      simp [Kernel.blockedOn]
  | idle =>
      obtain rfl := hw.1 trivial
      exact .inr (.inl (by simp [Kernel.push]))
  | _ => exact hcur hw.2

theorem Parks.stack_ne (hp : Parks f (k.popped st) k') (ht : t ≠ k.current) :
    k'.stack t = k.stack t := by
  cases hp with
  | block => simp [Kernel.blockedOn, Function.update_of_ne ht]
  | idle => simp [Kernel.push, Function.update_of_ne ht]
  | _ => exact Function.update_of_ne ht _ _

/-! ### Owners

A `waiter` semaphore belongs to the thread inside `condvar_wait` whose frame it lies in, and a
thread that has not been unblocked yet to the thread inside `thread_create`. -/

/-- Something that exactly one stack may mention. -/
inductive Token where
  | waiter (w : ℕ)
  | thread (t : Thread)

/-- What an outer frame owns. -/
def Frame.token : Frame → Option Token
  | .condvarWaitDown _ _ w | .condvarWaitAcquire _ w | .condvarWaitReturn w => some (.waiter w)
  | .allocateTid t | .threadCreateUnblock t => some (.thread t)
  | _ => none

/-- Thread `t` is inside a function that owns `x`. -/
def Kernel.Owns (k : Kernel) (t : Thread) (x : Token) : Prop :=
  ∃ f ∈ k.stack t, f.token = some x

/-- The semaphore or thread has been created. -/
def Kernel.Allotted (k : Kernel) : Token → Prop
  | .waiter w => w < k.frames
  | .thread t => t < k.threads

theorem Flow.token {x : Token} (hf : Flow k f fs) (hg : g ∈ fs) (hx : g.token = some x) :
    f.token = some x ∨ (f.token = none ∧ (x = .waiter k.frames ∧ (∃ c l, f = .condvarWait c l) ∨
      x = .thread k.threads ∧ ∃ p, f = .threadCreate p)) := by
  cases hf <;> simp at hg <;> simp_all [Frame.token]
  all_goals rcases hg with rfl | rfl <;> simp_all

theorem mem_push (hcode : k.code = []) :
    g ∈ (k.push f).stack t ↔ g ∈ k.stack t ∨ (t = k.current ∧ g = f) := by
  rw [Kernel.push_stack, Function.update_apply, hcode]
  split
  · rename_i he
    have hcode : k.stack k.current = [] := hcode
    simp [hcode, he]
  · rename_i he
    simp [he]

theorem token_frame (c : Call) : c.frame.token = none := by cases c <;> rfl

/-! ### The invariant of the stacks -/

/-- What is true of all stacks in every reachable state. -/
structure Stacks (k : Kernel) : Prop where
  shape : ∀ t, WellStacked (k.stack t)
  idle : k.stack k.idleThread = [.idle]
  fresh : ∀ t, k.threads ≤ t → k.stack t = []
  owned : ∀ t x, k.Owns t x → k.Allotted x
  unique : ∀ t u x, k.Owns t x → k.Owns u x → t = u

theorem boot_stacks (v : ℕ → BitVec 32) : Stacks (boot v) where
  shape t := by
    simp only [boot]
    split
    · exact ⟨fun _ => rfl, .inl rfl⟩
    · trivial
  idle := rfl
  fresh t ht := by
    have : t ≠ 1 := by simp only [boot] at ht; omega
    simp [boot, this]
  owned t x h := by
    obtain ⟨f, hf, hx⟩ := h
    simp only [boot] at hf
    split at hf <;> simp_all [Frame.token]
  unique t u x h := by
    obtain ⟨f, hf, hx⟩ := h
    simp only [boot] at hf
    split at hf <;> simp_all [Frame.token]

/-- Replacing the running thread's stack keeps the invariant if the new stack is well formed and
what it owns was owned by the thread before or is new. -/
theorem Stacks.update (hs : Stacks k) (hc : k.current < k.threads)
    (hst : k'.stack = update k.stack k.current fs) (hi : k'.idleThread = k.idleThread)
    (hn : k.frames ≤ k'.frames) (hm : k.threads ≤ k'.threads) (hw : WellStacked fs)
    (hidle : k.current = k.idleThread → fs = [.idle])
    (ht : ∀ g ∈ fs, ∀ x, g.token = some x →
      k.Owns k.current x ∨ (¬ k.Allotted x ∧ k'.Allotted x)) : Stacks k' := by
  have hmono (x : Token) (h : k.Allotted x) : k'.Allotted x := by
    cases x with
    | waiter w => exact lt_of_lt_of_le h hn
    | thread t => exact lt_of_lt_of_le h hm
  have hself {x : Token} (h : k'.Owns k.current x) :
      k.Owns k.current x ∨ (¬ k.Allotted x ∧ k'.Allotted x) := by
    obtain ⟨g, hg, hx⟩ := h
    rw [hst, Function.update_self] at hg
    exact ht g hg x hx
  have hother {t : Thread} {x : Token} (hne : t ≠ k.current) (h : k'.Owns t x) : k.Owns t x := by
    obtain ⟨g, hg, hx⟩ := h
    rw [hst, Function.update_of_ne hne] at hg
    exact ⟨g, hg, hx⟩
  -- what the running thread owns now, nobody else owned
  have hexcl {t : Thread} {x : Token} (hne : t ≠ k.current) (h : k'.Owns t x)
      (hcur : k'.Owns k.current x) : False := by
    have ho := hother hne h
    rcases hself hcur with h' | ⟨h', -⟩
    · exact hne (hs.unique _ _ x ho h')
    · exact h' (hs.owned _ x ho)
  refine ⟨fun t => ?_, ?_, fun t h => ?_, fun t x h => ?_, fun t u x h h' => ?_⟩
  · rw [hst, Function.update_apply]
    split
    · exact hw
    · exact hs.shape t
  · rw [hi, hst, Function.update_apply]
    split
    · rename_i he
      exact hidle he.symm
    · exact hs.idle
  · have hne : t ≠ k.current := (hc.trans_le (hm.trans h)).ne'
    rw [hst, Function.update_of_ne hne]
    exact hs.fresh t (hm.trans h)
  · by_cases hne : t = k.current
    · subst hne
      rcases hself h with h' | ⟨-, h'⟩
      · exact hmono x (hs.owned _ x h')
      · exact h'
    · exact hmono x (hs.owned t x (hother hne h))
  · by_cases hne : t = k.current
    · subst hne
      by_contra hu
      exact hexcl (Ne.symm hu) h' h
    · by_cases hne' : u = k.current
      · subst hne'
        exact (hexcl hne h h').elim
      · exact hs.unique t u x (hother hne h) (hother hne' h')

/-- A statement changes the counters only where it creates a semaphore or a thread. -/
theorem Exec.counters (hx : Exec f k k') : k'.idleThread = k.idleThread ∧
    k.frames ≤ k'.frames ∧ k.threads ≤ k'.threads ∧
    (∀ c l, f = .condvarWait c l → k'.frames = k.frames + 1) ∧
    (∀ p, f = .threadCreate p → k'.threads = k.threads + 1) := by
  cases hx with
  | take hf => rcases hf with rfl | rfl <;> exact ⟨rfl, le_rfl, le_rfl, nofun, nofun⟩
  | wait => exact ⟨rfl, Nat.le_succ _, le_rfl, fun _ _ _ => rfl, nofun⟩
  | create => exact ⟨rfl, le_rfl, Nat.le_succ _, nofun, fun _ _ => rfl⟩
  | switch hp =>
      cases hp with
      | block hf => rcases hf with rfl | rfl <;> exact ⟨rfl, le_rfl, le_rfl, nofun, nofun⟩
      | _ => exact ⟨rfl, le_rfl, le_rfl, nofun, nofun⟩
  | _ => exact ⟨rfl, le_rfl, le_rfl, nofun, nofun⟩

theorem Stacks.ne_idle (hs : Stacks k) (hcode : k.code ≠ [.idle]) : k.current ≠ k.idleThread := by
  intro he
  rw [Kernel.code, he, hs.idle] at hcode
  exact hcode rfl

/-- A thread owns nothing new but what it has just created. -/
theorem Stacks.owns_of {x : Token} (hs : Stacks k) (hc : k.current < k.threads)
    (hcode : k.code = f :: st) (hx : Exec f (k.popped st) k') (ho : k'.Owns t x) :
    k.Owns t x ∨ (t = k.current ∧ ((x = .waiter k.frames ∧ ∃ c l, f = .condvarWait c l) ∨
      (x = .thread k.threads ∧ ∃ p, f = .threadCreate p))) := by
  obtain ⟨fs, hf, hst⟩ := hx.flow (hs.fresh _ le_rfl) hc.ne
  obtain ⟨g, hg, hgx⟩ := ho
  rw [hst, Function.update_apply] at hg
  split at hg
  · rename_i he
    subst he
    have hin {g : Frame} (hg : g ∈ f :: st) (hgx : g.token = some x) : k.Owns k.current x :=
      ⟨g, by rw [← Kernel.code, hcode]; exact hg, hgx⟩
    rcases List.mem_append.mp hg with hg | hg
    · rcases hf.token hg hgx with h | ⟨-, h⟩
      · exact .inl (hin List.mem_cons_self h)
      · exact .inr ⟨rfl, h⟩
    · exact .inl (hin (List.mem_cons_of_mem f hg) hgx)
  · exact .inl ⟨g, hg, hgx⟩

theorem Stacks.exec (hs : Stacks k) (hc : k.current < k.threads) (hcode : k.code = f :: st)
    (hx : Exec f (k.popped st) k') : Stacks k' := by
  obtain ⟨fs, hf, hst⟩ := hx.flow (hs.fresh _ le_rfl) hc.ne
  obtain ⟨hi, hn, hm, hwait, hcreate⟩ := hx.counters
  refine hs.update hc hst hi hn hm (hf.wellStacked ?_) (fun he => ?_) fun g hg x hx' => ?_
  · rw [← hcode]
    exact hs.shape _
  · have hid := hs.idle
    rw [← he] at hid
    rw [Kernel.code, hid] at hcode
    cases hcode
    cases hf with
    | ret _ hne => exact (hne rfl).elim
    | block s h => rcases h with h | h <;> cases h
    | idle => rfl
  · have ho : k'.Owns k.current x := ⟨g, by rw [hst, Function.update_self]; exact hg, hx'⟩
    rcases hs.owns_of hc hcode hx ho with h | ⟨-, ⟨rfl, c, l, rfl⟩ | ⟨rfl, p, rfl⟩⟩
    · exact .inl h
    · refine .inr ⟨lt_irrefl k.frames, ?_⟩
      show k.frames < k'.frames
      rw [hwait c l rfl]
      exact Nat.lt_succ_self k.frames
    · refine .inr ⟨lt_irrefl k.threads, ?_⟩
      show k.threads < k'.threads
      rw [hcreate p rfl]
      exact Nat.lt_succ_self k.threads

theorem Stacks.call (hs : Stacks k) (hc : k.current < k.threads) (hcode : k.code = [])
    (c : Call) : Stacks (k.push c.frame) := by
  refine hs.update hc rfl rfl le_rfl le_rfl ?_ (fun he => ?_) fun g hg x hx => ?_
  · show Below c.frame (k.stack k.current)
    have hcode : k.stack k.current = [] := hcode
    rw [hcode]
    cases c <;> simp [Call.frame, Below, DownBelow, Outer]
  · exact (hs.ne_idle (by simp [hcode]) he).elim
  · have hcode : k.stack k.current = [] := hcode
    rw [hcode, List.mem_singleton] at hg
    rw [hg, token_frame] at hx
    cases hx

end CSE130.Lab2
