/-
# Waiting that a signal may end

`shannon_waitqueue.h`, `shannon_wait_event_interruptible`, on a queue where other tasks are in
`shannon_wait_event`.  The loop is that of `WaitEvent`, with a second test: if the condition is
false and a signal is pending, the waiter leaves with `-ERESTARTSYS`.

The wakers are more general too.  The condition may become false again at any time, as it does
when one of the waiters takes what it was waiting for, and a waker may look at
`shannon_waitqueue_active` first and walk the queue only if there is somebody on it.  A signal is
what the kernel makes of it, in two steps: it is marked as pending, and then the task is woken
if it is in `TASK_INTERRUPTIBLE`.

`interruptible_safe` is the result.  No wake-up is lost, of a waker or of a signal; and who is back
from the wait is running, is on no list, and got `0` only if it has found the condition true and
`-ERESTARTSYS` only if it asked for it and has found a signal.
-/

import Shannon.Waitqueue.WaitEvent

namespace Shannon
namespace Waitqueue
namespace Interruptible

open Lib Workqueue

/-- `ERESTARTSYS`. -/
def eRestartSys : ℤ := 512

/-! ### The system -/

/-- Where a waiter is.  As `Waitqueue.Pc`, and `checkSignal` is the test of
`shannon_signal_pending`. -/
inductive Pc where
  | out
  | define
  | prepare
  | check
  | checkSignal
  | schedule
  | setRunning
  | readNext
  | readPrev
  | delInit
deriving DecidableEq, Repr

/-- A task that waits now and then. -/
structure Thread where
  pc : Pc
  /-- Which of the two macros it is in. -/
  interruptible : Bool
  /-- `__ret`. -/
  ret : ℤ
  /-- A signal is pending. -/
  sig : Bool
  /-- A signal was marked as pending and its wake-up is still to come. -/
  signalling : Bool
  /-- What its last wait that is over returned. -/
  result : Option ℤ
  /-- Whether it has found the condition true in its last wait. -/
  sawTrue : Bool
  /-- Whether it has found a signal pending in its last wait. -/
  sawSignal : Bool
deriving DecidableEq, Repr

/-- A task that has not waited yet. -/
def Thread.init : Thread := ⟨.out, false, 0, false, false, none, false, false⟩

/-- The state that the macro gives to `shannon_prepare_to_wait`. -/
def Thread.state (th : Thread) : ℕ :=
  if th.interruptible then taskInterruptible else taskUninterruptible

variable {W K : Type*} [DecidableEq W]

/-- The queue, the tasks `W`, the condition, and which of the wakers `K` have made it true and not
finished. -/
structure State (W K : Type*) where
  queue : WaitQueue W
  thread : W → Thread
  cond : Bool
  waking : K → Bool

/-- What happens next. -/
inductive Act (W K : Type*) where
  /-- A task begins to wait, with a first test of the condition. -/
  | enter (w : W) (interruptible : Bool)
  /-- A waiter makes its next step. -/
  | waiter (w : W)
  /-- A waiter is woken by somebody else. -/
  | spurious (w : W)
  /-- A signal is marked as pending. -/
  | signal (w : W)
  /-- The wake-up of a signal. -/
  | signalWake (w : W)
  /-- A task that is not waiting takes its signals. -/
  | flush (w : W)
  /-- A waker makes the condition true. -/
  | makeTrue (k : K)
  /-- The condition becomes false. -/
  | makeFalse
  /-- A waker calls `shannon_wake_up`. -/
  | wakeUp (k : K) (fuel : ℕ)
  /-- A waker finds `shannon_waitqueue_active` false. -/
  | skip (k : K)

/-- Nobody waits. -/
def State.init (cond : Bool) : State W K :=
  ⟨⟨⟨id, id⟩, fun _ => false, fun _ => taskRunning⟩, fun _ => .init, cond, fun _ => false⟩

/-- The task `w` goes on as `th`. -/
def State.set (s : State W K) (w : W) (th : Thread) : State W K :=
  { s with thread := Function.update s.thread w th }

/-- `shannon_waitqueue_active`. -/
def shannonWaitqueueActive (q : WaitQueue W) : Bool := !shannonListEmpty q.links none

/-- The first test of the condition. -/
def enterStep (s : State W K) (w : W) (interruptible : Bool) : Option (State W K) :=
  let th := s.thread w
  if th.pc = .out then
    let th' := { th with
      interruptible := interruptible, ret := 0, sawTrue := s.cond, sawSignal := false }
    some (s.set w (if s.cond then { th' with result := some 0 } else { th' with pc := .define }))
  else none

/-- The next step of a waiter; none in `shannon_schedule` while the task is not running. -/
def waiterStep (s : State W K) (w : W) : Option (State W K) :=
  let th := s.thread w
  match th.pc with
  | .out => none
  | .define =>
      some ({ s with queue := shannonDefineWait s.queue w }.set w { th with pc := .prepare })
  | .prepare =>
      some ({ s with queue := shannonPrepareToWait s.queue w th.state }.set w
        { th with pc := .check })
  | .check =>
      some (s.set w (if s.cond then { th with pc := .setRunning, sawTrue := true }
        else { th with pc := if th.interruptible then .checkSignal else .schedule }))
  | .checkSignal =>
      some (s.set w (if th.sig then
          { th with pc := .setRunning, ret := -eRestartSys, sawSignal := true }
        else { th with pc := .schedule }))
  | .schedule =>
      if s.queue.task w = taskRunning then some (s.set w { th with pc := .prepare }) else none
  | .setRunning =>
      some ({ s with queue.task := Function.update s.queue.task w taskRunning }.set w
        { th with pc := .readNext })
  | .readNext =>
      some (s.set w { th with
        pc := if s.queue.links.next (some w) = some w then .readPrev else .delInit })
  | .readPrev =>
      some (s.set w (if s.queue.links.prev (some w) = some w then
          { th with pc := .out, result := some th.ret }
        else { th with pc := .delInit }))
  | .delInit =>
      some ({ s with queue.links := shannonListDelInit s.queue.links (some w) }.set w
        { th with pc := .out, result := some th.ret })

/-- The wake-up of a signal: only a task that is in `TASK_INTERRUPTIBLE`. -/
def signalWakeTask (task : ℕ) : ℕ := if task = taskInterruptible then taskRunning else task

/-- One step of the system. -/
def step [DecidableEq K] (s : State W K) : Act W K → Option (State W K)
  | .enter w interruptible => enterStep s w interruptible
  | .waiter w => waiterStep s w
  | .spurious w => some { s with queue.task := Function.update s.queue.task w taskRunning }
  | .signal w => some (s.set w { s.thread w with sig := true, signalling := true })
  | .signalWake w =>
      if (s.thread w).signalling then
        let task := Function.update s.queue.task w (signalWakeTask (s.queue.task w))
        some ({ s with queue.task := task }.set w { s.thread w with signalling := false })
      else none
  | .flush w =>
      if (s.thread w).pc = .out then some (s.set w { s.thread w with sig := false }) else none
  | .makeTrue k =>
      if s.waking k then none
      else some { s with cond := true, waking := Function.update s.waking k true }
  | .makeFalse => some { s with cond := false }
  | .wakeUp k fuel =>
      if s.waking k then
        (shannonWakeUp fuel s.queue wakeUpMode 1).map fun queue =>
          { s with queue := queue, waking := Function.update s.waking k false }
      else none
  | .skip k =>
      if s.waking k && !shannonWaitqueueActive s.queue then
        some { s with waking := Function.update s.waking k false }
      else none

/-- The waiter is blocked in `shannon_schedule`. -/
def State.Blocked (s : State W K) (w : W) : Prop :=
  (s.thread w).pc = .schedule ∧ s.queue.task w ≠ taskRunning

instance (s : State W K) (w : W) : Decidable (s.Blocked w) := inferInstanceAs (Decidable (_ ∧ _))

/-! ### The invariant -/

/-- A wait may return `r`. -/
def Thread.MayReturn (th : Thread) (r : ℤ) : Prop :=
  (r = 0 ∧ th.sawTrue = true) ∨
    (r = -eRestartSys ∧ th.interruptible = true ∧ th.sawSignal = true)

/-- A task that is asleep is on the queue, in the state its macro wants. -/
def Thread.Sleeps (th : Thread) (task : ℕ) (queued : Prop) : Prop :=
  task = taskRunning ∨ (task = th.state ∧ queued)

/-- What is known of a waiter by where it is. -/
def Thread.Fits (th : Thread) (task : ℕ) (queued : Prop) : Prop :=
  match th.pc with
  | .out => task = taskRunning ∧ ¬queued ∧ ∀ r, th.result = some r → th.MayReturn r
  | .define => task = taskRunning ∧ ¬queued ∧ th.ret = 0
  | .prepare => task = taskRunning ∧ th.ret = 0
  | .check => th.Sleeps task queued ∧ th.ret = 0
  | .checkSignal => th.Sleeps task queued ∧ th.interruptible = true ∧ th.ret = 0
  | .schedule => th.Sleeps task queued ∧ th.ret = 0 ∧
      (th.interruptible = true → th.sig = true → task ≠ taskRunning → th.signalling = true)
  | .setRunning => th.MayReturn th.ret
  | .readNext | .delInit => task = taskRunning ∧ th.MayReturn th.ret
  | .readPrev => task = taskRunning ∧ ¬queued ∧ th.MayReturn th.ret

/-- The waiter has found the condition false and its task is not running: it is blocked, or will
be unless a signal is pending. -/
def State.Dozes (s : State W K) (w : W) : Prop :=
  ((s.thread w).pc = .checkSignal ∨ (s.thread w).pc = .schedule) ∧ s.queue.task w ≠ taskRunning

/-- The queue is in order with the entries `xs` on it, every waiter fits, and nobody dozes when
the condition is true and nobody is waking. -/
structure Inv (s : State W K) (xs : List W) : Prop where
  queued : Queued s.queue xs
  fits : ∀ w, (s.thread w).Fits (s.queue.task w) (w ∈ xs)
  awake : s.cond = true → (∀ k, s.waking k = false) → ∀ w, ¬s.Dozes w

omit [DecidableEq W] in
theorem inv_init (cond : Bool) : Inv (State.init cond : State W K) [] where
  queued := ⟨⟨ring_nil_iff.2 ⟨rfl, rfl⟩, fun _ _ => ring_nil_iff.2 ⟨rfl, rfl⟩⟩, by simp⟩
  fits := fun _ => ⟨rfl, List.not_mem_nil, fun r hr => by cases hr⟩
  awake := fun _ _ w h => by rcases h.1 with h | h <;> cases h

/-- A step of one task leaves the others alone. -/
theorem Inv.set {s : State W K} {xs ys : List W} (hs : Inv s xs) {w : W} {th : Thread}
    {queue : WaitQueue W} (hq : Queued queue ys)
    (htask : ∀ v, v ≠ w → queue.task v = s.queue.task v)
    (hmem : ∀ v, v ≠ w → (v ∈ ys ↔ v ∈ xs)) (hfits : th.Fits (queue.task w) (w ∈ ys))
    (hsleep : th.pc = .checkSignal ∨ th.pc = .schedule → queue.task w ≠ taskRunning →
      s.cond = false ∨ s.Dozes w) : Inv ({ s with queue := queue }.set w th) ys := by
  refine ⟨hq, fun v => ?_, fun hcond hwaking v hdozes => ?_⟩
  · rcases eq_or_ne v w with rfl | hv
    · simpa [State.set] using hfits
    · simpa [State.set, hv, htask v hv, hmem v hv] using hs.fits v
  · rcases eq_or_ne v w with rfl | hv
    · have hpc : th.pc = .checkSignal ∨ th.pc = .schedule := by
        simpa [State.set] using hdozes.1
      rcases hsleep hpc hdozes.2 with hfalse | hbefore
      · rw [show s.cond = true from hcond] at hfalse
        cases hfalse
      · exact hs.awake hcond hwaking v hbefore
    · refine hs.awake hcond hwaking v ⟨?_, ?_⟩
      · simpa [State.set, hv] using hdozes.1
      · rw [← htask v hv]
        exact hdozes.2

/-- The same for a step that does not touch the queue. -/
theorem Inv.set_same {s : State W K} {xs : List W} (hs : Inv s xs) {w : W} {th : Thread}
    (hfits : th.Fits (s.queue.task w) (w ∈ xs))
    (hsleep : th.pc = .checkSignal ∨ th.pc = .schedule → s.queue.task w ≠ taskRunning →
      s.cond = false ∨ s.Dozes w) : Inv (s.set w th) xs :=
  hs.set hs.queued (fun _ _ => rfl) (fun _ _ => Iff.rfl) hfits hsleep

/-- **The first test keeps the invariant.** -/
theorem inv_enterStep {s t : State W K} {xs : List W} {w : W} {interruptible : Bool}
    (hs : Inv s xs) (h : enterStep s w interruptible = some t) : Inv t xs := by
  simp only [enterStep, Option.ite_none_right_eq_some, Option.some.injEq] at h
  obtain ⟨hpc, rfl⟩ := h
  have hfits := hs.fits w
  simp only [Thread.Fits, hpc] at hfits
  obtain ⟨hrunning, hout, -⟩ := hfits
  cases hcond : s.cond with
  | true =>
      refine hs.set_same ?_ (by simp [hpc])
      simp only [if_true, Thread.Fits, hpc]
      exact ⟨hrunning, hout, fun r hr => .inl ⟨(Option.some.inj hr).symm, rfl⟩⟩
  | false =>
      refine hs.set_same ?_ (by simp)
      exact ⟨hrunning, hout, rfl⟩

/-- **A step of a waiter keeps the invariant.** -/
theorem inv_waiterStep {s t : State W K} {xs : List W} {w : W} (hs : Inv s xs)
    (h : waiterStep s w = some t) : ∃ ys, Inv t ys := by
  have hfits := hs.fits w
  unfold waiterStep at h
  cases hpc : (s.thread w).pc with
  | out => simp [hpc] at h
  | define =>
      simp only [hpc, Option.some.injEq, Thread.Fits] at h hfits
      obtain ⟨hrunning, hout, hret⟩ := hfits
      have hq : Queued (shannonDefineWait s.queue w) xs := by
        refine ⟨hs.queued.list.selfLink hout, fun v hv => ?_⟩
        have hvw : v ≠ w := fun heq => hout (heq ▸ hv)
        simpa [shannonDefineWait, hvw] using hs.queued.exclusive v hv
      exact ⟨xs, h ▸ hs.set hq (fun _ _ => rfl) (fun _ _ => Iff.rfl) ⟨hrunning, hret⟩ (by simp)⟩
  | prepare =>
      simp only [hpc, Option.some.injEq, Thread.Fits] at h hfits
      obtain ⟨ys, hq, hw, hmem⟩ := hs.queued.prepare w (s.thread w).state
      refine ⟨ys, h ▸ hs.set hq (fun v hv => ?_) hmem ⟨.inr ⟨?_, hw⟩, hfits.2⟩ (by simp)⟩
      · simp [shannonPrepareToWait, hv]
      · simp [shannonPrepareToWait, Thread.state]
  | check =>
      simp only [hpc, Option.some.injEq, Thread.Fits] at h hfits
      refine ⟨xs, h ▸ hs.set_same ?_ ?_⟩
      · split_ifs with hcond hint
        · exact .inl ⟨hfits.2, rfl⟩
        · exact ⟨hfits.1, hint, hfits.2⟩
        · refine ⟨hfits.1, hfits.2, fun hint' => ?_⟩
          exact absurd hint' hint
      · split_ifs with hcond hint
        · simp
        · exact fun _ _ => .inl (by simpa using hcond)
        · exact fun _ _ => .inl (by simpa using hcond)
  | checkSignal =>
      simp only [hpc, Option.some.injEq, Thread.Fits] at h hfits
      refine ⟨xs, h ▸ hs.set_same ?_ ?_⟩
      · split_ifs with hsig
        · exact .inr ⟨rfl, hfits.2.1, rfl⟩
        · exact ⟨hfits.1, hfits.2.2, fun _ hsig' => absurd hsig' hsig⟩
      · split_ifs
        · simp
        · exact fun _ htask => .inr ⟨.inl hpc, htask⟩
  | schedule =>
      simp only [hpc, Option.ite_none_right_eq_some, Option.some.injEq, Thread.Fits] at h hfits
      exact ⟨xs, h.2 ▸ hs.set_same ⟨h.1, hfits.2.1⟩ (by simp)⟩
  | setRunning =>
      simp only [hpc, Option.some.injEq, Thread.Fits] at h hfits
      have hq : Queued { s.queue with task := Function.update s.queue.task w taskRunning } xs :=
        ⟨hs.queued.list, hs.queued.exclusive⟩
      refine ⟨xs, h ▸ hs.set hq (fun v hv => ?_) (fun _ _ => Iff.rfl) ⟨?_, hfits⟩ (by simp)⟩
      · simp [hv]
      · simp
  | readNext =>
      simp only [hpc, Option.some.injEq, Thread.Fits] at h hfits
      refine ⟨xs, h ▸ hs.set_same ?_ ?_⟩
      · split_ifs with hnext
        · exact ⟨hfits.1, hs.queued.list.next_eq_self_iff.1 hnext, hfits.2⟩
        · exact hfits
      · split_ifs <;> simp
  | readPrev =>
      simp only [hpc, Option.some.injEq, Thread.Fits] at h hfits
      refine ⟨xs, h ▸ hs.set_same ?_ ?_⟩
      · split_ifs
        · exact ⟨hfits.1, hfits.2.1, fun r hr => Option.some.inj hr ▸ hfits.2.2⟩
        · exact ⟨hfits.1, hfits.2.2⟩
      · split_ifs <;> simp
  | delInit =>
      simp only [hpc, Option.some.injEq, Thread.Fits] at h hfits
      obtain ⟨ys, hq, hw, hmem⟩ := hs.queued.delInit w
      refine ⟨ys, h ▸ hs.set hq (fun _ _ => rfl) hmem ⟨hfits.1, hw, fun r hr => ?_⟩ (by simp)⟩
      exact Option.some.inj hr ▸ hfits.2

/-- A task that is made running fits all the same. -/
theorem Thread.Fits.running {th : Thread} {task : ℕ} {queued : Prop} (h : th.Fits task queued) :
    th.Fits taskRunning queued := by
  unfold Thread.Fits at h ⊢
  cases hpc : th.pc with
  | out | define | readPrev => simp only [hpc] at h; exact ⟨rfl, h.2⟩
  | prepare | readNext | delInit => simp only [hpc] at h; exact ⟨rfl, h.2⟩
  | check | checkSignal => simp only [hpc] at h; exact ⟨.inl rfl, h.2⟩
  | schedule => simp only [hpc] at h; exact ⟨.inl rfl, h.2.1, fun _ _ hne => absurd rfl hne⟩
  | setRunning => simp only [hpc] at h; exact h

/-- A waiter that sleeps is woken by a walk over the queue. -/
theorem Thread.Sleeps.wokenTask {q : WaitQueue W} {xs : List W} {w : W} {th : Thread}
    (h : th.Sleeps (q.task w) (w ∈ xs)) : wokenTask q wakeUpMode xs w = taskRunning := by
  rcases h with hrunning | ⟨hstate, hw⟩
  · rw [Waitqueue.wokenTask, hrunning, ite_self]
  · have hmatch : th.state &&& wakeUpMode ≠ 0 := by
      unfold Thread.state
      split_ifs <;> decide
    rw [Waitqueue.wokenTask, if_pos ⟨hw, by rwa [hstate]⟩]

/-- A waiter fits after a walk over the queue, and does not doze. -/
theorem Thread.Fits.wokenTask {q : WaitQueue W} {xs zs : List W} {w : W} {th : Thread}
    (h : th.Fits (q.task w) (w ∈ xs)) (hzs : w ∈ zs → w ∈ xs) :
    th.Fits (wokenTask q wakeUpMode xs w) (w ∈ zs) ∧
      (th.pc = .checkSignal ∨ th.pc = .schedule →
        Waitqueue.wokenTask q wakeUpMode xs w = taskRunning) := by
  have hrunning (hr : q.task w = taskRunning) :
      Waitqueue.wokenTask q wakeUpMode xs w = taskRunning := by
    rw [Waitqueue.wokenTask, hr, ite_self]
  unfold Thread.Fits at h ⊢
  cases hpc : th.pc with
  | out | define | readPrev =>
      simp only [hpc] at h
      exact ⟨⟨hrunning h.1, fun hw => h.2.1 (hzs hw), h.2.2⟩, by simp⟩
  | prepare | readNext | delInit =>
      simp only [hpc] at h
      exact ⟨⟨hrunning h.1, h.2⟩, by simp⟩
  | check =>
      simp only [hpc] at h
      exact ⟨⟨.inl h.1.wokenTask, h.2⟩, by simp⟩
  | checkSignal =>
      simp only [hpc] at h
      exact ⟨⟨.inl h.1.wokenTask, h.2⟩, fun _ => h.1.wokenTask⟩
  | schedule =>
      simp only [hpc] at h
      exact ⟨⟨.inl h.1.wokenTask, h.2.1, fun _ _ hne => absurd h.1.wokenTask hne⟩,
        fun _ => h.1.wokenTask⟩
  | setRunning =>
      simp only [hpc] at h
      exact ⟨h, by simp⟩

/-- Signals matter only to a waiter that is blocked. -/
theorem Thread.Fits.signals {th : Thread} {task : ℕ} {queued : Prop} {sig signalling : Bool}
    (h : th.Fits task queued)
    (hsched : th.pc = .schedule → th.interruptible = true → sig = true → task ≠ taskRunning →
      signalling = true) : { th with sig := sig, signalling := signalling }.Fits task queued := by
  unfold Thread.Fits at h ⊢
  cases hpc : th.pc with
  | schedule =>
      simp only [hpc] at h
      exact ⟨h.1, h.2.1, hsched hpc⟩
  | out | define | prepare | check | checkSignal | setRunning | readNext | readPrev | delInit =>
      simp only [hpc] at h
      exact h

/-- The wake-up of a signal: who stays asleep has not asked for it. -/
theorem Thread.Fits.signalWake {th : Thread} {task : ℕ} {queued : Prop} (h : th.Fits task queued) :
    { th with signalling := false }.Fits (signalWakeTask task) queued := by
  unfold signalWakeTask
  split_ifs with htask
  · exact h.running.signals fun _ _ _ hne => absurd rfl hne
  · refine h.signals fun hpc hint _ hne => ?_
    -- It sleeps in the state of its macro, and that is `TASK_INTERRUPTIBLE`.
    simp only [Thread.Fits, hpc] at h
    rcases h.1 with hrunning | ⟨hstate, -⟩
    · exact absurd hrunning hne
    · simp only [Thread.state, hint, if_true] at hstate
      exact absurd hstate htask

variable [DecidableEq K]

omit [DecidableEq K] in
/-- Nobody is on a queue that is not active. -/
theorem eq_nil_of_not_active {q : WaitQueue W} {xs : List W} (hq : Queued q xs)
    (h : shannonListEmpty q.links none = true) : xs = [] := by
  have hnext := hq.list.next_none
  rw [show q.links.next none = none by simpa [shannonListEmpty] using h] at hnext
  exact List.head?_eq_none_iff.1 hnext.symm

/-- **Every step keeps the invariant.** -/
theorem inv_step {s t : State W K} {xs : List W} {a : Act W K} (hs : Inv s xs)
    (h : step s a = some t) : ∃ ys, Inv t ys := by
  cases a with
  | enter w interruptible => exact ⟨xs, inv_enterStep hs h⟩
  | waiter w => exact inv_waiterStep hs h
  | spurious w =>
      obtain rfl := Option.some.inj h
      refine ⟨xs, ⟨hs.queued.list, hs.queued.exclusive⟩, fun v => ?_, ?_⟩
      · rcases eq_or_ne v w with rfl | hv
        · simpa using (hs.fits v).running
        · simpa [hv] using hs.fits v
      · rintro hcond hwaking v ⟨hpc, htask⟩
        refine hs.awake hcond hwaking v ⟨hpc, fun hrunning => htask ?_⟩
        rcases eq_or_ne v w with rfl | hv
        · simp
        · simpa [hv] using hrunning
  | signal w =>
      obtain rfl := Option.some.inj h
      refine ⟨xs, hs.set_same ?_ fun hpc htask => .inr ⟨hpc, htask⟩⟩
      exact (hs.fits w).signals fun _ _ _ _ => rfl
  | signalWake w =>
      simp only [step, Option.ite_none_right_eq_some, Option.some.injEq] at h
      obtain ⟨-, rfl⟩ := h
      have hq : Queued { s.queue with
          task := Function.update s.queue.task w (signalWakeTask (s.queue.task w)) } xs :=
        ⟨hs.queued.list, hs.queued.exclusive⟩
      refine ⟨xs, hs.set hq (fun v hv => by simp [hv]) (fun _ _ => Iff.rfl) ?_ fun hpc htask => ?_⟩
      · simpa using (hs.fits w).signalWake
      · refine .inr ⟨hpc, fun hrunning => htask ?_⟩
        simp [hrunning, signalWakeTask, taskRunning, taskInterruptible]
  | flush w =>
      simp only [step, Option.ite_none_right_eq_some, Option.some.injEq] at h
      obtain ⟨hpc, rfl⟩ := h
      refine ⟨xs, hs.set_same ?_ (by simp [hpc])⟩
      exact (hs.fits w).signals fun _ _ hsig => by cases hsig
  | makeTrue k =>
      simp only [step, Option.ite_none_left_eq_some, Option.some.injEq] at h
      obtain ⟨-, rfl⟩ := h
      refine ⟨xs, hs.queued, hs.fits, fun _ hwaking => ?_⟩
      have hk := hwaking k
      simp at hk
  | makeFalse =>
      obtain rfl := Option.some.inj h
      exact ⟨xs, hs.queued, hs.fits, fun hcond => by cases hcond⟩
  | wakeUp k fuel =>
      simp only [step, Option.ite_none_right_eq_some, Option.map_eq_some_iff] at h
      obtain ⟨-, queue, hwake, rfl⟩ := h
      obtain ⟨zs, hq, -, htask, hmem⟩ :=
        (shannonWakeUp_spec wakeUpMode 1 hs.queued).2 fuel queue hwake
      have hfits (w : W) := (hs.fits w).wokenTask fun hw => ((hmem w).1 hw).1
      refine ⟨zs, hq, fun w => ?_, fun _ _ w hdozes => hdozes.2 ?_⟩
      · show (s.thread w).Fits (queue.task w) (w ∈ zs)
        rw [htask w]
        exact (hfits w).1
      · show queue.task w = taskRunning
        rw [htask w]
        exact (hfits w).2 hdozes.1
  | skip k =>
      simp only [step, Bool.and_eq_true, Option.ite_none_right_eq_some, Option.some.injEq,
        shannonWaitqueueActive, Bool.not_not] at h
      obtain ⟨⟨-, hempty⟩, rfl⟩ := h
      obtain rfl := eq_nil_of_not_active hs.queued hempty
      refine ⟨[], hs.queued, hs.fits, fun _ _ w hdozes => ?_⟩
      -- Who dozes is on the queue, and nobody is.
      have hfits := hs.fits w
      have hsleeps : (s.thread w).Sleeps (s.queue.task w) (w ∈ ([] : List W)) := by
        unfold Thread.Fits at hfits
        rcases hdozes.1 with hpc | hpc <;> rw [show (s.thread w).pc = _ from hpc] at hfits <;>
          exact hfits.1
      rcases hsleeps with hrunning | ⟨-, hmem⟩
      · exact hdozes.2 hrunning
      · exact List.not_mem_nil hmem

theorem inv_run {cond : Bool} {as : List (Act W K)} {s : State W K}
    (hrun : run step (State.init cond) as = some s) : ∃ xs, Inv s xs :=
  run_invariant (I := fun s => ∃ xs, Inv s xs) (fun _ _ _ ⟨_, hs⟩ h => inv_step hs h)
    ⟨[], inv_init cond⟩ hrun

/-! ### The result -/

/-- **Waiting is safe.**  In every state of every run, with waiters of both kinds on one queue, a
condition that comes and goes, and signals at any time:

* a waiter that is blocked while the condition is true has a waker that has not finished;
* a waiter that is blocked in `shannon_wait_event_interruptible` while a signal is pending has the
  wake-up of that signal to come;
* a task that is not waiting is running and on no list, and its last wait has returned `0` after it
  found the condition true, or `-ERESTARTSYS` after it found a signal, which only
  `shannon_wait_event_interruptible` does;
* a waker can finish, with a walk over the queue. -/
theorem interruptible_safe {cond : Bool} {as : List (Act W K)} {s : State W K}
    (hrun : run step (State.init cond) as = some s) :
    (∀ w, s.Blocked w → s.cond = true → ∃ k, s.waking k = true) ∧
    (∀ w, s.Blocked w → (s.thread w).interruptible = true → (s.thread w).sig = true →
      (s.thread w).signalling = true) ∧
    (∀ w, (s.thread w).pc = .out → s.queue.task w = taskRunning ∧ OnNoList s.queue w ∧
      ∀ r, (s.thread w).result = some r → (s.thread w).MayReturn r) ∧
    ∀ k, s.waking k = true → ∃ fuel t, step s (.wakeUp k fuel) = some t := by
  obtain ⟨xs, hs⟩ := inv_run hrun
  refine ⟨fun w hblocked hcond => ?_, fun w hblocked hint hsig => ?_, fun w hpc => ?_,
    fun k hk => ?_⟩
  · by_contra hnone
    refine hs.awake hcond (fun k => ?_) w ⟨.inr hblocked.1, hblocked.2⟩
    exact Bool.eq_false_iff.2 fun hk => hnone ⟨k, hk⟩
  · have hfits := hs.fits w
    simp only [Thread.Fits, hblocked.1] at hfits
    exact hfits.2.2 hint hsig hblocked.2
  · have hfits := hs.fits w
    simp only [Thread.Fits, hpc] at hfits
    exact ⟨hfits.1, hs.queued.onNoList hfits.2.1, hfits.2.2⟩
  · obtain ⟨queue, hwake⟩ := (shannonWakeUp_spec wakeUpMode 1 hs.queued).1
    exact ⟨xs.length, _, by simp only [step, hk, if_true, hwake]; rfl⟩

/-- One waiter of each kind goes to sleep; a signal comes for both and ends one of the waits; then
the condition becomes true, and the other one returns too. -/
def signalledRun : List (Act Bool Unit) :=
  List.flatten
    [[.enter false true, .enter true false], List.replicate 4 (.waiter false),
      List.replicate 3 (.waiter true), [.signal false, .signal true, .signalWake true],
      [.signalWake false], List.replicate 7 (.waiter false), [.makeTrue (), .wakeUp () 1],
      List.replicate 6 (.waiter true)]

/-- The hypothesis of `interruptible_safe` is satisfiable: `signalledRun` is a run, in the middle of
which the interruptible waiter is blocked with a signal to come, and which ends with
`-ERESTARTSYS` for one waiter and `0` for the other, both on no list. -/
theorem interruptible_signalledRun :
    (∃ s, run step (State.init false) (signalledRun.take 12) = some s ∧ s.Blocked false ∧
      (s.thread false).signalling = true) ∧
    ∃ s, run step (State.init false) signalledRun = some s ∧
      (s.thread false).result = some (-512) ∧ (s.thread true).result = some 0 ∧
      OnNoList s.queue false ∧ OnNoList s.queue true := by
  constructor
  · obtain ⟨s, hs⟩ : ∃ s, run step (State.init false) (signalledRun.take 12) = some s :=
      Option.isSome_iff_exists.1 (by decide +kernel)
    have hthread : ((run step (State.init false) (signalledRun.take 12)).map fun s =>
        decide (s.Blocked false ∧ (s.thread false).interruptible = true ∧
          (s.thread false).sig = true)) = some true := by decide +kernel
    rw [hs, Option.map_some, Option.some.injEq, decide_eq_true_iff] at hthread
    obtain ⟨hblocked, hint, hsig⟩ := hthread
    exact ⟨s, hs, hblocked, (interruptible_safe hs).2.1 false hblocked hint hsig⟩
  · obtain ⟨s, hs⟩ : ∃ s, run step (State.init false) signalledRun = some s :=
      Option.isSome_iff_exists.1 (by decide +kernel)
    have hthreads : ((run step (State.init false) signalledRun).map fun s =>
        decide (((s.thread false).pc = .out ∧ (s.thread true).pc = .out) ∧
          (s.thread false).result = some (-512) ∧ (s.thread true).result = some 0))
          = some true := by decide +kernel
    rw [hs, Option.map_some, Option.some.injEq, decide_eq_true_iff] at hthreads
    obtain ⟨⟨h0, h1⟩, hr0, hr1⟩ := hthreads
    have hsafe := (interruptible_safe hs).2.2.1
    exact ⟨s, hs, hr0, hr1, (hsafe false h0).2.1, (hsafe true h1).2.1⟩

end Interruptible
end Waitqueue
end Shannon
