/-
# The RT work queue

`shannon_workqueue.c`: one thread, `rt_thread_fn`, runs the works that any number
of producers queue with `shannon_rt_queue_work`.  Other threads wait for it with
`shannon_flush_rt_workqueue`, and `shannon_destroy_rt_workqueue` flushes and then
stops it.

A step is what is done under one lock, or one test, state change or call outside
of it, and the steps of all threads interleave in every way.  The emptiness test
of the thread is outside the lock, the PENDING bit is cleared before the function
runs, so that a work can be queued again by its own function, and the thread
sleeps after it has looked at the list under the lock once more.

What a step can change is said once, by `ThreadMoves`, `CallerMoves` and the
lemmas `step_func`, `step_queue` and `step_wake`.

`wake_up_process` makes a sleeping task run and does nothing to a running one;
`schedule` returns at once in a running task and otherwise when it is woken;
`schedule_timeout` also returns when the time is over.
-/

import Shannon.Lib.Run
import Shannon.Workqueue.Queue

namespace Shannon
namespace Workqueue

open Lib

variable {W P C : Type*}

/-! ### Threads -/

/-- `current->state`. -/
inductive TaskState where
  | running
  | interruptible
  | uninterruptible
deriving DecidableEq, Repr

/-- Where `rt_thread_fn` is: before the step that is named. -/
inductive Pc (W : Type*) where
  /-- `while (!shannon_list_empty(&rtwq->list))`, outside the lock. -/
  | test
  /-- The section that takes the first work. -/
  | take
  /-- In the function of `rtw`; with `wake`, in a call of `shannon_rt_queue_work`
  the function has made, before its `wake_up_process`. -/
  | run (rtw : W) (wake : Bool)
  /-- `++loop_count` and what depends on it. -/
  | count
  /-- `shannon_set_current_state(SHN_TASK_INTERRUPTIBLE)` before the pause. -/
  | pauseSet
  /-- `shannon_schedule_timeout(1)`. -/
  | pause
  /-- `shannon_set_current_state(SHN_TASK_RUNNING)` after it. -/
  | pauseDone
  /-- `shannon_wake_up(&rtwq->flush_event)`. -/
  | wakeFlush
  /-- `shannon_kthread_should_stop()`. -/
  | stopTest
  /-- The section that looks at the list again and prepares to sleep. -/
  | park
  /-- `shannon_schedule()`. -/
  | sched
  /-- It has returned. -/
  | exited
deriving DecidableEq, Repr

/-- `rt_thread_fn` with its local variables. -/
structure RtThread (W : Type*) where
  pc : Pc W
  state : TaskState
  loopCount : ℕ
  isRt : Bool
deriving DecidableEq, Repr

/-- Where a caller of `shannon_flush_rt_workqueue` or
`shannon_destroy_rt_workqueue` is. -/
inductive CallerPc where
  | idle
  /-- `shannon_wake_up_process(rtwq->thread)`. -/
  | wake
  /-- The first test of `shannon_wait_event`. -/
  | test
  /-- `shannon_prepare_to_wait`. -/
  | prepare
  /-- The test in its loop. -/
  | check
  /-- `shannon_schedule()`. -/
  | sched
  /-- `shannon_finish_wait`. -/
  | finish
  /-- The flush has returned. -/
  | returned
  /-- `kthread_stop`: set the flag. -/
  | stopSet
  /-- `kthread_stop`: wake the thread. -/
  | stopWake
  /-- `kthread_stop`: wait for its exit. -/
  | join
  /-- The queue is freed. -/
  | freed
deriving DecidableEq, Repr

/-- A caller: whether its wait entry is on `flush_event`, whether it came to
destroy the queue, and, read by no code, how many works had been queued with
success when it called. -/
structure Caller where
  pc : CallerPc
  state : TaskState
  onQueue : Bool
  destroys : Bool
  atCall : ℕ
deriving DecidableEq, Repr

/-- The queue with its thread, the producers that have still to call
`wake_up_process`, and the other callers.  `destroying` says that
`shannon_destroy_rt_workqueue` was called, `stopWoken` that `kthread_stop` has
woken the thread.  Nothing reads the last three fields: all calls of
`shannon_rt_queue_work` with the value returned, the works taken to be run, and
those whose function has returned. -/
structure State (W P C : Type*) where
  queue : RtQueue W
  thread : RtThread W
  wakes : P → Bool
  callers : C → Caller
  destroying : Bool
  shouldStop : Bool
  stopWoken : Bool
  calls : List (W × ℤ)
  executed : List W
  finished : List W

/-- The works queued with success, in the order of the calls. -/
def State.accepted (s : State W P C) : List W :=
  (s.calls.filter fun c => c.2 = 0).map Prod.fst

/-- `RT_MAX_LOOP_COUNT`. -/
def rtMaxLoopCount : ℕ := 1000

/-- The beginning of `while (1)`. -/
def RtThread.top (t : RtThread W) : RtThread W :=
  { t with pc := .test, loopCount := 0, isRt := true }

/-- `wake_up_process`. -/
def RtThread.wakeUp (t : RtThread W) : RtThread W := { t with state := .running }

/-- `shannon_autoremove_wake_function` on the wait entry of a caller. -/
def Caller.wakeUp (c : Caller) : Caller :=
  if c.onQueue = true ∧ c.state ≠ .running then { c with state := .running, onQueue := false }
  else c

/-- Nobody has called anything. -/
def State.init : State W P C where
  queue := RtQueue.init
  thread := ⟨.test, .running, 0, true⟩
  wakes := fun _ => false
  callers := fun _ => ⟨.idle, .running, false, false, 0⟩
  destroying := false
  shouldStop := false
  stopWoken := false
  calls := []
  executed := []
  finished := []

section System

variable [DecidableEq W] [DecidableEq P] [DecidableEq C]

/-- One step of `rt_thread_fn`. -/
def threadStep (s : State W P C) : Option (State W P C) :=
  let t := s.thread
  match t.pc with
  | .test =>
      if shannonListEmpty s.queue.links none then
        some { s with thread := { t with pc := .wakeFlush } }
      else some { s with thread := { t with pc := .take } }
  | .take =>
      match takeFirst s.queue with
      | none => some { s with queue := { s.queue with bug := true } }
      | some (rtw, q) => some { s with
          queue := q, thread := { t with pc := .run rtw false }, executed := s.executed ++ [rtw] }
  | .run rtw true => some { s with thread := { t.wakeUp with pc := .run rtw false } }
  | .run rtw false =>
      some { s with thread := { t with pc := .count }, finished := s.finished ++ [rtw] }
  | .count =>
      if rtMaxLoopCount ≤ t.loopCount + 1 then
        if t.isRt then some { s with thread := ⟨.test, t.state, 0, false⟩ }
        else some { s with thread := ⟨.pauseSet, t.state, 0, false⟩ }
      else some { s with thread := { t with pc := .test, loopCount := t.loopCount + 1 } }
  | .pauseSet => some { s with thread := { t with pc := .pause, state := .interruptible } }
  | .pause => some { s with thread := { t.wakeUp with pc := .pauseDone } }
  | .pauseDone => some { s with thread := { t with pc := .test, state := .running } }
  | .wakeFlush => some { s with
      thread := { t with pc := .stopTest }, callers := fun c => (s.callers c).wakeUp }
  | .stopTest =>
      if s.shouldStop then some { s with thread := { t with pc := .exited } }
      else some { s with thread := { t with pc := .park } }
  | .park =>
      if shannonListEmpty s.queue.links none then
        some { s with thread := { t with pc := .sched, state := .interruptible } }
      else some { s with thread := t.top }
  | .sched => if t.state = .running then some { s with thread := t.top } else none
  | .exited => none

/-- `shannon_rt_queue_work` up to its unlock, with the value it will return. -/
def State.queueWork (s : State W P C) (work : W) : State W P C × ℤ :=
  ({ s with
    queue := (shannonRtQueueWork s.queue work).1
    calls := s.calls ++ [(work, (shannonRtQueueWork s.queue work).2)] },
   (shannonRtQueueWork s.queue work).2)

/-- `shannon_wait_event` is over: the flush returns, or the destruction goes on. -/
def Caller.leave (c : Caller) : Caller :=
  { c with pc := if c.destroys then .stopSet else .returned }

/-- One step of a caller. -/
def callerStep (s : State W P C) (c : C) : Option (State W P C) :=
  let k := s.callers c
  let put (k : Caller) : C → Caller := Function.update s.callers c k
  match k.pc with
  | .wake => some { s with thread := s.thread.wakeUp, callers := put { k with pc := .test } }
  | .test =>
      if shannonListEmpty s.queue.links none then some { s with callers := put k.leave }
      else some { s with callers := put { k with pc := .prepare } }
  | .prepare => some { s with
      callers := put { k with pc := .check, state := .uninterruptible, onQueue := true } }
  | .check =>
      if shannonListEmpty s.queue.links none then
        some { s with callers := put { k with pc := .finish } }
      else some { s with callers := put { k with pc := .sched } }
  | .sched =>
      if k.state = .running then some { s with callers := put { k with pc := .prepare } } else none
  | .finish => some { s with callers := put { k with state := .running, onQueue := false }.leave }
  | .stopSet => some { s with shouldStop := true, callers := put { k with pc := .stopWake } }
  | .stopWake => some { s with
      thread := s.thread.wakeUp, stopWoken := true, callers := put { k with pc := .join } }
  | .join =>
      if s.thread.pc = .exited then some { s with callers := put { k with pc := .freed } } else none
  | _ => none

/-- A call of `shannon_flush_rt_workqueue`, or of `shannon_destroy_rt_workqueue`,
begins.  The queue is destroyed once and not used by other callers from then
on. -/
def callBegins (s : State W P C) (c : C) (destroys : Bool) : Option (State W P C) :=
  let k := s.callers c
  if (k.pc = .idle ∨ k.pc = .returned) ∧ s.destroying = false then
    some { s with
      destroying := destroys
      callers := Function.update s.callers c
        { k with pc := .wake, destroys := destroys, atCall := s.accepted.length } }
  else none

/-- Who moves: the thread; the function it is running, with a call of
`shannon_rt_queue_work`; a producer, with the section of such a call or the
`wake_up_process` after it; or another caller. -/
inductive Label (W P C : Type*) where
  | thread
  | func (work : W)
  | queue (p : P) (work : W)
  | wake (p : P)
  | flush (c : C)
  | destroy (c : C)
  | caller (c : C)
deriving DecidableEq, Repr

/-- One step of the system. -/
def step (s : State W P C) : Label W P C → Option (State W P C)
  | .thread => threadStep s
  | .func work =>
      match s.thread.pc with
      | .run rtw false =>
          let (s', ret) := s.queueWork work
          some { s' with thread := { s.thread with pc := .run rtw (ret = 0) } }
      | _ => none
  | .queue p work =>
      if s.wakes p then none
      else
        let (s', ret) := s.queueWork work
        some { s' with wakes := Function.update s.wakes p (ret = 0) }
  | .wake p =>
      if s.wakes p then
        some { s with thread := s.thread.wakeUp, wakes := Function.update s.wakes p false }
      else none
  | .flush c => callBegins s c false
  | .destroy c => callBegins s c true
  | .caller c => callerStep s c

end System

/-! ### What the steps change -/

/-- The work whose function is running. -/
def Pc.running : Pc W → List W
  | .run rtw _ => [rtw]
  | _ => []

/-- The thread is blocked in the idle `shannon_schedule()`. -/
def RtThread.Blocked (t : RtThread W) : Prop := t.pc = .sched ∧ t.state ≠ .running

/-- Everything but the callers of flush and destroy and what they can do: wake
the thread, and stop it. -/
structure SameWork (s s' : State W P C) : Prop where
  queue_eq : s'.queue = s.queue
  wakes_eq : s'.wakes = s.wakes
  calls_eq : s'.calls = s.calls
  executed_eq : s'.executed = s.executed
  finished_eq : s'.finished = s.finished
  thread_eq : s'.thread = s.thread ∨ s'.thread = s.thread.wakeUp
  stop_mono : s.shouldStop = true → s'.shouldStop = true

/-- In `kthread_stop`, or after it. -/
def CallerPc.stopping : CallerPc → Bool
  | .stopSet | .stopWake | .join | .freed => true
  | _ => false

/-- The flush has returned, by itself or in the destruction. -/
def CallerPc.flushed (pc : CallerPc) : Bool := pc = .returned ∨ pc.stopping = true

/-- What a step of the caller `c` changes, besides what `SameWork` allows: its
flush returns, or reaches `shannon_finish_wait`, only when it has seen the list
empty, and only one that destroys the queue sets the flag and then wakes the
thread for it. -/
structure CallerMoves [DecidableEq W] (s s' : State W P C) (c : C) : Prop
    extends SameWork s s' where
  callers_of_ne : ∀ d, d ≠ c → s'.callers d = s.callers d
  atCall_eq : (s'.callers c).atCall = (s.callers c).atCall
  destroys_eq : (s'.callers c).destroys = (s.callers c).destroys
  finish : (s'.callers c).pc = .finish → shannonListEmpty s.queue.links none = true
  flushed : (s'.callers c).pc.flushed = true → (s.callers c).pc.flushed = true ∨
    (s.callers c).pc = .finish ∨
      (s.callers c).pc = .test ∧ shannonListEmpty s.queue.links none = true
  stopping : (s'.callers c).pc.stopping = true →
    (s.callers c).pc.stopping = true ∨ (s.callers c).destroys = true
  shouldStop : s'.shouldStop = true → s.shouldStop = true ∨ (s.callers c).pc.stopping = true
  told : (s'.callers c).pc = .stopWake → s'.shouldStop = true
  stopWoken : s'.stopWoken = true → s.stopWoken = true ∨
    (s.callers c).pc = .stopWake ∧ s'.thread = s.thread.wakeUp

theorem Caller.leave_pc (k : Caller) : k.leave.pc = .returned ∨
    k.leave.pc = .stopSet ∧ k.destroys = true := by
  cases hk : k.destroys <;> simp [Caller.leave, hk]

theorem CallerPc.flushed_eq_false {pc : CallerPc} (h : pc.flushed = false) :
    pc.stopping = false ∧ pc ≠ .stopWake := by
  revert h
  cases pc <;> decide

section CallerMoves

variable [DecidableEq W] [DecidableEq C]

/-- A step in the wait. -/
theorem callerMoves_waiting {s : State W P C} {c : C} {thread : RtThread W} {k : Caller}
    (hthread : thread = s.thread ∨ thread = s.thread.wakeUp)
    (hat : k.atCall = (s.callers c).atCall) (hdestroys : k.destroys = (s.callers c).destroys)
    (hfinish : k.pc = .finish → shannonListEmpty s.queue.links none = true)
    (hpc : k.pc.flushed = false) :
    CallerMoves s { s with thread := thread, callers := Function.update s.callers c k } c := by
  have hself : Function.update s.callers c k c = k := Function.update_self ..
  have hstop := CallerPc.flushed_eq_false hpc
  refine ⟨⟨rfl, rfl, rfl, rfl, rfl, hthread, id⟩, fun d hd => Function.update_of_ne hd .., ?_, ?_,
    ?_, ?_, ?_, .inl, ?_, .inl⟩
  all_goals simp only [hself]
  · exact hat
  · exact hdestroys
  · exact hfinish
  · simp [hpc]
  · simp [hstop.1]
  · exact fun h => absurd h hstop.2

/-- The flush returns. -/
theorem callerMoves_leave {s : State W P C} {c : C} {k : Caller}
    (hat : k.atCall = (s.callers c).atCall) (hdestroys : k.destroys = (s.callers c).destroys)
    (hflushed : (s.callers c).pc = .finish ∨
      (s.callers c).pc = .test ∧ shannonListEmpty s.queue.links none = true) :
    CallerMoves s { s with callers := Function.update s.callers c k.leave } c := by
  have hself : Function.update s.callers c k.leave c = k.leave := Function.update_self ..
  refine ⟨⟨rfl, rfl, rfl, rfl, rfl, .inl rfl, id⟩, fun d hd => Function.update_of_ne hd .., ?_, ?_,
    ?_, fun _ => .inr hflushed, ?_, .inl, ?_, .inl⟩
  all_goals simp only [hself]
  · exact hat
  · exact hdestroys
  all_goals rcases k.leave_pc with hpc | ⟨hpc, hk⟩ <;> simp only [hpc, reduceCtorEq, false_imp_iff]
  · exact fun h => absurd h (by decide)
  · exact fun _ => .inr (hdestroys ▸ hk)

theorem callerMoves {s s' : State W P C} {c : C} (h : callerStep s c = some s') :
    CallerMoves s s' c := by
  unfold callerStep at h
  dsimp only at h
  split at h
  all_goals rename_i hpc
  · cases h
    exact callerMoves_waiting (.inr rfl) rfl rfl (by simp) rfl
  · split_ifs at h with hl <;> cases h
    · exact callerMoves_leave rfl rfl (.inr ⟨hpc, hl⟩)
    · exact callerMoves_waiting (.inl rfl) rfl rfl (by simp) rfl
  · cases h
    exact callerMoves_waiting (.inl rfl) rfl rfl (by simp) rfl
  · split_ifs at h with hl <;> cases h
    · exact callerMoves_waiting (.inl rfl) rfl rfl (fun _ => hl) rfl
    · exact callerMoves_waiting (.inl rfl) rfl rfl (by simp) rfl
  · split_ifs at h
    cases h
    exact callerMoves_waiting (.inl rfl) rfl rfl (by simp) rfl
  · cases h
    exact callerMoves_leave rfl rfl (.inl hpc)
  · -- the flag is set
    cases h
    have hstopping : (s.callers c).pc.stopping = true := by simp [hpc, CallerPc.stopping]
    exact ⟨⟨rfl, rfl, rfl, rfl, rfl, .inl rfl, fun _ => rfl⟩,
      fun d hd => Function.update_of_ne hd .., by simp, by simp, by simp,
      fun _ => .inl (by simp [CallerPc.flushed, hstopping]), fun _ => .inl hstopping,
      fun _ => .inr hstopping, fun _ => rfl, .inl⟩
  · -- the thread is woken for it
    cases h
    have hstopping : (s.callers c).pc.stopping = true := by simp [hpc, CallerPc.stopping]
    exact ⟨⟨rfl, rfl, rfl, rfl, rfl, .inr rfl, id⟩,
      fun d hd => Function.update_of_ne hd .., by simp, by simp, by simp,
      fun _ => .inl (by simp [CallerPc.flushed, hstopping]), fun _ => .inl hstopping, .inl, by simp,
      fun _ => .inr ⟨hpc, rfl⟩⟩
  · split_ifs at h
    cases h
    have hstopping : (s.callers c).pc.stopping = true := by simp [hpc, CallerPc.stopping]
    exact ⟨⟨rfl, rfl, rfl, rfl, rfl, .inl rfl, id⟩,
      fun d hd => Function.update_of_ne hd .., by simp, by simp, by simp,
      fun _ => .inl (by simp [CallerPc.flushed, hstopping]), fun _ => .inl hstopping, .inl, by simp,
      .inl⟩
  · cases h

end CallerMoves

theorem callBegins_eq [DecidableEq C] {s s' : State W P C} {c : C} {destroys : Bool}
    (h : callBegins s c destroys = some s') :
    s' = { s with
      destroying := destroys
      callers := Function.update s.callers c
        { s.callers c with pc := .wake, destroys := destroys, atCall := s.accepted.length } } := by
  unfold callBegins at h
  dsimp only at h
  split_ifs at h
  exact (Option.some.inj h).symm

theorem sameWork_callBegins [DecidableEq C] {s s' : State W P C} {c : C} {destroys : Bool}
    (h : callBegins s c destroys = some s') : SameWork s s' := by
  rw [callBegins_eq h]
  exact ⟨rfl, rfl, rfl, rfl, rfl, .inl rfl, id⟩

/-- What a step of the thread leaves alone, and where it can come from. -/
structure ThreadMoves (s s' : State W P C) : Prop where
  wakes_eq : s'.wakes = s.wakes
  calls_eq : s'.calls = s.calls
  shouldStop_eq : s'.shouldStop = s.shouldStop
  stopWoken_eq : s'.stopWoken = s.stopWoken
  callers_pc : ∀ c, (s'.callers c).pc = (s.callers c).pc
  callers_destroys : ∀ c, (s'.callers c).destroys = (s.callers c).destroys
  callers_atCall : ∀ c, (s'.callers c).atCall = (s.callers c).atCall
  executed_mono : s.executed <+: s'.executed
  finished_mono : s.finished <+: s'.finished
  not_exited : s.thread.pc ≠ .exited
  of_park : s'.thread.pc = .park → s.shouldStop = false
  of_sched : s'.thread.pc = .sched → s.thread.pc = .park

theorem Caller.wakeUp_keeps (k : Caller) :
    k.wakeUp.pc = k.pc ∧ k.wakeUp.destroys = k.destroys ∧ k.wakeUp.atCall = k.atCall := by
  unfold Caller.wakeUp
  split_ifs <;> exact ⟨rfl, rfl, rfl⟩

theorem threadMoves_same {s : State W P C} {queue : RtQueue W} {thread : RtThread W}
    {executed finished : List W} (hne : s.thread.pc ≠ .exited)
    (hexecuted : s.executed <+: executed) (hfinished : s.finished <+: finished)
    (hpark : thread.pc = .park → s.shouldStop = false)
    (hsched : thread.pc = .sched → s.thread.pc = .park) :
    ThreadMoves s { s with
      queue := queue, thread := thread, executed := executed, finished := finished } :=
  ⟨rfl, rfl, rfl, rfl, fun _ => rfl, fun _ => rfl, fun _ => rfl, hexecuted, hfinished,
    hne, hpark, hsched⟩

/-- A step that only moves the thread, not towards its sleep. -/
theorem threadMoves_quiet {s : State W P C} {thread : RtThread W} (hne : s.thread.pc ≠ .exited)
    (hpark : thread.pc ≠ .park) (hsched : thread.pc ≠ .sched) :
    ThreadMoves s { s with thread := thread } :=
  threadMoves_same hne (List.prefix_refl _) (List.prefix_refl _) (fun h => absurd h hpark)
    fun h => absurd h hsched

theorem threadMoves [DecidableEq W] {s s' : State W P C} (h : threadStep s = some s') :
    ThreadMoves s s' := by
  have hne : s.thread.pc ≠ .exited := by
    intro hpc
    simp [threadStep, hpc] at h
  unfold threadStep at h
  dsimp only at h
  split at h
  all_goals rename_i hpc
  · split_ifs at h <;> cases h <;> exact threadMoves_quiet hne (by simp) (by simp)
  · split at h <;> cases h
    · exact threadMoves_same hne (List.prefix_refl _) (List.prefix_refl _) (by simp [hpc])
        (by simp [hpc])
    · exact threadMoves_same hne (List.prefix_append ..) (List.prefix_refl _) (by simp) (by simp)
  · cases h
    exact threadMoves_quiet hne (by simp) (by simp)
  · cases h
    exact threadMoves_same hne (List.prefix_refl _) (List.prefix_append ..) (by simp) (by simp)
  · split_ifs at h <;> cases h <;> exact threadMoves_quiet hne (by simp) (by simp)
  · cases h
    exact threadMoves_quiet hne (by simp) (by simp)
  · cases h
    exact threadMoves_quiet hne (by simp) (by simp)
  · cases h
    exact threadMoves_quiet hne (by simp) (by simp)
  · cases h
    exact ⟨rfl, rfl, rfl, rfl, fun c => (s.callers c).wakeUp_keeps.1,
      fun c => (s.callers c).wakeUp_keeps.2.1, fun c => (s.callers c).wakeUp_keeps.2.2,
      List.prefix_refl _, List.prefix_refl _, hne, by simp, by simp⟩
  · split_ifs at h with hstop <;> cases h
    · exact threadMoves_quiet hne (by simp) (by simp)
    · exact threadMoves_same hne (List.prefix_refl _) (List.prefix_refl _)
        (fun _ => Bool.eq_false_iff.2 hstop) (by simp)
  · split_ifs at h <;> cases h
    · exact threadMoves_same hne (List.prefix_refl _) (List.prefix_refl _) (by simp) fun _ => hpc
    · exact threadMoves_quiet hne (by simp [RtThread.top]) (by simp [RtThread.top])
  · split_ifs at h
    cases h
    exact threadMoves_quiet hne (by simp [RtThread.top]) (by simp [RtThread.top])
  · cases h

section Steps

variable [DecidableEq W] [DecidableEq P] [DecidableEq C]

theorem step_func {s s' : State W P C} {work : W} (h : step s (.func work) = some s') :
    ∃ rtw, s.thread.pc = .run rtw false ∧ s' = { (s.queueWork work).1 with
      thread := { s.thread with pc := .run rtw ((s.queueWork work).2 = 0) } } := by
  simp only [step] at h
  split at h
  · exact ⟨_, ‹_›, (Option.some.inj h).symm⟩
  · cases h

theorem step_queue {s s' : State W P C} {p : P} {work : W} (h : step s (.queue p work) = some s') :
    s.wakes p = false ∧ s' = { (s.queueWork work).1 with
      wakes := Function.update s.wakes p ((s.queueWork work).2 = 0) } := by
  simp only [step] at h
  split_ifs at h with hp
  exact ⟨Bool.eq_false_iff.2 hp, (Option.some.inj h).symm⟩

theorem step_wake {s s' : State W P C} {p : P} (h : step s (.wake p) = some s') :
    s' = { s with thread := s.thread.wakeUp, wakes := Function.update s.wakes p false } := by
  simp only [step] at h
  split_ifs at h
  exact (Option.some.inj h).symm

end Steps

theorem accepted_concat (s : State W P C) (work : W) (ret : ℤ) :
    ({ s with calls := s.calls ++ [(work, ret)] } : State W P C).accepted
      = if ret = 0 then s.accepted ++ [work] else s.accepted := by
  simp only [State.accepted, List.filter_append, List.map_append]
  split_ifs with hret <;> simp [hret]

end Workqueue
end Shannon
