/-
# Waiting for the RT work queue, and stopping it

`shannon_flush_rt_workqueue` waits until the list of the queue is empty, but
`rt_thread_fn` takes a work out of the list before it runs its function.  A flush
can therefore return while the function of a work that was queued before it is
running (`flush_misses_running_work`), and exactly then is it not complete
(`flush_complete_iff`).

`shannon_destroy_rt_workqueue` then calls `kthread_stop`.  `rt_thread_fn` tests
the flag, and only then takes the lock and changes its state; when flag and
wake-up both come in between, the wake-up finds a running task and the thread goes
to sleep for good (`stop_strands_thread`).  In all other interleavings it is awake
(`stop_awake`).
-/

import Shannon.Workqueue.Fifo

namespace Shannon
namespace Workqueue

open Lib

variable {W P C : Type*} [DecidableEq W] [DecidableEq P] [DecidableEq C]

/-- What a step does to a caller: its place and its call stay the same, or its
call begins, or it is its own step. -/
theorem callers_step {s s' : State W P C} {l : Label W P C} (h : step s l = some s') (c : C) :
    ((s'.callers c).pc = (s.callers c).pc ∧ (s'.callers c).atCall = (s.callers c).atCall) ∨
    ((s'.callers c).pc = .wake ∧ (s'.callers c).atCall = s.accepted.length) ∨
    (l = .caller c ∧ CallerMoves s s' c) := by
  have hbegins {d : C} {destroys : Bool} (h : callBegins s d destroys = some s') :
      ((s'.callers c).pc = (s.callers c).pc ∧ (s'.callers c).atCall = (s.callers c).atCall) ∨
      ((s'.callers c).pc = .wake ∧ (s'.callers c).atCall = s.accepted.length) := by
    rw [callBegins_eq h]
    rcases eq_or_ne c d with rfl | hne
    · simp
    · simp [hne]
  cases l with
  | thread => exact .inl ⟨(threadMoves h).callers_pc c, (threadMoves h).callers_atCall c⟩
  | func work =>
      obtain ⟨rtw, -, rfl⟩ := step_func h
      exact .inl ⟨rfl, rfl⟩
  | queue p work =>
      obtain ⟨-, rfl⟩ := step_queue h
      exact .inl ⟨rfl, rfl⟩
  | wake p =>
      obtain rfl := step_wake h
      exact .inl ⟨rfl, rfl⟩
  | flush d => exact (hbegins h).imp_right .inl
  | destroy d => exact (hbegins h).imp_right .inl
  | caller d =>
      have hmoves := callerMoves h
      rcases eq_or_ne c d with rfl | hne
      · exact .inr (.inr ⟨rfl, hmoves⟩)
      · rw [hmoves.callers_of_ne c hne]
        exact .inl ⟨rfl, rfl⟩

/-! ### Flush -/

/-- **Flush is complete.**  When a flush has returned, the functions of all works
queued with success before it was called have returned. -/
def FlushComplete (s : State W P C) : Prop :=
  ∀ c, (s.callers c).pc.flushed = true → s.accepted.take (s.callers c).atCall <+: s.finished

/-- In the step in which a flush returns, the thread is not in the function of a
work that was queued before the flush was called. -/
def FlushCondition (s : State W P C) : Label W P C → Prop
  | .caller c =>
      ((s.callers c).pc = .finish ∨
        (s.callers c).pc = .test ∧ shannonListEmpty s.queue.links none = true) →
      s.thread.pc.running = [] ∨ (s.callers c).atCall < s.executed.length
  | _ => True

instance (s : State W P C) : ∀ l, Decidable (FlushCondition s l)
  | .caller _ => inferInstanceAs (Decidable (_ → _))
  | .thread | .func _ | .queue _ _ | .wake _ | .flush _ | .destroy _ => isTrue trivial

/-- What the callers of flush know without any condition: one that has seen the
list empty knows that all works queued before its call have been taken. -/
structure FlushInv (s : State W P C) : Prop where
  inv : ∃ xs, Inv s xs
  atCall_le : ∀ c, (s.callers c).atCall ≤ s.accepted.length
  finish_le : ∀ c, (s.callers c).pc = .finish → (s.callers c).atCall ≤ s.executed.length

omit [DecidableEq W] [DecidableEq P] [DecidableEq C] in
theorem flushInv_init : FlushInv (State.init : State W P C) where
  inv := ⟨[], inv_init⟩
  atCall_le := fun _ => le_rfl
  finish_le := nofun

omit [DecidableEq P] [DecidableEq C] in
/-- With an empty list all works have been taken. -/
theorem FlushInv.executed_eq {s : State W P C} (hs : FlushInv s)
    (hempty : shannonListEmpty s.queue.links none = true) : s.executed = s.accepted := by
  obtain ⟨xs, hinv⟩ := hs.inv
  rw [hinv.accepted_eq, hinv.holds.empty_iff.1 hempty, List.append_nil]

theorem flushInv_step {s s' : State W P C} {l : Label W P C} (hs : FlushInv s)
    (h : step s l = some s') : FlushInv s' := by
  have hgrows := grows_step h
  obtain ⟨xs, hinv⟩ := hs.inv
  refine ⟨inv_step hinv h, fun c => ?_, fun c hfinish => ?_⟩
  · refine le_trans ?_ hgrows.accepted.length_le
    rcases callers_step h c with ⟨-, hat⟩ | ⟨-, hat⟩ | ⟨-, hmoves⟩
    · exact hat ▸ hs.atCall_le c
    · exact hat.le
    · exact hmoves.atCall_eq ▸ hs.atCall_le c
  · refine le_trans ?_ hgrows.executed.length_le
    rcases callers_step h c with ⟨hpc, hat⟩ | ⟨hpc, -⟩ | ⟨-, hmoves⟩
    · exact hat ▸ hs.finish_le c (hpc ▸ hfinish)
    · exact absurd (hpc.symm.trans hfinish) (by simp)
    · rw [hmoves.atCall_eq, hs.executed_eq (hmoves.finish hfinish)]
      exact hs.atCall_le c

omit [DecidableEq W] [DecidableEq P] [DecidableEq C] in
/-- The works queued first have finished when there are enough that have. -/
theorem FlushInv.complete_iff {s : State W P C} (hs : FlushInv s) {n : ℕ}
    (hn : n ≤ s.accepted.length) : s.accepted.take n <+: s.finished ↔ n ≤ s.finished.length := by
  obtain ⟨xs, hinv⟩ := hs.inv
  have hlen : (s.accepted.take n).length = n := List.length_take_of_le hn
  constructor
  · intro hpre
    exact hlen ▸ hpre.length_le
  · intro hle
    exact List.prefix_of_prefix_length_le (List.take_prefix n _) hinv.finished_prefix_accepted
      (hlen.le.trans hle)

omit [DecidableEq P] [DecidableEq C] in
/-- One that returns knows that all works queued before its call were taken. -/
theorem FlushInv.atCall_le_executed {s : State W P C} (hs : FlushInv s) {c : C}
    (hpc : (s.callers c).pc = .finish ∨
      (s.callers c).pc = .test ∧ shannonListEmpty s.queue.links none = true) :
    (s.callers c).atCall ≤ s.executed.length := by
  rcases hpc with hpc | ⟨-, hempty⟩
  · exact hs.finish_le c hpc
  · exact hs.executed_eq hempty ▸ hs.atCall_le c

/-- A step that meets the condition keeps flush complete. -/
theorem flushComplete_step {s s' : State W P C} {l : Label W P C} (hs : FlushInv s)
    (hcomplete : FlushComplete s) (hl : FlushCondition s l) (h : step s l = some s') :
    FlushComplete s' := by
  intro c hflushed
  have hs' := flushInv_step hs h
  have hgrows := grows_step h
  rw [hs'.complete_iff (hs'.atCall_le c)]
  refine le_trans ?_ hgrows.finished.length_le
  have hold (hold : (s.callers c).pc.flushed = true) :
      (s.callers c).atCall ≤ s.finished.length :=
    (hs.complete_iff (hs.atCall_le c)).1 (hcomplete c hold)
  rcases callers_step h c with ⟨hpc, hat⟩ | ⟨hpc, -⟩ | ⟨rfl, hmoves⟩
  · exact hat ▸ hold (hpc ▸ hflushed)
  · exact absurd (hpc ▸ hflushed) (by decide)
  · rw [hmoves.atCall_eq]
    rcases hmoves.flushed hflushed with hbefore | hreturns
    · exact hold hbefore
    · -- it returns in this step: all works queued before were taken, and at most
      -- the last one taken has not finished
      obtain ⟨xs, hinv⟩ := hs.inv
      have hle := hs.atCall_le_executed hreturns
      have hlen := congrArg List.length hinv.executed_eq
      rw [List.length_append] at hlen
      rcases hl hreturns with hidle | hlt
      · rw [hidle, List.length_nil] at hlen
        omega
      · have hrunning : s.thread.pc.running.length ≤ 1 := by
          cases s.thread.pc <;> simp [Pc.running]
        omega

omit [DecidableEq P] in
/-- The step in which a flush returns. -/
theorem flushed_of_returns {s s' : State W P C} {c : C} (h : callerStep s c = some s')
    (hpc : (s.callers c).pc = .finish ∨
      (s.callers c).pc = .test ∧ shannonListEmpty s.queue.links none = true) :
    (s'.callers c).pc.flushed = true := by
  have hleave (k : Caller) : k.leave.pc.flushed = true := by
    rcases k.leave_pc with hk | ⟨hk, -⟩ <;> rw [hk] <;> rfl
  rcases hpc with hpc | ⟨hpc, hempty⟩
  · simp only [callerStep, hpc, Option.some.injEq] at h
    subst h
    simp only [Function.update_self, hleave]
  · simp only [callerStep, hpc, hempty, if_true, Option.some.injEq] at h
    subst h
    simp only [Function.update_self, hleave]

/-- Any other step ends with a flush that is not complete. -/
theorem not_flushComplete_step {s s' : State W P C} {l : Label W P C} (hs : FlushInv s)
    (hl : ¬FlushCondition s l) (h : step s l = some s') : ¬FlushComplete s' := by
  cases l with
  | caller c =>
      simp only [FlushCondition, Classical.not_imp, not_or, not_lt] at hl
      obtain ⟨hreturns, hbusy, hle⟩ := hl
      have hmoves := callerMoves h
      have hs' := flushInv_step hs h
      intro hcomplete
      have hfin := (hs'.complete_iff (hs'.atCall_le c)).1
        (hcomplete c (flushed_of_returns h hreturns))
      rw [hmoves.atCall_eq, hmoves.finished_eq] at hfin
      obtain ⟨xs, hinv⟩ := hs.inv
      have hlen := congrArg List.length hinv.executed_eq
      rw [List.length_append] at hlen
      have hpos := List.length_pos_iff.2 hbusy
      omega
  | _ => exact absurd trivial hl

/-- **When flush is complete.**  In a run all flushes that have returned are
complete, in all states, exactly when each of them returned while the thread was
not in the function of a work queued before the flush was called. -/
theorem flush_complete_iff {ls : List (Label W P C)} {s : State W P C}
    (hrun : run step State.init ls = some s) :
    (∀ n t, run step State.init (ls.take n) = some t → FlushComplete t) ↔
      Along step FlushCondition State.init ls :=
  (along_iff_forall_take (fun _ _ _ hs h => flushInv_step hs h)
    (fun _ _ _ hs hcomplete hl h => flushComplete_step hs hcomplete hl h)
    (fun _ _ _ hs hl h => not_flushComplete_step hs hl h) flushInv_init nofun hrun).symm

/-- Work `5` is queued and taken and its function returns; then caller `0`
flushes. -/
def flushRun : List (Label ℕ ℕ ℕ) :=
  [.queue 0 5, .wake 0, .thread, .thread, .thread, .flush 0, .caller 0, .caller 0]

/-- The hypothesis of `flush_complete_iff` is satisfiable, and so are both sides:
the flush returns and the function has returned before. -/
theorem flush_complete_iff_flushRun :
    ∃ s, run step State.init flushRun = some s ∧ (s.callers 0).pc = .returned ∧
      s.finished = [5] ∧ ∀ n t, run step State.init (flushRun.take n) = some t →
        FlushComplete t := by
  have hrun : run step State.init flushRun = some _ := rfl
  refine ⟨_, hrun, rfl, rfl, (flush_complete_iff hrun).2 (by decide)⟩

/-- The same, but caller `0` flushes while the function runs. -/
def earlyFlushRun : List (Label ℕ ℕ ℕ) :=
  [.queue 0 5, .wake 0, .thread, .thread, .flush 0, .caller 0, .caller 0]

/-- **Flush misses the work that is running**: it finds the list empty and
returns. -/
theorem flush_misses_running_work :
    ∃ s, run step State.init earlyFlushRun = some s ∧ s.calls = [(5, 0)] ∧
      (s.callers 0).atCall = 1 ∧ (s.callers 0).pc = .returned ∧ s.finished = [] ∧
        ¬FlushComplete s := by
  refine ⟨_, rfl, rfl, rfl, rfl, rfl, fun hcomplete => ?_⟩
  have hpre := hcomplete 0 rfl
  exact absurd hpre (by decide)

/-! ### Stop -/

/-- Somebody is about to call `wake_up_process` on the thread. -/
def WakePending (s : State W P C) : Prop :=
  (∃ p, s.wakes p = true) ∨ ∃ c, (s.callers c).pc = .wake ∨ (s.callers c).pc = .stopWake

/-- **The thread is stranded**: it sleeps in `shannon_schedule()` although it was
told to stop and woken for that, and nobody will wake it. -/
structure Stranded (s : State W P C) : Prop where
  blocked : s.thread.Blocked
  shouldStop : s.shouldStop = true
  stopWoken : s.stopWoken = true
  unwoken : ¬WakePending s

/-- `kthread_stop` does not wake the thread between its test of the flag and the
section in which it goes to sleep. -/
def StopCondition (s : State W P C) : Label W P C → Prop
  | .caller c => (s.callers c).pc = .stopWake → s.thread.pc ≠ .park
  | _ => True

instance (s : State W P C) : ∀ l, Decidable (StopCondition s l)
  | .caller _ => inferInstanceAs (Decidable (_ → _))
  | .thread | .func _ | .queue _ _ | .wake _ | .flush _ | .destroy _ => isTrue trivial

/-- The flag is set before the thread is woken for it. -/
def Told (s : State W P C) : Prop := ∀ c, (s.callers c).pc = .stopWake → s.shouldStop = true

/-- Once it has been woken to stop, the thread is awake, and on its way to the
test of the flag. -/
structure StopInv (s : State W P C) : Prop where
  told : Told s
  shouldStop : s.stopWoken = true → s.shouldStop = true
  awake : s.stopWoken = true → s.thread.pc ≠ .park ∧ ¬s.thread.Blocked

omit [DecidableEq W] [DecidableEq P] [DecidableEq C] in
theorem stopInv_init : StopInv (State.init : State W P C) where
  told := nofun
  shouldStop := nofun
  awake := nofun

omit [DecidableEq W] [DecidableEq P] [DecidableEq C] in
theorem RtThread.not_blocked_wakeUp (t : RtThread W) : ¬t.wakeUp.Blocked := fun h => h.2 rfl

/-- The flag stays set. -/
theorem shouldStop_step {s s' : State W P C} {l : Label W P C} (h : step s l = some s')
    (hstop : s.shouldStop = true) : s'.shouldStop = true := by
  cases l with
  | thread => exact (threadMoves h).shouldStop_eq.trans hstop
  | func work =>
      obtain ⟨rtw, -, rfl⟩ := step_func h
      exact hstop
  | queue p work =>
      obtain ⟨-, rfl⟩ := step_queue h
      exact hstop
  | wake p =>
      obtain rfl := step_wake h
      exact hstop
  | flush c => exact (sameWork_callBegins h).stop_mono hstop
  | destroy c => exact (sameWork_callBegins h).stop_mono hstop
  | caller c => exact (callerMoves h).stop_mono hstop

theorem told_step {s s' : State W P C} {l : Label W P C} (hs : Told s)
    (h : step s l = some s') : Told s' := by
  intro c hpc
  rcases callers_step h c with ⟨heq, -⟩ | ⟨heq, -⟩ | ⟨-, hmoves⟩
  · exact shouldStop_step h (hs c (heq ▸ hpc))
  · exact absurd (heq.symm.trans hpc) (by simp)
  · exact hmoves.told hpc

theorem stopInv_step {s s' : State W P C} {l : Label W P C} (hs : StopInv s)
    (hl : StopCondition s l) (h : step s l = some s') : StopInv s' := by
  have htold := told_step hs.told h
  -- the flag that the thread was woken is as before, and so is its place or it is awake
  have hsame (hwoken : s'.stopWoken = true → s.stopWoken = true)
      (hthread : s'.thread = s.thread ∨ s'.thread = s.thread.wakeUp) : StopInv s' := by
    refine ⟨htold, fun hw => shouldStop_step h (hs.shouldStop (hwoken hw)), fun hw => ?_⟩
    obtain ⟨hpark, hblocked⟩ := hs.awake (hwoken hw)
    rcases hthread with heq | heq <;> rw [heq]
    · exact ⟨hpark, hblocked⟩
    · exact ⟨hpark, s.thread.not_blocked_wakeUp⟩
  cases l with
  | thread =>
      have hmoves := threadMoves h
      refine ⟨htold, fun hw => ?_, fun hw => ?_⟩
      · exact shouldStop_step h (hs.shouldStop (hmoves.stopWoken_eq ▸ hw))
      · have hw := hmoves.stopWoken_eq ▸ hw
        constructor
        · intro hpark
          exact absurd (hs.shouldStop hw) (by simp [hmoves.of_park hpark])
        · intro hblocked
          exact (hs.awake hw).1 (hmoves.of_sched hblocked.1)
  | func work =>
      obtain ⟨rtw, -, rfl⟩ := step_func h
      exact ⟨htold, hs.shouldStop, fun _ => ⟨nofun, fun hblocked => nomatch hblocked.1⟩⟩
  | queue p work =>
      obtain ⟨-, rfl⟩ := step_queue h
      exact hsame id (.inl rfl)
  | wake p =>
      obtain rfl := step_wake h
      exact hsame id (.inr rfl)
  | flush c =>
      refine hsame ?_ (sameWork_callBegins h).thread_eq
      rw [callBegins_eq h]
      exact id
  | destroy c =>
      refine hsame ?_ (sameWork_callBegins h).thread_eq
      rw [callBegins_eq h]
      exact id
  | caller c =>
      have hmoves := callerMoves h
      by_cases hold : s.stopWoken = true
      · exact hsame (fun _ => hold) hmoves.thread_eq
      · -- if it is the wake-up of the stop, the thread is not about to go to sleep
        refine ⟨htold, fun hw => ?_, fun hw => ?_⟩
        all_goals obtain ⟨hpc, heq⟩ := (hmoves.stopWoken hw).resolve_left hold
        · exact hmoves.stop_mono (hs.told c hpc)
        · rw [heq]
          exact ⟨hl hpc, s.thread.not_blocked_wakeUp⟩

omit [DecidableEq P] in
/-- The wake-up of the stop comes after the test of the flag and before the
section: the thread then goes to sleep. -/
theorem strands {s : State W P C} {c : C} (htold : Told s) (hl : ¬StopCondition s (.caller c))
    (hempty : shannonListEmpty s.queue.links none = true) (hwakes : ∀ p, s.wakes p = false)
    (hcallers : ∀ d, d ≠ c → (s.callers d).pc ≠ .wake ∧ (s.callers d).pc ≠ .stopWake) :
    ∃ u t, callerStep s c = some u ∧ threadStep u = some t ∧ Stranded t := by
  simp only [StopCondition, Classical.not_imp, not_not] at hl
  obtain ⟨hpc, hpark⟩ := hl
  have hu : callerStep s c = some { s with
      thread := s.thread.wakeUp
      stopWoken := true
      callers := Function.update s.callers c { s.callers c with pc := .join } } := by
    simp only [callerStep, hpc]
  have ht : threadStep { s with
      thread := s.thread.wakeUp
      stopWoken := true
      callers := Function.update s.callers c { s.callers c with pc := .join } } = some { s with
      thread := { s.thread with pc := .sched, state := .interruptible }
      stopWoken := true
      callers := Function.update s.callers c { s.callers c with pc := .join } } := by
    simp only [threadStep, RtThread.wakeUp, hpark, hempty, if_true]
  refine ⟨_, _, hu, ht, ⟨rfl, by simp⟩, htold c hpc, rfl, ?_⟩
  rintro (⟨p, hp⟩ | ⟨d, hd⟩)
  · exact absurd hp (by simp [hwakes p])
  · rcases eq_or_ne d c with rfl | hne
    · simp at hd
    · simp [hne, hcallers d hne] at hd

/-- **When the stop does not strand the thread.**  In a run in which
`kthread_stop` never wakes the thread between its test of the flag and the section
in which it goes to sleep, the thread is never stranded.  Where it does, with an
empty list and no other wake-up to come, the next step of the thread strands it. -/
theorem stop_awake {ls : List (Label W P C)} {s : State W P C}
    (hrun : run step State.init ls = some s) :
    (Along step StopCondition State.init ls → ¬Stranded s) ∧
    ∀ c, ¬StopCondition s (.caller c) → shannonListEmpty s.queue.links none = true →
      (∀ p, s.wakes p = false) →
      (∀ d, d ≠ c → (s.callers d).pc ≠ .wake ∧ (s.callers d).pc ≠ .stopWake) →
        ∃ t, run step s [.caller c, .thread] = some t ∧ Stranded t := by
  constructor
  · intro hgood hstranded
    have hs : StopInv s := run_invariant_along
      (fun _ _ _ hs hl h => stopInv_step hs hl h) stopInv_init hgood hrun
    exact (hs.awake hstranded.stopWoken).2 hstranded.blocked
  · intro c hl hempty hwakes hcallers
    have htold : Told s :=
      run_invariant (fun _ _ _ hs h => told_step hs h) stopInv_init.told hrun
    obtain ⟨u, t, hu, ht, hstranded⟩ := strands htold hl hempty hwakes hcallers
    exact ⟨t, run_cons_eq_some.2 ⟨u, hu, run_cons_eq_some.2 ⟨t, ht, rfl⟩⟩, hstranded⟩

/-- The thread goes to sleep; then caller `0` destroys the queue. -/
def quietStopRun : List (Label ℕ ℕ ℕ) :=
  [.thread, .thread, .thread, .thread, .destroy 0, .caller 0, .caller 0, .caller 0, .caller 0,
    .thread, .thread, .thread, .thread, .caller 0]

/-- The hypothesis of `stop_awake` is satisfiable, and so is its condition: the
thread exits and the queue is freed. -/
theorem stop_awake_quietStopRun :
    ∃ s, run step State.init quietStopRun = some s ∧ (s.callers 0).pc = .freed ∧
      s.thread.pc = .exited ∧ ¬Stranded s := by
  have hrun : run step State.init quietStopRun = some _ := rfl
  exact ⟨_, hrun, rfl, rfl, (stop_awake hrun).1 (by decide)⟩

/-- Nothing was ever queued.  The thread finds the list empty, wakes the waiters
and finds the flag not set.  Caller `0` destroys the queue: the flush returns at
once, the flag is set and the thread is woken.  Then the thread takes the lock,
finds the list empty and goes to sleep. -/
def earlyStopRun : List (Label ℕ ℕ ℕ) :=
  [.thread, .thread, .thread, .destroy 0, .caller 0, .caller 0, .caller 0, .caller 0, .thread]

/-- **The stop strands the thread.** -/
theorem stop_strands_thread :
    ∃ s, run step State.init earlyStopRun = some s ∧ (s.callers 0).pc = .join ∧ Stranded s := by
  refine ⟨_, rfl, rfl, ⟨rfl, by decide⟩, rfl, rfl, ?_⟩
  rintro (⟨p, hp⟩ | ⟨d, hd⟩)
  · exact absurd hp Bool.false_ne_true
  · rcases eq_or_ne d 0 with rfl | hne
    · revert hd
      decide
    · simp [State.init, Function.update_of_ne hne, Caller.wakeUp] at hd

end Workqueue
end Shannon
