/-
# How long the RT thread goes on

`shannon_workqueue.c`: a thread in the class `SCHED_FIFO` that never sleeps stops everything else
on its CPU, so `rt_thread_fn` counts the works it has run in a row.  After
`RT_MAX_LOOP_COUNT` of them it leaves the class, and from then on it sleeps for a jiffy after every
as many; when the list is empty it goes back to the class and begins a new pass.

`yield_bound` says what this achieves, whatever the producers do: in a pass the thread is in the
class for the first thousand works, and the works between two calls of the scheduler are less than
two thousand for each pass that ended without such a call, and two thousand.  There is no bound on
those passes: the pass ends when the list is empty at the test outside the lock, the thread does
not sleep when it finds a work at the second look, and both count and class start anew.  So the
thread can run any number of works in the class without a pause (`yield_unbounded`): one work that
comes after the test and before the second look, each time, is enough.

The class is what the calls of `set_thread_rt` and `set_thread_normal` make it when they succeed.
-/

import Shannon.Workqueue.RtThread

namespace Shannon
namespace Workqueue

open Lib

variable {W P C : Type*}

/-! ### Watching the thread -/

/-- What is counted of the thread: works and pauses in the pass, works since it last called the
scheduler, and passes that ended since then; whether it is in the class `SCHED_FIFO`; and the calls
of `set_thread_normal` and of the scheduler. -/
structure Watch where
  pass : ℕ
  pauses : ℕ
  since : ℕ
  skips : ℕ
  fifo : Bool
  normals : ℕ
  yields : ℕ
deriving DecidableEq, Repr

/-- `set_thread_rt` at the beginning of the thread. -/
def Watch.init : Watch := ⟨0, 0, 0, 0, true, 0, 0⟩

/-- `set_thread_normal`. -/
def Watch.setThreadNormal (w : Watch) : Watch := { w with fifo := false, normals := w.normals + 1 }

/-- `set_thread_rt`. -/
def Watch.setThreadRt (w : Watch) : Watch := { w with fifo := true }

/-- The scheduler is called. -/
def Watch.schedule (w : Watch) : Watch :=
  { w with since := 0, skips := 0, yields := w.yields + 1 }

/-- A pass begins. -/
def Watch.top (w : Watch) : Watch := { w with pass := 0, pauses := 0 }

/-- The function of a work has returned. -/
def Watch.count (w : Watch) : Watch := { w with pass := w.pass + 1, since := w.since + 1 }

section System

variable [DecidableEq W]

/-- What the next step of the thread adds. -/
def Watch.next (w : Watch) (s : State W P C) : Watch :=
  let t := s.thread
  match t.pc with
  | .test =>
      if shannonListEmpty s.queue.links none then if t.isRt then w else w.setThreadRt else w
  | .count =>
      if rtMaxLoopCount ≤ t.loopCount + 1 ∧ t.isRt = true then w.count.setThreadNormal else w.count
  | .pause => { w.schedule with pauses := w.pauses + 1 }
  | .park =>
      if shannonListEmpty s.queue.links none then w else { w.top with skips := w.skips + 1 }
  | .sched => w.schedule.top
  | _ => w

/-- What a step adds. -/
def Watch.after (w : Watch) (s : State W P C) : Label W P C → Watch
  | .thread => w.next s
  | _ => w

/-- The system with what is counted. -/
structure Watched (W P C : Type*) where
  sys : State W P C
  watch : Watch

variable [DecidableEq P] [DecidableEq C]

/-- One step of it. -/
def watchStep (s : Watched W P C) (l : Label W P C) : Option (Watched W P C) :=
  (step s.sys l).map fun sys => ⟨sys, s.watch.after s.sys l⟩

end System

/-- Nobody has called anything. -/
def Watched.init : Watched W P C := ⟨State.init, Watch.init⟩

/-! ### What a pass is -/

/-- Where the thread is in its pass. -/
inductive Phase where
  | working
  | pausing
  | ending
deriving DecidableEq, Repr

/-- The phase of a place. -/
def Pc.phase : Pc W → Phase
  | .test | .take | .run .. | .count | .pauseDone => .working
  | .pauseSet | .pause => .pausing
  | .wakeFlush | .stopTest | .park | .sched | .exited => .ending

/-- The works since the last pause of the pass, or since it began. -/
def unpaused (pass : ℕ) : ℕ := if pass < 2000 then pass else pass % 1000

theorem unpaused_le (pass : ℕ) : unpaused pass ≤ 1999 := by
  rw [unpaused]
  split_ifs <;> omega

theorem unpaused_succ {pass : ℕ} (h : pass < 1000 ∨ pass % 1000 < 999) :
    unpaused (pass + 1) = unpaused pass + 1 := by
  rw [unpaused, unpaused]
  split_ifs <;> omega

/-- **The invariant.**  While it works, the variables of the thread and its class say how many works
there were in the pass.  A pass of less than two thousand works has no pause. -/
def Kept (t : RtThread W) (w : Watch) : Prop :=
  match t.pc.phase with
  | .working =>
      t.loopCount = w.pass % 1000 ∧ t.isRt = decide (w.pass < 1000) ∧ w.fifo = t.isRt ∧
        w.pauses = w.pass / 1000 - 1 ∧
        w.since ≤ 1999 * w.skips + unpaused w.pass
  | .pausing =>
      t.loopCount = 0 ∧ t.isRt = false ∧ w.fifo = false ∧ 2000 ≤ w.pass ∧ w.pass % 1000 = 0 ∧
        w.pauses + 1 = w.pass / 1000 - 1 ∧ w.since ≤ 1999 * w.skips + 2000
  | .ending => w.fifo = true ∧ w.since ≤ 1999 * w.skips + 1999

/-- Only this of the thread matters. -/
theorem Kept.congr {t t' : RtThread W} {w : Watch} (h : Kept t w) (hpc : t'.pc.phase = t.pc.phase)
    (hcount : t'.loopCount = t.loopCount) (hrt : t'.isRt = t.isRt) : Kept t' w := by
  rw [Kept, hpc, hcount, hrt]
  exact h

theorem kept_top {t : RtThread W} {w : Watch} (hfifo : w.fifo = true)
    (hsince : w.since ≤ 1999 * w.skips) : Kept t.top w.top := by
  refine ⟨rfl, rfl, hfifo, by simp [Watch.top], ?_⟩
  simpa [Watch.top, unpaused] using hsince

section Steps

variable [DecidableEq W]

/-- **The thread keeps it.** -/
theorem kept_threadStep {s s' : State W P C} {w : Watch} (hw : Kept s.thread w)
    (h : threadStep s = some s') : Kept s'.thread (w.next s) := by
  unfold threadStep at h
  unfold Watch.next
  dsimp only at h ⊢
  cases hpc : s.thread.pc with
  | test =>
      simp only [hpc] at h ⊢
      obtain ⟨hcount, hrt, hfifo, hpauses, hsince⟩ : Kept { s.thread with pc := .test } w :=
        hw.congr (by rw [hpc]) rfl rfl
      split_ifs at h ⊢ with hempty hisRt <;> cases h
      · exact ⟨hfifo.trans hisRt, hsince.trans (Nat.add_le_add_left (unpaused_le _) _)⟩
      · exact ⟨rfl, hsince.trans (Nat.add_le_add_left (unpaused_le _) _)⟩
      · exact ⟨hcount, hrt, hfifo, hpauses, hsince⟩
  | take =>
      simp only [hpc] at h ⊢
      split at h <;> cases h
      · exact hw
      · exact hw.congr (by rw [hpc]; rfl) rfl rfl
  | run rtw wake =>
      cases wake <;> simp only [hpc] at h ⊢ <;> cases h <;>
        exact hw.congr (by rw [hpc]; rfl) rfl rfl
  | count =>
      simp only [hpc, rtMaxLoopCount] at h ⊢
      obtain ⟨hcount, hrt, hfifo, hpauses, hsince⟩ : Kept { s.thread with pc := .count } w :=
        hw.congr (by rw [hpc]) rfl rfl
      dsimp only at hcount hrt hfifo
      rw [hcount, hrt] at h ⊢
      by_cases hmany : 1000 ≤ w.pass % 1000 + 1
      · by_cases hfirst : w.pass < 1000
        · -- the thousandth work
          simp only [hfirst, hmany, decide_true, and_self, if_true] at h ⊢
          cases h
          have hpass : w.pass = 999 := by omega
          simp only [Kept, Pc.phase, Watch.setThreadNormal, Watch.count,
            unpaused_succ (.inl hfirst)]
          refine ⟨by omega, by simp [hpass], trivial, by omega, by omega⟩
        · -- time to pause
          simp only [hmany, hfirst, decide_false, Bool.false_eq_true, and_false, if_true,
            if_false] at h ⊢
          cases h
          have hle := unpaused_le w.pass
          simp only [Kept, Pc.phase, Watch.count]
          exact ⟨trivial, trivial, by simp [hfifo, hrt, hfirst], by omega, by omega, by omega,
            by omega⟩
      · simp only [hmany, false_and, if_false] at h ⊢
        cases h
        have hfirst : (w.pass < 1000) ↔ w.pass + 1 < 1000 := by omega
        have hnext : unpaused (w.pass + 1) = unpaused w.pass + 1 :=
          unpaused_succ (.inr (by omega))
        simp only [Kept, Pc.phase, Watch.count, hnext]
        exact ⟨by omega, decide_eq_decide.2 hfirst, hfifo.trans hrt, by omega, by omega⟩
  | pauseSet =>
      simp only [hpc] at h ⊢
      cases h
      exact hw.congr (by rw [hpc]; rfl) rfl rfl
  | pause =>
      simp only [hpc] at h ⊢
      cases h
      obtain ⟨hcount, hrt, hfifo, hmany, hpass, hpauses, -⟩ :
          Kept { s.thread with pc := .pause } w := hw.congr (by rw [hpc]) rfl rfl
      refine ⟨hcount.trans hpass.symm, hrt.trans ?_, hfifo.trans hrt.symm, hpauses, Nat.zero_le _⟩
      exact (decide_eq_false (by simp only [Watch.schedule]; omega)).symm
  | pauseDone =>
      simp only [hpc] at h ⊢
      cases h
      exact hw.congr (by rw [hpc]; rfl) rfl rfl
  | wakeFlush =>
      simp only [hpc] at h ⊢
      cases h
      exact hw.congr (by rw [hpc]; rfl) rfl rfl
  | stopTest =>
      simp only [hpc] at h ⊢
      split_ifs at h <;> cases h <;> exact hw.congr (by rw [hpc]; rfl) rfl rfl
  | park =>
      simp only [hpc] at h ⊢
      obtain ⟨hfifo, hsince⟩ : Kept { s.thread with pc := .park } w :=
        hw.congr (by rw [hpc]) rfl rfl
      split_ifs at h ⊢ <;> cases h
      · exact ⟨hfifo, hsince⟩
      · exact kept_top (w := { w with skips := w.skips + 1 }) hfifo (by simp only; omega)
  | sched =>
      simp only [hpc] at h ⊢
      obtain ⟨hfifo, -⟩ : Kept { s.thread with pc := .sched } w :=
        hw.congr (by rw [hpc]) rfl rfl
      split_ifs at h
      cases h
      exact kept_top (w := w.schedule) hfifo (Nat.zero_le _)
  | exited =>
      rw [hpc] at h
      cases h

variable [DecidableEq P] [DecidableEq C]

/-- **Nobody else touches it.** -/
theorem thread_step_of_ne {s s' : State W P C} {l : Label W P C} (hl : l ≠ .thread)
    (h : step s l = some s') : s'.thread.pc.phase = s.thread.pc.phase ∧
      s'.thread.loopCount = s.thread.loopCount ∧ s'.thread.isRt = s.thread.isRt := by
  have hsame (hwork : SameWork s s') : s'.thread.pc.phase = s.thread.pc.phase ∧
      s'.thread.loopCount = s.thread.loopCount ∧ s'.thread.isRt = s.thread.isRt := by
    rcases hwork.thread_eq with heq | heq <;> rw [heq] <;> exact ⟨rfl, rfl, rfl⟩
  cases l with
  | thread => exact absurd rfl hl
  | func work =>
      obtain ⟨rtw, hpc, rfl⟩ := step_func h
      exact ⟨by rw [hpc]; rfl, rfl, rfl⟩
  | queue p work =>
      obtain ⟨-, rfl⟩ := step_queue h
      exact ⟨rfl, rfl, rfl⟩
  | wake p =>
      obtain rfl := step_wake h
      exact ⟨rfl, rfl, rfl⟩
  | flush c => exact hsame (sameWork_callBegins h)
  | destroy c => exact hsame (sameWork_callBegins h)
  | caller c => exact hsame (callerMoves h).toSameWork

theorem kept_step {s s' : Watched W P C} {l : Label W P C} (hs : Kept s.sys.thread s.watch)
    (h : watchStep s l = some s') : Kept s'.sys.thread s'.watch := by
  obtain ⟨sys, hsys, rfl⟩ := Option.map_eq_some_iff.1 h
  by_cases hl : l = .thread
  · subst hl
    exact kept_threadStep hs hsys
  · obtain ⟨hpc, hcount, hrt⟩ := thread_step_of_ne hl hsys
    have hwatch : s.watch.after s.sys l = s.watch := by
      cases l with
      | thread => exact absurd rfl hl
      | _ => rfl
    rw [hwatch]
    exact hs.congr hpc hcount hrt

/-- **How often the thread gives way.**  In every state of every run, whatever the producers and the
callers of flush and destroy do: while the function of a work runs, the thread is in the class
exactly if there were less than a thousand works before it in its pass, and it has paused once for
every thousand of them but the first; and since the thread last called the scheduler it has run at
most two thousand works, and 1999 more for each pass that ended since then. -/
theorem yield_bound {ls : List (Label W P C)} {s : Watched W P C}
    (hrun : run watchStep Watched.init ls = some s) :
    (∀ rtw wake, s.sys.thread.pc = .run rtw wake →
      (s.watch.fifo = true ↔ s.watch.pass < 1000) ∧ s.watch.pauses = s.watch.pass / 1000 - 1) ∧
    s.watch.since ≤ 1999 * s.watch.skips + 2000 := by
  have hinit : Kept (State.init : State W P C).thread Watch.init :=
    ⟨rfl, rfl, rfl, by simp [Watch.init], Nat.zero_le _⟩
  have hkept : Kept s.sys.thread s.watch :=
    run_invariant (I := fun s => Kept s.sys.thread s.watch) (fun s l t hs h => kept_step hs h)
      hinit hrun
  refine ⟨fun rtw wake hpc => ?_, ?_⟩
  · simp only [Kept, hpc, Pc.phase] at hkept
    obtain ⟨-, hrt, hfifo, hpauses, -⟩ := hkept
    exact ⟨by rw [hfifo, hrt, decide_eq_true_iff], hpauses⟩
  · have hle := unpaused_le s.watch.pass
    unfold Kept at hkept
    split at hkept
    · omega
    · exact hkept.2.2.2.2.2.2
    · omega

/-- A work is queued twice, and runs twice in the same pass. -/
def twice : List (Label Unit Unit Unit) :=
  List.flatten
    [[.queue () (), .wake ()], List.replicate 2 .thread, [.func ()], List.replicate 5 .thread]

/-- The hypothesis of `yield_bound` is satisfiable: in the second work of `twice` the thread is in
the class. -/
theorem yield_bound_twice : ∃ s : Watched Unit Unit Unit,
    run watchStep Watched.init twice = some s ∧ s.watch.pass = 1 ∧ s.watch.fifo = true ∧
      s.watch.since ≤ 1999 * s.watch.skips + 2000 := by
  obtain ⟨s, hs, hpc, hpass⟩ : ∃ s : Watched Unit Unit Unit,
      run watchStep Watched.init twice = some s ∧ s.sys.thread.pc = .run () false ∧
        s.watch.pass = 1 := ⟨_, rfl, rfl, rfl⟩
  obtain ⟨hclass, hbound⟩ := yield_bound hs
  exact ⟨s, hs, hpass, (hclass () false hpc).1.2 (by omega), hbound⟩

/-! ### A thread that never gives way -/

/-- The thread is about to run `w`, after `n` passes of one work each, and has never left the class
or called the scheduler. -/
structure Spins (w : W) (p : P) (n : ℕ) (s : Watched W P C) : Prop where
  thread : s.sys.thread = ⟨.test, .running, 0, true⟩
  holds : Holds s.sys.queue [w]
  wakes : s.sys.wakes p = false
  shouldStop : s.sys.shouldStop = false
  watch : s.watch = ⟨0, 0, n, n, true, 0, 0⟩

/-- One pass: the work comes again after the thread has found the list empty. -/
def spin (w : W) (p : P) : List (Label W P C) :=
  List.replicate 7 .thread ++ [.queue p w, .wake p, .thread]

theorem spins_spin {w : W} {p : P} {n : ℕ} {s : Watched W P C} (hs : Spins w p n s) :
    ∃ t, run watchStep s (spin w p) = some t ∧ Spins w p (n + 1) t := by
  obtain ⟨⟨q, thread, wakes, callers, destroying, shouldStop, stopWoken, calls, executed, finished⟩,
    watch⟩ := s
  obtain ⟨rfl, hq, hwakes, rfl, rfl⟩ := hs
  dsimp only at hq hwakes
  obtain ⟨q₁, htake, hq₁⟩ := takeFirst_spec hq
  obtain ⟨hmem, -⟩ | ⟨-, q₂, hqueue, hq₂⟩ := shannonRtQueueWork_spec hq₁ w
  · exact absurd hmem (List.not_mem_nil)
  have hfull : shannonListEmpty q.links none = false := by
    rw [Bool.eq_false_iff, ne_eq, hq.empty_iff]
    exact List.cons_ne_nil _ _
  have hempty : shannonListEmpty q₁.links none = true := hq₁.empty_iff.2 rfl
  have hfull₂ : shannonListEmpty q₂.links none = false := by
    rw [Bool.eq_false_iff, ne_eq, hq₂.empty_iff]
    exact List.cons_ne_nil _ _
  refine ⟨⟨⟨q₂, ⟨.test, .running, 0, true⟩, Function.update (Function.update wakes p true) p false,
    fun c => (callers c).wakeUp, destroying, false, stopWoken, calls ++ [(w, 0)], executed ++ [w],
    finished ++ [w]⟩, ⟨0, 0, n + 1, n + 1, true, 0, 0⟩⟩, ?_, rfl, hq₂, Function.update_self .., rfl,
    rfl⟩
  simp [spin, run, watchStep, step, threadStep, Watch.after, Watch.next, List.replicate, hfull,
    htake, hempty, hqueue, hfull₂, hwakes, State.queueWork, rtMaxLoopCount, RtThread.wakeUp,
    RtThread.top, Watch.count, Watch.top]

/-- **The thread can go on for ever.**  For every number there is a run in which the thread has run
as many works in the class `SCHED_FIFO`, which it has never left, and has not called the scheduler
once: one producer with one work is enough. -/
theorem yield_unbounded (w : W) (p : P) (n : ℕ) : ∃ (ls : List (Label W P C)) (s : Watched W P C),
    run watchStep Watched.init ls = some s ∧ s.watch.since = n ∧ s.watch.yields = 0 ∧
      s.watch.normals = 0 ∧ s.watch.fifo = true := by
  have hspins : ∃ (ls : List (Label W P C)) (s : Watched W P C),
      run watchStep Watched.init ls = some s ∧ Spins w p n s := by
    induction n with
    | zero =>
        obtain ⟨hmem, -⟩ | ⟨-, q, hqueue, hq⟩ := shannonRtQueueWork_spec (holds_init (W := W)) w
        · exact absurd hmem (List.not_mem_nil)
        refine ⟨[.queue p w, .wake p], ⟨{ (State.init : State W P C) with
            queue := q
            wakes := Function.update (Function.update (fun _ => false) p true) p false
            calls := [(w, 0)] }, Watch.init⟩, ?_, rfl, hq, Function.update_self .., rfl, rfl⟩
        simp [run, watchStep, step, Watched.init, State.init, State.queueWork, hqueue, Watch.after,
          RtThread.wakeUp]
    | succ n ih =>
        obtain ⟨ls, s, hls, hs⟩ := ih
        obtain ⟨t, hspin, ht⟩ := spins_spin hs
        exact ⟨ls ++ spin w p, t, run_append_eq_some.2 ⟨_, hls, hspin⟩, ht⟩
  obtain ⟨ls, s, hls, hs⟩ := hspins
  exact ⟨ls, s, hls, by simp [hs.watch]⟩

end Steps
end Workqueue
end Shannon
