/-
# The RT work queue is first in, first out

The works that were queued with success are those that the thread of
`shannon_workqueue.c` has taken, followed by those in the list: this is the heart
of the invariant `Inv`, which every step keeps (`inv_step`).  With it, the thread
comes nearer to the end of the next function with every step it makes
(`left_threadStep`), whatever the others do in between.  `rt_workqueue_fifo` is
what the producers can rely on.
-/

import Shannon.Workqueue.RtThread

namespace Shannon
namespace Workqueue

open Lib

variable {W P C : Type*}

/-! ### The invariant -/

/-- **The invariant.**  The list holds the works `xs`; the works queued with
success are those taken and then `xs`; those taken are those whose function has
returned and the one that is running; there is a work to take when the thread
has seen one; and when it is blocked although there are works, a producer has
still to wake it. -/
structure Inv (s : State W P C) (xs : List W) : Prop where
  holds : Holds s.queue xs
  accepted_eq : s.accepted = s.executed ++ xs
  executed_eq : s.executed = s.finished ++ s.thread.pc.running
  take_ne : s.thread.pc = .take → xs ≠ []
  awake : s.thread.Blocked → xs ≠ [] → ∃ p, s.wakes p = true
  calls_ret : ∀ c ∈ s.calls, c.2 = 0 ∨ c.2 = -1
  exited_stop : s.thread.pc = .exited → s.shouldStop = true

theorem inv_init : Inv (State.init : State W P C) [] where
  holds := holds_init
  accepted_eq := rfl
  executed_eq := rfl
  take_ne := nofun
  awake := fun h => nomatch h.1
  calls_ret := nofun
  exited_stop := nofun

theorem Inv.sameWork {s s' : State W P C} {xs : List W} (hinv : Inv s xs) (h : SameWork s s') :
    Inv s' xs := by
  have hpc : s'.thread.pc = s.thread.pc := by
    rcases h.thread_eq with heq | heq <;> rw [heq]
    rfl
  refine ⟨h.queue_eq ▸ hinv.holds, ?_, ?_, ?_, fun hb => ?_, ?_, ?_⟩
  · rw [State.accepted, h.calls_eq, h.executed_eq]
    exact hinv.accepted_eq
  · rw [h.executed_eq, h.finished_eq, hpc]
    exact hinv.executed_eq
  · rw [hpc]
    exact hinv.take_ne
  · rcases h.thread_eq with heq | heq
    · rw [h.wakes_eq]
      exact hinv.awake (heq ▸ hb)
    · exact absurd (by rw [heq]; rfl) hb.2
  · rw [h.calls_eq]
    exact hinv.calls_ret
  · rw [hpc]
    exact fun hex => h.stop_mono (hinv.exited_stop hex)

/-- A step that changes only the thread and the callers, and does not go to
sleep with works in the list. -/
theorem Inv.moveThread {s s' : State W P C} {xs : List W} (hinv : Inv s xs)
    (hs : s' = { s with thread := s'.thread, callers := s'.callers })
    (hrunning : s'.thread.pc.running = s.thread.pc.running)
    (htake : s'.thread.pc = .take → xs ≠ []) (hblocked : s'.thread.Blocked → xs = [])
    (hexited : s'.thread.pc = .exited → s.shouldStop = true) : Inv s' xs := by
  rw [hs]
  refine ⟨hinv.holds, hinv.accepted_eq, ?_, htake, fun hb hne => absurd (hblocked hb) hne,
    hinv.calls_ret, hexited⟩
  simp only [hrunning]
  exact hinv.executed_eq

/-- Neither about to take a work, nor asleep, nor gone. -/
def Pc.Quiet (pc : Pc W) : Prop := pc ≠ .take ∧ pc ≠ .sched ∧ pc ≠ .exited

theorem Inv.quiet {s s' : State W P C} {xs : List W} (hinv : Inv s xs)
    (hs : s' = { s with thread := s'.thread, callers := s'.callers })
    (hrunning : s'.thread.pc.running = s.thread.pc.running) (hquiet : s'.thread.pc.Quiet) :
    Inv s' xs :=
  hinv.moveThread hs hrunning (fun h => absurd h hquiet.1) (fun h => absurd h.1 hquiet.2.1)
    fun h => absurd h hquiet.2.2

section Steps

variable [DecidableEq W]

theorem Inv.threadStep {s s' : State W P C} {xs : List W} (hinv : Inv s xs)
    (h : threadStep s = some s') : ∃ xs', Inv s' xs' := by
  have hempty := hinv.holds.empty_iff
  unfold Workqueue.threadStep at h
  dsimp only at h
  split at h
  all_goals rename_i hpc
  · -- the test outside the lock
    split_ifs at h with hl <;> cases h
    · exact ⟨xs, hinv.quiet rfl (by simp [hpc, Pc.running]) (by simp [Pc.Quiet])⟩
    · exact ⟨xs, hinv.moveThread rfl (by simp [hpc, Pc.running]) (fun _ => mt hempty.2 hl)
        (by simp [RtThread.Blocked]) (by simp)⟩
  · -- the section that takes the first work: there is one
    obtain ⟨w, ys, rfl⟩ := List.exists_cons_of_ne_nil (hinv.take_ne hpc)
    obtain ⟨q, hq, hholds⟩ := takeFirst_spec hinv.holds
    rw [hq] at h
    cases h
    refine ⟨ys, hholds, ?_, ?_, by simp, by simp [RtThread.Blocked], hinv.calls_ret, by simp⟩
    · rw [List.append_assoc]
      exact hinv.accepted_eq
    · have hex := hinv.executed_eq
      rw [hpc] at hex
      simp [hex, Pc.running]
  · cases h
    exact ⟨xs, hinv.quiet rfl (by simp [hpc, Pc.running]) (by simp [Pc.Quiet])⟩
  · -- the function returns
    cases h
    refine ⟨xs, hinv.holds, hinv.accepted_eq, ?_, by simp, by simp [RtThread.Blocked],
      hinv.calls_ret, by simp⟩
    have hex := hinv.executed_eq
    rw [hpc] at hex
    simp [hex, Pc.running]
  · split_ifs at h <;> cases h <;>
      exact ⟨xs, hinv.quiet rfl (by simp [hpc, Pc.running]) (by simp [Pc.Quiet])⟩
  · cases h
    exact ⟨xs, hinv.quiet rfl (by simp [hpc, Pc.running]) (by simp [Pc.Quiet])⟩
  · cases h
    exact ⟨xs, hinv.quiet rfl (by simp [hpc, Pc.running]) (by simp [Pc.Quiet])⟩
  · cases h
    exact ⟨xs, hinv.quiet rfl (by simp [hpc, Pc.running]) (by simp [Pc.Quiet])⟩
  · cases h
    exact ⟨xs, hinv.quiet rfl (by simp [hpc, Pc.running]) (by simp [Pc.Quiet])⟩
  · split_ifs at h with hstop <;> cases h
    · exact ⟨xs, hinv.moveThread rfl (by simp [hpc, Pc.running]) (by simp)
        (by simp [RtThread.Blocked]) (fun _ => hstop)⟩
    · exact ⟨xs, hinv.quiet rfl (by simp [hpc, Pc.running]) (by simp [Pc.Quiet])⟩
  · -- the second look at the list: it is empty when the thread goes to sleep
    split_ifs at h with hl <;> cases h
    · exact ⟨xs, hinv.moveThread rfl (by simp [hpc, Pc.running]) (by simp)
        (fun _ => hempty.1 hl) (by simp)⟩
    · exact ⟨xs, hinv.quiet rfl (by simp [hpc, Pc.running, RtThread.top])
        (by simp [Pc.Quiet, RtThread.top])⟩
  · split_ifs at h
    cases h
    exact ⟨xs, hinv.quiet rfl (by simp [hpc, Pc.running, RtThread.top])
      (by simp [Pc.Quiet, RtThread.top])⟩
  · cases h

/-- What a call of `shannon_rt_queue_work` changes: refused, it is only
recorded; else the work comes last. -/
theorem Inv.queueWork {s : State W P C} {xs : List W} (hinv : Inv s xs) (work : W) :
    ∃ q ret xs',
      s.queueWork work = ({ s with queue := q, calls := s.calls ++ [(work, ret)] }, ret) ∧
      Holds q xs' ∧ (if ret = 0 then s.accepted ++ [work] else s.accepted) = s.executed ++ xs' ∧
      (ret = -1 ∧ xs' = xs ∨ ret = 0 ∧ xs' = xs ++ [work]) := by
  have hacc := hinv.accepted_eq
  rcases shannonRtQueueWork_spec hinv.holds work with ⟨-, hq⟩ | ⟨-, q, hq, hholds⟩
  · exact ⟨s.queue, -1, xs, by rw [State.queueWork, hq], hinv.holds, by simpa using hacc,
      .inl ⟨rfl, rfl⟩⟩
  · exact ⟨q, 0, xs ++ [work], by rw [State.queueWork, hq], hholds, by simp [hacc],
      .inr ⟨rfl, rfl⟩⟩

omit [DecidableEq W] in
theorem calls_ret_concat {calls : List (W × ℤ)} (h : ∀ c ∈ calls, c.2 = 0 ∨ c.2 = -1) {work : W}
    {ret : ℤ} (hret : ret = 0 ∨ ret = -1) :
    ∀ c ∈ calls ++ [(work, ret)], c.2 = 0 ∨ c.2 = -1 := by
  intro c hc
  rw [List.mem_append, List.mem_singleton] at hc
  rcases hc with hc | rfl
  · exact h c hc
  · exact hret

end Steps

section Steps

variable [DecidableEq W] [DecidableEq P] [DecidableEq C]

/-- **One step keeps the invariant.** -/
theorem inv_step {s s' : State W P C} {l : Label W P C} {xs : List W} (hinv : Inv s xs)
    (h : step s l = some s') : ∃ xs', Inv s' xs' := by
  cases l with
  | thread => exact hinv.threadStep h
  | func work =>
      obtain ⟨rtw, hpc, rfl⟩ := step_func h
      obtain ⟨q, ret, xs', heq, hholds, hacc, hret⟩ := hinv.queueWork work
      rw [heq]
      refine ⟨xs', hholds, (accepted_concat s work ret).trans hacc, ?_, by simp,
        by simp [RtThread.Blocked], calls_ret_concat hinv.calls_ret (by tauto), by simp⟩
      have hex := hinv.executed_eq
      rw [hpc] at hex
      exact hex
  | queue p work =>
      obtain ⟨hp, rfl⟩ := step_queue h
      obtain ⟨q, ret, xs', heq, hholds, hacc, hret⟩ := hinv.queueWork work
      rw [heq]
      refine ⟨xs', hholds, (accepted_concat s work ret).trans hacc, hinv.executed_eq,
        fun htake => ?_, fun hb hne => ?_, calls_ret_concat hinv.calls_ret (by tauto),
        hinv.exited_stop⟩
      · rcases hret with ⟨-, rfl⟩ | ⟨-, rfl⟩
        · exact hinv.take_ne htake
        · simp
      · rcases hret with ⟨rfl, rfl⟩ | ⟨rfl, -⟩
        · obtain ⟨p', hp'⟩ := hinv.awake hb hne
          refine ⟨p', ?_⟩
          have hne' : p' ≠ p := by
            rintro rfl
            exact absurd hp' (by simp [hp])
          simpa [hne'] using hp'
        · exact ⟨p, by simp⟩
  | wake p =>
      obtain rfl := step_wake h
      exact ⟨xs, hinv.holds, hinv.accepted_eq, hinv.executed_eq, hinv.take_ne,
        fun hb => absurd rfl hb.2, hinv.calls_ret, hinv.exited_stop⟩
  | flush c => exact ⟨xs, hinv.sameWork (sameWork_callBegins h)⟩
  | destroy c => exact ⟨xs, hinv.sameWork (sameWork_callBegins h)⟩
  | caller c => exact ⟨xs, hinv.sameWork (callerMoves h).toSameWork⟩

/-! ### Every work is run -/

/-- Queued with success and run are never undone, and nobody leaves the end of
`rt_thread_fn`. -/
structure Grows (s s' : State W P C) : Prop where
  accepted : s.accepted <+: s'.accepted
  executed : s.executed <+: s'.executed
  finished : s.finished <+: s'.finished
  exited : s.thread.pc = .exited → s'.thread.pc = .exited

omit [DecidableEq W] [DecidableEq P] [DecidableEq C] in
theorem accepted_mono {s s' : State W P C} (h : s.calls <+: s'.calls) :
    s.accepted <+: s'.accepted :=
  (h.filter _).map _

omit [DecidableEq W] [DecidableEq P] [DecidableEq C] in
theorem SameWork.grows {s s' : State W P C} (h : SameWork s s') : Grows s s' := by
  constructor
  · exact accepted_mono (h.calls_eq ▸ List.prefix_refl _)
  · exact h.executed_eq ▸ List.prefix_refl _
  · exact h.finished_eq ▸ List.prefix_refl _
  · intro hex
    rcases h.thread_eq with heq | heq <;> rw [heq]
    · exact hex
    · exact hex

theorem grows_step {s s' : State W P C} {l : Label W P C} (h : step s l = some s') :
    Grows s s' := by
  cases l with
  | thread =>
      have hmoves := threadMoves h
      constructor
      · exact accepted_mono (hmoves.calls_eq ▸ List.prefix_refl _)
      · exact hmoves.executed_mono
      · exact hmoves.finished_mono
      · exact fun hex => absurd hex hmoves.not_exited
  | func work =>
      obtain ⟨rtw, hpc, rfl⟩ := step_func h
      exact ⟨accepted_mono (List.prefix_append ..), List.prefix_refl _, List.prefix_refl _,
        by simp [hpc]⟩
  | queue p work =>
      obtain ⟨-, rfl⟩ := step_queue h
      exact ⟨accepted_mono (List.prefix_append ..), List.prefix_refl _, List.prefix_refl _, id⟩
  | wake p =>
      obtain rfl := step_wake h
      exact ⟨List.prefix_refl _, List.prefix_refl _, List.prefix_refl _, id⟩
  | flush c => exact (sameWork_callBegins h).grows
  | destroy c => exact (sameWork_callBegins h).grows
  | caller c => exact (callerMoves h).toSameWork.grows

/-- How many steps the thread is away from the start of the next function, when
there is a work to run. -/
def Pc.rank : Pc W → ℕ
  | .run _ false => 0
  | .run _ true => 1
  | .take => 1
  | .test => 2
  | .pauseDone => 3
  | .pause => 4
  | .pauseSet => 5
  | .count => 6
  | .sched => 3
  | .park => 3
  | .stopTest => 4
  | .wakeFlush => 5
  | .exited => 0

/-- A bound on the steps of the thread until `n` functions have returned. -/
def State.left (s : State W P C) (n : ℕ) : ℕ := 7 * (n - s.finished.length) + s.thread.pc.rank

omit [DecidableEq W] [DecidableEq P] [DecidableEq C] in
/-- When fewer functions have returned than works were queued, one is running or
the list is not empty. -/
theorem Inv.ne_nil {s : State W P C} {xs : List W} (hinv : Inv s xs)
    (h : s.finished.length < s.accepted.length) (hrunning : s.thread.pc.running = []) :
    xs ≠ [] := by
  rintro rfl
  have heq := hinv.accepted_eq
  rw [hinv.executed_eq, hrunning, List.append_nil, List.append_nil] at heq
  rw [heq] at h
  exact lt_irrefl _ h

omit [DecidableEq W] [DecidableEq P] [DecidableEq C] in
theorem Inv.finished_prefix_accepted {s : State W P C} {xs : List W} (hinv : Inv s xs) :
    s.finished <+: s.accepted := by
  rw [hinv.accepted_eq, hinv.executed_eq, List.append_assoc]
  exact List.prefix_append ..

omit [DecidableEq P] [DecidableEq C] in
/-- **A step of the thread is a step towards the end of the `n`-th function.** -/
theorem left_threadStep {s s' : State W P C} {xs : List W} {n : ℕ} (hinv : Inv s xs)
    (h : threadStep s = some s') (hlt : s.finished.length < n) (hn : n ≤ s.accepted.length)
    (hex : s'.thread.pc ≠ .exited) : s'.left n + 1 ≤ s.left n := by
  have hempty := hinv.holds.empty_iff
  have hne := hinv.ne_nil (hlt.trans_le hn)
  unfold threadStep at h
  dsimp only at h
  split at h
  all_goals rename_i hpc
  all_goals simp only [hpc, Pc.running, forall_const, reduceCtorEq] at hne
  · split_ifs at h with hl <;> cases h
    · exact absurd (hempty.1 hl) hne
    · simp [State.left, hpc, Pc.rank]
  · obtain ⟨w, ys, rfl⟩ := List.exists_cons_of_ne_nil hne
    obtain ⟨q, hq, -⟩ := takeFirst_spec hinv.holds
    rw [hq] at h
    cases h
    simp [State.left, hpc, Pc.rank]
  · cases h
    simp [State.left, hpc, Pc.rank]
  · cases h
    simp only [State.left, hpc, Pc.rank, List.length_append, List.length_singleton]
    omega
  · split_ifs at h <;> cases h <;> simp [State.left, hpc, Pc.rank]
  · cases h
    simp [State.left, hpc, Pc.rank]
  · cases h
    simp [State.left, hpc, Pc.rank]
  · cases h
    simp [State.left, hpc, Pc.rank]
  · cases h
    simp [State.left, hpc, Pc.rank]
  · split_ifs at h <;> cases h
    · exact absurd rfl hex
    · simp [State.left, hpc, Pc.rank]
  · split_ifs at h with hl <;> cases h
    · exact absurd (hempty.1 hl) hne
    · simp [State.left, hpc, Pc.rank, RtThread.top]
  · split_ifs at h
    cases h
    simp [State.left, hpc, Pc.rank, RtThread.top]
  · cases h

/-- A step of the thread. -/
def Label.isThread : Label W P C → Bool
  | .thread => true
  | _ => false

/-- A call of `shannon_rt_queue_work` by a function that is running. -/
def Label.isFunc : Label W P C → Bool
  | .func _ => true
  | _ => false

omit [DecidableEq W] [DecidableEq P] [DecidableEq C] in
theorem SameWork.left_eq {s s' : State W P C} (h : SameWork s s') (n : ℕ) :
    s'.left n = s.left n := by
  rw [State.left, State.left, h.finished_eq]
  rcases h.thread_eq with heq | heq <;> rw [heq]
  rfl

theorem left_step {s s' : State W P C} {l : Label W P C} {xs : List W} {n : ℕ} (hinv : Inv s xs)
    (h : step s l = some s') (hlt : s.finished.length < n) (hn : n ≤ s.accepted.length)
    (hex : s'.thread.pc ≠ .exited) :
    s'.left n + l.isThread.toNat ≤ s.left n + l.isFunc.toNat := by
  cases l with
  | thread => exact left_threadStep hinv h hlt hn hex
  | func work =>
      obtain ⟨rtw, -, rfl⟩ := step_func h
      have hrank (b : Bool) : (Pc.run rtw b).rank ≤ 1 := by cases b <;> simp [Pc.rank]
      have hle := hrank (decide ((s.queueWork work).2 = 0))
      show 7 * (n - s.finished.length) + (Pc.run rtw (decide ((s.queueWork work).2 = 0))).rank + 0
        ≤ 7 * (n - s.finished.length) + s.thread.pc.rank + 1
      omega
  | queue p work =>
      obtain ⟨-, rfl⟩ := step_queue h
      exact le_rfl
  | wake p =>
      obtain rfl := step_wake h
      exact le_rfl
  | flush c => exact ((sameWork_callBegins h).left_eq n).le
  | destroy c => exact ((sameWork_callBegins h).left_eq n).le
  | caller c => exact ((callerMoves h).toSameWork.left_eq n).le

/-- A run, until `n` functions have returned. -/
theorem left_run {s t : State W P C} {ls : List (Label W P C)} {xs : List W} {n : ℕ}
    (hinv : Inv s xs) (hrun : run step s ls = some t) (hn : n ≤ s.accepted.length)
    (hex : t.thread.pc ≠ .exited) (hlt : t.finished.length < n) :
    t.left n + ls.countP Label.isThread ≤ s.left n + ls.countP Label.isFunc := by
  induction ls generalizing s xs with
  | nil =>
      cases hrun
      exact le_rfl
  | cons l ls ih =>
      obtain ⟨u, hu, hrun⟩ := run_cons_eq_some.1 hrun
      have hgrows := grows_step hu
      have hfin : u.finished.length ≤ t.finished.length :=
        run_invariant (I := fun v => u.finished.length ≤ v.finished.length)
          (fun v _ w hv hw => hv.trans (grows_step hw).finished.length_le) le_rfl hrun
      have huex : u.thread.pc ≠ .exited := fun hu' => hex
        (run_invariant (I := fun v => v.thread.pc = .exited)
          (fun v _ w hv hw => (grows_step hw).exited hv) hu' hrun)
      obtain ⟨ys, hys⟩ := inv_step hinv hu
      have hstep := left_step hinv hu
        ((hgrows.finished.length_le.trans hfin).trans_lt hlt) hn huex
      have hrest := ih hys hrun (hn.trans hgrows.accepted.length_le)
      have hthread : (l :: ls).countP Label.isThread
          = ls.countP Label.isThread + l.isThread.toNat := by
        cases hl : l.isThread <;> simp [hl]
      have hfunc : (l :: ls).countP Label.isFunc = ls.countP Label.isFunc + l.isFunc.toNat := by
        cases hl : l.isFunc <;> simp [hl]
      omega

/-- The `n` works queued first have run once the thread has made `7 * n` steps,
not counting those with which it wakes itself. -/
theorem finished_of_steps {s t : State W P C} {ls : List (Label W P C)} {xs : List W} {n : ℕ}
    (hinv : Inv s xs) (hrun : run step s ls = some t) (hn : n ≤ s.accepted.length)
    (hex : t.thread.pc ≠ .exited)
    (hsteps : 7 * n + ls.countP Label.isFunc ≤ ls.countP Label.isThread) :
    n ≤ t.finished.length := by
  by_contra hlt
  have hlt := not_le.1 hlt
  have hleft := left_run hinv hrun hn hex hlt
  have hrank : s.thread.pc.rank ≤ 6 := by
    cases s.thread.pc with
    | run rtw b => cases b <;> simp [Pc.rank]
    | _ => simp [Pc.rank]
  simp only [State.left] at hleft
  omega

/-! ### The thread is told to stop only by the destruction of the queue -/

/-- Nobody is destroying the queue. -/
structure Undisturbed (s : State W P C) : Prop where
  shouldStop : s.shouldStop = false
  destroys : ∀ c, (s.callers c).destroys = false
  stopping : ∀ c, (s.callers c).pc.stopping = false

theorem undisturbed_step {s s' : State W P C} {l : Label W P C} (hs : Undisturbed s)
    (hl : ∀ c, l ≠ .destroy c) (h : step s l = some s') : Undisturbed s' := by
  cases l with
  | thread =>
      have hmoves := threadMoves h
      constructor
      · rw [hmoves.shouldStop_eq]
        exact hs.shouldStop
      · intro c
        rw [hmoves.callers_destroys]
        exact hs.destroys c
      · intro c
        rw [hmoves.callers_pc]
        exact hs.stopping c
  | func work =>
      obtain ⟨rtw, -, rfl⟩ := step_func h
      exact ⟨hs.shouldStop, hs.destroys, hs.stopping⟩
  | queue p work =>
      obtain ⟨-, rfl⟩ := step_queue h
      exact ⟨hs.shouldStop, hs.destroys, hs.stopping⟩
  | wake p =>
      obtain rfl := step_wake h
      exact ⟨hs.shouldStop, hs.destroys, hs.stopping⟩
  | flush c =>
      rw [callBegins_eq h]
      exact ⟨hs.shouldStop,
        forall_update (P := fun k : Caller => k.destroys = false) hs.destroys rfl,
        forall_update (P := fun k : Caller => k.pc.stopping = false) hs.stopping rfl⟩
  | destroy c => exact absurd rfl (hl c)
  | caller c =>
      have hmoves := callerMoves h
      have hc : (s'.callers c).pc.stopping = false := by
        rw [Bool.eq_false_iff]
        intro hstopping
        rcases hmoves.stopping hstopping with hold | hold
        · exact absurd (hs.stopping c) (by simp [hold])
        · exact absurd (hs.destroys c) (by simp [hold])
      refine ⟨?_, fun d => ?_, fun d => ?_⟩
      · rw [Bool.eq_false_iff]
        intro hstop
        rcases hmoves.shouldStop hstop with hold | hold
        · exact absurd hs.shouldStop (by simp [hold])
        · exact absurd (hs.stopping c) (by simp [hold])
      · rcases eq_or_ne d c with rfl | hd
        · rw [hmoves.destroys_eq]
          exact hs.destroys d
        · rw [hmoves.callers_of_ne d hd]
          exact hs.destroys d
      · rcases eq_or_ne d c with rfl | hd
        · exact hc
        · rw [hmoves.callers_of_ne d hd]
          exact hs.stopping d

omit [DecidableEq P] [DecidableEq C] in
theorem exists_threadStep {s : State W P C} (hex : s.thread.pc ≠ .exited)
    (hb : ¬s.thread.Blocked) : ∃ s', threadStep s = some s' := by
  rw [← Option.isSome_iff_exists]
  unfold threadStep
  dsimp only
  split
  case h_12 hpc =>
    have hrunning : s.thread.state = .running := not_not.1 fun h => hb ⟨hpc, h⟩
    rw [if_pos hrunning]
    rfl
  case h_13 hpc => exact absurd hpc hex
  all_goals (try split_ifs) <;> (try split) <;> rfl

/-- A thread with works to run moves, if need be after a producer's wake-up. -/
theorem Inv.enabled {s : State W P C} {xs : List W} (hinv : Inv s xs)
    (hlt : s.finished.length < s.accepted.length) (hex : s.thread.pc ≠ .exited) :
    (∃ s', step s .thread = some s') ∨
      ∃ p s' s'', step s (.wake p) = some s' ∧ step s' .thread = some s'' := by
  by_cases hb : s.thread.Blocked
  · have hne := hinv.ne_nil hlt (by simp [hb.1, Pc.running])
    obtain ⟨p, hp⟩ := hinv.awake hb hne
    obtain ⟨t, ht⟩ := exists_threadStep
      (s := { s with thread := s.thread.wakeUp, wakes := Function.update s.wakes p false }) hex
      fun hb => hb.2 rfl
    exact .inr ⟨p, _, t, by rw [step, if_pos hp], ht⟩
  · exact .inl (exists_threadStep hex hb)

/-! ### What the producers can rely on -/

theorem inv_run {ls : List (Label W P C)} {s : State W P C}
    (hrun : run step State.init ls = some s) : ∃ xs, Inv s xs :=
  run_invariant (I := fun s => ∃ xs, Inv s xs) (fun _ _ _ ⟨_, hinv⟩ h => inv_step hinv h)
    ⟨[], inv_init⟩ hrun

theorem not_exited_run {ls : List (Label W P C)} {s : State W P C}
    (hrun : run step State.init ls = some s) (hls : ∀ c, Label.destroy c ∉ ls) :
    s.thread.pc ≠ .exited := by
  obtain ⟨xs, hinv⟩ := inv_run hrun
  have hgood : Along step (fun _ l => ∀ c, l ≠ Label.destroy c) (State.init : State W P C) ls :=
    along_of_forall (fun l hl _ c => by rintro rfl; exact hls c hl) _
  have hund : Undisturbed s := run_invariant_along
    (fun _ _ _ hs hl h => undisturbed_step hs hl h) ⟨rfl, fun _ => rfl, fun _ => rfl⟩ hgood hrun
  intro hex
  exact absurd hund.shouldStop (by simp [hinv.exited_stop hex])

/-- **No work is lost and none is run twice.**  Let producers, the functions that
the thread runs and other callers make any calls, in any interleaving.

The list holds a sequence `xs` of distinct works, and the PENDING bit is set for
exactly these; `SHN_BUG_ON` has not fired.  The works queued with success are, in
the order of the calls, those taken so far, each for one run, followed by `xs`;
those taken are those whose function has returned and the one that is running; a
call that does not return `0` returns `-1` and adds none.  When the thread is
blocked although there are works, some producer has still to wake it.

Every work is run: as long as a function of a work queued so far has not
returned, the thread can move, at once or after the wake-up of a producer, and
after `7` steps for each of these works, not counting those with which it wakes
itself, all have returned.  It does not exit before the queue is destroyed. -/
theorem rt_workqueue_fifo {ls : List (Label W P C)} {s : State W P C}
    (hrun : run step State.init ls = some s) :
    (∃ xs, Holds s.queue xs ∧ xs.Nodup ∧ s.accepted = s.executed ++ xs ∧
      (s.thread.Blocked → xs ≠ [] → ∃ p, s.wakes p = true)) ∧
    s.executed = s.finished ++ s.thread.pc.running ∧
    (∀ c ∈ s.calls, c.2 = 0 ∨ c.2 = -1) ∧
    (s.finished ≠ s.accepted → s.thread.pc ≠ .exited → (∃ s', step s .thread = some s') ∨
      ∃ p s' s'', step s (.wake p) = some s' ∧ step s' .thread = some s'') ∧
    (∀ ms t, run step s ms = some t → t.thread.pc ≠ .exited →
      7 * s.accepted.length + ms.countP Label.isFunc ≤ ms.countP Label.isThread →
        s.accepted <+: t.finished) ∧
    ((∀ c, .destroy c ∉ ls) → s.thread.pc ≠ .exited) := by
  obtain ⟨xs, hinv⟩ := inv_run hrun
  refine ⟨⟨xs, hinv.holds, hinv.holds.nodup, hinv.accepted_eq, hinv.awake⟩, hinv.executed_eq,
    hinv.calls_ret, fun hne hex => ?_, fun ms t hms hex hsteps => ?_, not_exited_run hrun⟩
  · have hpre := hinv.finished_prefix_accepted
    refine hinv.enabled (lt_of_le_of_ne hpre.length_le fun hlen => hne ?_) hex
    exact hpre.eq_of_length hlen
  · have hacc : s.accepted <+: t.accepted := run_invariant (I := fun u => s.accepted <+: u.accepted)
      (fun u _ v hu hv => hu.trans (grows_step hv).accepted) (List.prefix_refl _) hms
    obtain ⟨ys, htinv⟩ := run_invariant (I := fun s => ∃ xs, Inv s xs)
      (fun _ _ _ ⟨_, hinv⟩ h => inv_step hinv h) ⟨xs, hinv⟩ hms
    exact List.prefix_of_prefix_length_le hacc htinv.finished_prefix_accepted
      (finished_of_steps hinv hms le_rfl hex hsteps)

end Steps

/-- Producer `0` queues the work `5`; its function queues it again while it
runs, and a second call is refused. -/
def requeueRun : List (Label ℕ ℕ ℕ) :=
  [.queue 0 5, .wake 0, .thread, .thread, .func 5, .thread, .queue 1 5, .thread]

/-- The hypothesis of `rt_workqueue_fifo` is satisfiable: the work has run once
and is in the list once more. -/
theorem rt_workqueue_fifo_requeue :
    ∃ s, run step State.init requeueRun = some s ∧ s.calls = [(5, 0), (5, 0), (5, -1)] ∧
      s.finished = [5] ∧
      (∃ xs, Holds s.queue xs ∧ xs.Nodup ∧ s.accepted = s.executed ++ xs ∧
        (s.thread.Blocked → xs ≠ [] → ∃ p, s.wakes p = true)) ∧
      s.thread.pc ≠ .exited := by
  have hrun : run step State.init requeueRun = some _ := rfl
  obtain ⟨hxs, -, -, -, -, hex⟩ := rt_workqueue_fifo hrun
  exact ⟨_, hrun, rfl, rfl, hxs, hex (by simp [requeueRun])⟩

end Workqueue
end Shannon
