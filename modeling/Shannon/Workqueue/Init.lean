/-
# Setting up an RT work

`shannon_init_rt_work` links the list head of a work to itself and stores the function.
It does not write the flags, of which `shannon_rt_queue_work` tests the PENDING bit.  A
work is part of an object that is used again and again, so its memory can hold anything
before (`RtWork`).

`Usable` is what a work is set up for: PENDING is set exactly if the work is linked, the
next call of `shannon_rt_queue_work` returns 0 and links it last, and the thread calls the
function once.  Whether a work is usable is decided by the one bit that is not written
(`usable_initRtWork_iff`): with the bit clear, setting up restores the state the queue was
in (`sys_initRtWork`), so that a run with works set up in it is a run of the queue
(`run_sys`).
-/

import Shannon.Workqueue.Fifo

namespace Shannon
namespace Workqueue

open Lib

variable {W P C F : Type*}

/-- The content of a `struct shannon_rt_work_struct`. -/
structure RtWork (W F : Type*) where
  flags : BitVec 64
  func : F
  next : Option W
  prev : Option W

/-- `RT_WORK_STRUCT_PENDING_BIT` of the flags. -/
def RtWork.pending (c : RtWork W F) : Bool := c.flags.getLsbD 0

/-- The work queue with the functions of the works; the calls the thread has made of them
are read by no code. -/
structure Full (W P C F : Type*) where
  sys : State W P C
  func : W → F
  called : List (W × F)

/-- Nobody has called anything. -/
def Full.init (func : W → F) : Full W P C F := ⟨State.init, func, []⟩

/-- The work is linked: another list entry leads to it. -/
def Linked (h : Links (Option W)) (work : W) : Prop := ∃ n, n ≠ some work ∧ h.next n = some work

section

variable [DecidableEq W]

/-- The memory of a work comes to hold `c`. -/
def Full.poke (s : Full W P C F) (work : W) (c : RtWork W F) : Full W P C F :=
  { s with
    sys.queue.links := ⟨Function.update s.sys.queue.links.next (some work) c.next,
      Function.update s.sys.queue.links.prev (some work) c.prev⟩
    sys.queue.pending := Function.update s.sys.queue.pending work c.pending
    func := Function.update s.func work c.func }

/-- `shannon_init_rt_work`. -/
def shannonInitRtWork (s : Full W P C F) (work : W) (func : F) : Full W P C F :=
  { s with
    sys.queue.links := s.sys.queue.links.selfLink (some work)
    func := Function.update s.func work func }

end

/-- A step of the queue, or an idle work is set up after its memory came to hold `c`. -/
inductive Action (W P C F : Type*) where
  | sys (l : Label W P C)
  | setUp (work : W) (c : RtWork W F) (func : F)

/-- Where a work is set up, its PENDING bit was clear. -/
def Action.Clear : Action W P C F → Prop
  | .sys _ => True
  | .setUp _ c _ => c.pending = false

/-- The step of the queue. -/
def Action.label? : Action W P C F → Option (Label W P C)
  | .sys l => some l
  | .setUp .. => none

/-- A call of `shannon_rt_queue_work` on the work. -/
def Label.Queues (work : W) : Label W P C → Prop
  | .func v => v = work
  | .queue _ v => v = work
  | _ => False

def Action.Queues (work : W) : Action W P C F → Prop
  | .sys l => l.Queues work
  | .setUp .. => False

/-- The work is queued or set up. -/
def Action.Names (work : W) : Action W P C F → Prop
  | .sys l => l.Queues work
  | .setUp v _ _ => v = work

section

variable [DecidableEq W] [DecidableEq P] [DecidableEq C]

/-- One step.  The thread calls `rtw->func(rtw)` of the work it has taken. -/
def fullStep (s : Full W P C F) : Action W P C F → Option (Full W P C F)
  | .sys l => (step s.sys l).map fun t =>
      { s with
        sys := t
        called := s.called ++ (t.executed.drop s.sys.executed.length).map fun w => (w, s.func w) }
  | .setUp work c func =>
      if s.sys.queue.pending work then none
      else some (shannonInitRtWork (s.poke work c) work func)

/-- The calls made of the functions of one work. -/
def Full.callsOf (s : Full W P C F) (work : W) : List (W × F) :=
  s.called.filter fun c => c.1 = work

/-- The number of works queued with success, one more, in steps of the thread: those
after which the last of them has run. -/
def Enough (n : ℕ) (ms : List (Action W P C F)) : Prop :=
  7 * (n + 1) + (ms.filterMap Action.label?).countP Label.isFunc
    ≤ (ms.filterMap Action.label?).countP Label.isThread

/-- **The work can be queued.** -/
structure Ready (s : Full W P C F) (work : W) (func : F) : Prop where
  /-- PENDING is set exactly if the work is linked. -/
  pending_iff : s.sys.queue.pending work = true ↔ Linked s.sys.queue.links work
  /-- `shannon_rt_queue_work` returns 0 and links the work last. -/
  queued : ∃ q xs, shannonRtQueueWork s.sys.queue work = (q, 0) ∧
    Ring s.sys.queue.links none (xs.map some) ∧ Ring q.links none ((xs ++ [work]).map some)
  /-- After a call of it the thread calls the function once, if nobody queues the work
  again: it has called it when it has made enough steps, and until then it can move. -/
  called : ∀ l ms t, Label.Queues work l → run fullStep s (.sys l :: ms) = some t →
    (∀ a ∈ ms, a.Clear ∧ ¬a.Queues work) → t.sys.thread.pc ≠ .exited →
    t.callsOf work = s.callsOf work ++ [(work, func)] ∨
      t.callsOf work = s.callsOf work ∧ ¬Enough s.sys.accepted.length ms ∧
        ((∃ s', step t.sys .thread = some s') ∨
          ∃ p s' s'', step t.sys (.wake p) = some s' ∧ step s' .thread = some s'')

/-- **The work is usable**: ready now, and until it is queued or set up again. -/
def Usable (s : Full W P C F) (work : W) (func : F) : Prop :=
  ∀ bs t, run fullStep s bs = some t → (∀ a ∈ bs, a.Clear ∧ ¬a.Names work) → Ready t work func

end

/-! ### Setting up with the bit clear -/

theorem Holds.linked_iff {q : RtQueue W} {xs : List W} (h : Holds q xs) {work : W} :
    Linked q.links work ↔ work ∈ xs := by
  constructor
  · rintro ⟨n, hn, hnext⟩
    by_contra hmem
    exact hn (h.oneList.eq_of_points_to hmem (.inl hnext))
  · intro hmem
    obtain ⟨ys, zs, rfl⟩ := List.append_of_mem hmem
    rcases List.eq_nil_or_concat ys with rfl | ⟨ys, v, rfl⟩
    · exact ⟨none, by simp, h.oneList.next_none⟩
    · refine ⟨some v, fun hv => ?_, ?_⟩
      · have hnodup := h.nodup
        rw [Option.some.inj hv, List.concat_eq_append] at hnodup
        simp [List.nodup_append] at hnodup
      · have hlist : OneList q.links (ys ++ v :: work :: zs) := by
          simpa using h.oneList
        exact hlist.next_some

section

variable [DecidableEq W]

/-- With the bit clear, setting up restores the state the queue was in. -/
theorem sys_initRtWork {s : Full W P C F} {xs : List W} (h : Holds s.sys.queue xs) {work : W}
    (hwork : work ∉ xs) {c : RtWork W F} (hc : c.pending = false) (func : F) :
    (shannonInitRtWork (s.poke work c) work func).sys = s.sys := by
  obtain ⟨hnext, hprev⟩ := ring_nil_iff.1 (h.alone work hwork)
  have hpending : s.sys.queue.pending work = false := by
    rw [Bool.eq_false_iff, ne_eq, h.pending_iff]
    exact hwork
  have hlinks : (⟨Function.update s.sys.queue.links.next (some work) (some work),
      Function.update s.sys.queue.links.prev (some work) (some work)⟩ : Links (Option W))
      = s.sys.queue.links := by
    congr 1
    · exact Function.update_eq_self_iff.2 hnext.symm
    · exact Function.update_eq_self_iff.2 hprev.symm
  have hbits : Function.update s.sys.queue.pending work c.pending = s.sys.queue.pending :=
    Function.update_eq_self_iff.2 (hc.trans hpending.symm)
  simp only [shannonInitRtWork, Full.poke, Links.selfLink, Function.update_idem, hlinks, hbits]

end

/-! ### Runs with works set up in them -/

section

variable [DecidableEq W] [DecidableEq P] [DecidableEq C]

/-- The invariant of the queue, and the thread has called the works it has taken. -/
structure FullInv (s : Full W P C F) (xs : List W) : Prop extends Inv s.sys xs where
  called_eq : s.called.map Prod.fst = s.sys.executed

omit [DecidableEq P] [DecidableEq C] in
theorem FullInv.setUp {s : Full W P C F} {xs : List W} (h : FullInv s xs) {work : W}
    (hwork : work ∉ xs) {c : RtWork W F} (hc : c.pending = false) (func : F) :
    FullInv (shannonInitRtWork (s.poke work c) work func) xs := by
  have hsys := sys_initRtWork h.holds hwork hc func
  refine ⟨hsys.symm ▸ h.toInv, ?_⟩
  rw [hsys]
  exact h.called_eq

theorem fullStep_sys {s t : Full W P C F} {l : Label W P C} (h : fullStep s (.sys l) = some t) :
    step s.sys l = some t.sys ∧ t.func = s.func ∧ t.called = s.called
      ++ (t.sys.executed.drop s.sys.executed.length).map fun w => (w, s.func w) := by
  obtain ⟨u, hu, rfl⟩ := Option.map_eq_some_iff.1 h
  exact ⟨hu, rfl, rfl⟩

/-- What setting up an idle work does, in a run where the bit is clear. -/
theorem fullStep_setUp {s t : Full W P C F} {xs : List W} (hinv : FullInv s xs) {work : W}
    {c : RtWork W F} {func : F} (hc : c.pending = false)
    (h : fullStep s (.setUp work c func) = some t) :
    work ∉ xs ∧ t.sys = s.sys ∧ t = shannonInitRtWork (s.poke work c) work func := by
  simp only [fullStep] at h
  split_ifs at h with hpending
  obtain rfl := Option.some.inj h
  have hwork : work ∉ xs := fun hmem => hpending ((hinv.holds.pending_iff work).2 hmem)
  exact ⟨hwork, sys_initRtWork hinv.holds hwork hc func, rfl⟩

theorem fullInv_step {s t : Full W P C F} {a : Action W P C F} {xs : List W} (hinv : FullInv s xs)
    (ha : a.Clear) (h : fullStep s a = some t) : ∃ ys, FullInv t ys := by
  cases a with
  | sys l =>
      obtain ⟨hstep, -, hcalled⟩ := fullStep_sys h
      obtain ⟨ys, hys⟩ := inv_step hinv.toInv hstep
      obtain ⟨zs, hzs⟩ := (grows_step hstep).executed
      refine ⟨ys, hys, ?_⟩
      rw [hcalled, List.map_append, hinv.called_eq, ← hzs, List.drop_left, List.map_map]
      simp [Function.comp_def]
  | setUp work c func =>
      obtain ⟨hwork, -, rfl⟩ := fullStep_setUp hinv ha h
      exact ⟨xs, hinv.setUp hwork ha func⟩

theorem fullInv_run {s t : Full W P C F} {as : List (Action W P C F)}
    (hinv : ∃ xs, FullInv s xs) (has : ∀ a ∈ as, a.Clear) (h : run fullStep s as = some t) :
    ∃ ys, FullInv t ys :=
  have hgood : Along fullStep (fun _ a => a.Clear) s as :=
    along_of_forall (fun a ha _ => has a ha) s
  run_invariant_along (I := fun s => ∃ xs, FullInv s xs)
    (fun _ _ _ ⟨_, hinv⟩ ha h => fullInv_step hinv ha h) hinv hgood h

/-- Without the works set up it is a run of the queue. -/
theorem run_sys {s t : Full W P C F} {as : List (Action W P C F)} {xs : List W}
    (hinv : FullInv s xs) (has : ∀ a ∈ as, a.Clear) (h : run fullStep s as = some t) :
    run step s.sys (as.filterMap Action.label?) = some t.sys := by
  induction as generalizing s xs with
  | nil =>
      cases h
      rfl
  | cons a as ih =>
      obtain ⟨u, hu, hrun⟩ := run_cons_eq_some.1 h
      have ha := has a (List.mem_cons_self ..)
      obtain ⟨ys, hys⟩ := fullInv_step hinv ha hu
      have hrest := ih hys (fun b hb => has b (List.mem_cons_of_mem _ hb)) hrun
      cases a with
      | sys l => exact run_cons_eq_some.2 ⟨u.sys, (fullStep_sys hu).1, hrest⟩
      | setUp work c func =>
          rw [(fullStep_setUp hinv ha hu).2.1] at hrest
          exact hrest

/-! ### One work in a run -/

theorem not_queues_pending {q : RtQueue W} {v work : W} (hne : v ≠ work) :
    (shannonRtQueueWork q v).1.pending work = q.pending work := by
  unfold shannonRtQueueWork
  split_ifs
  · rfl
  · exact Function.update_of_ne hne.symm ..

/-- A step takes one work, the first of the list, or none; else the PENDING bits of the
works that are not queued in it stay. -/
theorem step_executed {s t : State W P C} {l : Label W P C} {xs : List W} (hinv : Inv s xs)
    (h : step s l = some t) :
    (t.executed = s.executed ∧
      ∀ work, ¬l.Queues work → t.queue.pending work = s.queue.pending work) ∨
    ∃ v, s.queue.pending v = true ∧ t.executed = s.executed ++ [v] ∧
      t.queue.pending = Function.update s.queue.pending v false := by
  cases l with
  | thread =>
      unfold step threadStep at h
      dsimp only at h
      split at h
      all_goals rename_i hpc
      case h_2 =>
        obtain ⟨w, ys, rfl⟩ := List.exists_cons_of_ne_nil (hinv.take_ne hpc)
        have hpending := (hinv.holds.pending_iff w).2 (List.mem_cons_self ..)
        rw [takeFirst, hinv.holds.oneList.next_none] at h
        cases h
        exact .inr ⟨w, hpending, rfl, rfl⟩
      all_goals (try split_ifs at h) <;> cases h <;> exact .inl ⟨rfl, fun _ _ => rfl⟩
  | func v =>
      obtain ⟨rtw, -, rfl⟩ := step_func h
      exact .inl ⟨rfl, fun work hwork => not_queues_pending hwork⟩
  | queue p v =>
      obtain ⟨-, rfl⟩ := step_queue h
      exact .inl ⟨rfl, fun work hwork => not_queues_pending hwork⟩
  | wake p =>
      obtain rfl := step_wake h
      exact .inl ⟨rfl, fun _ _ => rfl⟩
  | flush c =>
      have hsame := sameWork_callBegins h
      exact .inl ⟨hsame.executed_eq, fun _ _ => by rw [hsame.queue_eq]⟩
  | destroy c =>
      have hsame := sameWork_callBegins h
      exact .inl ⟨hsame.executed_eq, fun _ _ => by rw [hsame.queue_eq]⟩
  | caller c =>
      have hsame := (callerMoves h).toSameWork
      exact .inl ⟨hsame.executed_eq, fun _ _ => by rw [hsame.queue_eq]⟩

/-- The work waits, in the list or for its call, to be run with `func`. -/
structure Waits (work : W) (func : F) (old : List (W × F)) (inList : Bool) (s : Full W P C F) :
    Prop where
  pending : s.sys.queue.pending work = inList
  func_eq : s.func work = func
  calls : s.callsOf work = old

/-- It has been run. -/
structure HasRun (work : W) (func : F) (old : List (W × F)) (s : Full W P C F) : Prop where
  pending : s.sys.queue.pending work = false
  calls : s.callsOf work = old ++ [(work, func)]

/-- Steps that take another work, or none, do not call the work. -/
theorem callsOf_step {s t : Full W P C F} {l : Label W P C} {xs : List W} (hinv : FullInv s xs)
    (h : fullStep s (.sys l) = some t) (work : W) :
    (t.callsOf work = s.callsOf work ∧
      (¬l.Queues work → t.sys.queue.pending work = s.sys.queue.pending work)) ∨
    (s.sys.queue.pending work = true ∧ t.sys.queue.pending work = false ∧
      t.callsOf work = s.callsOf work ++ [(work, s.func work)]) := by
  obtain ⟨hstep, -, hcalled⟩ := fullStep_sys h
  rcases step_executed hinv.toInv hstep with ⟨hex, hpending⟩ | ⟨v, hv, hex, hpending⟩
  · rw [hex, List.drop_length, List.map_nil, List.append_nil] at hcalled
    exact .inl ⟨by rw [Full.callsOf, hcalled]; rfl, hpending work⟩
  · rw [hex, List.drop_left] at hcalled
    rcases eq_or_ne v work with rfl | hne
    · refine .inr ⟨hv, by rw [hpending, Function.update_self], ?_⟩
      simp [Full.callsOf, hcalled]
    · refine .inl ⟨?_, fun _ => by rw [hpending, Function.update_of_ne hne.symm]⟩
      simp [Full.callsOf, hcalled, hne]

omit [DecidableEq P] [DecidableEq C] in
theorem func_setUp_of_ne (s : Full W P C F) {work v : W} (hne : work ≠ v) (c : RtWork W F)
    (func : F) : (shannonInitRtWork (s.poke v c) v func).func work = s.func work := by
  simp [shannonInitRtWork, Full.poke, hne]

variable {work : W} {func : F} {old : List (W × F)} {inList : Bool}

theorem Waits.step {s t : Full W P C F} {a : Action W P C F} {xs : List W}
    (hw : Waits work func old inList s) (hinv : FullInv s xs) (ha : a.Clear)
    (hqueue : ¬a.Queues work) (hnames : inList = false → ¬a.Names work)
    (h : fullStep s a = some t) :
    Waits work func old inList t ∨ inList = true ∧ HasRun work func old t := by
  cases a with
  | sys l =>
      obtain ⟨-, hfunc, -⟩ := fullStep_sys h
      rcases callsOf_step hinv h work with ⟨hcalls, hpending⟩ | ⟨hs, ht, hcalls⟩
      · exact .inl ⟨(hpending hqueue).trans hw.pending, hfunc ▸ hw.func_eq, hcalls.trans hw.calls⟩
      · refine .inr ⟨hw.pending.symm.trans hs, ht, ?_⟩
        rw [hcalls, hw.calls, hw.func_eq]
  | setUp v c g =>
      obtain ⟨hv, hsys, rfl⟩ := fullStep_setUp hinv ha h
      have hne : work ≠ v := by
        rintro rfl
        cases inList with
        | false => exact hnames rfl rfl
        | true => exact hv ((hinv.holds.pending_iff _).1 hw.pending)
      exact .inl ⟨hsys ▸ hw.pending, (func_setUp_of_ne s hne c g).trans hw.func_eq, hw.calls⟩

theorem HasRun.step {s t : Full W P C F} {a : Action W P C F} {xs : List W}
    (hr : HasRun work func old s) (hinv : FullInv s xs) (ha : a.Clear) (hqueue : ¬a.Queues work)
    (h : fullStep s a = some t) : HasRun work func old t := by
  cases a with
  | sys l =>
      rcases callsOf_step hinv h work with ⟨hcalls, hpending⟩ | ⟨hs, -, -⟩
      · exact ⟨(hpending hqueue).trans hr.pending, hcalls.trans hr.calls⟩
      · exact absurd hr.pending (by simp [hs])
  | setUp v c g =>
      obtain ⟨-, hsys, rfl⟩ := fullStep_setUp hinv ha h
      exact ⟨hsys ▸ hr.pending, hr.calls⟩

/-- In the list, a work stays there or is run. -/
theorem waits_or_hasRun {s t : Full W P C F} {ms : List (Action W P C F)} {xs : List W}
    (hinv : FullInv s xs) (hs : Waits work func old true s ∨ HasRun work func old s)
    (hms : ∀ a ∈ ms, a.Clear ∧ ¬a.Queues work) (h : run fullStep s ms = some t) :
    Waits work func old true t ∨ HasRun work func old t := by
  induction ms generalizing s xs with
  | nil =>
      cases h
      exact hs
  | cons a ms ih =>
      obtain ⟨u, hu, hrun⟩ := run_cons_eq_some.1 h
      obtain ⟨hclear, hqueue⟩ := hms a (List.mem_cons_self ..)
      obtain ⟨ys, hys⟩ := fullInv_step hinv hclear hu
      refine ih hys ?_ (fun b hb => hms b (List.mem_cons_of_mem _ hb)) hrun
      rcases hs with hw | hr
      · rcases hw.step hinv hclear hqueue nofun hu with hw | ⟨-, hr⟩
        · exact .inl hw
        · exact .inr hr
      · exact .inr (hr.step hinv hclear hqueue hu)

omit [DecidableEq W] [DecidableEq P] [DecidableEq C] in
theorem Action.not_queues_of_not_names {a : Action W P C F} (h : ¬a.Names work) :
    ¬a.Queues work := by
  cases a with
  | sys l => exact h
  | setUp v c g => exact id

/-- A work that is not named waits for its call. -/
theorem waits_run {s t : Full W P C F} {bs : List (Action W P C F)} {xs : List W}
    (hinv : FullInv s xs) (hs : Waits work func old false s)
    (hbs : ∀ a ∈ bs, a.Clear ∧ ¬a.Names work) (h : run fullStep s bs = some t) :
    Waits work func old false t := by
  induction bs generalizing s xs with
  | nil =>
      cases h
      exact hs
  | cons a bs ih =>
      obtain ⟨u, hu, hrun⟩ := run_cons_eq_some.1 h
      obtain ⟨hclear, hnames⟩ := hbs a (List.mem_cons_self ..)
      obtain ⟨ys, hys⟩ := fullInv_step hinv hclear hu
      refine ih hys ?_ (fun b hb => hbs b (List.mem_cons_of_mem _ hb)) hrun
      rcases hs.step hinv hclear (Action.not_queues_of_not_names hnames) (fun _ => hnames) hu
        with hw | ⟨hfalse, -⟩
      · exact hw
      · exact absurd hfalse (by decide)

/-! ### A work that is ready -/

/-- Queueing a work that is not linked. -/
theorem step_queues {s t : State W P C} {l : Label W P C} {xs : List W} (hinv : Inv s xs)
    (hwork : work ∉ xs) (hl : l.Queues work) (h : step s l = some t) :
    t.accepted = s.accepted ++ [work] ∧ t.queue.pending work = true ∧ t.executed = s.executed := by
  obtain ⟨hmem, -⟩ | ⟨-, q, hq, hholds⟩ := shannonRtQueueWork_spec hinv.holds work
  · exact absurd hmem hwork
  have hpending : q.pending work = true := (hholds.pending_iff work).2 (by simp)
  have hqueue : s.queueWork work
      = ({ s with queue := q, calls := s.calls ++ [(work, 0)] }, 0) := by
    rw [State.queueWork, hq]
  have haccepted := accepted_concat s work 0
  rw [if_pos rfl] at haccepted
  cases l with
  | func v =>
      obtain rfl : v = work := hl
      obtain ⟨rtw, -, rfl⟩ := step_func h
      rw [hqueue]
      exact ⟨haccepted, hpending, rfl⟩
  | queue p v =>
      obtain rfl : v = work := hl
      obtain ⟨-, rfl⟩ := step_queue h
      rw [hqueue]
      exact ⟨haccepted, hpending, rfl⟩
  | _ => exact absurd hl id

omit [DecidableEq P] [DecidableEq C] in
theorem FullInv.count_executed {s : Full W P C F} {xs : List W} (hinv : FullInv s xs) (work : W) :
    s.sys.executed.count work = (s.callsOf work).length := by
  rw [← hinv.called_eq, Full.callsOf, ← List.countP_eq_length_filter, List.count, List.countP_map]
  congr 1

theorem ready_of_waits {s : Full W P C F} {xs : List W} (hinv : FullInv s xs)
    (hs : Waits work func (s.callsOf work) false s) : Ready s work func := by
  have hwork : work ∉ xs := fun hmem =>
    absurd ((hinv.holds.pending_iff work).2 hmem) (by simp [hs.pending])
  refine ⟨?_, ?_, ?_⟩
  · rw [hinv.holds.linked_iff, hinv.holds.pending_iff]
  · obtain ⟨hmem, -⟩ | ⟨-, q, hq, hholds⟩ := shannonRtQueueWork_spec hinv.holds work
    · exact absurd hmem hwork
    · exact ⟨q, xs, hq, hinv.holds.ring, hholds.ring⟩
  · intro l ms t hl hrun hms hex
    obtain ⟨u, hu, hrun⟩ := run_cons_eq_some.1 hrun
    obtain ⟨hstep, hfunc, hcalled⟩ := fullStep_sys hu
    obtain ⟨haccepted, hpending, hexecuted⟩ := step_queues hinv.toInv hwork hl hstep
    obtain ⟨ys, huinv⟩ := fullInv_step (a := .sys l) hinv trivial hu
    have hcalls : u.callsOf work = s.callsOf work := by
      rw [hexecuted, List.drop_length, List.map_nil, List.append_nil] at hcalled
      rw [Full.callsOf, hcalled]
      rfl
    have hwaits : Waits work func (s.callsOf work) true u :=
      ⟨hpending, by rw [hfunc]; exact hs.func_eq, hcalls⟩
    obtain ⟨zs, htinv⟩ := fullInv_run ⟨ys, huinv⟩ (fun a ha => (hms a ha).1) hrun
    rcases waits_or_hasRun huinv (.inl hwaits) hms hrun with hw | hr
    · refine .inr ⟨hw.calls, fun henough => ?_, ?_⟩
      · -- the works queued up to this one have run, and so has this one
        have hsys := run_sys huinv (fun a ha => (hms a ha).1) hrun
        have hlen : u.sys.accepted.length = s.sys.accepted.length + 1 := by simp [haccepted]
        have hfin := finished_of_steps huinv.toInv hsys hlen.ge hex henough
        have hgrow : u.sys.accepted <+: t.sys.accepted :=
          run_invariant (I := fun v => u.sys.accepted <+: v.accepted)
            (fun v _ w hv hw => hv.trans (grows_step hw).accepted) (List.prefix_refl _) hsys
        have hpre : u.sys.accepted <+: t.sys.executed := by
          refine (List.prefix_of_prefix_length_le hgrow htinv.finished_prefix_accepted ?_).trans ?_
          · rw [hlen]
            exact hfin
          · rw [htinv.executed_eq]
            exact List.prefix_append ..
        have hcount := hpre.sublist.count_le work
        have hold : s.sys.executed.count work ≤ s.sys.accepted.count work := by
          rw [hinv.accepted_eq]
          exact (List.sublist_append_left ..).count_le work
        rw [haccepted, List.count_append, List.count_singleton_self, htinv.count_executed,
          hw.calls, ← hinv.count_executed] at hcount
        omega
      · refine htinv.toInv.enabled ?_ hex
        have hmem : work ∈ zs := (htinv.holds.pending_iff work).1 hw.pending
        have hpos := List.length_pos_of_mem hmem
        rw [htinv.accepted_eq, htinv.executed_eq]
        simp only [List.length_append]
        omega
    · exact .inl hr.calls

/-- A work that is not linked is usable when it is set up on clear flags, or without a
change of its memory. -/
theorem usable_of_fullInv {s : Full W P C F} {xs : List W} (hinv : FullInv s xs)
    (hpending : s.sys.queue.pending work = false) (hfunc : s.func work = func) :
    Usable s work func := by
  intro bs t hrun hbs
  have hwaits := waits_run hinv ⟨hpending, hfunc, rfl⟩ hbs hrun
  obtain ⟨ys, hys⟩ := fullInv_run ⟨xs, hinv⟩ (fun a ha => (hbs a ha).1) hrun
  exact ready_of_waits hys ⟨hwaits.pending, hwaits.func_eq, rfl⟩

omit [DecidableEq W] [DecidableEq P] [DecidableEq C] in
theorem fullInv_init (func₀ : W → F) : FullInv (Full.init func₀ : Full W P C F) [] :=
  ⟨inv_init, rfl⟩

omit [DecidableEq P] [DecidableEq C] in
/-- Setting up an idle work again is setting it up over what its memory holds. -/
theorem poke_self (s : Full W P C F) {work : W} (h : s.sys.queue.pending work = false) :
    s.poke work ⟨0, s.func work, s.sys.queue.links.next (some work),
      s.sys.queue.links.prev (some work)⟩ = s := by
  have hbits : Function.update s.sys.queue.pending work false = s.sys.queue.pending :=
    Function.update_eq_self_iff.2 h.symm
  simp [Full.poke, RtWork.pending, hbits]

/-- **Which works are usable after `shannon_init_rt_work`.**  Let producers, the functions
that the thread runs and other callers make any calls, in any interleaving, and let works
be set up in between, on clear PENDING bits.  In the state reached let a work be on no
list.  Whatever its memory holds, it is usable after `shannon_init_rt_work` exactly if the
PENDING bit in it is clear; and it is usable when it is idle and set up once more. -/
theorem usable_initRtWork_iff {func₀ : W → F} {as : List (Action W P C F)} {s : Full W P C F}
    (hrun : run fullStep (Full.init func₀) as = some s) (has : ∀ a ∈ as, a.Clear) {work : W}
    (hwork : ¬Linked s.sys.queue.links work) (func : F) :
    (∀ c, Usable (shannonInitRtWork (s.poke work c) work func) work func ↔ c.pending = false) ∧
      Usable (shannonInitRtWork s work func) work func := by
  obtain ⟨xs, hinv⟩ := fullInv_run ⟨[], fullInv_init func₀⟩ has hrun
  have hmem : work ∉ xs := fun h => hwork (hinv.holds.linked_iff.2 h)
  have hidle : s.sys.queue.pending work = false := by
    rw [Bool.eq_false_iff, ne_eq, hinv.holds.pending_iff]
    exact hmem
  have husable (c : RtWork W F) (hc : c.pending = false) :
      Usable (shannonInitRtWork (s.poke work c) work func) work func := by
    refine usable_of_fullInv (hinv.setUp hmem hc func) ?_ (Function.update_self ..)
    rw [sys_initRtWork hinv.holds hmem hc func]
    exact hidle
  refine ⟨fun c => ⟨fun h => ?_, husable c⟩, ?_⟩
  · -- nothing leads to the work, so a bit that is set contradicts the invariant
    have hready := h [] _ rfl (by simp)
    rw [Bool.eq_false_iff]
    intro hc
    have hpending : (shannonInitRtWork (s.poke work c) work func).sys.queue.pending work = true :=
      (Function.update_self ..).trans hc
    obtain ⟨n, hn, hnext⟩ := hready.pending_iff.1 hpending
    refine hwork ⟨n, hn, ?_⟩
    simpa [shannonInitRtWork, Full.poke, Links.selfLink, Function.update_of_ne hn] using hnext
  · have h := husable ⟨0, s.func work, s.sys.queue.links.next (some work),
      s.sys.queue.links.prev (some work)⟩ (by simp [RtWork.pending])
    rwa [poke_self s hidle] at h

end

/-- Work `5` is set up for function `7` and runs. -/
def setUpRun : List (Action ℕ ℕ ℕ ℕ) :=
  [.setUp 5 ⟨0#64, 0, none, none⟩ 7, .sys (.queue 0 5), .sys (.wake 0), .sys .thread,
    .sys .thread, .sys .thread]

/-- The hypotheses of `usable_initRtWork_iff` are satisfiable: in memory with every flag but
PENDING set the work is set up again, for function `8`. -/
theorem usable_initRtWork_again : ∃ s : Full ℕ ℕ ℕ ℕ,
    run fullStep (Full.init fun _ => 0) setUpRun = some s ∧ s.called = [(5, 7)] ∧
      Usable (shannonInitRtWork (s.poke 5 ⟨0xfffffffffffffffe#64, 0, some 5, none⟩) 5 8) 5 8 := by
  have hrun : run fullStep (Full.init fun _ => 0) setUpRun = some _ := rfl
  have hclear : ∀ a ∈ setUpRun, a.Clear := by simp [setUpRun, Action.Clear, RtWork.pending]
  obtain ⟨xs, hinv⟩ := fullInv_run ⟨[], fullInv_init _⟩ hclear hrun
  have hidle : ¬Linked _ 5 := fun h =>
    absurd ((hinv.holds.pending_iff 5).2 (hinv.holds.linked_iff.1 h)) (by decide)
  exact ⟨_, hrun, rfl, ((usable_initRtWork_iff hrun hclear hidle 8).1 _).2 rfl⟩

/-- In memory that held the value 1 as flags, the work is refused for ever. -/
theorem usable_initRtWork_pending :
    (shannonRtQueueWork (shannonInitRtWork ((Full.init fun _ => 0 : Full ℕ ℕ ℕ ℕ).poke 5
        ⟨1#64, 0, none, none⟩) 5 7).sys.queue 5).2 = -1 ∧
      ¬Usable (shannonInitRtWork ((Full.init fun _ => 0 : Full ℕ ℕ ℕ ℕ).poke 5
        ⟨1#64, 0, none, none⟩) 5 7) 5 7 := by
  have hret : (shannonRtQueueWork (shannonInitRtWork ((Full.init fun _ => 0 : Full ℕ ℕ ℕ ℕ).poke 5
      ⟨1#64, 0, none, none⟩) 5 7).sys.queue 5).2 = -1 := by decide
  refine ⟨hret, fun h => ?_⟩
  obtain ⟨q, xs, hq, -, -⟩ := (h [] _ rfl (by simp)).queued
  rw [hq] at hret
  exact absurd hret (by simp)

end Workqueue
end Shannon
