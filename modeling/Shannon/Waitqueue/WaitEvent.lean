/-
# Waiting for an event

`shannon_waitqueue.h` and `shannon_waitqueue.c`: `shannon_wait_event` and
`shannon_wake_up`, with any number of tasks in either of them.

A waiter tests the condition, links its entry into the queue and sets its task state,
tests again, and calls `shannon_schedule`, which returns when the state is
`TASK_RUNNING` again.  A waker makes the condition true and then walks the queue; it
wakes every task whose state matches the mode and takes its entry off the queue.  What
is under `q->lock` is one step.  Everything else is a step of its own: the tests of
the condition, the two reads of `shannon_list_empty_careful` in `shannon_finish_wait`,
the return of `shannon_schedule`.

The argument is in `Inv`: a waiter that is not running and has been through
`shannon_prepare_to_wait` is on the queue, so every walk wakes it (`wakeUp_spec`), and
nobody goes to sleep once the condition is true.  `no_lost_wakeUp` is the result.
-/

import Shannon.Lib.Run
import Shannon.Workqueue.Queue

namespace Shannon
namespace Waitqueue

open Lib Workqueue

/-! ### The queue -/

/-- `SHN_TASK_RUNNING`. -/
def taskRunning : ℕ := 0

/-- `SHN_TASK_INTERRUPTIBLE`. -/
def taskInterruptible : ℕ := 1

/-- `SHN_TASK_UNINTERRUPTIBLE`. -/
def taskUninterruptible : ℕ := 2

/-- The mode of `shannon_wake_up`. -/
def wakeUpMode : ℕ := taskInterruptible ||| taskUninterruptible

variable {W : Type*} [DecidableEq W]

/-- `shannon_list_add`. -/
def shannonListAdd {ν : Type*} [DecidableEq ν] (h : Links ν) (new head : ν) : Links ν :=
  h.insertBetween new head (h.next head)

/-- What a queue and the entries of its waiters consist of: the list heads of the
queue, `none`, and of the entries; `WQ_FLAG_EXCLUSIVE` of each; and the states of the
tasks. -/
structure WaitQueue (W : Type*) where
  links : Links (Option W)
  exclusive : W → Bool
  task : W → ℕ

/-- `SHANNON_DEFINE_WAIT`. -/
def shannonDefineWait (q : WaitQueue W) (w : W) : WaitQueue W :=
  { q with links := q.links.selfLink (some w), exclusive := Function.update q.exclusive w false }

/-- `shannon_prepare_to_wait`.  The flag is the waiter's own, so it does not matter that
it is cleared before the lock is taken. -/
def shannonPrepareToWait (q : WaitQueue W) (w : W) (state : ℕ) : WaitQueue W where
  links := if shannonListEmpty q.links (some w) then shannonListAdd q.links (some w) none
    else q.links
  exclusive := Function.update q.exclusive w false
  task := Function.update q.task w state

/-- `default_wake_function`: the task is woken exactly if its state matches the mode. -/
def defaultWakeFunction (q : WaitQueue W) (w : W) (mode : ℕ) : Bool × WaitQueue W :=
  if q.task w &&& mode ≠ 0 then (true, { q with task := Function.update q.task w taskRunning })
  else (false, q)

/-- `shannon_autoremove_wake_function`. -/
def shannonAutoremoveWakeFunction (q : WaitQueue W) (w : W) (mode : ℕ) : Bool × WaitQueue W :=
  let (ret, q) := defaultWakeFunction q w mode
  if ret then (ret, { q with links := shannonListDelInit q.links (some w) }) else (ret, q)

/-- The loop of `__shannon_wake_up_common` from `curr` on; `next` is what
`shannon_list_for_each_entry_safe` has read before the body.  `none` if it is still
running after `fuel` entries. -/
def wakeUpLoop (mode : ℕ) : ℕ → WaitQueue W → Option W → Option W → ℕ → Option (WaitQueue W)
  | _, q, none, _, _ => some q
  | 0, _, some _, _, _ => none
  | fuel + 1, q, some curr, next, nrExclusive =>
      let flags := q.exclusive curr
      let (ret, q) := shannonAutoremoveWakeFunction q curr mode
      if ret && flags then
        if nrExclusive - 1 = 0 then some q
        else wakeUpLoop mode fuel q next (q.links.next next) (nrExclusive - 1)
      else wakeUpLoop mode fuel q next (q.links.next next) nrExclusive

/-- `__shannon_wake_up`. -/
def shannonWakeUp (fuel : ℕ) (q : WaitQueue W) (mode nrExclusive : ℕ) : Option (WaitQueue W) :=
  wakeUpLoop mode fuel q (q.links.next none) (q.links.next (q.links.next none)) nrExclusive

/-! ### The walk -/

/-- The entries `xs` are on the queue, and none of them is exclusive. -/
structure Queued (q : WaitQueue W) (xs : List W) : Prop where
  list : OneList q.links xs
  exclusive : ∀ w ∈ xs, q.exclusive w = false

omit [DecidableEq W] in
/-- What the walk reads ahead. -/
theorem Queued.next_head {q : WaitQueue W} {ps ys : List W} (hq : Queued q (ps ++ ys)) :
    ∀ w zs, ys = w :: zs → q.links.next ys.head? = zs.head? := by
  rintro w zs rfl
  exact hq.list.next_some

/-- The state of a task after a walk over `xs`. -/
def wokenTask (q : WaitQueue W) (mode : ℕ) (xs : List W) (w : W) : ℕ :=
  if w ∈ xs ∧ q.task w &&& mode ≠ 0 then taskRunning else q.task w

/-- What `shannon_autoremove_wake_function` does to an entry on the queue. -/
theorem autoremove_spec {q : WaitQueue W} {ps ys : List W} {w : W} (mode : ℕ)
    (hq : Queued q (ps ++ w :: ys)) :
    (q.task w &&& mode ≠ 0 ∧ ∃ q', shannonAutoremoveWakeFunction q w mode = (true, q') ∧
      Queued q' (ps ++ ys) ∧ q'.exclusive = q.exclusive ∧
      q'.task = Function.update q.task w taskRunning) ∨
    (q.task w &&& mode = 0 ∧ shannonAutoremoveWakeFunction q w mode = (false, q)) := by
  by_cases hmatch : q.task w &&& mode ≠ 0
  · have hcall : shannonAutoremoveWakeFunction q w mode
        = (true, ⟨shannonListDelInit q.links (some w), q.exclusive,
          Function.update q.task w taskRunning⟩) := by
      simp [shannonAutoremoveWakeFunction, defaultWakeFunction, hmatch]
    refine .inl ⟨hmatch, _, hcall, ⟨hq.list.remove, fun v hv => hq.exclusive v ?_⟩, rfl, rfl⟩
    simp only [List.mem_append, List.mem_cons] at hv ⊢
    tauto
  · refine .inr ⟨not_not.1 hmatch, ?_⟩
    simp [shannonAutoremoveWakeFunction, defaultWakeFunction, if_neg hmatch]

/-- One turn of the loop over an entry that is not exclusive. -/
theorem wakeUpLoop_cons {mode fuel nrExclusive : ℕ} {q q' : WaitQueue W} {w : W} {next : Option W}
    {ret : Bool} (hflags : q.exclusive w = false)
    (hcall : shannonAutoremoveWakeFunction q w mode = (ret, q')) :
    wakeUpLoop mode (fuel + 1) q (some w) next nrExclusive
      = wakeUpLoop mode fuel q' next (q'.links.next next) nrExclusive := by
  simp [wakeUpLoop, hflags, hcall]

/-- **The walk from any entry on.**  It ends, wakes the tasks that match and takes their
entries off the queue, although it is walking along this very queue: what it takes off
lies behind it. -/
theorem wakeUpLoop_spec (mode nrExclusive : ℕ) {fuel : ℕ} {q : WaitQueue W} {ps ys : List W}
    {next : Option W} (hq : Queued q (ps ++ ys)) (hfuel : ys.length ≤ fuel)
    (hnext : ∀ w zs, ys = w :: zs → next = zs.head?) :
    ∃ q' zs, wakeUpLoop mode fuel q ys.head? next nrExclusive = some q' ∧ Queued q' zs ∧
      q'.exclusive = q.exclusive ∧ (∀ w, q'.task w = wokenTask q mode ys w) ∧
      (∀ w, w ∈ zs ↔ w ∈ ps ++ ys ∧ (w ∈ ys → q.task w &&& mode = 0)) := by
  induction fuel generalizing q ps ys next with
  | zero =>
      obtain rfl : ys = [] := List.length_eq_zero_iff.1 (by omega)
      exact ⟨q, ps ++ [], rfl, hq, rfl, fun w => by simp [wokenTask], fun w => by simp⟩
  | succ fuel ih =>
      cases ys with
      | nil => exact ⟨q, ps ++ [], rfl, hq, rfl, fun w => by simp [wokenTask], fun w => by simp⟩
      | cons v vs =>
          obtain rfl := hnext v vs rfl
          rw [List.length_cons] at hfuel
          have hnodup := hq.list.nodup
          rw [List.perm_middle.nodup_iff, List.nodup_cons, List.mem_append, not_or] at hnodup
          have hflags := hq.exclusive v (by simp)
          rw [List.head?_cons]
          rcases autoremove_spec mode hq with
            ⟨hmatch, q₁, hcall, hq₁, hex, htask⟩ | ⟨hmatch, hcall⟩
          · obtain ⟨q', zs, hloop, hq', hex', htask', hmem⟩ := ih hq₁ (by omega) hq₁.next_head
            refine ⟨q', zs, (wakeUpLoop_cons hflags hcall).trans hloop, hq', hex'.trans hex,
              fun w => ?_, fun w => ?_⟩
            · rw [htask' w, wokenTask, wokenTask, htask]
              rcases eq_or_ne w v with rfl | hwv
              · simp [hmatch, taskRunning]
              · simp [hwv]
            · rw [hmem w, htask]
              rcases eq_or_ne w v with rfl | hwv
              · simp [hnodup.1, hmatch]
              · simp [hwv]
          · have hq₁ : Queued q (ps ++ [v] ++ vs) := by simpa using hq
            obtain ⟨q', zs, hloop, hq', hex', htask', hmem⟩ := ih hq₁ (by omega) hq₁.next_head
            refine ⟨q', zs, (wakeUpLoop_cons hflags hcall).trans hloop, hq', hex',
              fun w => ?_, fun w => ?_⟩
            · rw [htask' w, wokenTask, wokenTask]
              rcases eq_or_ne w v with rfl | hwv
              · simp [hmatch]
              · simp [hwv]
            · rw [hmem w]
              rcases eq_or_ne w v with rfl | hwv
              · simp [hnodup.1, hmatch]
              · simp [hwv]

/-- More fuel does not change the result. -/
theorem wakeUpLoop_mono {mode fuel fuel' nrExclusive : ℕ} {q q' : WaitQueue W}
    {curr next : Option W} (hle : fuel ≤ fuel')
    (h : wakeUpLoop mode fuel q curr next nrExclusive = some q') :
    wakeUpLoop mode fuel' q curr next nrExclusive = some q' := by
  induction fuel generalizing fuel' q curr next nrExclusive with
  | zero =>
      cases curr with
      | none =>
          rw [wakeUpLoop] at h ⊢
          exact h
      | some w =>
          rw [wakeUpLoop] at h
          cases h
  | succ fuel ih =>
      obtain ⟨fuel', rfl⟩ : ∃ n, fuel' = n + 1 := ⟨fuel' - 1, by omega⟩
      cases curr with
      | none =>
          rw [wakeUpLoop] at h ⊢
          exact h
      | some w =>
          simp only [wakeUpLoop] at h ⊢
          split_ifs at h ⊢
          · exact h
          · exact ih (by omega) h
          · exact ih (by omega) h

/-- **`shannon_wake_up`.**  With enough fuel it returns, and whenever it returns, the
tasks on the queue that match the mode are running and off the queue, and nothing else
has changed. -/
theorem shannonWakeUp_spec (mode nrExclusive : ℕ) {q : WaitQueue W} {xs : List W}
    (hq : Queued q xs) :
    (∃ q', shannonWakeUp xs.length q mode nrExclusive = some q') ∧
      ∀ fuel q', shannonWakeUp fuel q mode nrExclusive = some q' →
        ∃ zs, Queued q' zs ∧ q'.exclusive = q.exclusive ∧
          (∀ w, q'.task w = wokenTask q mode xs w) ∧
          ∀ w, w ∈ zs ↔ w ∈ xs ∧ q.task w &&& mode = 0 := by
  have hq' : Queued q ([] ++ xs) := hq
  have hstart : ∀ w zs, xs = w :: zs → q.links.next xs.head? = zs.head? := hq'.next_head
  have hspec := wakeUpLoop_spec mode nrExclusive hq' le_rfl hstart
  unfold shannonWakeUp
  rw [hq.list.next_none]
  obtain ⟨q₁, zs, hloop, hq₁, hex, htask, hmem⟩ := hspec
  refine ⟨⟨q₁, hloop⟩, fun fuel q' h => ?_⟩
  have hmore := wakeUpLoop_mono (Nat.le_add_right xs.length fuel) hloop
  have hsame := wakeUpLoop_mono (Nat.le_add_left fuel xs.length) h
  obtain rfl := Option.some.inj (hmore.symm.trans hsame)
  refine ⟨zs, hq₁, hex, htask, fun w => ?_⟩
  rw [hmem w, List.nil_append]
  exact and_congr_right fun hw => ⟨fun h => h hw, fun h _ => h⟩

/-! ### The system -/

/-- Where a waiter is. -/
inductive Pc where
  /-- Not in `shannon_wait_event`, or at its first test of the condition. -/
  | out
  /-- At `SHANNON_DEFINE_WAIT`. -/
  | define
  /-- At `shannon_prepare_to_wait`. -/
  | prepare
  /-- At the test in the loop. -/
  | check
  /-- In `shannon_schedule`. -/
  | schedule
  /-- In `shannon_finish_wait`, at `__set_current_state`. -/
  | setRunning
  /-- At the first read of `shannon_list_empty_careful`. -/
  | readNext
  /-- At the second one. -/
  | readPrev
  /-- At the section under the lock. -/
  | delInit
deriving DecidableEq, Repr

variable {K : Type*}

/-- The queue, the waiters `W`, the condition, and which of the wakers `K` have made it
true and not finished `shannon_wake_up`. -/
structure State (W K : Type*) where
  queue : WaitQueue W
  pc : W → Pc
  cond : Bool
  waking : K → Bool

/-- What happens next. -/
inductive Act (W K : Type*) where
  /-- A waiter makes its next step. -/
  | waiter (w : W)
  /-- A waiter is woken by somebody else. -/
  | spurious (w : W)
  /-- A waker makes the condition true. -/
  | makeTrue (k : K)
  /-- A waker calls `shannon_wake_up`. -/
  | wakeUp (k : K) (fuel : ℕ)

/-- Nobody waits. -/
def State.init (cond : Bool) : State W K :=
  ⟨⟨⟨id, id⟩, fun _ => false, fun _ => taskRunning⟩, fun _ => .out, cond, fun _ => false⟩

/-- A waiter goes on at `pc`. -/
def State.goto (s : State W K) (w : W) (pc : Pc) : State W K :=
  { s with pc := Function.update s.pc w pc }

/-- The next step of a waiter; none in `shannon_schedule` while the task is not
running. -/
def waiterStep (s : State W K) (w : W) : Option (State W K) :=
  match s.pc w with
  | .out => some (if s.cond then s else s.goto w .define)
  | .define => some ({ s with queue := shannonDefineWait s.queue w }.goto w .prepare)
  | .prepare =>
      some ({ s with queue := shannonPrepareToWait s.queue w taskUninterruptible }.goto w .check)
  | .check => some (s.goto w (if s.cond then .setRunning else .schedule))
  | .schedule => if s.queue.task w = taskRunning then some (s.goto w .prepare) else none
  | .setRunning =>
      some ({ s with queue.task := Function.update s.queue.task w taskRunning }.goto w .readNext)
  | .readNext =>
      some (s.goto w (if s.queue.links.next (some w) = some w then .readPrev else .delInit))
  | .readPrev =>
      some (s.goto w (if s.queue.links.prev (some w) = some w then .out else .delInit))
  | .delInit =>
      some ({ s with queue.links := shannonListDelInit s.queue.links (some w) }.goto w .out)

/-- One step of the system. -/
def step [DecidableEq K] (s : State W K) : Act W K → Option (State W K)
  | .waiter w => waiterStep s w
  | .spurious w =>
      some { s with queue.task := Function.update s.queue.task w taskRunning }
  | .makeTrue k =>
      if s.waking k then none
      else some { s with cond := true, waking := Function.update s.waking k true }
  | .wakeUp k fuel =>
      if s.waking k then
        (shannonWakeUp fuel s.queue wakeUpMode 1).map fun queue =>
          { s with queue := queue, waking := Function.update s.waking k false }
      else none

/-- The waiter is blocked in `shannon_schedule`. -/
def State.Blocked (s : State W K) (w : W) : Prop :=
  s.pc w = .schedule ∧ s.queue.task w ≠ taskRunning

/-! ### The invariant -/

/-- What is known of a waiter by where it is: of the state of its task, and whether its
entry is on the queue. -/
def Pc.Fits (task : ℕ) (queued : Prop) : Pc → Prop
  | .out | .define | .readPrev => ¬queued
  | .check | .schedule => task = taskRunning ∨ (task = taskUninterruptible ∧ queued)
  | .prepare | .setRunning | .readNext | .delInit => True

/-- The queue is in order with the entries `xs` on it, every waiter fits, and nobody is
blocked when the condition is true and nobody is waking. -/
structure Inv (s : State W K) (xs : List W) : Prop where
  queued : Queued s.queue xs
  fits : ∀ w, (s.pc w).Fits (s.queue.task w) (w ∈ xs)
  awake : s.cond = true → (∀ k, s.waking k = false) → ∀ w, ¬s.Blocked w

omit [DecidableEq W] in
theorem inv_init (cond : Bool) : Inv (State.init cond : State W K) [] where
  queued := ⟨⟨ring_nil_iff.2 ⟨rfl, rfl⟩, fun _ _ => ring_nil_iff.2 ⟨rfl, rfl⟩⟩, by simp⟩
  fits := fun _ => List.not_mem_nil
  awake := fun _ _ w h => by cases h.1

/-- A step of one waiter leaves the others alone. -/
theorem Inv.goto {s : State W K} {xs ys : List W} (hs : Inv s xs) {w : W} {pc : Pc}
    {queue : WaitQueue W} (hq : Queued queue ys)
    (htask : ∀ v, v ≠ w → queue.task v = s.queue.task v)
    (hmem : ∀ v, v ≠ w → (v ∈ ys ↔ v ∈ xs)) (hfits : pc.Fits (queue.task w) (w ∈ ys))
    (hsleep : pc = .schedule → s.cond = false) :
    Inv ({ s with queue := queue }.goto w pc) ys := by
  refine ⟨hq, fun v => ?_, fun hcond hwaking v hblocked => ?_⟩
  · rcases eq_or_ne v w with rfl | hv
    · simpa [State.goto] using hfits
    · simpa [State.goto, hv, htask v hv, hmem v hv] using hs.fits v
  · rcases eq_or_ne v w with rfl | hv
    · have hpc : pc = .schedule := by simpa [State.goto] using hblocked.1
      have hfalse := hsleep hpc
      rw [show s.cond = true from hcond] at hfalse
      cases hfalse
    · refine hs.awake hcond hwaking v ⟨?_, ?_⟩
      · simpa [State.goto, hv] using hblocked.1
      · rw [← htask v hv]
        exact hblocked.2

/-- The same for a step that does not touch the queue. -/
theorem Inv.goto_same {s : State W K} {xs : List W} (hs : Inv s xs) {w : W} {pc : Pc}
    (hfits : pc.Fits (s.queue.task w) (w ∈ xs)) (hsleep : pc = .schedule → s.cond = false) :
    Inv (s.goto w pc) xs :=
  hs.goto hs.queued (fun _ _ => rfl) (fun _ _ => Iff.rfl) hfits hsleep

/-- `shannon_prepare_to_wait` puts the entry on the queue if it is not there. -/
theorem Queued.prepare {q : WaitQueue W} {xs : List W} (hq : Queued q xs) (w : W) (state : ℕ) :
    ∃ ys, Queued (shannonPrepareToWait q w state) ys ∧ w ∈ ys ∧ ∀ v, v ≠ w → (v ∈ ys ↔ v ∈ xs) := by
  have hex (ys : List W) (hys : ∀ v ∈ ys, v ≠ w → v ∈ xs) :
      ∀ v ∈ ys, Function.update q.exclusive w false v = false := by
    intro v hv
    rcases eq_or_ne v w with rfl | hvw
    · exact Function.update_self ..
    · rw [Function.update_of_ne hvw]
      exact hq.exclusive v (hys v hv hvw)
  by_cases hw : w ∈ xs
  · have hlinked : shannonListEmpty q.links (some w) = false := by
      simpa [shannonListEmpty, hq.list.next_eq_self_iff] using hw
    refine ⟨xs, ⟨?_, hex xs fun v hv _ => hv⟩, hw, fun v _ => Iff.rfl⟩
    simpa [shannonPrepareToWait, hlinked] using hq.list
  · have hempty : shannonListEmpty q.links (some w) = true := by
      simpa [shannonListEmpty, hq.list.next_eq_self_iff] using hw
    refine ⟨w :: xs, ⟨?_, hex _ fun v hv hvw => by simpa [hvw] using hv⟩, by simp,
      fun v hv => by simp [hv]⟩
    simpa [shannonPrepareToWait, hempty, shannonListAdd] using hq.list.insertFirst hw

/-- `shannon_list_del_init` takes an entry off the queue, wherever it is. -/
theorem Queued.delInit {q : WaitQueue W} {xs : List W} (hq : Queued q xs) (w : W) :
    ∃ ys, Queued { q with links := shannonListDelInit q.links (some w) } ys ∧ w ∉ ys ∧
      ∀ v, v ≠ w → (v ∈ ys ↔ v ∈ xs) := by
  by_cases hw : w ∈ xs
  · obtain ⟨ys, zs, rfl⟩ := List.append_of_mem hw
    have hnodup := hq.list.nodup
    rw [List.perm_middle.nodup_iff, List.nodup_cons] at hnodup
    refine ⟨ys ++ zs, ⟨hq.list.remove, fun v hv => hq.exclusive v ?_⟩, hnodup.1, fun v hv => ?_⟩
    · simp only [List.mem_append, List.mem_cons] at hv ⊢
      tauto
    · simp [hv]
  · exact ⟨xs, ⟨hq.list.remove_of_notMem hw, hq.exclusive⟩, hw, fun v _ => Iff.rfl⟩

/-- **A step of a waiter keeps the invariant.** -/
theorem inv_waiterStep {s t : State W K} {xs : List W} {w : W} (hs : Inv s xs)
    (h : waiterStep s w = some t) : ∃ ys, Inv t ys := by
  have hfits := hs.fits w
  unfold waiterStep at h
  cases hpc : s.pc w with
  | out =>
      simp only [hpc, Option.some.injEq] at h hfits
      split_ifs at h with hcond
      · exact ⟨xs, h ▸ hs⟩
      · exact ⟨xs, h ▸ hs.goto_same hfits (by simp)⟩
  | define =>
      simp only [hpc, Option.some.injEq] at h hfits
      have hq : Queued (shannonDefineWait s.queue w) xs := by
        refine ⟨hs.queued.list.selfLink hfits, fun v hv => ?_⟩
        have hvw : v ≠ w := fun heq => hfits (heq ▸ hv)
        simpa [shannonDefineWait, hvw] using hs.queued.exclusive v hv
      exact ⟨xs, h ▸ hs.goto hq (fun _ _ => rfl) (fun _ _ => Iff.rfl) trivial (by simp)⟩
  | prepare =>
      simp only [hpc, Option.some.injEq] at h
      obtain ⟨ys, hq, hw, hmem⟩ := hs.queued.prepare w taskUninterruptible
      refine ⟨ys, h ▸ hs.goto hq (fun v hv => ?_) hmem (.inr ⟨?_, hw⟩) (by simp)⟩
      · simp [shannonPrepareToWait, hv]
      · simp [shannonPrepareToWait]
  | check =>
      simp only [hpc, Option.some.injEq] at h hfits
      refine ⟨xs, h ▸ hs.goto_same ?_ ?_⟩
      · split_ifs
        · exact trivial
        · exact hfits
      · split_ifs with hcond
        · simp
        · simpa using hcond
  | schedule =>
      simp only [hpc, Option.ite_none_right_eq_some, Option.some.injEq] at h
      exact ⟨xs, h.2 ▸ hs.goto_same trivial (by simp)⟩
  | setRunning =>
      simp only [hpc, Option.some.injEq] at h
      have hq : Queued { s.queue with task := Function.update s.queue.task w taskRunning } xs :=
        ⟨hs.queued.list, hs.queued.exclusive⟩
      refine ⟨xs, h ▸ hs.goto hq (fun v hv => ?_) (fun _ _ => Iff.rfl) trivial (by simp)⟩
      simp [hv]
  | readNext =>
      simp only [hpc, Option.some.injEq] at h
      refine ⟨xs, h ▸ hs.goto_same ?_ ?_⟩
      · split_ifs with hnext
        · exact hs.queued.list.next_eq_self_iff.1 hnext
        · exact trivial
      · split_ifs <;> simp
  | readPrev =>
      simp only [hpc, Option.some.injEq] at h hfits
      refine ⟨xs, h ▸ hs.goto_same ?_ ?_⟩
      · split_ifs
        · exact hfits
        · exact trivial
      · split_ifs <;> simp
  | delInit =>
      simp only [hpc, Option.some.injEq] at h
      obtain ⟨ys, hq, hw, hmem⟩ := hs.queued.delInit w
      exact ⟨ys, h ▸ hs.goto hq (fun _ _ => rfl) hmem hw (by simp)⟩

/-- A task that is made running fits all the same. -/
theorem Pc.Fits.running {pc : Pc} {task : ℕ} {queued : Prop} (h : pc.Fits task queued) :
    pc.Fits taskRunning queued := by
  cases pc with
  | out | define | readPrev => exact h
  | check | schedule => exact .inl rfl
  | prepare | setRunning | readNext | delInit => trivial

/-- A waiter fits after a walk over the queue, and is not asleep. -/
theorem Pc.Fits.wokenTask {q : WaitQueue W} {xs zs : List W} {w : W} {pc : Pc}
    (h : pc.Fits (q.task w) (w ∈ xs)) (hzs : w ∈ zs → w ∈ xs) :
    pc.Fits (wokenTask q wakeUpMode xs w) (w ∈ zs) ∧
      (pc = .schedule → Waitqueue.wokenTask q wakeUpMode xs w = taskRunning) := by
  have hawake : q.task w = taskRunning ∨ (q.task w = taskUninterruptible ∧ w ∈ xs) →
      Waitqueue.wokenTask q wakeUpMode xs w = taskRunning := by
    rintro (hrunning | ⟨huninterruptible, hw⟩)
    · rw [Waitqueue.wokenTask, hrunning, ite_self]
    · rw [Waitqueue.wokenTask, if_pos ⟨hw, by rw [huninterruptible]; decide⟩]
  cases pc with
  | out | define | readPrev => exact ⟨fun hw => h (hzs hw), by simp⟩
  | check => exact ⟨.inl (hawake h), by simp⟩
  | schedule => exact ⟨.inl (hawake h), fun _ => hawake h⟩
  | prepare | setRunning | readNext | delInit => exact ⟨trivial, by simp⟩

variable [DecidableEq K]

/-- **Every step keeps the invariant.** -/
theorem inv_step {s t : State W K} {xs : List W} {a : Act W K} (hs : Inv s xs)
    (h : step s a = some t) : ∃ ys, Inv t ys := by
  cases a with
  | waiter w => exact inv_waiterStep hs h
  | spurious w =>
      obtain rfl := Option.some.inj h
      refine ⟨xs, ⟨hs.queued.list, hs.queued.exclusive⟩, fun v => ?_, ?_⟩
      · rcases eq_or_ne v w with rfl | hv
        · simpa using (hs.fits v).running
        · simpa [hv] using hs.fits v
      · rintro hcond hwaking v ⟨hpc, htask⟩
        refine hs.awake hcond hwaking v ⟨hpc, fun hrunning => htask ?_⟩
        rcases eq_or_ne v w with rfl | hv
        · simp
        · simpa [hv] using hrunning
  | makeTrue k =>
      simp only [step, Option.ite_none_left_eq_some, Option.some.injEq] at h
      obtain ⟨-, rfl⟩ := h
      refine ⟨xs, hs.queued, hs.fits, fun _ hwaking => ?_⟩
      have hk := hwaking k
      simp at hk
  | wakeUp k fuel =>
      simp only [step, Option.ite_none_right_eq_some, Option.map_eq_some_iff] at h
      obtain ⟨-, queue, hwake, rfl⟩ := h
      obtain ⟨zs, hq, -, htask, hmem⟩ :=
        (shannonWakeUp_spec wakeUpMode 1 hs.queued).2 fuel queue hwake
      have hfits (w : W) := (hs.fits w).wokenTask fun hw => ((hmem w).1 hw).1
      refine ⟨zs, hq, fun w => ?_, fun _ _ w hblocked => hblocked.2 ?_⟩
      · show (s.pc w).Fits (queue.task w) (w ∈ zs)
        rw [htask w]
        exact (hfits w).1
      · show queue.task w = taskRunning
        rw [htask w]
        exact (hfits w).2 hblocked.1

theorem inv_run {cond : Bool} {as : List (Act W K)} {s : State W K}
    (hrun : run step (State.init cond) as = some s) : ∃ xs, Inv s xs :=
  run_invariant (I := fun s => ∃ xs, Inv s xs) (fun _ _ _ ⟨_, hs⟩ h => inv_step hs h)
    ⟨[], inv_init cond⟩ hrun

/-! ### The result -/

/-- No other list head points to the entry of `w`, and it points to itself. -/
def OnNoList (q : WaitQueue W) (w : W) : Prop :=
  (q.links.next (some w) = some w ∧ q.links.prev (some w) = some w) ∧
    ∀ v, q.links.next v = some w ∨ q.links.prev v = some w → v = some w

omit [DecidableEq W] in
theorem Queued.onNoList {q : WaitQueue W} {xs : List W} (hq : Queued q xs) {w : W} (hw : w ∉ xs) :
    OnNoList q w :=
  ⟨ring_nil_iff.1 (hq.list.alone w hw), fun _ hv => hq.list.eq_of_points_to hw hv⟩

/-- **No wake-up is lost.**  In every state of every run, however the steps of waiters
and wakers interleave: a waiter that is blocked in `shannon_schedule` while the
condition is true has a waker that has not finished `shannon_wake_up`; the entry of a
waiter that is back from `shannon_finish_wait` is on no list; and a waker that has made
the condition true can finish. -/
theorem no_lost_wakeUp {cond : Bool} {as : List (Act W K)} {s : State W K}
    (hrun : run step (State.init cond) as = some s) :
    (∀ w, s.Blocked w → s.cond = true → ∃ k, s.waking k = true) ∧
      (∀ w, s.pc w = .out → OnNoList s.queue w) ∧
      ∀ k, s.waking k = true → ∃ fuel t, step s (.wakeUp k fuel) = some t := by
  obtain ⟨xs, hs⟩ := inv_run hrun
  refine ⟨fun w hblocked hcond => ?_, fun w hpc => ?_, fun k hk => ?_⟩
  · by_contra hnone
    refine hs.awake hcond (fun k => ?_) w hblocked
    exact Bool.eq_false_iff.2 fun hk => hnone ⟨k, hk⟩
  · have hw := hs.fits w
    rw [hpc] at hw
    exact hs.queued.onNoList hw
  · obtain ⟨queue, hwake⟩ := (shannonWakeUp_spec wakeUpMode 1 hs.queued).1
    exact ⟨xs.length, _, by simp only [step, hk, if_true, hwake]; rfl⟩

/-- A waiter goes to sleep, is woken, and returns; another one finds the condition
true. -/
def waitedRun : List (Act Bool Unit) :=
  List.replicate 4 (.waiter false) ++ [.makeTrue (), .waiter true, .wakeUp () 1] ++
    List.replicate 6 (.waiter false)

/-- The hypothesis of `no_lost_wakeUp` is satisfiable: `waitedRun` is a run, in the
middle of which the waiter is blocked with the condition true, and both waiters are on
no list in the end. -/
theorem no_lost_wakeUp_waitedRun :
    (∃ s, run step (State.init false) (waitedRun.take 6) = some s ∧ s.Blocked false ∧
      s.cond = true ∧ ∃ k, s.waking k = true) ∧
    ∃ s, run step (State.init false) waitedRun = some s ∧ OnNoList s.queue false ∧
      OnNoList s.queue true := by
  constructor
  · obtain ⟨s, hs, hblocked, hcond⟩ : ∃ s, run step (State.init false) (waitedRun.take 6) = some s ∧
        s.Blocked false ∧ s.cond = true := ⟨_, rfl, ⟨rfl, by decide⟩, rfl⟩
    exact ⟨s, hs, hblocked, hcond, (no_lost_wakeUp hs).1 false hblocked hcond⟩
  · obtain ⟨s, hs, h0, h1⟩ : ∃ s, run step (State.init false) waitedRun = some s ∧
        s.pc false = .out ∧ s.pc true = .out := ⟨_, rfl, rfl, rfl⟩
    exact ⟨s, hs, (no_lost_wakeUp hs).2.1 false h0, (no_lost_wakeUp hs).2.1 true h1⟩

end Waitqueue
end Shannon
