/-
# The completion ledger

The entry functions, the work items and the completions run concurrently, on
any number of bios and requests.  A step of the system is one event of one
script, the start of a script, or its end, so two scripts interleave in every
way; the outcomes are in the labels.

Most events only concern resources.  Those left, the *visible* ones, can come in
few orders: `Course` lists them all, one constructor for each way a bio or
request can go and each place where it can be on the way.  Every script is a
course or continues one (`course_of_codeFor`), so the ledger of a bio is read off
the list, and `completion_ledger` is what the list says.
-/

import Mathlib.Algebra.BigOperators.Ring.Finset
import Shannon.Block.Request
import Shannon.Lib.Run

namespace Shannon
namespace Block

open Lib

/-! ### The system -/

/-- The entry a bio or request came in by. -/
inductive Kind where
  | dev
  | ns
  | lreq
deriving DecidableEq, Repr

/-- Where a bio or request is: nobody has seen it yet, a script is running for
it, or a script has handed it over. -/
inductive Stage where
  | fresh
  | running (next : Next)
  | resting (next : Next)
deriving DecidableEq, Repr

/-- A bio or request: how it came in (once it has), the events so far, and the
events the running script has still to do. -/
structure Job where
  kind : Kind
  done : List Event
  todo : List Event
  stage : Stage
deriving DecidableEq, Repr

/-- What can happen to a bio or request: the three entries, the next event of
the running script or its end, the execution of the work item (`ret` is what the
submission returns), and the completion by the core. -/
inductive Act where
  | makeRequest (c : BioCall)
  | makeRequestNs (c : BioCall)
  | xferRequest (c : LreqCall)
  | tick
  | work (ret : ℤ)
  | complete (mem : Mem) (status : ℤ)

variable (conv : Converters)

/-- The code `a` runs on a job at `stage`, if it can: an entry on a bio or
request that is new, the work item on one that is queued, the completion on one
that the core has. -/
def codeFor : Stage → Kind → Act → Option (Kind × Except Oops Script)
  | .fresh, _, .makeRequest c => some (.dev, shannonMakeRequest conv c)
  | .fresh, _, .makeRequestNs c => some (.ns, shannonMakeRequestNs conv c)
  | .fresh, _, .xferRequest c => some (.lreq, shannonDiskXferRequest conv c)
  | .resting (.queued false sbio origin), kind, .work ret =>
      some (kind, .ok (submitSbioTask sbio origin ret))
  | .resting (.queued true sbio origin), kind, .work ret =>
      some (kind, .ok (submitSbioTaskNs sbio origin ret))
  | .resting (.core sbio origin), kind, .complete mem status =>
      some (kind, coreCompletes mem sbio origin status)
  | _, _, _ => none

/-- One step of a job, with the event it does.  A script that faults does not
start. -/
def jobStep (j : Job) (a : Act) : Option (Job × Option Event) :=
  match j.stage, a with
  | .running next, .tick =>
      match j.todo with
      | [] => some ({ j with stage := .resting next }, none)
      | e :: es => some ({ j with done := j.done ++ [e], todo := es }, some e)
  | stage, a =>
      match codeFor conv stage j.kind a with
      | some (kind, .ok script) => some (⟨kind, j.done, script.events, .running script.next⟩, none)
      | _ => none

/-- What an event does to the counter of pending bios. -/
def Event.pendingDelta : Event → ℤ
  | .incPending => 1
  | .decPending => -1
  | _ => 0

/-- All bios and requests, those that have come in, and the counter of pending
bios of the namespace as far as this code changes it. -/
structure State where
  jobs : ℕ → Job
  ids : Finset ℕ
  pending : ℤ

/-- Nothing has come in. -/
def State.init : State := ⟨fun _ => ⟨.dev, [], [], .fresh⟩, ∅, 0⟩

/-- One step of the system: `a` happens to the bio or request `b`. -/
def step (s : State) (l : ℕ × Act) : Option State :=
  (jobStep conv (s.jobs l.1) l.2).map fun (j, e) =>
    ⟨Function.update s.jobs l.1 j, insert l.1 s.ids,
      s.pending + (e.map Event.pendingDelta).getD 0⟩

/-! ### Courses -/

/-- The events the ledger is about. -/
def Event.visible : Event → Bool
  | .bioEndio _ => true
  | .endRequest _ => true
  | .startAcct => true
  | .endAcct => true
  | .incPending => true
  | .decPending => true
  | .submit ret => ret = 0
  | _ => false

/-- The visible events of a script. -/
def visible (es : List Event) : List Event := es.filter Event.visible

/-- **Every way a bio or request can go**, and every place where it can be on
the way. -/
inductive Course : Kind → List Event → Next → Prop where
  | devEnded (ret) : Course .dev [.bioEndio ret] .over
  | devFailed (ret) : Course .dev [.startAcct, .endAcct, .bioEndio ret] .over
  | devQueued (sbio bio) : Course .dev [.startAcct] (.queued false sbio (.bio bio))
  | devAccepted (sbio bio) : Course .dev [.startAcct, .submit 0] (.core sbio (.bio bio))
  | devCompleted (ret) :
      Course .dev [.startAcct, .submit 0, .endAcct, .bioEndio ret] .over
  | nsEnded (ret) : Course .ns [.incPending, .bioEndio ret, .decPending] .over
  | nsFailed (ret) :
      Course .ns [.incPending, .startAcct, .endAcct, .bioEndio ret, .decPending] .over
  | nsQueued (sbio bio) : Course .ns [.incPending, .startAcct] (.queued true sbio (.bio bio))
  | nsAccepted (sbio bio) :
      Course .ns [.incPending, .startAcct, .submit 0] (.core sbio (.bio bio))
  | nsCompleted (ret) :
      Course .ns [.incPending, .startAcct, .submit 0, .endAcct, .bioEndio ret] .over
  | lreqEnded (good) : Course .lreq [.endRequest good] .over
  | lreqRequeued : Course .lreq [] .requeue
  | lreqAccepted (sbio) : Course .lreq [.submit 0] (.core sbio .lreq)
  | lreqCompleted (good) : Course .lreq [.submit 0, .endRequest good] .over

@[simp] theorem visible_nil : visible [] = [] := rfl

@[simp] theorem visible_cons (e : Event) (es : List Event) :
    visible (e :: es) = if e.visible then e :: visible es else visible es :=
  List.filter_cons

@[simp] theorem visible_append (es fs : List Event) :
    visible (es ++ fs) = visible es ++ visible fs :=
  List.filter_append ..

@[simp] theorem visible_convertedEvents (c : Converted) : visible c.events = [] := by
  rw [Converted.events]
  cases c.sgFrom <;> simp [Event.visible]

@[simp] theorem visible_lpmtAllocated (sbio : ShannonBio) : visible (lpmtAllocated sbio) = [] := by
  rw [lpmtAllocated]
  split_ifs <;> simp [Event.visible]

@[simp] theorem visible_sgFreedIf (sbio : ShannonBio) : visible (sgFreedIf sbio) = [] := by
  rw [sgFreedIf]
  split_ifs <;> simp [sgFreed, Event.visible]

theorem visible_bouncePagesFreed {sbio : ShannonBio} {es : List Event}
    (h : bouncePagesFreed sbio = .ok es) : visible es = [] := by
  obtain ⟨ps, -, rfl⟩ := map_eq_ok.1 h
  simp [Event.visible]

theorem visible_devFreeSgList {sbio : ShannonBio} {ret : ℤ} {es : List Event}
    (h : MakeRequest.freeSgList sbio ret = .ok es) : visible es = [.bioEndio ret] := by
  obtain ⟨ps, hps, rfl⟩ := map_eq_ok.1 h
  have hvis : visible ps = [] := by
    split_ifs at hps
    · exact visible_bouncePagesFreed hps
    · simp only [Except.ok.injEq] at hps
      simp [← hps]
  simp only [visible_append, hvis]
  split_ifs <;> simp [sgFreed, MakeRequest.freeSbio, Event.visible]

/-! ### Every script is a course or continues one -/

theorem course_submitConverted {c : BioCall} {converted : Converted} {script : Script}
    (h : MakeRequest.submitConverted c [.allocSbio] converted = .ok script) :
    Course .dev (visible script.events) script.next := by
  simp only [MakeRequest.submitConverted] at h
  split_ifs at h with hret hlpmt hwq hsub
  · obtain rfl := Except.ok.inj h
    simpa [MakeRequest.freeSbio, Event.visible] using Course.devEnded _
  · obtain ⟨es, hes, rfl⟩ := map_eq_ok.1 h
    simpa [visible_devFreeSgList hes, Event.visible] using Course.devEnded _
  · obtain rfl := Except.ok.inj h
    simpa [Event.visible] using Course.devQueued _ _
  · obtain ⟨es, hes, rfl⟩ := map_eq_ok.1 h
    obtain ⟨fs, hfs, rfl⟩ := map_eq_ok.1 hes
    simpa [visible_devFreeSgList hfs, Event.visible, hsub] using Course.devFailed _
  · obtain rfl := Except.ok.inj h
    simpa [Event.visible] using Course.devAccepted _ _

theorem course_makeRequest {c : BioCall} {script : Script}
    (h : shannonMakeRequest conv c = .ok script) :
    Course .dev (visible script.events) script.next := by
  obtain ⟨error, -, rfl⟩ | ⟨-, -, first, last, -, rfl⟩ | ⟨-, sbio, converted, -, -, h⟩ :=
    shannonMakeRequest_cases h
  · simpa [Event.visible] using Course.devEnded _
  · simpa [Event.visible] using Course.devEnded _
  · exact course_submitConverted h

theorem course_submitConvertedNs (c : BioCall) (converted : Converted) :
    Course .ns
      (visible (MakeRequestNs.submitConverted c [.incPending, .allocSbio] converted).events)
      (MakeRequestNs.submitConverted c [.incPending, .allocSbio] converted).next := by
  simp only [MakeRequestNs.submitConverted, MakeRequestNs.endIoAcct, MakeRequestNs.freeSgList,
    MakeRequestNs.freeSbio]
  split_ifs with hret hlpmt hrefused hwq hsub
  · simpa [Event.visible] using Course.nsEnded _
  · simpa [Event.visible] using Course.nsEnded _
  · simpa [Event.visible] using Course.nsEnded _
  · simpa [Event.visible] using Course.nsQueued _ _
  · simpa [Event.visible, hsub] using Course.nsFailed _
  · simpa [Event.visible] using Course.nsAccepted _ _

theorem course_makeRequestNs {c : BioCall} {script : Script}
    (h : shannonMakeRequestNs conv c = .ok script) :
    Course .ns (visible script.events) script.next := by
  obtain ⟨error, -, rfl⟩ | ⟨-, -, first, last, -, rfl⟩ | ⟨-, -, -, sbio, converted, -, -, rfl⟩ :=
    shannonMakeRequestNs_cases h
  · simpa [Event.visible] using Course.nsEnded _
  · simpa [Event.visible] using Course.nsEnded _
  · exact course_submitConvertedNs c converted

/-- What `shannon_disk_xfer_request` itself shows of a request, and where it leaves
it. -/
inductive XferRequest.Outcome : List Event → Next → Prop where
  | ended (good) : Outcome [.endRequest good] .over
  | requeued : Outcome [] .requeue
  | accepted (sbio) : Outcome [.submit 0] (.core sbio .lreq)

theorem XferRequest.outcome_freeSbio (ret : ℤ) :
    Outcome (visible (freeSbio ret).events) (freeSbio ret).next := by
  rw [freeSbio]
  split_ifs
  · simpa [Event.visible] using Outcome.requeued
  · simpa [Event.visible] using Outcome.ended _

theorem outcome_xferRequest {c : LreqCall} {script : Script}
    (h : shannonDiskXferRequest conv c = .ok script) :
    XferRequest.Outcome (visible script.events) script.next := by
  obtain ⟨good, rfl⟩ | ⟨-, -, -, first, last, -, rfl⟩ |
      ⟨-, -, -, -, -, sbio, ret, out, -, -, rfl⟩ := shannonDiskXferRequest_cases h
  · simpa [Event.visible] using XferRequest.Outcome.ended _
  · simpa [Event.visible] using XferRequest.Outcome.ended _
  · simp only [XferRequest.submitConverted, XferRequest.freeSgList]
    split_ifs with hret hlpmt hsub
    · simpa [Event.visible] using XferRequest.outcome_freeSbio ret
    · simpa [Event.visible] using XferRequest.outcome_freeSbio (-eio)
    · simpa [Event.visible, hsub] using XferRequest.outcome_freeSbio c.submitRet
    · simpa [Event.visible] using XferRequest.Outcome.accepted _

theorem course_xferRequest {c : LreqCall} {script : Script}
    (h : shannonDiskXferRequest conv c = .ok script) :
    Course .lreq (visible script.events) script.next := by
  have houtcome := outcome_xferRequest conv h
  revert houtcome
  generalize visible script.events = vs, script.next = next
  intro houtcome
  cases houtcome with
  | ended good => exact .lreqEnded good
  | requeued => exact .lreqRequeued
  | accepted sbio => exact .lreqAccepted sbio

theorem course_submitSbioTask {kind : Kind} {es : List Event} {sbio : ShannonBio}
    {origin : Origin} (h : Course kind es (.queued false sbio origin)) (ret : ℤ) :
    Course kind (es ++ visible (submitSbioTask sbio origin ret).events)
      (submitSbioTask sbio origin ret).next := by
  cases h
  rw [submitSbioTask]
  split_ifs with hret
  · simpa [Event.visible, hret] using Course.devFailed _
  · simpa [Event.visible] using Course.devAccepted _ _

theorem course_submitSbioTaskNs {kind : Kind} {es : List Event} {sbio : ShannonBio}
    {origin : Origin} (h : Course kind es (.queued true sbio origin)) (ret : ℤ) :
    Course kind (es ++ visible (submitSbioTaskNs sbio origin ret).events)
      (submitSbioTaskNs sbio origin ret).next := by
  cases h
  rw [submitSbioTaskNs]
  split_ifs with hret
  · simpa [Event.visible, hret] using Course.nsFailed _
  · simpa [Event.visible] using Course.nsAccepted _ _

/-- What `shannon_complete_fs_io` shows of a bio. -/
theorem visible_completeFsIo {mem : Mem} {sbio : ShannonBio} {bio : Bio} {status : ℤ}
    {es : List Event} (h : shannonCompleteFsIo mem sbio (.bio bio) status = .ok es) :
    visible es = [.endAcct, .bioEndio (if status = 0 then 0 else -eio)] := by
  obtain ⟨fs, hfs, rfl⟩ := map_eq_ok.1 h
  have hvis : visible fs = [] := by
    split_ifs at hfs with hbounce hdir
    · obtain ⟨gs, hgs, hfs⟩ := bind_eq_ok.1 hfs
      obtain ⟨_, -, rfl⟩ := map_eq_ok.1 hgs
      obtain ⟨ps, hps, rfl⟩ := map_eq_ok.1 hfs
      simp [Event.visible, visible_bouncePagesFreed hps]
    · obtain ⟨ps, hps, rfl⟩ := map_eq_ok.1 hfs
      simp [visible_bouncePagesFreed hps]
    · obtain rfl := Except.ok.inj hfs
      rfl
  simp [hvis, Event.visible]

theorem course_coreCompletes {kind : Kind} {es : List Event} {mem : Mem} {sbio : ShannonBio}
    {origin : Origin} {status : ℤ} {script : Script} (h : Course kind es (.core sbio origin))
    (hscript : coreCompletes mem sbio origin status = .ok script) :
    Course kind (es ++ visible script.events) script.next := by
  obtain ⟨fs, hfs, rfl⟩ := map_eq_ok.1 hscript
  cases h with
  | devAccepted =>
      simpa [visible_completeFsIo hfs, Event.visible] using Course.devCompleted _
  | nsAccepted =>
      simpa [visible_completeFsIo hfs, Event.visible] using Course.nsCompleted _
  | lreqAccepted =>
      obtain rfl := Except.ok.inj hfs
      simpa [Event.visible] using Course.lreqCompleted _

/-! ### One step of a job -/

variable {conv}

theorem codeFor_cases {stage : Stage} {kind kind' : Kind} {a : Act} {script : Script}
    (h : codeFor conv stage kind a = some (kind', .ok script)) :
    (stage = .fresh ∧ (
      (∃ c, a = .makeRequest c ∧ kind' = .dev ∧ shannonMakeRequest conv c = .ok script) ∨
      (∃ c, a = .makeRequestNs c ∧ kind' = .ns ∧ shannonMakeRequestNs conv c = .ok script) ∨
      (∃ c, a = .xferRequest c ∧ kind' = .lreq ∧ shannonDiskXferRequest conv c = .ok script))) ∨
    (∃ ns sbio origin ret, stage = .resting (.queued ns sbio origin) ∧ a = .work ret ∧
      kind' = kind ∧ script = if ns then submitSbioTaskNs sbio origin ret
        else submitSbioTask sbio origin ret) ∨
    (∃ sbio origin mem status, stage = .resting (.core sbio origin) ∧ a = .complete mem status ∧
      kind' = kind ∧ coreCompletes mem sbio origin status = .ok script) := by
  unfold codeFor at h
  split at h <;> simp only [Option.some.injEq, Prod.mk.injEq, reduceCtorEq] at h
  · exact .inl ⟨rfl, .inl ⟨_, rfl, h.1.symm, h.2⟩⟩
  · exact .inl ⟨rfl, .inr (.inl ⟨_, rfl, h.1.symm, h.2⟩)⟩
  · exact .inl ⟨rfl, .inr (.inr ⟨_, rfl, h.1.symm, h.2⟩)⟩
  · exact .inr (.inl ⟨_, _, _, _, rfl, rfl, h.1.symm, (Except.ok.inj h.2).symm⟩)
  · exact .inr (.inl ⟨_, _, _, _, rfl, rfl, h.1.symm, (Except.ok.inj h.2).symm⟩)
  · exact .inr (.inr ⟨_, _, _, _, rfl, rfl, h.1.symm, h.2⟩)

/-- **What one step of a job can do**: start a script, do its next event, or end
it. -/
theorem jobStep_cases {j j' : Job} {a : Act} {e : Option Event}
    (h : jobStep conv j a = some (j', e)) :
    (∃ kind script, codeFor conv j.stage j.kind a = some (kind, .ok script) ∧
      j' = ⟨kind, j.done, script.events, .running script.next⟩ ∧ e = none) ∨
    (∃ next, j.stage = .running next ∧ j.todo = [] ∧ j' = { j with stage := .resting next } ∧
      e = none) ∨
    (∃ next ev es, j.stage = .running next ∧ j.todo = ev :: es ∧
      j' = { j with done := j.done ++ [ev], todo := es } ∧ e = some ev) := by
  unfold jobStep at h
  split at h
  · split at h
    · simp only [Option.some.injEq, Prod.mk.injEq] at h
      exact .inr (.inl ⟨_, ‹_›, ‹_›, h.1.symm, h.2.symm⟩)
    · simp only [Option.some.injEq, Prod.mk.injEq] at h
      exact .inr (.inr ⟨_, _, _, ‹_›, ‹_›, h.1.symm, h.2.symm⟩)
  · split at h
    · simp only [Option.some.injEq, Prod.mk.injEq] at h
      exact .inl ⟨_, _, ‹_›, h.1.symm, h.2.symm⟩
    · cases h

/-- The events done and to be done, with whoever gets the job then, meet `P`. -/
def Job.Keeps (P : Kind → List Event → Next → Prop) (j : Job) : Prop :=
  match j.stage with
  | .fresh => j.done = [] ∧ j.todo = []
  | .running next => P j.kind (j.done ++ j.todo) next
  | .resting next => j.todo = [] ∧ P j.kind j.done next

/-- **A job keeps to its plan** as long as every script started continues it. -/
theorem Job.Keeps.jobStep {P : Kind → List Event → Next → Prop} {j j' : Job} {a : Act}
    {e : Option Event} (hj : j.Keeps P) (h : jobStep conv j a = some (j', e))
    (hcode : ∀ kind script, codeFor conv j.stage j.kind a = some (kind, .ok script) →
      P kind (j.done ++ script.events) script.next) : j'.Keeps P := by
  rcases jobStep_cases h with ⟨kind, script, hc, rfl, -⟩ | ⟨next, hstage, htodo, rfl, -⟩ |
    ⟨next, ev, es, hstage, htodo, rfl, -⟩
  · exact hcode kind script hc
  · rw [Job.Keeps, hstage] at hj
    exact ⟨htodo, by simpa [htodo] using hj⟩
  · rw [Job.Keeps, hstage] at hj
    simpa [Job.Keeps, hstage, htodo] using hj

/-- The course of a job. -/
def OnCourse (kind : Kind) (es : List Event) (next : Next) : Prop :=
  Course kind (visible es) next

theorem onCourse_of_codeFor {j : Job} (hj : j.Keeps OnCourse) {a : Act} {kind : Kind}
    {script : Script} (h : codeFor conv j.stage j.kind a = some (kind, .ok script)) :
    OnCourse kind (j.done ++ script.events) script.next := by
  rw [OnCourse, visible_append]
  rcases codeFor_cases h with ⟨hstage, hentry⟩ | ⟨ns, sbio, origin, ret, hstage, -, rfl, rfl⟩ |
    ⟨sbio, origin, mem, status, hstage, -, rfl, hscript⟩ <;> rw [Job.Keeps, hstage] at hj
  · rw [hj.1, visible_nil, List.nil_append]
    rcases hentry with ⟨c, -, rfl, hc⟩ | ⟨c, -, rfl, hc⟩ | ⟨c, -, rfl, hc⟩
    · exact course_makeRequest conv hc
    · exact course_makeRequestNs conv hc
    · exact course_xferRequest conv hc
  · cases ns with
    | false => exact course_submitSbioTask hj.2 ret
    | true => exact course_submitSbioTaskNs hj.2 ret
  · exact course_coreCompletes hj.2 hscript

/-! ### The ledger -/

/-- `shannon_bio_endio` or `shannon_end_request`. -/
def Event.isEnd : Event → Bool
  | .bioEndio _ => true
  | .endRequest _ => true
  | _ => false

/-- `shannon_start_io_acct` or `shannon_end_io_acct`. -/
def Event.isAcct : Event → Bool
  | .startAcct => true
  | .endAcct => true
  | _ => false

/-- How often a bio or request was ended. -/
def ends (es : List Event) : ℕ := es.countP Event.isEnd

/-- How often `shannon_start_io_acct` was called. -/
def starts (es : List Event) : ℕ := es.countP fun e => e = .startAcct

/-- How often `shannon_end_io_acct` was called. -/
def acctEnds (es : List Event) : ℕ := es.countP fun e => e = .endAcct

/-- Increments minus decrements of the counter of pending bios. -/
def net (es : List Event) : ℤ := (es.map Event.pendingDelta).sum

/-- The core has accepted the sbio. -/
def accepted (es : List Event) : Bool := decide (Event.submit 0 ∈ es)

/-- The bio or request waits in the work queue. -/
def Next.isQueued : Next → Bool
  | .queued .. => true
  | _ => false

/-- The core has the bio or request. -/
def Next.isCore : Next → Bool
  | .core .. => true
  | _ => false

/-- The bio came in through a namespace, and it is queued or the core has
accepted it. -/
def Job.countsAsPending (j : Job) : Bool :=
  j.kind = .ns && ((match j.stage with | .resting next => next.isQueued | _ => false) ||
    accepted j.done)

theorem countP_visible {p : Event → Bool} (hp : ∀ e, p e → e.visible) (es : List Event) :
    (visible es).countP p = es.countP p := by
  rw [visible, List.countP_filter]
  refine List.countP_congr fun e _ => ?_
  simpa using hp e

theorem ends_visible (es : List Event) : ends (visible es) = ends es :=
  countP_visible (fun e => by cases e <;> simp [Event.isEnd, Event.visible]) es

theorem starts_visible (es : List Event) : starts (visible es) = starts es :=
  countP_visible (by simp [Event.visible]) es

theorem acctEnds_visible (es : List Event) : acctEnds (visible es) = acctEnds es :=
  countP_visible (by simp [Event.visible]) es

theorem net_visible (es : List Event) : net (visible es) = net es := by
  induction es with
  | nil => rfl
  | cons e es ih =>
      have hcons : net (e :: es) = e.pendingDelta + net es := by simp [net]
      rw [hcons, visible_cons, ← ih]
      split_ifs with hvis
      · simp [net]
      · cases e <;> simp [Event.visible, Event.pendingDelta] at hvis ⊢

theorem accepted_visible (es : List Event) : accepted (visible es) = accepted es := by
  simp [accepted, visible, Event.visible]

/-- **The ledger of a course.**  A course is ended once when it is over and not
before; nothing is accounted after the end, and the accounting of an ended
course matches; the counter of pending bios is left one higher by the courses
through a namespace that are queued or were accepted. -/
structure Balanced (kind : Kind) (es : List Event) (next : Next) : Prop where
  ends_eq : ends es = if next = .over then 1 else 0
  acct_eq : next = .over → starts es = acctEnds es
  acct_first : es.Pairwise fun a b => a.isEnd → b.isAcct = false
  net_eq : net es = if kind = .ns ∧ (next.isQueued ∨ accepted es) then 1 else 0

theorem Course.balanced {kind : Kind} {es : List Event} {next : Next}
    (h : Course kind es next) : Balanced kind es next := by
  cases h <;> constructor <;>
    simp [ends, starts, acctEnds, net, accepted, Event.isEnd, Event.isAcct, Event.pendingDelta,
      Next.isQueued, List.countP_cons]

/-- The accounting of an ended bio matches, in the middle of a script as well. -/
theorem Balanced.starts_eq_acctEnds {kind : Kind} {es fs : List Event} {next : Next}
    (h : Balanced kind (es ++ fs) next) (hend : 0 < ends es) : starts es = acctEnds es := by
  obtain ⟨e, he, hisEnd⟩ := List.countP_pos_iff.1 hend
  have hfs : ∀ f ∈ fs, f.isAcct = false := fun f hf =>
    (List.pairwise_append.1 h.acct_first).2.2 e he f hf hisEnd
  have hnone : starts fs = 0 ∧ acctEnds fs = 0 := by
    constructor <;>
      · refine List.countP_eq_zero.2 fun f hf => ?_
        have := hfs f hf
        cases f <;> simp_all [Event.isAcct]
  have hover : next = .over := by
    by_contra hne
    have hzero := h.ends_eq
    rw [if_neg hne, ends, List.countP_append] at hzero
    rw [ends] at hend
    omega
  have hacct := h.acct_eq hover
  simp only [starts, acctEnds, List.countP_append] at hacct hnone ⊢
  omega

/-! ### Every interleaving -/

/-- Every job is on its course, and the counter is what the jobs that came in
have made of it. -/
structure Inv (s : State) : Prop where
  keeps : ∀ b, (s.jobs b).Keeps OnCourse
  fresh : ∀ b, b ∉ s.ids → (s.jobs b).stage = .fresh
  pending_eq : s.pending = ∑ b ∈ s.ids, net (s.jobs b).done

theorem inv_init : Inv State.init where
  keeps := fun _ => ⟨rfl, rfl⟩
  fresh := fun _ _ => rfl
  pending_eq := rfl

theorem net_jobStep {j j' : Job} {a : Act} {e : Option Event}
    (h : jobStep conv j a = some (j', e)) :
    net j'.done = net j.done + (e.map Event.pendingDelta).getD 0 := by
  rcases jobStep_cases h with ⟨kind, script, -, rfl, rfl⟩ | ⟨next, -, -, rfl, rfl⟩ |
    ⟨next, ev, es, -, -, rfl, rfl⟩
  · simp
  · simp
  · simp [net]

theorem step_eq_some {s s' : State} {b : ℕ} {a : Act} (h : step conv s (b, a) = some s') :
    ∃ j' e, jobStep conv (s.jobs b) a = some (j', e) ∧
      s' = ⟨Function.update s.jobs b j', insert b s.ids,
        s.pending + (e.map Event.pendingDelta).getD 0⟩ := by
  obtain ⟨⟨j', e⟩, hj, hs⟩ := Option.map_eq_some_iff.1 h
  exact ⟨j', e, hj, hs.symm⟩

/-- A job that has not come in has done nothing. -/
theorem Inv.net_eq_zero {s : State} (hinv : Inv s) {b : ℕ} (hb : b ∉ s.ids) :
    net (s.jobs b).done = 0 := by
  have hkeeps := hinv.keeps b
  rw [Job.Keeps, hinv.fresh b hb] at hkeeps
  rw [hkeeps.1]
  rfl

theorem inv_step {s s' : State} {l : ℕ × Act} (hinv : Inv s) (h : step conv s l = some s') :
    Inv s' := by
  obtain ⟨b, a⟩ := l
  obtain ⟨j', e, hj, rfl⟩ := step_eq_some h
  refine ⟨?_, fun x hx => ?_, ?_⟩
  · exact forall_update hinv.keeps
      ((hinv.keeps b).jobStep hj fun _ _ hc => onCourse_of_codeFor (hinv.keeps b) hc)
  · simp only [Finset.mem_insert, not_or] at hx
    simpa [hx.1] using hinv.fresh x hx.2
  · -- only `b` has changed something, and it has done nothing before if it is new
    have hold : ∑ x ∈ insert b s.ids, net (s.jobs x).done = s.pending := by
      by_cases hb : b ∈ s.ids
      · rw [Finset.insert_eq_of_mem hb, hinv.pending_eq]
      · rw [Finset.sum_insert hb, hinv.net_eq_zero hb, zero_add, hinv.pending_eq]
    have hnew := sum_update (Finset.mem_insert_self b s.ids) (fun j : Job => net j.done) s.jobs j'
    rw [hold, net_jobStep hj, add_sub_cancel_left] at hnew
    exact hnew.symm

theorem Job.Keeps.balanced {j : Job} (hj : j.Keeps OnCourse) {next : Next} {es : List Event}
    (h : j.stage = .running next ∧ es = j.done ++ j.todo ∨
      j.stage = .resting next ∧ es = j.done) : Balanced j.kind (visible es) next := by
  rcases h with ⟨hstage, rfl⟩ | ⟨hstage, rfl⟩ <;> rw [Job.Keeps, hstage] at hj
  · exact hj.balanced
  · exact hj.2.balanced

/-- A job that nobody runs a script for. -/
theorem Job.Keeps.rest {j : Job} (hj : j.Keeps OnCourse) {next : Next}
    (hstage : j.stage = .resting next) :
    ends j.done = (if next = .over then 1 else 0) ∧
      net j.done = if j.countsAsPending then 1 else 0 := by
  have hb := hj.balanced (.inr ⟨hstage, rfl⟩)
  refine ⟨by rw [← ends_visible, hb.ends_eq], ?_⟩
  rw [← net_visible, hb.net_eq, accepted_visible]
  simp [Job.countsAsPending, hstage]

/-- What was done of a job is the beginning of a balanced course. -/
theorem Job.Keeps.exists_balanced {j : Job} (hj : j.Keeps OnCourse) (hfresh : j.stage ≠ .fresh) :
    ∃ fs next, Balanced j.kind (visible j.done ++ fs) next := by
  cases hstage : j.stage with
  | fresh => exact absurd hstage hfresh
  | running next =>
      have hb := hj.balanced (.inl ⟨hstage, rfl⟩)
      rw [visible_append] at hb
      exact ⟨_, _, hb⟩
  | resting next =>
      have hb := hj.balanced (.inr ⟨hstage, rfl⟩)
      exact ⟨[], next, by rwa [List.append_nil]⟩

theorem Job.Keeps.ends_le_one {j : Job} (hj : j.Keeps OnCourse) : ends j.done ≤ 1 := by
  by_cases hfresh : j.stage = .fresh
  · rw [Job.Keeps, hfresh] at hj
    simp [hj.1, ends]
  · obtain ⟨fs, next, hb⟩ := hj.exists_balanced hfresh
    have h := hb.ends_eq
    rw [ends, List.countP_append] at h
    rw [← ends_visible, ends]
    split_ifs at h <;> omega

theorem Job.Keeps.acct_of_ended {j : Job} (hj : j.Keeps OnCourse) (hend : 0 < ends j.done) :
    starts j.done = acctEnds j.done := by
  by_cases hfresh : j.stage = .fresh
  · rw [Job.Keeps, hfresh] at hj
    simp [hj.1, ends] at hend
  · obtain ⟨fs, next, hb⟩ := hj.exists_balanced hfresh
    rw [← ends_visible] at hend
    rw [← starts_visible, ← acctEnds_visible, hb.starts_eq_acctEnds hend]

/-- **The completion ledger.**  In every state any interleaving of entries, work
items and completions reaches, with any outcomes: no bio or request has been
ended twice; one that no script runs for, and that is neither queued, nor with
the core, nor returned as `-ENOMEM`, has been ended exactly once; the accounting
calls of an ended bio match; the counter of pending bios is the sum of what the
bios that came in have left in it, which for one that no script runs for is 1 if
it came through a namespace and is queued or was accepted by the core and 0
otherwise; so between scripts the counter is the number of these. -/
theorem completion_ledger {labels : List (ℕ × Act)} {s : State}
    (hrun : run (step conv) State.init labels = some s) :
    (∀ b, ends (s.jobs b).done ≤ 1) ∧
    (∀ b next, (s.jobs b).stage = .resting next → next.isQueued = false → next.isCore = false →
      next ≠ .requeue → ends (s.jobs b).done = 1) ∧
    (∀ b, 0 < ends (s.jobs b).done → starts (s.jobs b).done = acctEnds (s.jobs b).done) ∧
    s.pending = ∑ b ∈ s.ids, net (s.jobs b).done ∧
    (∀ b next, (s.jobs b).stage = .resting next →
      net (s.jobs b).done = if (s.jobs b).countsAsPending then 1 else 0) ∧
    ((∀ b next, (s.jobs b).stage ≠ .running next) →
      s.pending = (s.ids.filter fun b => (s.jobs b).countsAsPending).card) := by
  have hinv : Inv s := run_invariant (fun _ _ _ hs h => inv_step hs h) inv_init hrun
  refine ⟨fun b => (hinv.keeps b).ends_le_one, fun b next hstage hq hc hr => ?_,
    fun b => (hinv.keeps b).acct_of_ended, hinv.pending_eq,
    fun b next hstage => ((hinv.keeps b).rest hstage).2, fun hquiet => ?_⟩
  · rw [((hinv.keeps b).rest hstage).1, if_pos]
    cases next <;> simp_all [Next.isQueued, Next.isCore]
  · have hnet : ∀ b ∈ s.ids, net (s.jobs b).done
        = if (s.jobs b).countsAsPending then 1 else 0 := by
      intro b _
      cases hstage : (s.jobs b).stage with
      | fresh =>
          have hkeeps := hinv.keeps b
          rw [Job.Keeps, hstage] at hkeeps
          simp [Job.countsAsPending, hstage, hkeeps.1, net, accepted]
      | running next => exact absurd hstage (hquiet b next)
      | resting next => exact ((hinv.keeps b).rest hstage).2
    rw [hinv.pending_eq, Finset.sum_congr rfl hnet, Finset.sum_boole]

/-- A read of one sector, into memory that needs no bounce page. -/
def plainBio : Bio where
  biSector := 0
  biSize := 512
  biIdx := 0
  biIoVec := true
  segs := [(0, ⟨9, 0, 512⟩)]

/-- Everything goes well up to the submission, which is left to a work item. -/
def plainCall (bio : Bio) : BioCall where
  bio := bio
  write := false
  trim := false
  logicbSize := 512
  logicbShift := 9
  available := true
  readonly := false
  poolTight := false
  overwrited := false
  sbio := some (freshSbio .fromDevice)
  env := ⟨true, true, fun i => some (100 + i)⟩
  mem := fun _ => 0
  lpmtFails := false
  percpuWq := true
  submitRet := 0

/-- The same for a request. -/
def plainLreqCall (lreq : Lreq) : LreqCall where
  lreq := lreq
  write := false
  discard := false
  passthrough := false
  logicbSize := 512
  logicbShift := 9
  available := true
  readonly := false
  sbio := some (freshSbio .fromDevice)
  sgAlloc := true
  lpmtFails := false
  submitRet := 0

/-- A bio comes in through a namespace, and the submission by the work item
fails. -/
def failedWork (bio : Bio) : List (ℕ × Act) :=
  (7, .makeRequestNs (plainCall bio)) :: List.replicate 8 (7, .tick) ++
    (7, .work (-eio)) :: List.replicate 7 (7, .tick)

/-- The hypotheses of `completion_ledger` are satisfiable: the bio was ended
once, its accounting matches, and it left nothing in the counter. -/
theorem completion_ledger_failedWork :
    ∃ s, run (step driverConverters) State.init (failedWork plainBio) = some s ∧
      ends (s.jobs 7).done = 1 ∧ starts (s.jobs 7).done = acctEnds (s.jobs 7).done ∧
      net (s.jobs 7).done = 0 := by
  obtain ⟨s, hs⟩ : ∃ s, run (step driverConverters) State.init (failedWork plainBio) = some s :=
    Option.isSome_iff_exists.1 rfl
  have hstage : (run (step driverConverters) State.init (failedWork plainBio)).map
      (fun s => (s.jobs 7).stage) = some (.resting .over) := rfl
  have hcounts : (run (step driverConverters) State.init (failedWork plainBio)).map
      (fun s => (s.jobs 7).countsAsPending) = some false := rfl
  rw [hs, Option.map_some, Option.some.injEq] at hstage hcounts
  obtain ⟨-, hended, hacct, -, hnet, -⟩ := completion_ledger hs
  have hone := hended 7 _ hstage rfl rfl (by decide)
  exact ⟨s, hs, hone, hacct 7 (by omega), by simpa [hcounts] using hnet 7 _ hstage⟩

end Block
end Shannon
