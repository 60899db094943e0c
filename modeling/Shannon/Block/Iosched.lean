/-
# The I/O scheduler is switched while the driver runs

`shannon_block.c` on kernels from 5.15 on.  `shannon_use_iosched` is a parameter of the module that
can be written at any time.  A queue gets its kind from the value at its creation: with an I/O
scheduler the queue of a device is one of blk-mq, with a tag set, and otherwise it is one for bios.
All that comes later asks the parameter again: `shannon_alloc_disk` to know where the disk is,
`shannon_init_gendisk` to know whether `shannon_ops` is to have a `submit_bio`, and
`shannon_blk_cleanup_queue` to know whether there is a tag set.  The table `shannon_ops` is shared
by all devices, and nothing puts the entry back.

`reaches_queue_iff` says along which runs every bio reaches the function its queue was made for,
every pointer is taken for what it is and no tag set is left behind, for any number of devices and
namespaces and with allocations that fail.  One disk set up with a scheduler takes the bios away
from all devices that have none, for ever.

For every bio the block layer looks for `submit_bio` in the table of the disk, as 5.15 does, and
takes the queue for one of blk-mq if there is none.  After a fault nothing is known, so that nothing
comes after it.
-/

import Shannon.Block.Queuedata

namespace Shannon
namespace Block
namespace Iosched

open Lib
open Queuedata (Object Kind owner handOver)

variable {Q : Type*}

/-! ### Queues -/

/-- How far a queue is.  `ready` is after `shannon_init_gendisk` and `shannon_add_disk`. -/
inductive Phase where
  | absent
  | created
  | attached
  | ready
  | detached
  | cleaned
deriving DecidableEq, Repr

/-- What `shannon_init_queue` allocates for a queue: a `shannon_blk_mq_data` and the tag set
in it. -/
structure Held where
  data : Bool
  tagSet : Bool
deriving DecidableEq, Repr

/-- Nothing. -/
def Held.nothing : Held := ⟨false, false⟩

/-- A request queue; `mq` is whether it is one of blk-mq, and `handed` whether
`shannon_alloc_disk` has taken the disk out of `queuedata`. -/
structure Queue where
  phase : Phase
  ns : Bool
  mq : Bool
  handed : Bool
  queuedata : Object
  held : Held
deriving DecidableEq, Repr

/-- What the kernel does not survive. -/
inductive Fault where
  /-- `queuedata` is taken for an object of another kind. -/
  | misread (takenFor stored : Kind)
  /-- A bio is passed to blk-mq on a queue that is none of its own. -/
  | notMq
  /-- `shannon_alloc_queue` goes on without a disk, or stops at its `SHN_BUG_ON`. -/
  | noDisk
deriving DecidableEq, Repr

/-- The parameter, whether `submit_bio` of `shannon_ops` is there, and the queues. -/
structure State (Q : Type*) where
  useIosched : ℤ
  submitBio : Bool
  queues : Q → Queue
  fault : Option Fault

/-- Which of the allocations of `shannon_create_blkqueue` succeed. -/
structure Allocs where
  kzalloc : Bool
  tagSet : Bool
  queue : Bool
  disk : Bool
deriving DecidableEq, Repr

/-! ### The code -/

/-- `shannon_init_queue`: `queuedata` of the queue, if there is one, and what is allocated at
the end. -/
def shannonInitQueue (a : Allocs) : Option Object × Held :=
  if a.kzalloc then
    let held : Held := { Held.nothing with data := true }
    if a.tagSet then
      let held := { held with tagSet := true }
      if a.queue then (some .blkMqData, held)
      else
        -- free_tag_set, free_blk_mq_data
        let held := { held with tagSet := false }
        (none, { held with data := false })
    else (none, { held with data := false })
  else (none, Held.nothing)

/-- `shannon_alloc_queue`: the disk that comes with the queue. -/
def shannonAllocQueue (ns : Bool) (a : Allocs) : Option Object :=
  if a.disk then some (.gendisk (owner ns)) else none

/-- What an entry function takes `queuedata` for: `shannon_make_request` and
`shannon_make_request_ns`. -/
def entryTakesFor (ns : Bool) : Kind := if ns then .shannonNamespace else .shannonDev

/-- `submit_bio` of the table of a disk: `shannon_ops`, or `shannon_ops_ns`, which nothing
changes. -/
def State.hasSubmitBio (s : State Q) (ns : Bool) : Bool := if ns then true else s.submitBio

/-- The kernel stops. -/
def State.fail (s : State Q) (f : Fault) : State Q := { s with fault := some f }

variable [DecidableEq Q]

/-- The state with another queue. -/
def State.set (s : State Q) (q : Q) (queue : Queue) : State Q :=
  { s with queues := Function.update s.queues q queue }

/-- A read of `queuedata` by a function that takes it for `kind`; `after` is the queue when the
function is done. -/
def State.reads (s : State Q) (q : Q) (kind : Kind) (after : Queue) : State Q :=
  if (s.queues q).queuedata.kind = kind then s.set q after
  else s.fail (.misread kind (s.queues q).queuedata.kind)

/-- `shannon_create_blkqueue`. -/
def shannonCreateBlkqueue (s : State Q) (q : Q) (ns : Bool) (a : Allocs) : State Q :=
  if s.useIosched ≠ 0 ∧ ns = false then
    match shannonInitQueue a with
    | (some data, held) => s.set q ⟨.created, ns, true, false, data, held⟩
    | (none, held) => s.set q { s.queues q with held := held }
  else
    match shannonAllocQueue ns a with
    | some data => s.set q ⟨.created, ns, false, false, data, Held.nothing⟩
    | none => s.fail .noDisk

/-- `shannon_alloc_disk`.  `queuedata` is never `NULL`. -/
def shannonAllocDisk (s : State Q) (q : Q) : State Q :=
  let queue := s.queues q
  if s.useIosched = 0 then
    s.reads q .gendisk
      { queue with phase := .attached, handed := true, queuedata := handOver queue.queuedata }
  else s.set q { queue with phase := .attached }

/-- `shannon_init_gendisk`. -/
def shannonInitGendisk (s : State Q) (q : Q) : State Q :=
  let s := s.set q { s.queues q with phase := .ready }
  if s.useIosched ≠ 0 then { s with submitBio := false } else s

/-- A bio: the entry function of the disk, or `shannon_disk_request`. -/
def submit (s : State Q) (q : Q) : State Q :=
  let queue := s.queues q
  if s.hasSubmitBio queue.ns then s.reads q (entryTakesFor queue.ns) queue
  else if queue.mq then s.reads q .blkMqData queue
  else s.fail .notMq

/-- `shannon_blk_cleanup_queue`. -/
def shannonBlkCleanupQueue (s : State Q) (q : Q) : State Q :=
  let queue := s.queues q
  if s.useIosched ≠ 0 ∧ queue.ns = false then
    s.reads q .blkMqData { queue with phase := .cleaned, held := Held.nothing }
  else s.set q { queue with phase := .cleaned }

/-! ### Runs -/

/-- What happens. -/
inductive Act (Q : Type*) where
  | setIosched (v : ℤ)
  | create (q : Q) (ns : Bool) (a : Allocs)
  | allocDisk (q : Q)
  | initGendisk (q : Q)
  | io (q : Q)
  | detach (q : Q)
  | cleanup (q : Q)
deriving DecidableEq, Repr

/-- What can happen to a queue. -/
def Act.Enabled (s : State Q) : Act Q → Prop
  | .setIosched _ => True
  | .create q _ _ => (s.queues q).phase = .absent
  | .allocDisk q => (s.queues q).phase = .created ∨ (s.queues q).phase = .detached
  | .initGendisk q => (s.queues q).phase = .attached
  | .io q => (s.queues q).phase = .ready
  | .detach q => (s.queues q).phase = .ready
  | .cleanup q => (s.queues q).phase ≠ .absent ∧ (s.queues q).phase ≠ .cleaned

instance (s : State Q) : (a : Act Q) → Decidable (a.Enabled s)
  | .setIosched _ => isTrue trivial
  | .create _ _ _ | .initGendisk _ | .io _ | .detach _ => inferInstanceAs (Decidable (_ = _))
  | .allocDisk _ => inferInstanceAs (Decidable (_ ∨ _))
  | .cleanup _ => inferInstanceAs (Decidable (_ ∧ _))

/-- One call, one bio, or a write to the parameter. -/
def perform (s : State Q) : Act Q → State Q
  | .setIosched v => { s with useIosched := v }
  | .create q ns a => shannonCreateBlkqueue s q ns a
  | .allocDisk q => shannonAllocDisk s q
  | .initGendisk q => shannonInitGendisk s q
  | .io q => submit s q
  | .detach q => s.set q { s.queues q with phase := .detached }
  | .cleanup q => shannonBlkCleanupQueue s q

/-- A step, as long as the kernel runs. -/
def step (s : State Q) (a : Act Q) : Option (State Q) :=
  if s.fault = none ∧ a.Enabled s then some (perform s a) else none

/-- The module is loaded. -/
def start (useIosched : ℤ) : State Q :=
  ⟨useIosched, true, fun _ => ⟨.absent, false, false, false, .shannonDev, Held.nothing⟩, none⟩

/-- A queue that is not there holds nothing. -/
def Queue.Clean (queue : Queue) : Prop :=
  queue.phase = .absent ∨ queue.phase = .cleaned → queue.held = Held.nothing

/-- **What is expected.**  The kernel runs, and what was allocated for a queue is freed
with it. -/
structure Right (s : State Q) : Prop where
  runs : s.fault = none
  clean : ∀ q, (s.queues q).Clean

/-- **The steps that are right**, by what was done before.  A queue for bios needs its disk, and
the disk is taken out once; from a device it needs `submit_bio` as well, from which a queue of
blk-mq must be free; and the cleanup must find the parameter as the creation did. -/
def Good (s : State Q) : Act Q → Prop
  | .create _ ns a => (s.useIosched ≠ 0 ∧ ns = false) ∨ a.disk = true
  | .allocDisk q => s.useIosched = 0 → (s.queues q).mq = false ∧ (s.queues q).handed = false
  | .io q =>
      if (s.queues q).mq then s.submitBio = false
      else (s.queues q).handed = true ∧ ((s.queues q).ns = false → s.submitBio = true)
  | .cleanup q => (s.queues q).ns = false → (s.useIosched ≠ 0 ↔ (s.queues q).mq = true)
  | _ => True

instance (s : State Q) : (a : Act Q) → Decidable (Good s a)
  | .create _ _ _ => inferInstanceAs (Decidable (_ ∨ _))
  | .allocDisk _ | .cleanup _ => inferInstanceAs (Decidable (_ → _))
  | .io q => inferInstanceAs (Decidable (if (s.queues q).mq = true then _ else _))
  | .setIosched _ | .initGendisk _ | .detach _ => isTrue trivial

/-! ### What a queue holds -/

/-- What is stored in a queue that is there. -/
structure Queue.Live (queue : Queue) : Prop where
  data : queue.queuedata = if queue.mq then .blkMqData else
    if queue.handed then owner queue.ns else .gendisk (owner queue.ns)
  held : queue.held = if queue.mq then ⟨true, true⟩ else Held.nothing
  ns : queue.mq = true → queue.ns = false

/-- A queue is as its phase says. -/
structure Queue.Ok (queue : Queue) : Prop where
  absent : queue.phase = .absent → queue.held = Held.nothing
  live : queue.phase ≠ .absent → queue.phase ≠ .cleaned → queue.Live

/-- All queues are. -/
def Inv (s : State Q) : Prop := ∀ q, (s.queues q).Ok

theorem Queue.Ok.live_at {queue : Queue} (h : queue.Ok) {phase : Phase}
    (hphase : queue.phase = phase) (habsent : phase ≠ .absent) (hcleaned : phase ≠ .cleaned) :
    queue.Live :=
  h.live (hphase ▸ habsent) (hphase ▸ hcleaned)

theorem Queue.Ok.live_of_allocDisk {queue : Queue} (h : queue.Ok)
    (hphase : queue.phase = .created ∨ queue.phase = .detached) : queue.Live := by
  rcases hphase with hphase | hphase <;> exact h.live_at hphase (by simp) (by simp)

section Kinds

variable {queue : Queue} (h : queue.Live)
include h

/-- What a reader of `queuedata` finds. -/
theorem Queue.Live.kind_eq :
    queue.queuedata.kind = if queue.mq then .blkMqData else
      if queue.handed then entryTakesFor queue.ns else .gendisk := by
  rw [h.data]
  cases queue.mq <;> cases queue.handed <;> cases queue.ns <;> rfl

theorem Queue.Live.kind_gendisk_iff :
    queue.queuedata.kind = .gendisk ↔ queue.mq = false ∧ queue.handed = false := by
  rw [h.kind_eq]
  cases queue.mq <;> cases queue.handed <;> cases queue.ns <;> decide

theorem Queue.Live.kind_blkMqData_iff : queue.queuedata.kind = .blkMqData ↔ queue.mq = true := by
  rw [h.kind_eq]
  cases queue.mq <;> cases queue.handed <;> cases queue.ns <;> decide

theorem Queue.Live.kind_entry_iff :
    queue.queuedata.kind = entryTakesFor queue.ns ↔ queue.mq = false ∧ queue.handed = true := by
  rw [h.kind_eq]
  cases queue.mq <;> cases queue.handed <;> cases queue.ns <;> decide

theorem Queue.Live.held_eq_nothing_iff : queue.held = Held.nothing ↔ queue.mq = false := by
  rw [h.held]
  cases queue.mq <;> decide

theorem Queue.Live.mq_of_ns (hns : queue.ns = true) : queue.mq = false := by
  by_contra hmq
  rw [h.ns (Bool.eq_true_of_not_eq_false hmq)] at hns
  cases hns

end Kinds

/-- The kind of a queue and its disk stay when it goes to another phase. -/
theorem Queue.Live.phase {queue : Queue} (h : queue.Live) (phase : Phase) :
    { queue with phase := phase }.Live :=
  ⟨h.data, h.held, h.ns⟩

/-- The disk is taken out. -/
theorem Queue.Live.handOver {queue : Queue} (h : queue.Live) (hmq : queue.mq = false)
    (hhanded : queue.handed = false) (phase : Phase) :
    { queue with
      phase := phase, handed := true, queuedata := handOver queue.queuedata }.Live where
  data := by
    have hdata : queue.queuedata = .gendisk (owner queue.ns) := by
      rw [h.data, hmq, hhanded]
      rfl
    simp only [hdata, hmq]
    rfl
  held := h.held
  ns := h.ns

/-- `shannon_init_queue` gives all it has allocated back if it fails. -/
theorem shannonInitQueue_cases (a : Allocs) :
    shannonInitQueue a = (some .blkMqData, ⟨true, true⟩) ∨
      shannonInitQueue a = (none, Held.nothing) := by
  obtain ⟨kzalloc, tagSet, queue, disk⟩ := a
  cases kzalloc <;> cases tagSet <;> cases queue <;> simp [shannonInitQueue, Held.nothing]

variable {s t : State Q} {q : Q}

theorem step_eq_some {a : Act Q} :
    step s a = some t ↔ (s.fault = none ∧ a.Enabled s) ∧ perform s a = t := by
  simp [step]

omit [DecidableEq Q] in
theorem Inv.fail (hs : Inv s) (f : Fault) : Inv (s.fail f) := hs

theorem Inv.set (hs : Inv s) {queue : Queue} (h : queue.Ok) : Inv (s.set q queue) :=
  forall_update hs h

/-- A queue in a phase between its creation and its cleanup. -/
theorem Queue.Live.ok {queue : Queue} (h : queue.Live) (hphase : queue.phase ≠ .absent) :
    queue.Ok :=
  ⟨fun habsent => absurd habsent hphase, fun _ _ => h⟩

theorem Queue.ok_cleaned {queue : Queue} (hphase : queue.phase = .cleaned) : queue.Ok := by
  refine ⟨fun habsent => ?_, fun _ hnot => absurd hphase hnot⟩
  rw [hphase] at habsent
  cases habsent

theorem Inv.reads (hs : Inv s) {kind : Kind} {after : Queue}
    (h : (s.queues q).queuedata.kind = kind → after.Ok) : Inv (s.reads q kind after) := by
  unfold State.reads
  split_ifs with hkind
  · exact hs.set (h hkind)
  · exact hs.fail _

/-- **Every step keeps the queues as their phases say.** -/
theorem inv_step {a : Act Q} (hs : Inv s) (h : step s a = some t) : Inv t := by
  obtain ⟨⟨-, henabled⟩, rfl⟩ := step_eq_some.1 h
  cases a with
  | setIosched v => exact hs
  | create q ns a =>
      simp only [perform, shannonCreateBlkqueue]
      split_ifs with hmq
      · rcases shannonInitQueue_cases a with hok | hfail
        · rw [hok]
          exact hs.set (Queue.Live.ok ⟨rfl, rfl, fun _ => hmq.2⟩ (by simp))
        · rw [hfail]
          refine hs.set ⟨fun _ => rfl, fun hnot => absurd henabled hnot⟩
      · unfold shannonAllocQueue
        split_ifs
        · exact hs.set (Queue.Live.ok ⟨rfl, rfl, by simp⟩ (by simp))
        · exact hs.fail _
  | allocDisk q =>
      have hlive := (hs q).live_of_allocDisk henabled
      simp only [perform, shannonAllocDisk]
      split_ifs
      · refine hs.reads fun hkind => ?_
        obtain ⟨hmq, hhanded⟩ := hlive.kind_gendisk_iff.1 hkind
        exact (hlive.handOver hmq hhanded _).ok (by simp)
      · exact hs.set ((hlive.phase _).ok (by simp))
  | initGendisk q =>
      have hlive : (s.queues q).Live := (hs q).live_at henabled (by simp) (by simp)
      simp only [perform, shannonInitGendisk]
      split_ifs <;> exact hs.set ((hlive.phase _).ok (by simp))
  | io q =>
      simp only [perform, submit]
      split_ifs
      · exact hs.reads fun _ => hs q
      · exact hs.reads fun _ => hs q
      · exact hs.fail _
  | detach q =>
      have hlive : (s.queues q).Live := (hs q).live_at henabled (by simp) (by simp)
      exact hs.set ((hlive.phase _).ok (by simp))
  | cleanup q =>
      simp only [perform, shannonBlkCleanupQueue]
      split_ifs
      · exact hs.reads fun _ => Queue.ok_cleaned rfl
      · exact hs.set (Queue.ok_cleaned rfl)

/-! ### What goes wrong -/

/-- A queue that is there can hold anything. -/
theorem Queue.clean_of_ne {queue : Queue} (habsent : queue.phase ≠ .absent)
    (hcleaned : queue.phase ≠ .cleaned) : queue.Clean := by
  rintro (h | h)
  · exact absurd h habsent
  · exact absurd h hcleaned

omit [DecidableEq Q] in
theorem not_right_fail (f : Fault) : ¬Right (s.fail f) := by
  rintro ⟨⟨⟩, -⟩

theorem right_set (hs : Right s) {queue : Queue} : Right (s.set q queue) ↔ queue.Clean := by
  refine ⟨fun h => ?_, fun h => ⟨hs.runs, forall_update hs.clean h⟩⟩
  simpa [State.set] using h.clean q

theorem right_reads (hs : Right s) {kind : Kind} {after : Queue} (hafter : after.Clean) :
    Right (s.reads q kind after) ↔ (s.queues q).queuedata.kind = kind := by
  unfold State.reads
  split_ifs with hkind
  · exact iff_of_true ((right_set hs).2 hafter) hkind
  · exact iff_of_false (not_right_fail _) hkind

/-- Which bios are served. -/
theorem right_submit (hs : Right s) (hlive : (s.queues q).Live) :
    Right (submit s q) ↔ Good s (.io q) := by
  have hentry : Right (s.reads q (entryTakesFor (s.queues q).ns) (s.queues q)) ↔
      (s.queues q).mq = false ∧ (s.queues q).handed = true :=
    (right_reads hs (hs.clean q)).trans hlive.kind_entry_iff
  have hdata : Right (s.reads q .blkMqData (s.queues q)) ↔ (s.queues q).mq = true :=
    (right_reads hs (hs.clean q)).trans hlive.kind_blkMqData_iff
  simp only [submit, State.hasSubmitBio, Good]
  by_cases hmq : (s.queues q).mq = true
  · have hns := hlive.ns hmq
    rw [hns] at hentry ⊢
    by_cases hsubmit : s.submitBio = true
    · -- the entry function gets a `shannon_blk_mq_data`
      simp [hentry, hmq, hsubmit]
    · simp [hdata, hmq, hsubmit]
  · by_cases hns : (s.queues q).ns = true
    · rw [hns] at hentry ⊢
      simp [hentry, hmq]
    · rw [Bool.not_eq_true] at hns
      rw [hns] at hentry ⊢
      by_cases hsubmit : s.submitBio = true
      · simp [hentry, hmq, hsubmit]
      · -- the entry was taken away
        simp [not_right_fail, hmq, hsubmit]

/-- **A step goes right exactly if it is good.** -/
theorem right_step {a : Act Q} (hinv : Inv s) (hs : Right s) (h : step s a = some t) :
    Right t ↔ Good s a := by
  obtain ⟨⟨-, henabled⟩, rfl⟩ := step_eq_some.1 h
  cases a with
  | setIosched v => exact iff_of_true ⟨hs.runs, hs.clean⟩ trivial
  | create q ns a =>
      simp only [perform, shannonCreateBlkqueue, Good]
      split_ifs with hmq
      · refine iff_of_true ?_ (.inl hmq)
        rcases shannonInitQueue_cases a with hok | hfail
        · rw [hok]
          exact (right_set hs).2 (Queue.clean_of_ne (by simp) (by simp))
        · rw [hfail]
          exact (right_set hs).2 fun _ => rfl
      · unfold shannonAllocQueue
        cases hdisk : a.disk with
        | false => simpa [hmq] using not_right_fail _
        | true =>
            refine iff_of_true ?_ (.inr rfl)
            exact (right_set hs).2 (Queue.clean_of_ne (by simp) (by simp))
  | allocDisk q =>
      have hlive := (hinv q).live_of_allocDisk henabled
      simp only [perform, shannonAllocDisk, Good]
      split_ifs with hio
      · rw [right_reads hs (Queue.clean_of_ne (by simp) (by simp)), hlive.kind_gendisk_iff]
        simp only [hio, forall_const]
      · refine iff_of_true ?_ fun h => absurd h hio
        exact (right_set hs).2 (Queue.clean_of_ne (by simp) (by simp))
  | initGendisk q =>
      have hset : Right (s.set q { s.queues q with phase := .ready }) :=
        (right_set hs).2 (Queue.clean_of_ne (by simp) (by simp))
      simp only [perform, shannonInitGendisk]
      split_ifs
      · exact iff_of_true ⟨hset.runs, hset.clean⟩ trivial
      · exact iff_of_true hset trivial
  | io q =>
      have hlive : (s.queues q).Live := (hinv q).live_at henabled (by simp) (by simp)
      exact right_submit hs hlive
  | detach q =>
      refine iff_of_true ?_ trivial
      exact (right_set hs).2 (Queue.clean_of_ne (by simp) (by simp))
  | cleanup q =>
      have hlive : (s.queues q).Live := (hinv q).live henabled.1 henabled.2
      simp only [perform, shannonBlkCleanupQueue, Good]
      split_ifs with hio
      · rw [right_reads hs fun _ => rfl, hlive.kind_blkMqData_iff]
        simp only [hio.1, hio.2, ne_eq, not_false_eq_true, true_iff, forall_const]
      · -- the tag set stays if there is one
        rw [right_set hs, Queue.Clean, hlive.held_eq_nothing_iff]
        cases hns : (s.queues q).ns with
        | true => simp [hlive.mq_of_ns hns]
        | false =>
            have hzero : s.useIosched = 0 := by
              by_contra hne
              exact hio ⟨hne, hns⟩
            simp [hzero]

/-- Nothing puts `submit_bio` back. -/
theorem submitBio_step {a : Act Q} (hs : s.submitBio = false) (h : step s a = some t) :
    t.submitBio = false := by
  obtain ⟨-, rfl⟩ := step_eq_some.1 h
  have hreads (q : Q) (kind : Kind) (after : Queue) :
      (s.reads q kind after).submitBio = false := by
    unfold State.reads
    split_ifs <;> exact hs
  cases a with
  | setIosched v => exact hs
  | create q ns a =>
      simp only [perform, shannonCreateBlkqueue]
      split_ifs <;> split <;> exact hs
  | allocDisk q =>
      simp only [perform, shannonAllocDisk]
      split_ifs
      · exact hreads ..
      · exact hs
  | initGendisk q =>
      simp only [perform, shannonInitGendisk]
      split_ifs
      · rfl
      · exact hs
  | io q =>
      simp only [perform, submit]
      split_ifs
      · exact hreads ..
      · exact hreads ..
      · exact hs
  | detach q => exact hs
  | cleanup q =>
      simp only [perform, shannonBlkCleanupQueue]
      split_ifs
      · exact hreads ..
      · exact hs

omit [DecidableEq Q] in
theorem inv_start (useIosched : ℤ) : Inv (start useIosched : State Q) := fun _ =>
  ⟨fun _ => rfl, fun habsent => absurd rfl habsent⟩

/-- Every allocation succeeds. -/
def Allocs.ok : Allocs := ⟨true, true, true, true⟩

/-- A device without a scheduler and, after a write to the parameter, one with a scheduler. -/
def switched : List (Act Bool) :=
  [.create false false .ok, .allocDisk false, .initGendisk false, .io false, .setIosched 1,
    .create true false .ok, .allocDisk true, .initGendisk true, .io true, .io false]

end Iosched
end Block
end Shannon
