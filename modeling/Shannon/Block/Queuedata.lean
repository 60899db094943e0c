/-
# What `queuedata` points to

`shannon_block.c` on kernels from 5.15 on.  One untyped pointer of a request queue
points to four kinds of objects in turn: `shannon_alloc_queue` stores the disk that
came with the queue, `shannon_alloc_disk` takes the disk out of it and stores what the
disk belongs to, which the entry functions take for their device or namespace; with an
I/O scheduler it is a `shannon_blk_mq_data` from the start.

Every function that reads the pointer decides for itself what it points to, by
`shannon_use_iosched` and partly by `ns`.  The log `reads` has, for every read, what
the reader takes the object for and what was stored.  `reads_match_iff` says along
which runs the two agree in all of them: without an I/O scheduler no queue is
attached a second time, and with one there is no I/O on the queue of a namespace.
-/

import Shannon.Lib.Run

namespace Shannon
namespace Block
namespace Queuedata

open Lib

/-! ### Objects -/

/-- The kinds of objects. -/
inductive Kind where
  | gendisk
  | shannonDev
  | shannonNamespace
  | blkMqData
deriving DecidableEq, Repr

/-- The objects, as far as they are looked into. -/
inductive Object where
  | gendisk (privateData : Object)
  | shannonDev
  | shannonNamespace
  | blkMqData
deriving DecidableEq, Repr

/-- The kind of an object. -/
def Object.kind : Object → Kind
  | gendisk _ => .gendisk
  | shannonDev => .shannonDev
  | shannonNamespace => .shannonNamespace
  | blkMqData => .blkMqData

/-- `data` of `shannon_create_blkqueue`. -/
def owner (ns : Bool) : Object := if ns then .shannonNamespace else .shannonDev

/-! ### Queues -/

/-- How far a queue is. -/
inductive Phase where
  | absent
  | created
  | attached
  | detached
  | cleaned
deriving DecidableEq, Repr

/-- A request queue. -/
structure Queue where
  phase : Phase
  ns : Bool
  queuedata : Object
deriving DecidableEq, Repr

/-- A read of `queuedata`: what the reader takes it for, and what was stored. -/
structure Read where
  takenFor : Kind
  stored : Kind
deriving DecidableEq, Repr

/-- All queues, and the reads so far. -/
structure State where
  queues : ℕ → Queue
  reads : List Read

/-- What is done with a queue. -/
inductive Act where
  /-- `shannon_create_blkqueue`. -/
  | create (q : ℕ) (ns : Bool)
  /-- `shannon_alloc_disk`. -/
  | allocDisk (q : ℕ)
  /-- `shannon_make_request`, `shannon_disk_request` or `shannon_make_request_ns`. -/
  | io (q : ℕ)
  /-- `shannon_del_gendisk` and `shannon_put_disk`. -/
  | detach (q : ℕ)
  /-- `shannon_blk_cleanup_queue`. -/
  | cleanup (q : ℕ)
deriving DecidableEq, Repr

/-- No queue yet. -/
def State.init : State := ⟨fun _ => ⟨.absent, false, .shannonDev⟩, []⟩

/-- `shannon_create_blkqueue`: `shannon_init_queue` or `shannon_alloc_queue`. -/
def shannonCreateBlkqueue (iosched : ℤ) (ns : Bool) : Object :=
  if iosched ≠ 0 ∧ ns = false then .blkMqData else .gendisk (owner ns)

/-- `disk->queue->queuedata = disk->private_data` of `shannon_alloc_disk`.  Where there
is no disk, what is written is unknown. -/
def handOver : Object → Object
  | .gendisk privateData => privateData
  | other => other

/-- What the entry function of a queue takes `queuedata` for. -/
def entryTakesFor (iosched : ℤ) (ns : Bool) : Kind :=
  if ns then .shannonNamespace else if iosched ≠ 0 then .blkMqData else .shannonDev

/-- The state with another queue. -/
def State.set (s : State) (q : ℕ) (queue : Queue) : State :=
  { s with queues := Function.update s.queues q queue }

/-- A read by a function that takes the object for `kind`. -/
def State.read (s : State) (q : ℕ) (kind : Kind) : State :=
  { s with reads := s.reads ++ [⟨kind, (s.queues q).queuedata.kind⟩] }

/-- One call.  I/O comes after the queue was attached, a queue is attached again only
after a detach, and nothing comes after the cleanup. -/
def step (iosched : ℤ) (s : State) : Act → Option State
  | .create q ns =>
      if (s.queues q).phase = .absent then
        some (s.set q ⟨.created, ns, shannonCreateBlkqueue iosched ns⟩)
      else none
  | .allocDisk q =>
      if (s.queues q).phase = .created ∨ (s.queues q).phase = .detached then
        if iosched = 0 then
          some ((s.read q .gendisk).set q
            { s.queues q with phase := .attached, queuedata := handOver (s.queues q).queuedata })
        else some (s.set q { s.queues q with phase := .attached })
      else none
  | .io q =>
      if (s.queues q).phase = .attached ∨ (s.queues q).phase = .detached then
        some (s.read q (entryTakesFor iosched (s.queues q).ns))
      else none
  | .detach q =>
      if (s.queues q).phase = .attached then some (s.set q { s.queues q with phase := .detached })
      else none
  | .cleanup q =>
      if (s.queues q).phase = .absent ∨ (s.queues q).phase = .cleaned then none
      else
        let queue := { s.queues q with phase := .cleaned }
        if iosched ≠ 0 ∧ (s.queues q).ns = false then some ((s.read q .blkMqData).set q queue)
        else some (s.set q queue)

/-! ### What is stored -/

/-- What `queuedata` points to in each phase. -/
def Queue.Holds (iosched : ℤ) (queue : Queue) : Prop :=
  match queue.phase with
  | .absent | .cleaned => True
  | .created => queue.queuedata = shannonCreateBlkqueue iosched queue.ns
  | .attached | .detached =>
      queue.queuedata
        = if iosched = 0 then owner queue.ns else shannonCreateBlkqueue iosched queue.ns

/-- Every queue holds what its phase says. -/
def State.Holds (iosched : ℤ) (s : State) : Prop := ∀ q, (s.queues q).Holds iosched

/-- All reads so far take the object for what it is. -/
def State.ReadsMatch (s : State) : Prop := ∀ r ∈ s.reads, r.takenFor = r.stored

instance (s : State) : Decidable s.ReadsMatch := inferInstanceAs (Decidable (∀ r ∈ s.reads, _))

variable {iosched : ℤ}

theorem holds_init : State.init.Holds iosched := fun _ => trivial

theorem readsMatch_init : State.init.ReadsMatch := by simp [State.ReadsMatch, State.init]

theorem holds_set {s : State} (hs : s.Holds iosched) {q : ℕ} {queue : Queue}
    (h : queue.Holds iosched) : (s.set q queue).Holds iosched :=
  forall_update hs h

theorem owner_not_gendisk (ns : Bool) : handOver (owner ns) = owner ns := by
  cases ns <;> rfl

/-- **One call keeps what the queues hold.** -/
theorem holds_step {s t : State} {a : Act} (hs : s.Holds iosched) (h : step iosched s a = some t) :
    t.Holds iosched := by
  cases a with
  | create q ns =>
      simp only [step, Option.ite_none_right_eq_some, Option.some.injEq] at h
      obtain ⟨-, rfl⟩ := h
      exact holds_set hs rfl
  | allocDisk q =>
      have hq := hs q
      simp only [step, Option.ite_none_right_eq_some] at h
      obtain ⟨hphase, h⟩ := h
      split_ifs at h with hio <;> obtain rfl := Option.some.inj h
      · refine holds_set (s := s.read q .gendisk) hs ?_
        rcases hphase with hphase | hphase <;>
          simp only [Queue.Holds, hphase, hio, if_true] at hq ⊢
        · rw [hq, shannonCreateBlkqueue, if_neg (by simp)]
          rfl
        · rw [hq, owner_not_gendisk]
      · refine holds_set hs ?_
        rcases hphase with hphase | hphase <;>
          simpa only [Queue.Holds, hphase, hio, if_false] using hq
  | io q =>
      simp only [step, Option.ite_none_right_eq_some, Option.some.injEq] at h
      obtain ⟨-, rfl⟩ := h
      exact hs
  | detach q =>
      have hq := hs q
      simp only [step, Option.ite_none_right_eq_some, Option.some.injEq] at h
      obtain ⟨hphase, rfl⟩ := h
      refine holds_set hs ?_
      simpa only [Queue.Holds, hphase] using hq
  | cleanup q =>
      simp only [step, Option.ite_none_left_eq_some] at h
      obtain ⟨-, h⟩ := h
      split_ifs at h <;> obtain rfl := Option.some.inj h <;> exact holds_set hs trivial

/-! ### What is read -/

/-- The steps that read what is stored: without an I/O scheduler only the first
`shannon_alloc_disk` of a queue, and with one no I/O on the queue of a namespace. -/
def Good (iosched : ℤ) (s : State) : Act → Prop
  | .allocDisk q => iosched = 0 → (s.queues q).phase ≠ .detached
  | .io q => iosched ≠ 0 → (s.queues q).ns = false
  | _ => True

instance (s : State) : (a : Act) → Decidable (Good iosched s a)
  | .allocDisk _ | .io _ => inferInstanceAs (Decidable (_ → _))
  | .create _ _ | .detach _ | .cleanup _ => isTrue trivial

theorem readsMatch_read {s : State} {q : ℕ} {kind : Kind} :
    (s.read q kind).ReadsMatch ↔ s.ReadsMatch ∧ kind = (s.queues q).queuedata.kind := by
  simp [State.ReadsMatch, State.read, or_imp, forall_and]

theorem readsMatch_set {s : State} {q : ℕ} {queue : Queue} :
    (s.set q queue).ReadsMatch ↔ s.ReadsMatch := Iff.rfl

/-- **What one call reads**: it takes the object for what it is exactly if the call
is good. -/
theorem readsMatch_step {s t : State} {a : Act} (hs : s.Holds iosched)
    (h : step iosched s a = some t) : t.ReadsMatch ↔ s.ReadsMatch ∧ Good iosched s a := by
  cases a with
  | create q ns =>
      simp only [step, Option.ite_none_right_eq_some, Option.some.injEq] at h
      obtain ⟨-, rfl⟩ := h
      simp [readsMatch_set, Good]
  | allocDisk q =>
      have hq := hs q
      simp only [step, Option.ite_none_right_eq_some] at h
      obtain ⟨hphase, h⟩ := h
      split_ifs at h with hio <;> obtain rfl := Option.some.inj h
      · rw [readsMatch_set, readsMatch_read]
        rcases hphase with hphase | hphase <;> simp only [Queue.Holds, hphase, hio, if_true] at hq
        · simp [Good, hphase, hq, shannonCreateBlkqueue, Object.kind]
        · -- the second disk is looked for in a device or a namespace
          have hkind : .gendisk ≠ (owner (s.queues q).ns).kind := by
            cases (s.queues q).ns <;> decide
          simp [Good, hphase, hq, hkind, hio]
      · simp [readsMatch_set, Good, hio]
  | io q =>
      have hq := hs q
      simp only [step, Option.ite_none_right_eq_some, Option.some.injEq] at h
      obtain ⟨hphase, rfl⟩ := h
      rw [readsMatch_read]
      have hdata : (s.queues q).queuedata = if iosched = 0 then owner (s.queues q).ns
          else shannonCreateBlkqueue iosched (s.queues q).ns := by
        rcases hphase with hphase | hphase <;> simpa only [Queue.Holds, hphase] using hq
      rw [hdata]
      by_cases hio : iosched = 0
      · cases hns : (s.queues q).ns <;> simp [Good, hio, entryTakesFor, owner, Object.kind]
      · cases hns : (s.queues q).ns <;>
          simp [Good, hio, hns, entryTakesFor, shannonCreateBlkqueue, Object.kind]
  | detach q =>
      simp only [step, Option.ite_none_right_eq_some, Option.some.injEq] at h
      obtain ⟨-, rfl⟩ := h
      simp [readsMatch_set, Good]
  | cleanup q =>
      have hq := hs q
      simp only [step, Option.ite_none_left_eq_some] at h
      obtain ⟨hphase, h⟩ := h
      split_ifs at h with hio <;> obtain rfl := Option.some.inj h
      · -- with an I/O scheduler nothing but the creation writes the pointer
        have hdata : (s.queues q).queuedata = .blkMqData := by
          have hcreate : shannonCreateBlkqueue iosched (s.queues q).ns = .blkMqData := if_pos hio
          cases hph : (s.queues q).phase <;>
            simp only [Queue.Holds, hph, hio.1, if_false, hcreate] at hq hphase <;> simp_all
        rw [readsMatch_set, readsMatch_read, hdata]
        simp [Good, Object.kind]
      · simp [readsMatch_set, Good]

/-- **Along which runs every read takes `queuedata` for what was stored last.** -/
theorem reads_match_iff {as : List Act} {t : State}
    (hrun : run (step iosched) State.init as = some t) :
    (∀ n u, run (step iosched) State.init (as.take n) = some u → u.ReadsMatch) ↔
      Along (step iosched) (Good iosched) State.init as := by
  refine (along_iff_forall_take (I := State.Holds iosched) ?_ ?_ ?_ holds_init readsMatch_init
    hrun).symm
  · intro s a u hs h
    exact holds_step hs h
  · intro s a u hs hmatch hgood h
    exact (readsMatch_step hs h).2 ⟨hmatch, hgood⟩
  · intro s a u hs hbad h hmatch
    exact hbad ((readsMatch_step hs h).1 hmatch).2

/-- A disk and a namespace, without an I/O scheduler. -/
def plainRun : List Act :=
  [.create 0 false, .allocDisk 0, .create 1 true, .io 0, .allocDisk 1, .io 1, .io 0, .detach 0,
    .cleanup 0, .cleanup 1]

/-- The hypothesis of `reads_match_iff` is satisfiable, and `plainRun` is a run in
which every read matches. -/
theorem reads_match_plainRun :
    ∃ t, run (step 0) State.init plainRun = some t ∧
      ∀ n u, run (step 0) State.init (plainRun.take n) = some u → u.ReadsMatch := by
  obtain ⟨t, ht⟩ : ∃ t, run (step 0) State.init plainRun = some t := ⟨_, rfl⟩
  exact ⟨t, ht, (reads_match_iff ht).2 (by decide)⟩

/-- Two runs with a read that does not match: a disk that is attached again without an
I/O scheduler is looked for in a `shannon_dev`, and with an I/O scheduler
`shannon_make_request_ns` takes a disk for its namespace. -/
theorem reads_mismatch :
    (∃ t, run (step 0) State.init
        [.create 0 false, .allocDisk 0, .detach 0, .allocDisk 0] = some t ∧
      t.reads = [⟨.gendisk, .gendisk⟩, ⟨.gendisk, .shannonDev⟩] ∧ ¬t.ReadsMatch) ∧
    ∃ t, run (step 1) State.init [.create 0 true, .allocDisk 0, .io 0] = some t ∧
      t.reads = [⟨.shannonNamespace, .gendisk⟩] ∧ ¬t.ReadsMatch :=
  ⟨⟨_, rfl, rfl, by decide⟩, _, rfl, rfl, by decide⟩

end Queuedata
end Block
end Shannon
