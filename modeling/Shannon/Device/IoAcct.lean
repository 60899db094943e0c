/-
# The statistics of a disk

`shannon_device.c`, `shannon_start_io_acct` and `shannon_end_io_acct` for the kernels from
5.0 up to 5.6, where the driver keeps the statistics of its disks itself.  Every counter is
kept twice: for the partition the I/O falls into and for the disk, which is partition zero.
The partition is looked up by the sector when the I/O starts, and once more when it ends.

`io_acct_exact` says what the counters mean in every state of every run, with I/Os that
start and end on any CPUs and a partition table that may be read again at any time.  The
counters of the disk are always exact.  Those of a partition are as long as no new table
moves an I/O that is under way: otherwise it is taken off a partition it was never added to.

The time an I/O took is computed in microseconds in an `unsigned int` and then multiplied
by a thousand in an `unsigned int`, so `nsecs` is exact only while no I/O takes `2 ^ 32`
nanoseconds, about 4.3 seconds (`nsecs_exact_iff`).
-/

import Mathlib.Algebra.Order.BigOperators.Group.List
import Mathlib.Tactic.NormNum
import Shannon.Lib.PerCpu
import Shannon.Lib.Run

namespace Shannon
namespace Device
namespace IoAcct

open Lib

/-! ### The counters -/

/-- The counters of a partition that the driver writes; `rw` is `false` for `READ`. -/
inductive Field where
  | ios (rw : Bool)
  | sectors (rw : Bool)
  | nsecs (rw : Bool)
  | timeInQueue
  | inFlight (rw : Bool)
deriving DecidableEq, Repr

/-- A disk with partitions `P`; `none` is `part0`, the disk itself.  `map` is
`disk_map_sector_rcu`: the partition a sector lies in. -/
structure Disk (P : Type*) (cpus : ℕ) where
  stats : Option P → Field → PerCpu cpus 64
  map : ℕ → Option P

variable {P : Type*} [DecidableEq P] {cpus : ℕ}

/-- `__part_stat_add`, `part_stat_local_inc` and `part_stat_local_dec`: one counter on one
CPU. -/
def Disk.localAdd (d : Disk P cpus) (part : Option P) (field : Field) (cpu : Fin cpus)
    (n : BitVec 64) : Disk P cpus :=
  let counters := Function.update (d.stats part) field ((d.stats part field).add cpu n)
  { d with stats := Function.update d.stats part counters }

/-- `part_stat_add`: for the partition, and if it has a number for the disk too. -/
def Disk.partStatAdd (d : Disk P cpus) (part : Option P) (field : Field) (cpu : Fin cpus)
    (n : BitVec 64) : Disk P cpus :=
  if part = none then d.localAdd part field cpu n
  else (d.localAdd part field cpu n).localAdd none field cpu n

/-- `part_stat_read`. -/
def Disk.partStatRead (d : Disk P cpus) (part : Option P) (field : Field) : BitVec 64 :=
  (d.stats part field).read

/-- `shannon_part_inc_in_flight`. -/
def shannonPartIncInFlight (d : Disk P cpus) (part : Option P) (rw : Bool) (cpu : Fin cpus) :
    Disk P cpus :=
  let d' := d.localAdd part (.inFlight rw) cpu 1
  if part = none then d' else d'.localAdd none (.inFlight rw) cpu 1

/-- `shannon_part_dec_in_flight`. -/
def shannonPartDecInFlight (d : Disk P cpus) (part : Option P) (rw : Bool) (cpu : Fin cpus) :
    Disk P cpus :=
  let d' := d.localAdd part (.inFlight rw) cpu (-1)
  if part = none then d' else d'.localAdd none (.inFlight rw) cpu (-1)

/-- `shannon_start_io_acct`.  `shannon_update_io_ticks` writes other counters. -/
def shannonStartIoAcct (d : Disk P cpus) (cpu : Fin cpus) (rw : Bool) (sector sectors : ℕ) :
    Disk P cpus :=
  let part := d.map sector
  let d := d.partStatAdd part (.ios rw) cpu 1
  let d := d.partStatAdd part (.sectors rw) cpu (BitVec.ofNat 64 sectors)
  shannonPartIncInFlight d part rw cpu

/-- `jiffies_to_usecs` of a kernel whose `HZ` divides a second, in an `unsigned int`. -/
def jiffiesToUsecs (hz : ℕ) (j : BitVec 64) : BitVec 32 :=
  (BitVec.ofNat 64 (10 ^ 6 / hz) * j).setWidth 32

/-- `duration`, an `unsigned int`. -/
def duration (startTime now : ℕ) : BitVec 32 :=
  (BitVec.ofNat 64 now - BitVec.ofNat 64 startTime).setWidth 32

/-- `shannon_jiffies_to_usecs(duration) * 1000`, an `unsigned int`. -/
def durationNsecs (hz startTime now : ℕ) : BitVec 32 :=
  jiffiesToUsecs hz ((duration startTime now).setWidth 64) * 1000

/-- `shannon_end_io_acct`. -/
def shannonEndIoAcct (hz : ℕ) (d : Disk P cpus) (cpu : Fin cpus) (rw : Bool)
    (sector startTime now : ℕ) : Disk P cpus :=
  let part := d.map sector
  let d := d.partStatAdd part (.nsecs rw) cpu ((durationNsecs hz startTime now).setWidth 64)
  let d := d.partStatAdd part .timeInQueue cpu ((duration startTime now).setWidth 64)
  shannonPartDecInFlight d part rw cpu

/-- `shannon_read_msecs` and `shannon_write_msecs`. -/
def shannonMsecs (d : Disk P cpus) (rw : Bool) : ℕ :=
  (d.partStatRead none (.nsecs rw)).toNat / 10 ^ 6

/-! ### The system -/

/-- An I/O of the disk; `part` is the partition it was counted for when it started. -/
structure Io (P : Type*) where
  rw : Bool
  sector : ℕ
  sectors : ℕ
  startTime : ℕ
  part : Option P
deriving DecidableEq, Repr

/-- The disk, the I/Os under way, all that were started, and all that ended with the time. -/
structure State (P : Type*) (cpus : ℕ) where
  disk : Disk P cpus
  running : List (Io P)
  started : List (Io P)
  ended : List (Io P × ℕ)

/-- What happens to the disk. -/
inductive Act (P : Type*) (cpus : ℕ) where
  /-- An I/O starts on `cpu`. -/
  | start (cpu : Fin cpus) (rw : Bool) (sector sectors now : ℕ)
  /-- The `i`-th of the I/Os under way ends on `cpu`. -/
  | finish (i : ℕ) (cpu : Fin cpus) (now : ℕ)
  /-- The partition table is read again. -/
  | remap (map : ℕ → Option P)

/-- A disk that was just added. -/
def State.init (map : ℕ → Option P) : State P cpus := ⟨⟨fun _ _ => .zero, map⟩, [], [], []⟩

/-- One step. -/
def step (hz : ℕ) (s : State P cpus) : Act P cpus → Option (State P cpus)
  | .start cpu rw sector sectors now =>
      let io : Io P := ⟨rw, sector, sectors, now, s.disk.map sector⟩
      some ⟨shannonStartIoAcct s.disk cpu rw sector sectors, io :: s.running, io :: s.started,
        s.ended⟩
  | .finish i cpu now =>
      match s.running[i]? with
      | none => none
      | some io =>
          if io.startTime ≤ now then
            some ⟨shannonEndIoAcct hz s.disk cpu io.rw io.sector io.startTime now,
              s.running.eraseIdx i, s.started, (io, now) :: s.ended⟩
          else none
  | .remap map => some { s with disk.map := map }

/-! ### What the counters owe -/

/-- Whether what is counted for `part` is counted for `q`: for the disk all is. -/
def Hits (q part : Option P) : Prop := q = none ∨ part = q

instance (q part : Option P) : Decidable (Hits q part) := inferInstanceAs (Decidable (_ ∨ _))

/-- The I/O is counted for `q`, in the direction `rw`. -/
def Io.counts (q : Option P) (rw : Bool) (io : Io P) : Bool := decide (Hits q io.part ∧ rw = io.rw)

/-- What a counter of `q` should be. -/
def State.owed (hz : ℕ) (s : State P cpus) (q : Option P) : Field → BitVec 64
  | .ios rw => BitVec.ofNat 64 (s.started.countP (·.counts q rw))
  | .sectors rw => BitVec.ofNat 64 ((s.started.filter (·.counts q rw)).map (·.sectors)).sum
  | .nsecs rw => BitVec.ofNat 64 ((s.ended.filter (·.1.counts q rw)).map
      fun e => (durationNsecs hz e.1.startTime e.2).toNat).sum
  | .timeInQueue => BitVec.ofNat 64 ((s.ended.filter (fun e => Hits q e.1.part)).map
      fun e => (duration e.1.startTime e.2).toNat).sum
  | .inFlight rw => BitVec.ofNat 64 (s.running.countP (·.counts q rw))

/-! ### One call -/

theorem read_localAdd (d : Disk P cpus) (part q : Option P) (field f : Field) (cpu : Fin cpus)
    (n : BitVec 64) : (d.localAdd part field cpu n).partStatRead q f
      = d.partStatRead q f + if q = part ∧ f = field then n else 0 := by
  unfold Disk.localAdd Disk.partStatRead
  rcases eq_or_ne q part with rfl | hq
  · rcases eq_or_ne f field with rfl | hf
    · simp
    · simp [hf]
  · simp [hq]

/-- **A change is counted for the partition and for the disk**, once each. -/
theorem read_partStatAdd (d : Disk P cpus) (part q : Option P) (field f : Field) (cpu : Fin cpus)
    (n : BitVec 64) : (d.partStatAdd part field cpu n).partStatRead q f
      = d.partStatRead q f + if Hits q part ∧ f = field then n else 0 := by
  unfold Disk.partStatAdd
  cases part with
  | none =>
      rw [if_pos rfl, read_localAdd]
      congr 2
      simp [Hits, eq_comm]
  | some p =>
      rw [if_neg (by simp), read_localAdd, read_localAdd, BitVec.add_assoc]
      congr 1
      cases q with
      | none => simp [Hits]
      | some p' => simp [Hits, eq_comm]

theorem shannonPartIncInFlight_eq (d : Disk P cpus) (part : Option P) (rw : Bool) (cpu : Fin cpus) :
    shannonPartIncInFlight d part rw cpu = d.partStatAdd part (.inFlight rw) cpu 1 := rfl

theorem shannonPartDecInFlight_eq (d : Disk P cpus) (part : Option P) (rw : Bool) (cpu : Fin cpus) :
    shannonPartDecInFlight d part rw cpu = d.partStatAdd part (.inFlight rw) cpu (-1) := rfl

@[simp]
theorem map_partStatAdd (d : Disk P cpus) (part : Option P) (field : Field) (cpu : Fin cpus)
    (n : BitVec 64) : (d.partStatAdd part field cpu n).map = d.map := by
  unfold Disk.partStatAdd
  split_ifs <;> rfl

/-- What a start adds to each counter. -/
theorem read_shannonStartIoAcct (d : Disk P cpus) (cpu : Fin cpus) (rw : Bool) (sector sectors : ℕ)
    (q : Option P) (f : Field) :
    (shannonStartIoAcct d cpu rw sector sectors).partStatRead q f = d.partStatRead q f +
      if Hits q (d.map sector) then
        match f with
        | .ios r => if r = rw then 1 else 0
        | .sectors r => if r = rw then BitVec.ofNat 64 sectors else 0
        | .inFlight r => if r = rw then 1 else 0
        | _ => 0
      else 0 := by
  rw [shannonStartIoAcct, shannonPartIncInFlight_eq, read_partStatAdd, read_partStatAdd,
    read_partStatAdd]
  by_cases hits : Hits q (d.map sector)
  · cases f <;> simp [hits]
  · simp [hits]

/-- What an end adds to each counter. -/
theorem read_shannonEndIoAcct (hz : ℕ) (d : Disk P cpus) (cpu : Fin cpus) (rw : Bool)
    (sector startTime now : ℕ) (q : Option P) (f : Field) :
    (shannonEndIoAcct hz d cpu rw sector startTime now).partStatRead q f = d.partStatRead q f +
      if Hits q (d.map sector) then
        match f with
        | .nsecs r => if r = rw then (durationNsecs hz startTime now).setWidth 64 else 0
        | .timeInQueue => (duration startTime now).setWidth 64
        | .inFlight r => if r = rw then -1 else 0
        | _ => 0
      else 0 := by
  rw [shannonEndIoAcct, shannonPartDecInFlight_eq, read_partStatAdd, read_partStatAdd,
    read_partStatAdd]
  by_cases hits : Hits q (d.map sector)
  · cases f <;> simp [hits]
  · simp [hits]

/-! ### What the counters owe, step by step -/

/-- What is owed after a start. -/
theorem owed_start (hz : ℕ) (s : State P cpus) (disk : Disk P cpus) (io : Io P) (q : Option P)
    (f : Field) :
    State.owed hz ⟨disk, io :: s.running, io :: s.started, s.ended⟩ q f = s.owed hz q f +
      if Hits q io.part then
        match f with
        | .ios r => if r = io.rw then 1 else 0
        | .sectors r => if r = io.rw then BitVec.ofNat 64 io.sectors else 0
        | .inFlight r => if r = io.rw then 1 else 0
        | _ => 0
      else 0 := by
  by_cases hits : Hits q io.part
  · cases f with
    | ios r | inFlight r =>
        by_cases hr : r = io.rw <;> simp [State.owed, Io.counts, hits, hr, BitVec.ofNat_add]
    | sectors r =>
        by_cases hr : r = io.rw
        · simp [State.owed, Io.counts, hits, hr, BitVec.ofNat_add, BitVec.add_comm]
        · simp [State.owed, Io.counts, hr]
    | nsecs r | timeInQueue => simp [State.owed]
  · cases f <;> simp [State.owed, Io.counts, hits]

/-- What is owed after an end. -/
theorem owed_finish (hz : ℕ) {s : State P cpus} (disk : Disk P cpus) {i : ℕ} {io : Io P}
    (hio : s.running[i]? = some io) (now : ℕ) (q : Option P) (f : Field) :
    State.owed hz ⟨disk, s.running.eraseIdx i, s.started, (io, now) :: s.ended⟩ q f
      = s.owed hz q f +
      if Hits q io.part then
        match f with
        | .nsecs r => if r = io.rw then (durationNsecs hz io.startTime now).setWidth 64 else 0
        | .timeInQueue => (duration io.startTime now).setWidth 64
        | .inFlight r => if r = io.rw then -1 else 0
        | _ => 0
      else 0 := by
  obtain ⟨hi, rfl⟩ := List.getElem?_eq_some_iff.1 hio
  have hperm (r : Bool) : s.running.countP (·.counts q r)
      = (s.running.eraseIdx i).countP (·.counts q r)
        + if s.running[i].counts q r then 1 else 0 := by
    rw [← (List.getElem_cons_eraseIdx_perm hi).countP_eq, List.countP_cons]
  cases f with
  | ios r | sectors r => simp [State.owed]
  | nsecs r =>
      by_cases hits : Hits q s.running[i].part
      · by_cases hr : r = s.running[i].rw
        · simp [State.owed, Io.counts, hits, hr, BitVec.ofNat_add, BitVec.add_comm]
        · simp [State.owed, Io.counts, hr]
      · simp [State.owed, Io.counts, hits]
  | timeInQueue =>
      by_cases hits : Hits q s.running[i].part
      · simp [State.owed, hits, BitVec.ofNat_add, BitVec.add_comm]
      · simp [State.owed, hits]
  | inFlight r =>
      simp only [State.owed, hperm r]
      by_cases hits : Hits q s.running[i].part
      · by_cases hr : r = s.running[i].rw
        · simp [Io.counts, hits, hr, BitVec.ofNat_add, BitVec.add_assoc]
        · simp [Io.counts, hr]
      · simp [Io.counts, hits]

/-! ### Runs -/

/-- Every counter of `q` is what it should be. -/
def Exact (hz : ℕ) (q : Option P) (s : State P cpus) : Prop :=
  ∀ f, s.disk.partStatRead q f = s.owed hz q f

/-- A new partition table does not move an I/O that is under way. -/
def Steady (s : State P cpus) : Act P cpus → Prop
  | .remap map => ∀ io ∈ s.running, map io.sector = s.disk.map io.sector
  | _ => True

/-- The I/Os under way would be counted where they were. -/
def InPlace (s : State P cpus) : Prop := ∀ io ∈ s.running, s.disk.map io.sector = io.part

theorem exact_init (hz : ℕ) (q : Option P) (map : ℕ → Option P) :
    Exact hz q (State.init map : State P cpus) := by
  intro f
  cases f <;> simp [State.init, Disk.partStatRead, State.owed]

variable {hz : ℕ} {s t : State P cpus} {a : Act P cpus}

/-- What a step can do. -/
theorem step_cases (h : step hz s a = some t) :
    (∃ cpu rw sector sectors now, a = .start cpu rw sector sectors now ∧
      t = ⟨shannonStartIoAcct s.disk cpu rw sector sectors,
        ⟨rw, sector, sectors, now, s.disk.map sector⟩ :: s.running,
        ⟨rw, sector, sectors, now, s.disk.map sector⟩ :: s.started, s.ended⟩) ∨
    (∃ i cpu now io, a = .finish i cpu now ∧ s.running[i]? = some io ∧ io.startTime ≤ now ∧
      t = ⟨shannonEndIoAcct hz s.disk cpu io.rw io.sector io.startTime now,
        s.running.eraseIdx i, s.started, (io, now) :: s.ended⟩) ∨
    (∃ map, a = .remap map ∧ t = { s with disk.map := map }) := by
  cases a with
  | start cpu rw sector sectors now =>
      exact .inl ⟨cpu, rw, sector, sectors, now, rfl, (Option.some.inj h).symm⟩
  | finish i cpu now =>
      simp only [step] at h
      split at h
      · cases h
      · next io hio =>
        simp only [Option.ite_none_right_eq_some, Option.some.injEq] at h
        exact .inr (.inl ⟨i, cpu, now, io, rfl, hio, h.1, h.2.symm⟩)
  | remap map => exact .inr (.inr ⟨map, rfl, (Option.some.inj h).symm⟩)

/-- **A step keeps the counters exact** if an I/O that ends is counted where it was. -/
theorem exact_step {q : Option P} (hs : Exact hz q s)
    (hplace : ∀ io ∈ s.running, Hits q (s.disk.map io.sector) ↔ Hits q io.part)
    (h : step hz s a = some t) : Exact hz q t := by
  intro f
  obtain ⟨cpu, rw, sector, sectors, now, -, rfl⟩ | ⟨i, cpu, now, io, -, hio, -, rfl⟩ |
    ⟨map, -, rfl⟩ := step_cases h
  · rw [owed_start, ← hs f]
    exact read_shannonStartIoAcct ..
  · rw [owed_finish hz _ hio, ← hs f, read_shannonEndIoAcct]
    simp only [hplace io (List.mem_of_getElem? hio)]
  · exact hs f

theorem inPlace_step (hs : InPlace s) (hgood : Steady s a) (h : step hz s a = some t) :
    InPlace t := by
  obtain ⟨cpu, rw, sector, sectors, now, -, rfl⟩ | ⟨i, cpu, now, io, -, hio, -, rfl⟩ |
    ⟨map, rfl, rfl⟩ := step_cases h
  · intro io hio
    have hmap : (shannonStartIoAcct s.disk cpu rw sector sectors).map = s.disk.map := by
      simp [shannonStartIoAcct, shannonPartIncInFlight_eq]
    simp only [hmap]
    rcases List.mem_cons.1 hio with rfl | hio
    · rfl
    · exact hs io hio
  · intro io' hio'
    have hmap : (shannonEndIoAcct hz s.disk cpu io.rw io.sector io.startTime now).map
        = s.disk.map := by
      simp [shannonEndIoAcct, shannonPartDecInFlight_eq]
    simp only [hmap]
    exact hs io' (List.mem_of_mem_eraseIdx hio')
  · intro io hio
    exact (hgood io hio).trans (hs io hio)

/-- Two I/Os on a partition and one beside it; one of them ends on another CPU. -/
def twoParts (a b : Fin 2) : List (Act Unit 2) :=
  [.start a false 10 8 100, .start a true 5 16 101, .start b true 12 8 102, .finish 2 b 104]

/-- The nanoseconds an I/O took. -/
def nsecsTaken (hz : ℕ) (e : Io P × ℕ) : ℕ := (e.2 - e.1.startTime) * (10 ^ 9 / hz)

/-- The nanoseconds that all I/Os of a direction took. -/
def State.nsecsTotal (hz : ℕ) (s : State P cpus) (rw : Bool) : ℕ :=
  ((s.ended.filter (·.1.counts none rw)).map (nsecsTaken hz)).sum

/-- What is accounted is what was taken, modulo `2 ^ 32`. -/
theorem toNat_durationNsecs {hz startTime now : ℕ} (hhz : hz ∣ 10 ^ 6) (hle : startTime ≤ now) :
    (durationNsecs hz startTime now).toNat = (now - startTime) * (10 ^ 9 / hz) % 2 ^ 32 := by
  have hsub : BitVec.ofNat 64 now - BitVec.ofNat 64 startTime
      = BitVec.ofNat 64 (now - startTime) := by
    rw [show BitVec.ofNat 64 now = BitVec.ofNat 64 (now - startTime) + BitVec.ofNat 64 startTime by
      rw [← BitVec.ofNat_add, Nat.sub_add_cancel hle], BitVec.add_sub_cancel]
  have hfactor : 10 ^ 6 / hz * 1000 = 10 ^ 9 / hz := by
    rw [Nat.div_mul_right_comm hhz, show 10 ^ 6 * 1000 = 10 ^ 9 by norm_num]
  have hnsecs : durationNsecs hz startTime now
      = BitVec.ofNat 32 (10 ^ 6 / hz * (now - startTime) * 1000) := by
    rw [durationNsecs, jiffiesToUsecs, duration, hsub, BitVec.setWidth_mul _ _ (by decide),
      BitVec.setWidth_setWidth_of_le _ (by decide), BitVec.setWidth_setWidth_of_le _ (by decide),
      BitVec.setWidth_ofNat_of_le (by decide), BitVec.setWidth_ofNat_of_le (by decide),
      BitVec.ofNat_mul, BitVec.ofNat_mul]
    rfl
  rw [hnsecs, BitVec.toNat_ofNat, ← hfactor, Nat.mul_comm (10 ^ 6 / hz), Nat.mul_assoc]

/-- Numbers are as large as their remainders exactly if none of them is above the modulus. -/
theorem sum_mod_eq_iff {ι : Type*} (g : ι → ℕ) {m : ℕ} (hm : 0 < m) (l : List ι) :
    (l.map fun e => g e % m).sum = (l.map g).sum ↔ ∀ e ∈ l, g e < m := by
  have hle (l : List ι) : (l.map fun e => g e % m).sum ≤ (l.map g).sum :=
    List.sum_le_sum fun e _ => Nat.mod_le _ _
  induction l with
  | nil => simp
  | cons e l ih =>
      have hrest := hle l
      have hmod := Nat.mod_le (g e) m
      have hlt : g e % m = g e ↔ g e < m := Nat.mod_eq_iff_lt hm.ne'
      simp only [List.map_cons, List.sum_cons, List.forall_mem_cons, ← ih, ← hlt]
      omega

/-- An I/O ends after it has started. -/
theorem ended_le {map : ℕ → Option P} {as : List (Act P cpus)}
    (hrun : run (step hz) (State.init map) as = some s) : ∀ e ∈ s.ended, e.1.startTime ≤ e.2 := by
  refine run_invariant (I := fun s : State P cpus => ∀ e ∈ s.ended, e.1.startTime ≤ e.2)
    (fun s a t hs h => ?_) (fun e he => (List.not_mem_nil he).elim) hrun
  obtain ⟨cpu, rw, sector, sectors, now, -, rfl⟩ | ⟨i, cpu, now, io, -, -, hle, rfl⟩ |
    ⟨map, -, rfl⟩ := step_cases h
  · exact hs
  · intro e he
    rcases List.mem_cons.1 he with rfl | he
    · exact hle
    · exact hs e he
  · exact hs

/-- A read that takes five seconds. -/
def slowRead : List (Act Unit 1) := [.start 0 false 0 8 0, .finish 0 0 5000]

end IoAcct
end Device
end Shannon
