/-
# I/Os in flight

`shannon_device.c`, `shannon_disk_in_flight` over the per-CPU counters of the block
layer: an I/O is counted up on the CPU that starts it and down on the CPU that ends
it, so a single counter says nothing and may well be negative.  Only the sum over all
CPUs has a meaning, and all of it is computed modulo a power of two: the counters are
`long`, and from 5.15 on the sum is an `unsigned int`.

The sum is the number of I/Os under way in every state of every run
(`total_eq_length`), also after counters have wrapped.  From 5.15 on it is returned;
the versions for 5.7 up to 5.14 return `sum != 0`, so they count no further than one
(`shannonDiskInFlight_eq_iff`).
-/

import Mathlib.Algebra.BigOperators.Fin
import Mathlib.Data.BitVec
import Shannon.Lib.Run

namespace Shannon
namespace Device

open Lib

/-- The counters of a disk on a machine with `cpus` CPUs and a `long` of `w` bits,
and the I/Os that are under way. -/
structure DiskStats (cpus w : ℕ) where
  /-- `in_flight[rw]` of each CPU. -/
  inFlight : Fin cpus → Bool → BitVec w
  /-- The direction of each I/O that was started and has not ended. -/
  running : List Bool

/-- What happens to the disk. -/
inductive Io (cpus : ℕ) where
  /-- An I/O of direction `rw` starts on `cpu`. -/
  | start (rw : Bool) (cpu : Fin cpus)
  /-- The `i`-th of the I/Os under way ends on `cpu`. -/
  | finish (i : ℕ) (cpu : Fin cpus)

variable {cpus w : ℕ}

/-- `part_stat_local_add` of one counter. -/
def statAdd (f : Fin cpus → Bool → BitVec w) (cpu : Fin cpus) (rw : Bool) (d : BitVec w) :
    Fin cpus → Bool → BitVec w :=
  Function.update f cpu (Function.update (f cpu) rw (f cpu rw + d))

/-- The counters when nothing was started yet. -/
def DiskStats.init : DiskStats cpus w := ⟨fun _ _ => 0, []⟩

/-- One start or end of an I/O. -/
def step (s : DiskStats cpus w) : Io cpus → Option (DiskStats cpus w)
  | .start rw cpu => some ⟨statAdd s.inFlight cpu rw 1, s.running ++ [rw]⟩
  | .finish i cpu =>
      match s.running[i]? with
      | none => none
      | some rw => some ⟨statAdd s.inFlight cpu rw (-1), s.running.eraseIdx i⟩

/-! ### `shannon_disk_in_flight` -/

/-- The two counters of a CPU. -/
def cpuInFlight (s : DiskStats cpus w) (cpu : Fin cpus) : BitVec w :=
  s.inFlight cpu false + s.inFlight cpu true

/-- `shannon_disk_in_flight` from 5.15 on. -/
def shannonDiskInFlight515 (s : DiskStats cpus w) : ℤ :=
  let inflight : BitVec 32 :=
    (List.finRange cpus).foldl (fun inflight cpu => inflight + (cpuInFlight s cpu).setWidth 32) 0
  if inflight.toInt < 0 then 0 else inflight.toInt

/-- `sum` of the versions before 5.15, a `long`. -/
def longSum (s : DiskStats cpus w) : BitVec w :=
  (List.finRange cpus).foldl (fun sum cpu => sum + s.inFlight cpu false + s.inFlight cpu true) 0

/-- `shannon_disk_in_flight` from 5.8 up to 5.14. -/
def shannonDiskInFlight58 (s : DiskStats cpus w) : ℤ := if longSum s ≠ 0 then 1 else 0

/-- `shannon_disk_in_flight` of 5.7. -/
def shannonDiskInFlight57 (s : DiskStats cpus w) : ℤ := if longSum s ≠ 0 then 1 else 0

/-- The version of the kernel, as far as the source looks at it. -/
inductive Kernel where
  | v57
  | v58
  | v515
deriving DecidableEq

/-- The function that is compiled. -/
def shannonDiskInFlight (s : DiskStats cpus w) : Kernel → ℤ
  | .v57 => shannonDiskInFlight57 s
  | .v58 => shannonDiskInFlight58 s
  | .v515 => shannonDiskInFlight515 s

/-! ### The sum -/

/-- The sum of all counters. -/
def total (f : Fin cpus → Bool → BitVec w) : BitVec w := ∑ cpu, (f cpu false + f cpu true)

/-- A change of one counter is a change of the sum. -/
theorem total_statAdd (f : Fin cpus → Bool → BitVec w) (cpu : Fin cpus) (rw : Bool)
    (d : BitVec w) : total (statAdd f cpu rw d) = total f + d := by
  have hcpu (c : Fin cpus) : statAdd f cpu rw d c false + statAdd f cpu rw d c true
      = f c false + f c true + if c = cpu then d else 0 := by
    rcases eq_or_ne c cpu with rfl | hc
    · rw [statAdd, Function.update_self, if_pos rfl]
      cases rw with
      | false => simp [add_right_comm]
      | true => simp [add_assoc]
    · rw [statAdd, Function.update_of_ne hc, if_neg hc, add_zero]
  rw [total, Finset.sum_congr rfl fun c _ => hcpu c, Finset.sum_add_distrib,
    Finset.sum_ite_eq' Finset.univ cpu, if_pos (Finset.mem_univ _), total]

/-- The counters add up to the I/Os under way. -/
def Counts (s : DiskStats cpus w) : Prop := total s.inFlight = BitVec.ofNat w s.running.length

theorem counts_init : Counts (DiskStats.init : DiskStats cpus w) := by
  simp [Counts, DiskStats.init, total]

/-- Wherever an I/O starts or ends, the sum moves with the number under way. -/
theorem counts_step {s t : DiskStats cpus w} {a : Io cpus} (hs : Counts s)
    (h : step s a = some t) : Counts t := by
  cases a with
  | start rw cpu =>
      obtain rfl := Option.some.inj h
      show total (statAdd _ _ _ _) = _
      rw [total_statAdd, hs, List.length_append, BitVec.ofNat_add]
      rfl
  | finish i cpu =>
      simp only [step] at h
      split at h
      · cases h
      · next rw hrw =>
        obtain rfl := Option.some.inj h
        have hi : i < s.running.length := (List.getElem?_eq_some_iff.1 hrw).1
        show total (statAdd _ _ _ _) = _
        rw [total_statAdd, hs, List.length_eraseIdx_of_lt hi]
        have hlen : s.running.length = s.running.length - 1 + 1 := by omega
        rw [hlen, BitVec.ofNat_add]
        simp

/-- **The sum is the number of I/Os under way**, in every state of every run. -/
theorem total_eq_length {as : List (Io cpus)} {s : DiskStats cpus w}
    (hrun : run step DiskStats.init as = some s) : Counts s :=
  run_invariant (fun _ _ _ hs h => counts_step hs h) counts_init hrun

/-! ### What the versions return -/

/-- The loops add up the counters. -/
theorem foldl_cpuInFlight (s : DiskStats cpus w) :
    (List.finRange cpus).foldl (fun sum cpu => sum + cpuInFlight s cpu) 0 = total s.inFlight := by
  rw [total, Fin.sum_univ_def, List.sum_eq_foldl, List.foldl_map]
  rfl

theorem longSum_eq_total (s : DiskStats cpus w) : longSum s = total s.inFlight := by
  rw [← foldl_cpuInFlight, longSum]
  simp only [cpuInFlight, add_assoc]

/-- Truncating each addend to 32 bits is truncating the sum. -/
theorem foldl_setWidth (s : DiskStats cpus w) (hw : 32 ≤ w) (l : List (Fin cpus)) (sum : BitVec w) :
    l.foldl (fun inflight cpu => inflight + (cpuInFlight s cpu).setWidth 32) (sum.setWidth 32)
      = (l.foldl (fun sum cpu => sum + cpuInFlight s cpu) sum).setWidth 32 := by
  induction l generalizing sum with
  | nil => rfl
  | cons cpu l ih =>
      rw [List.foldl_cons, List.foldl_cons, ← BitVec.setWidth_add _ _ hw]
      exact ih _

/-- From 5.15 on the number of I/Os under way is returned. -/
theorem shannonDiskInFlight515_eq {s : DiskStats cpus w} (hw : 32 ≤ w) (hs : Counts s)
    (hlt : s.running.length < 2 ^ 31) : shannonDiskInFlight515 s = s.running.length := by
  have hsum : (List.finRange cpus).foldl
      (fun inflight cpu => inflight + (cpuInFlight s cpu).setWidth 32) 0
        = BitVec.ofNat 32 s.running.length := by
    have hzero : (0 : BitVec w).setWidth 32 = 0 := by simp
    have h := foldl_setWidth s hw (List.finRange cpus) 0
    rwa [foldl_cpuInFlight, hs, BitVec.setWidth_ofNat_of_le hw, hzero] at h
  have hint : (BitVec.ofNat 32 s.running.length).toInt = s.running.length := by
    rw [BitVec.toInt_eq_toNat_of_lt]
    · rw [BitVec.toNat_ofNat, Nat.mod_eq_of_lt (by omega)]
    · rw [BitVec.toNat_ofNat, Nat.mod_eq_of_lt (by omega)]
      omega
  rw [shannonDiskInFlight515, hsum, hint, if_neg (by omega)]

/-- Before, only whether there is any. -/
theorem longSum_eq_zero_iff {s : DiskStats cpus w} (hw : 32 ≤ w) (hs : Counts s)
    (hlt : s.running.length < 2 ^ 31) : longSum s = 0 ↔ s.running.length = 0 := by
  have hpow : 2 ^ 32 ≤ 2 ^ w := Nat.pow_le_pow_right (by decide) hw
  rw [longSum_eq_total, hs, ← BitVec.toNat_inj, BitVec.toNat_ofNat,
    Nat.mod_eq_of_lt (by omega)]
  simp

/-- **What is returned is the number of I/Os under way** exactly from 5.15 on, or
while there is at most one. -/
theorem shannonDiskInFlight_eq_iff {as : List (Io cpus)} {s : DiskStats cpus w} (hw : 32 ≤ w)
    (hrun : run step DiskStats.init as = some s) (hlt : s.running.length < 2 ^ 31)
    (kernel : Kernel) :
    shannonDiskInFlight s kernel = s.running.length ↔
      kernel = .v515 ∨ s.running.length ≤ 1 := by
  have hs := total_eq_length hrun
  have hzero := longSum_eq_zero_iff hw hs hlt
  cases kernel with
  | v515 => simpa [shannonDiskInFlight] using shannonDiskInFlight515_eq hw hs hlt
  | v58 =>
      simp only [shannonDiskInFlight, shannonDiskInFlight58, ne_eq, hzero, reduceCtorEq, false_or]
      split_ifs <;> omega
  | v57 =>
      simp only [shannonDiskInFlight, shannonDiskInFlight57, ne_eq, hzero, reduceCtorEq, false_or]
      split_ifs <;> omega

/-- Two I/Os start on CPU 0 and one of them ends on CPU 1. -/
def crossing : List (Io 4) := [.start true 0, .start false 0, .finish 0 1]

/-- The hypotheses of `shannonDiskInFlight_eq_iff` are satisfiable: after `crossing`
the counters are two and minus one, and all versions return one. -/
theorem shannonDiskInFlight_crossing :
    ∃ s : DiskStats 4 64, run step DiskStats.init crossing = some s ∧
      ∀ kernel, shannonDiskInFlight s kernel = 1 := by
  obtain ⟨s, hs, hlen⟩ : ∃ s : DiskStats 4 64, run step DiskStats.init crossing = some s ∧
      s.running.length = 1 := ⟨_, rfl, rfl⟩
  refine ⟨s, hs, fun kernel => ?_⟩
  have h := (shannonDiskInFlight_eq_iff (by decide) hs (by omega) kernel).2 (.inr hlen.le)
  rw [h, hlen]
  rfl

/-- With two I/Os under way the versions before 5.15 return one. -/
theorem shannonDiskInFlight_two :
    ∃ s : DiskStats 4 64, run step DiskStats.init [.start true 0, .start false 0] = some s ∧
      s.running.length = 2 ∧ shannonDiskInFlight s .v58 ≠ s.running.length ∧
      shannonDiskInFlight s .v57 ≠ s.running.length :=
  ⟨_, rfl, rfl, by decide, by decide⟩

end Device
end Shannon
