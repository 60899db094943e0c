/-
# Counters with a cell for each CPU

A counter of a kernel that is written on every CPU has a cell for each of them, and is
read by adding the cells up.  A single cell means nothing: what is added on one CPU is
taken off on another.  The sum does, and since it is computed modulo a power of two it
does so also after cells have wrapped (`PerCpu.read_add`).
-/

import Mathlib.Algebra.BigOperators.Fin
import Mathlib.Data.BitVec

namespace Shannon
namespace Lib

/-- A counter on a machine with `cpus` CPUs, of `w` bits a cell. -/
structure PerCpu (cpus w : ℕ) where
  cell : Fin cpus → BitVec w

namespace PerCpu

variable {cpus w : ℕ}

/-- The counter when nothing was counted. -/
def zero : PerCpu cpus w := ⟨fun _ => 0⟩

/-- Add to the cell of one CPU. -/
def add (f : PerCpu cpus w) (cpu : Fin cpus) (d : BitVec w) : PerCpu cpus w :=
  ⟨Function.update f.cell cpu (f.cell cpu + d)⟩

/-- The loop over all CPUs that reads the counter. -/
def read (f : PerCpu cpus w) : BitVec w :=
  (List.finRange cpus).foldl (fun sum cpu => sum + f.cell cpu) 0

theorem read_eq_sum (f : PerCpu cpus w) : f.read = ∑ cpu, f.cell cpu := by
  rw [Fin.sum_univ_def, List.sum_eq_foldl, List.foldl_map]
  rfl

@[simp]
theorem read_zero : (zero : PerCpu cpus w).read = 0 := by
  simp [read_eq_sum, zero]

/-- **Wherever it is counted, the sum moves by as much.** -/
@[simp]
theorem read_add (f : PerCpu cpus w) (cpu : Fin cpus) (d : BitVec w) :
    (f.add cpu d).read = f.read + d := by
  rw [read_eq_sum, read_eq_sum, add, Finset.sum_update_of_mem (Finset.mem_univ cpu),
    ← Finset.sum_erase_add _ _ (Finset.mem_univ cpu), Finset.sdiff_singleton_eq_erase]
  ac_rfl

end PerCpu

end Lib
end Shannon
