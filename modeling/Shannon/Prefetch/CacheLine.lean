/-
# The cache lines of the prefetcher

`shannon_prefetch.h`: a cache line holds `lba_per_line` logical blocks.
`lba_rounddown_cache_line` and `lba_roundup_cache_line` are meant to be the first
and the last block of the line an LBA lies in, `get_cache_line_from_lba` the place
of that line in the cache.

The last block of line `q` is `(q + 1) * lba_per_line - 1`.  The macro multiplies
`q` by `lba_per_line + 1` instead, which is the same number in line
`lba_per_line` and in no other one (`cacheLine_tiles_iff`).
-/

import Shannon.Memblock.Stripe
import Mathlib.Data.Set.Card
import Mathlib.Order.CompletePartialOrder
import Mathlib.Order.Interval.Finset.Nat

namespace Shannon
namespace Prefetch

open Memblock

/-- The fields of `struct shannon_prefetch` the macros read. -/
structure ShannonPrefetch where
  lbaPerLine : ℕ
  cacheLines : ℕ
  line_pos : 0 < lbaPerLine
  lines_pos : 0 < cacheLines
  line_lt : lbaPerLine < 2 ^ 32
  lines_lt : cacheLines < 2 ^ 32

/-- `get_cache_line_from_lba`. -/
def getCacheLineFromLba (prefetch : ShannonPrefetch) (lba : ℕ) : ℕ :=
  lba / prefetch.lbaPerLine % prefetch.cacheLines

/-- `lba_rounddown_cache_line`. -/
def lbaRounddownCacheLine (prefetch : ShannonPrefetch) (lba : ℕ) : ℕ :=
  u64 (lba / prefetch.lbaPerLine * prefetch.lbaPerLine)

/-- `lba_roundup_cache_line`. -/
def lbaRoundupCacheLine (prefetch : ShannonPrefetch) (lba : ℕ) : ℕ :=
  -- the last operation is `- 1` in 64 bits
  u64 (u64 (lba / prefetch.lbaPerLine * u32 (prefetch.lbaPerLine + 1)) + (2 ^ 64 - 1))

/-! ### The line of an LBA -/

section

variable (prefetch : ShannonPrefetch)

/-- The blocks the two macros name for an LBA. -/
def interval (lba : ℕ) : Set ℕ :=
  Set.Icc (lbaRounddownCacheLine prefetch lba) (lbaRoundupCacheLine prefetch lba)

/-- The blocks that share the line of an LBA. -/
def line (lba : ℕ) : Set ℕ := {x | x / prefetch.lbaPerLine = lba / prefetch.lbaPerLine}

/-- Neither the sum nor the product of `lba_roundup_cache_line` wraps. -/
structure Fits (lba : ℕ) : Prop where
  sum : prefetch.lbaPerLine + 1 < 2 ^ 32
  product : lba / prefetch.lbaPerLine * (prefetch.lbaPerLine + 1) < 2 ^ 64

/-- What the macros are for: the blocks they name are those of the line of the LBA,
and so contain it, are `lba_per_line` in number, and have one place in the cache. -/
structure Tiles (lba : ℕ) : Prop where
  interval_eq : interval prefetch lba = line prefetch lba
  mem : lba ∈ interval prefetch lba
  card : (interval prefetch lba).ncard = prefetch.lbaPerLine
  constant : ∀ x ∈ interval prefetch lba,
    getCacheLineFromLba prefetch x = getCacheLineFromLba prefetch lba

variable {prefetch}

/-- The line as an interval. -/
theorem line_eq (lba : ℕ) : line prefetch lba =
    Set.Icc (lba / prefetch.lbaPerLine * prefetch.lbaPerLine)
      (lba / prefetch.lbaPerLine * prefetch.lbaPerLine + prefetch.lbaPerLine - 1) := by
  ext x
  exact Nat.div_eq_iff prefetch.line_pos

theorem ncard_line (lba : ℕ) : (line prefetch lba).ncard = prefetch.lbaPerLine := by
  have hpos := prefetch.line_pos
  rw [line_eq, ← Finset.coe_Icc, Set.ncard_coe_finset, Nat.card_Icc]
  omega

theorem lbaRounddownCacheLine_eq {lba : ℕ} (h : Fits prefetch lba) :
    lbaRounddownCacheLine prefetch lba
      = lba / prefetch.lbaPerLine * prefetch.lbaPerLine := by
  refine Nat.mod_eq_of_lt (lt_of_le_of_lt ?_ h.product)
  exact Nat.mul_le_mul_left _ (Nat.le_succ _)

/-- Past the first line nothing wraps; in the first one the `- 1` does. -/
theorem lbaRoundupCacheLine_eq {lba : ℕ} (h : Fits prefetch lba) :
    lbaRoundupCacheLine prefetch lba =
      if lba / prefetch.lbaPerLine = 0 then 2 ^ 64 - 1
      else lba / prefetch.lbaPerLine * (prefetch.lbaPerLine + 1) - 1 := by
  have hlt := h.product
  rw [lbaRoundupCacheLine, u32, Nat.mod_eq_of_lt h.sum, u64, u64, Nat.mod_eq_of_lt hlt]
  split_ifs with hq
  · rw [hq, Nat.zero_mul]
    rfl
  · have hpos : 0 < lba / prefetch.lbaPerLine * (prefetch.lbaPerLine + 1) :=
      Nat.mul_pos (Nat.pos_of_ne_zero hq) (Nat.succ_pos _)
    generalize lba / prefetch.lbaPerLine * (prefetch.lbaPerLine + 1) = n at *
    omega

/-- Only one line is named as it is. -/
theorem interval_eq_line_iff {lba : ℕ} (h : Fits prefetch lba) :
    interval prefetch lba = line prefetch lba ↔
      lba / prefetch.lbaPerLine = prefetch.lbaPerLine := by
  have hpos := prefetch.line_pos
  have hlt := prefetch.line_lt
  rw [line_eq, interval, lbaRounddownCacheLine_eq h, lbaRoundupCacheLine_eq h, Nat.mul_add,
    Nat.mul_one]
  have hfit := h.product
  rw [Nat.mul_add, Nat.mul_one] at hfit
  generalize lba / prefetch.lbaPerLine = q at *
  generalize hm : q * prefetch.lbaPerLine = m at *
  have hends : Set.Icc m (if q = 0 then 2 ^ 64 - 1 else m + q - 1)
        = Set.Icc m (m + prefetch.lbaPerLine - 1)
      ↔ (if q = 0 then 2 ^ 64 - 1 else m + q - 1) = m + prefetch.lbaPerLine - 1 := by
    rw [Set.Icc_eq_Icc_iff (by split_ifs <;> omega)]
    exact and_iff_right rfl
  rw [hends]
  split_ifs with hq
  · subst hq
    rw [Nat.zero_mul] at hm
    omega
  · omega

/-- **Where the macros tile the LBAs.**  For every line size and every LBA whose
line does not overflow: the blocks from `lba_rounddown_cache_line` to
`lba_roundup_cache_line` are the line of the LBA exactly when the number of that
line is `lba_per_line`.  The intervals of two such LBAs are equal. -/
theorem cacheLine_tiles_iff (prefetch : ShannonPrefetch) {lba : ℕ} (h : Fits prefetch lba) :
    (Tiles prefetch lba ↔ lba / prefetch.lbaPerLine = prefetch.lbaPerLine) ∧
      ∀ lba', Fits prefetch lba' → lba / prefetch.lbaPerLine = prefetch.lbaPerLine →
        lba' / prefetch.lbaPerLine = prefetch.lbaPerLine →
        interval prefetch lba = interval prefetch lba' ∨
          Disjoint (interval prefetch lba) (interval prefetch lba') := by
  refine ⟨⟨fun ht => (interval_eq_line_iff h).1 ht.interval_eq, fun hq => ?_⟩, ?_⟩
  · have heq := (interval_eq_line_iff h).2 hq
    refine ⟨heq, by rw [heq]; rfl, by rw [heq]; exact ncard_line lba, fun x hx => ?_⟩
    rw [heq] at hx
    rw [getCacheLineFromLba, getCacheLineFromLba, hx]
  · intro lba' h' hq hq'
    left
    rw [(interval_eq_line_iff h).2 hq, (interval_eq_line_iff h').2 hq', line, line, hq, hq']

end

/-- Lines of 32 blocks and 64 of them, the defaults of the driver. -/
def defaultPrefetch : ShannonPrefetch :=
  ⟨32, 64, by decide, by decide, by decide, by decide⟩

/-- The hypotheses of `cacheLine_tiles_iff` are satisfiable: block 1030 is in line 32. -/
theorem cacheLine_tiles_default : Tiles defaultPrefetch 1030 :=
  (cacheLine_tiles_iff defaultPrefetch ⟨by decide, by decide⟩).1.2 (by decide)

/-- Block 40 is in line 1, the blocks 32 to 63, of which the macros name the first
one only. -/
theorem cacheLine_not_tiles :
    lbaRounddownCacheLine defaultPrefetch 40 = 32 ∧
      lbaRoundupCacheLine defaultPrefetch 40 = 32 ∧
      40 ∉ interval defaultPrefetch 40 ∧ ¬Tiles defaultPrefetch 40 := by
  have hup : lbaRoundupCacheLine defaultPrefetch 40 = 32 := by decide
  have hmem : 40 ∉ interval defaultPrefetch 40 := by
    rintro ⟨-, hle⟩
    rw [hup] at hle
    exact absurd hle (by decide)
  exact ⟨by decide, hup, hmem, fun h => hmem h.mem⟩

end Prefetch
end Shannon
