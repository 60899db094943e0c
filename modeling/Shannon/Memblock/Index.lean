/-
# Memblocks and LBA intervals

`shannon_memblock.h`: the map table of a device is cut into memblocks of
`entries_per_memblock` slots.  `get_memblock_index_from_lba` stripes an LBA to
its slot and shifts, `get_memblock_index_first_lba` and
`get_memblock_index_last_lba` multiply an index back to the LBAs of all devices
that fall into that memblock.

A memblock is a whole number of strips, so the two floor divisions nest:
`getMemblockIndexFromLba_eq` is one division by `entries_per_memblock *
sdev_count`, and `memblock_intervals_tile` compares it with the interval.
-/

import Shannon.Memblock.Stripe

namespace Shannon
namespace Memblock

/-- The fields of `struct scatter_memblock` the macros read, an `u32` count of
entries and its exponent. -/
structure ScatterMemblock where
  entriesPerMemblock : ℕ
  entriesPerMemblockShift : ℕ
  entries_eq : entriesPerMemblock = 2 ^ entriesPerMemblockShift
  entries_lt : entriesPerMemblock < 2 ^ 32

/-- A disk with `lpmt_array[0].map_table`, whose memblocks hold whole strips. -/
structure MappedDisk extends ShannonDisk where
  mapTable : ScatterMemblock
  shift_le : stripSizeShift ≤ mapTable.entriesPerMemblockShift

/-- An unsigned value of `w` bits. -/
def uint (w x : ℕ) : ℕ := x % 2 ^ w

/-- `get_memblock_index_from_slot`. -/
def getMemblockIndexFromSlot (sdisk : MappedDisk) (slot : ℕ) : ℕ :=
  slot >>> sdisk.mapTable.entriesPerMemblockShift

/-- `get_memblock_index_from_lba`. -/
def getMemblockIndexFromLba (sdisk : MappedDisk) (lba : ℕ) : ℕ :=
  getMemblockIndexFromSlot sdisk (getSlotFromLpmt sdisk.toShannonDisk lba)

/-- `get_memblock_index_first_lba`.  The factors are `u32`, so the product has
the width `w` of the index the caller passes. -/
def getMemblockIndexFirstLba (w : ℕ) (sdisk : MappedDisk) (index : ℕ) : ℕ :=
  uint w (uint w (index * sdisk.mapTable.entriesPerMemblock) * sdisk.sdevCount)

/-- `get_memblock_index_last_lba`. -/
def getMemblockIndexLastLba (w : ℕ) (sdisk : MappedDisk) (index : ℕ) : ℕ :=
  -- the last operation is `- 1` at width `w`
  uint w (uint w (uint w (uint w (index + 1) * sdisk.mapTable.entriesPerMemblock)
    * sdisk.sdevCount) + (2 ^ w - 1))

/-! ### The formulas -/

variable (sdisk : MappedDisk)

/-- The LBAs of all devices that share one memblock index. -/
def MappedDisk.memblockLbas : ℕ := sdisk.mapTable.entriesPerMemblock * sdisk.sdevCount

theorem memblockLbas_pos : 0 < sdisk.memblockLbas := by
  rw [MappedDisk.memblockLbas, sdisk.mapTable.entries_eq]
  exact Nat.mul_pos (Nat.two_pow_pos _) sdisk.sdev_pos

/-- A memblock is a whole number of strips. -/
theorem entriesPerMemblock_eq_strips :
    sdisk.mapTable.entriesPerMemblock = sdisk.stripSize
      * 2 ^ (sdisk.mapTable.entriesPerMemblockShift - sdisk.stripSizeShift) := by
  rw [sdisk.mapTable.entries_eq, sdisk.strip_eq, ← Nat.pow_add,
    Nat.add_sub_cancel' sdisk.shift_le]

/-- **The nested divisions are one.**  Stripes before the LBA, then memblocks of
strips before the slot. -/
theorem getMemblockIndexFromLba_eq {lba : ℕ} (hlba : lba < 2 ^ 64) :
    getMemblockIndexFromLba sdisk lba = lba / sdisk.memblockLbas := by
  rw [getMemblockIndexFromLba, getMemblockIndexFromSlot, Nat.shiftRight_eq_div_pow,
    ← sdisk.mapTable.entries_eq, getSlotFromLpmt_eq sdisk.toShannonDisk hlba,
    MappedDisk.memblockLbas, entriesPerMemblock_eq_strips]
  generalize 2 ^ (sdisk.mapTable.entriesPerMemblockShift - sdisk.stripSizeShift) = strips
  calc (lba / (sdisk.stripSize * sdisk.sdevCount) * sdisk.stripSize + lba % sdisk.stripSize)
        / (sdisk.stripSize * strips)
      = lba / (sdisk.stripSize * sdisk.sdevCount) / strips := by
        rw [← Nat.div_div_eq_div_mul, slot_div_strip]
    _ = lba / (sdisk.stripSize * strips * sdisk.sdevCount) := by
        rw [Nat.div_div_eq_div_mul, Nat.mul_right_comm]

theorem getMemblockIndexFirstLba_eq {w index : ℕ} (hfit : index * sdisk.memblockLbas < 2 ^ w) :
    getMemblockIndexFirstLba w sdisk index = index * sdisk.memblockLbas := by
  rw [getMemblockIndexFirstLba, uint, uint, Nat.mod_mul_mod, Nat.mul_assoc]
  exact Nat.mod_eq_of_lt hfit

/-- The last LBA, where it fits; the product itself may just have wrapped to
zero, and the `- 1` then wraps back. -/
theorem getMemblockIndexLastLba_eq {w index : ℕ}
    (hfit : (index + 1) * sdisk.memblockLbas ≤ 2 ^ w) :
    getMemblockIndexLastLba w sdisk index = (index + 1) * sdisk.memblockLbas - 1 := by
  have hpos : 0 < (index + 1) * sdisk.memblockLbas :=
    Nat.mul_pos (Nat.succ_pos _) (memblockLbas_pos sdisk)
  have hprod : uint w (uint w (uint w (index + 1) * sdisk.mapTable.entriesPerMemblock)
      * sdisk.sdevCount) = (index + 1) * sdisk.memblockLbas % 2 ^ w := by
    rw [uint, uint, uint, Nat.mod_mul_mod, Nat.mul_assoc, Nat.mod_mul_mod]
    rfl
  rw [getMemblockIndexLastLba, hprod, uint, Nat.mod_add_mod]
  have hback : (index + 1) * sdisk.memblockLbas + (2 ^ w - 1)
      = (index + 1) * sdisk.memblockLbas - 1 + 2 ^ w := by
    have := Nat.two_pow_pos w
    omega
  rw [hback, Nat.add_mod_right, Nat.mod_eq_of_lt (by omega)]

/-! ### The intervals tile the disk -/

theorem memblockIndex_iff {w lba index : ℕ} (hlba : lba < 2 ^ 64)
    (hfit : (index + 1) * sdisk.memblockLbas ≤ 2 ^ w) :
    getMemblockIndexFromLba sdisk lba = index ↔
      getMemblockIndexFirstLba w sdisk index ≤ lba ∧
        lba ≤ getMemblockIndexLastLba w sdisk index := by
  have hpos := memblockLbas_pos sdisk
  have hnext : (index + 1) * sdisk.memblockLbas
      = index * sdisk.memblockLbas + sdisk.memblockLbas := Nat.succ_mul _ _
  rw [getMemblockIndexFromLba_eq sdisk hlba, getMemblockIndexFirstLba_eq sdisk (by omega),
    getMemblockIndexLastLba_eq sdisk hfit, Nat.div_eq_iff hpos, hnext]

/-- **Memblock index and LBA interval agree.**  An LBA has an index exactly when
it lies in the interval of that index, as long as the last LBA of that interval
fits the width of the index.  So the first interval starts at block 0, each one
starts right behind the one before it, and every LBA lies in exactly one. -/
theorem memblock_intervals_tile (w : ℕ) :
    (∀ lba index, lba < 2 ^ 64 → (index + 1) * sdisk.memblockLbas ≤ 2 ^ w →
      (getMemblockIndexFromLba sdisk lba = index ↔
        getMemblockIndexFirstLba w sdisk index ≤ lba ∧
          lba ≤ getMemblockIndexLastLba w sdisk index)) ∧
    getMemblockIndexFirstLba w sdisk 0 = 0 ∧
    (∀ index, (index + 1) * sdisk.memblockLbas < 2 ^ w →
      getMemblockIndexFirstLba w sdisk (index + 1) = getMemblockIndexLastLba w sdisk index + 1) ∧
    ∀ lba, lba < 2 ^ 64 → (getMemblockIndexFromLba sdisk lba + 1) * sdisk.memblockLbas ≤ 2 ^ w →
      ∃! index, (index + 1) * sdisk.memblockLbas ≤ 2 ^ w ∧
        getMemblockIndexFirstLba w sdisk index ≤ lba ∧
          lba ≤ getMemblockIndexLastLba w sdisk index := by
  refine ⟨fun lba index hlba hfit => memblockIndex_iff sdisk hlba hfit, ?_, ?_, ?_⟩
  · rw [getMemblockIndexFirstLba_eq sdisk (by simp), Nat.zero_mul]
  · intro index hfit
    have hpos : 0 < (index + 1) * sdisk.memblockLbas :=
      Nat.mul_pos (Nat.succ_pos _) (memblockLbas_pos sdisk)
    rw [getMemblockIndexFirstLba_eq sdisk hfit, getMemblockIndexLastLba_eq sdisk hfit.le]
    omega
  · intro lba hlba hfit
    refine ⟨getMemblockIndexFromLba sdisk lba,
      ⟨hfit, (memblockIndex_iff sdisk hlba hfit).1 rfl⟩, ?_⟩
    rintro index ⟨hfit', hin⟩
    exact ((memblockIndex_iff sdisk hlba hfit').2 hin).symm

/-- Three devices in strips of four blocks, with sixteen entries in a memblock. -/
def threeMappedDevices : MappedDisk :=
  ⟨threeDevices, ⟨16, 4, rfl, by decide⟩, by decide⟩

/-- The hypotheses of `memblock_intervals_tile` are satisfiable: blocks 48 to 95
of three devices are memblock 1. -/
theorem memblock_intervals_three_devices :
    getMemblockIndexFirstLba 32 threeMappedDevices 1 = 48 ∧
      getMemblockIndexLastLba 32 threeMappedDevices 1 = 95 ∧
      getMemblockIndexFromLba threeMappedDevices 60 = 1 := by
  have hfit : (1 + 1) * threeMappedDevices.memblockLbas ≤ 2 ^ 32 := by decide
  have hfirst : getMemblockIndexFirstLba 32 threeMappedDevices 1 = 48 := by
    simp [getMemblockIndexFirstLba, threeMappedDevices, threeDevices, uint]
  have hlast : getMemblockIndexLastLba 32 threeMappedDevices 1 = 95 := by
    simp [getMemblockIndexLastLba, threeMappedDevices, threeDevices, uint]
  refine ⟨hfirst, hlast, ?_⟩
  rw [(memblock_intervals_tile threeMappedDevices 32).1 60 1 (by decide) hfit, hfirst, hlast]
  decide

end Memblock
end Shannon
