/-
# LBA striping

`shannon_memblock.h`: logical blocks are striped over the devices of a disk in
strips of `strip_size` blocks.  `get_sdev_id_from_lba` and `get_slot_from_lpmt`
give the device of an LBA and its slot in the map table of that device, and
`get_lba_from_lpmt_slot` goes back.

The slot is computed in three ways: it is the LBA itself on a single device,
shifts and masks do it when a stripe over all devices is a power of two, and a
division otherwise.  `getSlotFromLpmt_eq` is the formula all three compute, and
`stripe_bijection` is what the map tables rely on.

`strip_size` and `sdev_count` are 32-bit, LBAs and slots 64-bit, and every
operation is taken modulo its width.
-/

import Mathlib.Data.Nat.Bitwise
import Mathlib.Tactic.Ring

namespace Shannon
namespace Memblock

/-- The fields of `struct shannon_disk` the macros read.  A strip is a power of
two, there is a device, and a stripe over all devices fits 32 bits. -/
structure ShannonDisk where
  stripSize : ℕ
  stripSizeShift : ℕ
  sdevCount : ℕ
  strip_eq : stripSize = 2 ^ stripSizeShift
  sdev_pos : 1 ≤ sdevCount
  stripe_lt : stripSize * sdevCount < 2 ^ 32

/-- An `u32` value. -/
def u32 (x : ℕ) : ℕ := x % 2 ^ 32

/-- An `u64` value. -/
def u64 (x : ℕ) : ℕ := x % 2 ^ 64

/-- `find_first_bit(&w, size)`: the number of the lowest bit set, `size` if there
is none. -/
def findFirstBit (w size : ℕ) : ℕ := ((List.range size).find? fun i => w.testBit i).getD size

/-- `get_slot_from_lpmt`. -/
def getSlotFromLpmt (sdisk : ShannonDisk) (lba : ℕ) : ℕ :=
  let stripSize := u32 (sdisk.stripSize * sdisk.sdevCount)
  if sdisk.sdevCount = 1 then lba
  else if stripSize &&& u32 (stripSize - 1) = 0 then
    u64 (u64 ((lba >>> findFirstBit stripSize 32) <<< sdisk.stripSizeShift) +
      (lba &&& (sdisk.stripSize - 1)))
  else
    u64 (u64 ((lba / u32 (sdisk.stripSize * sdisk.sdevCount)) <<< sdisk.stripSizeShift) +
      (lba &&& (sdisk.stripSize - 1)))

/-- `get_sdev_id_from_lba`. -/
def getSdevIdFromLba (sdisk : ShannonDisk) (lba : ℕ) : ℕ :=
  lba / sdisk.stripSize % sdisk.sdevCount

/-- `get_lba_from_lpmt_slot`, for the device with the number `sdevId`. -/
def getLbaFromLpmtSlot (sdisk : ShannonDisk) (sdevId slot : ℕ) : ℕ :=
  u64 (u64 (u64 ((slot >>> sdisk.stripSizeShift) * u32 (sdisk.stripSize * sdisk.sdevCount)) +
    (slot &&& (sdisk.stripSize - 1))) + u32 (sdevId * sdisk.stripSize))

/-! ### The formulas -/

variable (sdisk : ShannonDisk)

theorem stripSize_pos : 0 < sdisk.stripSize := sdisk.strip_eq ▸ Nat.two_pow_pos _

theorem u32_stripe :
    u32 (sdisk.stripSize * sdisk.sdevCount) = sdisk.stripSize * sdisk.sdevCount :=
  Nat.mod_eq_of_lt sdisk.stripe_lt

theorem and_strip_eq_mod (x : ℕ) : x &&& (sdisk.stripSize - 1) = x % sdisk.stripSize := by
  rw [sdisk.strip_eq, Nat.and_two_pow_sub_one_eq_mod]

theorem findFirstBit_two_pow {e size : ℕ} (he : e < size) : findFirstBit (2 ^ e) size = e := by
  have hfind : (List.range size).find? (fun i => (2 ^ e).testBit i) = some e := by
    rw [List.find?_range_eq_some]
    refine ⟨Nat.testBit_two_pow_self, List.mem_range.2 he, fun j hj => ?_⟩
    simp [Nat.testBit_two_pow_of_ne (Nat.ne_of_gt hj)]
  rw [findFirstBit, hfind, Option.getD_some]

/-- The slot as a number: whole stripes before it count one strip each. -/
theorem slot_le_lba (lba : ℕ) :
    lba / (sdisk.stripSize * sdisk.sdevCount) * sdisk.stripSize + lba % sdisk.stripSize
      ≤ lba := by
  have h1 : lba / (sdisk.stripSize * sdisk.sdevCount) ≤ lba / sdisk.stripSize :=
    Nat.div_le_div_left (Nat.le_mul_of_pos_right _ sdisk.sdev_pos) (stripSize_pos sdisk)
  have h2 := Nat.mul_le_mul_right sdisk.stripSize h1
  have h3 := Nat.div_add_mod' lba sdisk.stripSize
  omega

/-- **The three branches compute one formula.** -/
theorem getSlotFromLpmt_eq {lba : ℕ} (hlba : lba < 2 ^ 64) :
    getSlotFromLpmt sdisk lba
      = lba / (sdisk.stripSize * sdisk.sdevCount) * sdisk.stripSize + lba % sdisk.stripSize := by
  have hle := slot_le_lba sdisk lba
  have hdiv : u64 (u64 (lba / (sdisk.stripSize * sdisk.sdevCount) * sdisk.stripSize)
      + lba % sdisk.stripSize)
      = lba / (sdisk.stripSize * sdisk.sdevCount) * sdisk.stripSize + lba % sdisk.stripSize := by
    rw [u64, u64, Nat.mod_eq_of_lt (a := lba / _ * _) (by omega), Nat.mod_eq_of_lt (by omega)]
  have hstripe : 0 < sdisk.stripSize * sdisk.sdevCount :=
    Nat.mul_pos (stripSize_pos sdisk) sdisk.sdev_pos
  simp only [getSlotFromLpmt, u32_stripe, and_strip_eq_mod, Nat.shiftLeft_eq, ← sdisk.strip_eq]
  split_ifs with hone hpow
  · rw [hone, Nat.mul_one, Nat.div_add_mod']
  · -- the stripe is a power of two, and its exponent is the first bit set
    have hlt := sdisk.stripe_lt
    rw [u32, Nat.mod_eq_of_lt (by omega),
      Nat.and_sub_one_eq_zero_iff_isPowerOfTwo hstripe.ne'] at hpow
    obtain ⟨e, he⟩ := hpow
    have he32 : e < 32 := (Nat.pow_lt_pow_iff_right (by decide)).1 (he ▸ hlt)
    rw [he, findFirstBit_two_pow he32, Nat.shiftRight_eq_div_pow, ← he]
    exact hdiv
  · exact hdiv

/-- The LBA as a number, where it fits 64 bits. -/
theorem getLbaFromLpmtSlot_eq {sdevId slot : ℕ} (hid : sdevId < sdisk.sdevCount)
    (hfit : slot / sdisk.stripSize * (sdisk.stripSize * sdisk.sdevCount)
      + slot % sdisk.stripSize + sdevId * sdisk.stripSize < 2 ^ 64) :
    getLbaFromLpmtSlot sdisk sdevId slot
      = slot / sdisk.stripSize * (sdisk.stripSize * sdisk.sdevCount)
        + slot % sdisk.stripSize + sdevId * sdisk.stripSize := by
  have hsid : sdevId * sdisk.stripSize < 2 ^ 32 := by
    have := Nat.mul_le_mul_left sdisk.stripSize hid.le
    have := sdisk.stripe_lt
    rw [Nat.mul_comm]
    omega
  rw [getLbaFromLpmtSlot, u32_stripe, and_strip_eq_mod, Nat.shiftRight_eq_div_pow,
    ← sdisk.strip_eq, u32, Nat.mod_eq_of_lt hsid]
  simp only [u64]
  rw [Nat.mod_eq_of_lt (a := slot / _ * _) (by omega),
    Nat.mod_eq_of_lt (a := _ + slot % _) (by omega), Nat.mod_eq_of_lt hfit]

/-! ### Back and forth -/

/-- Strip within the stripe, stripe, and block within the strip make up the
LBA. -/
theorem lba_decompose (lba : ℕ) :
    lba / (sdisk.stripSize * sdisk.sdevCount) * (sdisk.stripSize * sdisk.sdevCount)
      + lba % sdisk.stripSize + lba / sdisk.stripSize % sdisk.sdevCount * sdisk.stripSize
        = lba := by
  rw [← Nat.div_div_eq_div_mul]
  have h1 := Nat.div_add_mod lba sdisk.stripSize
  have h2 := Nat.div_add_mod (lba / sdisk.stripSize) sdisk.sdevCount
  generalize lba / sdisk.stripSize / sdisk.sdevCount = a at *
  generalize lba / sdisk.stripSize % sdisk.sdevCount = b at *
  calc a * (sdisk.stripSize * sdisk.sdevCount) + lba % sdisk.stripSize + b * sdisk.stripSize
      = sdisk.stripSize * (sdisk.sdevCount * a + b) + lba % sdisk.stripSize := by ring
    _ = lba := by rw [h2, h1]

theorem slot_div_strip (lba : ℕ) :
    (lba / (sdisk.stripSize * sdisk.sdevCount) * sdisk.stripSize + lba % sdisk.stripSize)
      / sdisk.stripSize = lba / (sdisk.stripSize * sdisk.sdevCount) := by
  rw [Nat.add_comm, Nat.add_mul_div_right _ _ (stripSize_pos sdisk),
    Nat.div_eq_of_lt (Nat.mod_lt _ (stripSize_pos sdisk)), Nat.zero_add]

theorem slot_mod_strip (lba : ℕ) :
    (lba / (sdisk.stripSize * sdisk.sdevCount) * sdisk.stripSize + lba % sdisk.stripSize)
      % sdisk.stripSize = lba % sdisk.stripSize := by
  rw [Nat.add_comm, Nat.add_mul_mod_self_right, Nat.mod_mod]

theorem lba_of_slot_of_lba {lba : ℕ} (hlba : lba < 2 ^ 64) :
    getLbaFromLpmtSlot sdisk (getSdevIdFromLba sdisk lba) (getSlotFromLpmt sdisk lba) = lba := by
  have hid : getSdevIdFromLba sdisk lba < sdisk.sdevCount := Nat.mod_lt _ sdisk.sdev_pos
  have hsum : getSlotFromLpmt sdisk lba / sdisk.stripSize * (sdisk.stripSize * sdisk.sdevCount)
      + getSlotFromLpmt sdisk lba % sdisk.stripSize
      + getSdevIdFromLba sdisk lba * sdisk.stripSize = lba := by
    rw [getSlotFromLpmt_eq sdisk hlba, slot_div_strip, slot_mod_strip]
    exact lba_decompose sdisk lba
  rw [getLbaFromLpmtSlot_eq sdisk hid (by rw [hsum]; exact hlba), hsum]

theorem lba_of_slot_parts (sdevId slot : ℕ) :
    (slot / sdisk.stripSize * (sdisk.stripSize * sdisk.sdevCount)
      + slot % sdisk.stripSize + sdevId * sdisk.stripSize) / sdisk.stripSize
        = sdisk.sdevCount * (slot / sdisk.stripSize) + sdevId ∧
    (slot / sdisk.stripSize * (sdisk.stripSize * sdisk.sdevCount)
      + slot % sdisk.stripSize + sdevId * sdisk.stripSize) % sdisk.stripSize
        = slot % sdisk.stripSize := by
  have hpos := stripSize_pos sdisk
  have hform : slot / sdisk.stripSize * (sdisk.stripSize * sdisk.sdevCount)
      + slot % sdisk.stripSize + sdevId * sdisk.stripSize
      = slot % sdisk.stripSize
        + (sdisk.sdevCount * (slot / sdisk.stripSize) + sdevId) * sdisk.stripSize := by ring
  rw [hform]
  constructor
  · rw [Nat.add_mul_div_right _ _ hpos, Nat.div_eq_of_lt (Nat.mod_lt _ hpos), Nat.zero_add]
  · rw [Nat.add_mul_mod_self_right, Nat.mod_mod]

theorem sdevId_and_slot_of_lba {sdevId slot : ℕ} (hid : sdevId < sdisk.sdevCount)
    (hfit : slot / sdisk.stripSize * (sdisk.stripSize * sdisk.sdevCount)
      + slot % sdisk.stripSize + sdevId * sdisk.stripSize < 2 ^ 64) :
    getSdevIdFromLba sdisk (getLbaFromLpmtSlot sdisk sdevId slot) = sdevId ∧
      getSlotFromLpmt sdisk (getLbaFromLpmtSlot sdisk sdevId slot) = slot := by
  obtain ⟨hdiv, hmod⟩ := lba_of_slot_parts sdisk sdevId slot
  rw [getLbaFromLpmtSlot_eq sdisk hid hfit, getSlotFromLpmt_eq sdisk hfit]
  constructor
  · rw [getSdevIdFromLba, hdiv, Nat.mul_add_mod, Nat.mod_eq_of_lt hid]
  · rw [← Nat.div_div_eq_div_mul, hdiv, hmod, Nat.mul_add_div sdisk.sdev_pos,
      Nat.div_eq_of_lt hid, Nat.add_zero, Nat.div_add_mod']

/-- **Striping is a bijection.**  The LBA comes back from its device and slot,
whichever branch computed the slot; the LBA of a device and a slot has that
device and that slot, as long as it fits 64 bits; and two LBAs never share a
device and a slot. -/
theorem stripe_bijection :
    (∀ lba, lba < 2 ^ 64 →
      getLbaFromLpmtSlot sdisk (getSdevIdFromLba sdisk lba) (getSlotFromLpmt sdisk lba) = lba) ∧
    (∀ sdevId slot, sdevId < sdisk.sdevCount →
      slot / sdisk.stripSize * (sdisk.stripSize * sdisk.sdevCount)
        + slot % sdisk.stripSize + sdevId * sdisk.stripSize < 2 ^ 64 →
      getSdevIdFromLba sdisk (getLbaFromLpmtSlot sdisk sdevId slot) = sdevId ∧
        getSlotFromLpmt sdisk (getLbaFromLpmtSlot sdisk sdevId slot) = slot) ∧
    ∀ lba lba', lba < 2 ^ 64 → lba' < 2 ^ 64 →
      getSdevIdFromLba sdisk lba = getSdevIdFromLba sdisk lba' →
      getSlotFromLpmt sdisk lba = getSlotFromLpmt sdisk lba' → lba = lba' := by
  refine ⟨fun lba h => lba_of_slot_of_lba sdisk h,
    fun sdevId slot hid hfit => sdevId_and_slot_of_lba sdisk hid hfit,
    fun lba lba' h h' hid hslot => ?_⟩
  rw [← lba_of_slot_of_lba sdisk h, ← lba_of_slot_of_lba sdisk h', hid, hslot]

/-- Three devices in strips of four blocks. -/
def threeDevices : ShannonDisk := ⟨4, 2, 3, rfl, by decide, by decide⟩

/-- The hypotheses of `stripe_bijection` are satisfiable: slot 13 of device 2 of
three devices in strips of 4 is block 45. -/
theorem stripe_bijection_three_devices :
    getSdevIdFromLba threeDevices 45 = 2 ∧ getSlotFromLpmt threeDevices 45 = 13 ∧
      getLbaFromLpmtSlot threeDevices (getSdevIdFromLba threeDevices 45)
        (getSlotFromLpmt threeDevices 45) = 45 := by
  have hlba : getLbaFromLpmtSlot threeDevices 2 13 = 45 := by
    simp [getLbaFromLpmtSlot, threeDevices, u64, u32]
  have h := (stripe_bijection threeDevices).2.1 2 13 (by decide) (by simp [threeDevices])
  rw [hlba] at h
  exact ⟨h.1, h.2, (stripe_bijection threeDevices).1 45 (by decide)⟩

end Memblock
end Shannon
