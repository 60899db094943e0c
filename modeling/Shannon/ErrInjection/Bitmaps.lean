/-
# The bitmaps of injected flash errors

`shannon_err_injection.c`.  `init_err_injection` allocates seven bitmaps, sized by
the geometry of the flash.  The `mark_fake_*` functions set the bit of a location in
one of them, and `is_fake_*` says whether a command to a location is to fail.

| bitmap | bytes | bit of a location |
| --- | --- | --- |
| `fake_*_lun` (three) | one word for 64 luns | `lun` |
| `fake_rd_bad_lunpba` | `N / 8`, paged up | `lun * (N / lun_count) + pba` |
| `fake_wr_bad_lunppa` | `N / 8`, paged up | `lun * (N / lun_count) + ppa` |
| `fake_er_bad_block` | `(N + 7) / 8`, paged up | `(int)(lun * eblocks_in_lun + blk)` |
| `fake_twin_rd_bad_lunpba` | `2 N / 8`, paged up | `64 (N / 64) head + lun (N / lun_count) + pba` |

Each has a geometry it is wrong for: the quotients `N / 8` are rounded down before they
are paged up, the erase index is an `int`, and the second half of the twin bitmap starts
at a whole word, inside the first half unless that ends at one.
-/

import Shannon.Lib.Bitmap
import Mathlib.Tactic.Ring

namespace Shannon
namespace ErrInjection

open Lib

/-- The bitmaps of `struct shannon_dev`. -/
inductive Fake
  | badLun | cmdTimeoutLun | rdBadLun | rdBadLunpba | wrBadLunppa | erBadBlock | twinRdBadLunpba
  deriving DecidableEq, Repr

/-- `(n + 4095) & ~4095`. -/
def pageUp (n : ℕ) : ℕ := (n + 4095) / 4096 * 4096

/-- The counts of `struct shannon_dev` that describe the flash. -/
structure Counts where
  lunCount : ℕ
  sbCount : ℕ
  planes : ℕ
  pagesInEblock : ℕ
  logicbsInPage : ℕ
  logicbsInSiblingEblock : ℕ
  eblocksInLun : ℕ

namespace Counts

variable (g : Counts)

def all : List ℕ :=
  [g.lunCount, g.sbCount, g.planes, g.pagesInEblock, g.logicbsInPage, g.logicbsInSiblingEblock,
    g.eblocksInLun]

/-- The pages of a lun. -/
def ppas : ℕ := g.sbCount * g.planes * g.pagesInEblock

/-- The logical blocks of a lun. -/
def pbas : ℕ := g.sbCount * g.logicbsInSiblingEblock

/-- The sizes `init_err_injection` computes, in bytes. -/
def size : Fake → ℕ
  | .badLun | .cmdTimeoutLun | .rdBadLun => (g.lunCount + 8 * 8 - 1) / (8 * 8) * 8
  | .rdBadLunpba => pageUp (g.lunCount * g.sbCount * g.logicbsInSiblingEblock / 8)
  | .wrBadLunppa => pageUp (g.pagesInEblock * g.planes * g.sbCount * g.lunCount / 8)
  | .erBadBlock => pageUp ((g.eblocksInLun * g.lunCount + 7) / 8)
  | .twinRdBadLunpba => pageUp (g.lunCount * g.logicbsInSiblingEblock * 2 / 8)

end Counts

/-- A geometry: positive `int`s, whose bitmaps are smaller than `2^31` bytes.  Neither the
products in `unsigned long` nor the sizes in `int` wrap then. -/
structure Geometry extends Counts where
  pos : ∀ n ∈ toCounts.all, 0 < n
  int_lt : ∀ n ∈ toCounts.all, n < 2 ^ 31
  size_lt : ∀ f, toCounts.size f < 2 ^ 31

/-- What the functions read of `struct shannon_dev`. -/
structure ShannonDev where
  geometry : Geometry
  rweErrBufDone : Bool
  twinReadErr : Bool
  mbrEblocks : ℕ
  fakeBadLunSkipmbr : Bool

/-- The bitmaps the device points to. -/
abbrev Memory := Fake → Bitmap

/-- `init_err_injection`.  `vmalloc f` says whether the allocation of `f` succeeds; each
one that does is cleared, and one that does not frees the ones before it. -/
def initErrInjection (sdev : ShannonDev) (vmalloc : Fake → Bool) : Option (ShannonDev × Memory) :=
  if vmalloc .badLun && vmalloc .cmdTimeoutLun && vmalloc .rdBadLun && vmalloc .rdBadLunpba
      && vmalloc .wrBadLunppa && vmalloc .erBadBlock && vmalloc .twinRdBadLunpba then
    some ({ sdev with rweErrBufDone := true },
      fun f => Bitmap.zeroed (sdev.geometry.size f))
  else
    none

/-! ### Marks and queries -/

section

variable (sdev : ShannonDev)

/-- Bit `nr` of the `u64` at index `base` of a bitmap. -/
def bitAt (base : ℕ) (nr : ℤ) : ℤ := 64 * base + nr

/-- A mark: `shannon_set_bit(nr, (u64 *)fake + base)` once the bitmaps are there. -/
def markFake (fake : Fake) (base : ℕ) (nr : ℤ) (mem : Memory) : Option Memory :=
  if sdev.rweErrBufDone then setIn mem (fake, bitAt base nr) else some mem

/-- A test: `shannon_test_bit(nr, (u64 *)fake + base)`. -/
def testFake (fake : Fake) (base : ℕ) (nr : ℤ) (mem : Memory) : Option Bool :=
  if sdev.rweErrBufDone then (mem fake).test (bitAt base nr) else some false

/-- The value an `int` holds. -/
def int (n : ℤ) : ℤ := n.bmod (2 ^ 32)

/-- `offset` in `fake_wr_bad_lunppa`. -/
def offsetWr (lun ppa : ℕ) : ℕ :=
  lun * sdev.geometry.sbCount * sdev.geometry.planes * sdev.geometry.pagesInEblock + ppa

/-- `offset` in `fake_rd_bad_lunpba`. -/
def offsetRd (lun pba : ℕ) : ℕ :=
  lun * sdev.geometry.sbCount * sdev.geometry.logicbsInSiblingEblock + pba

/-- `offset` in one half of `fake_twin_rd_bad_lunpba`. -/
def offsetTwin (lun pba : ℕ) : ℕ :=
  lun * sdev.geometry.logicbsInSiblingEblock + pba % sdev.geometry.logicbsInSiblingEblock

/-- `base_offset`: the word the half of a head starts at. -/
def baseOffset (headIndex : ℕ) : ℕ :=
  if headIndex = 0 then 0
  else sdev.geometry.lunCount * sdev.geometry.logicbsInSiblingEblock / 64

/-- `mark_fake_wr_bad_lunppa`. -/
def markFakeWrBadLunppa (lun ppa : ℕ) : Memory → Option Memory :=
  markFake sdev .wrBadLunppa (offsetWr sdev lun ppa / 64) (offsetWr sdev lun ppa % 64 : ℕ)

/-- `mark_fake_rd_bad_lunpba`. -/
def markFakeRdBadLunpba (lun pba : ℕ) : Memory → Option Memory :=
  markFake sdev .rdBadLunpba (offsetRd sdev lun pba / 64) (offsetRd sdev lun pba % 64 : ℕ)

/-- `mark_fake_er_bad_block`. -/
def markFakeErBadBlock (lun blk : ℕ) : Memory → Option Memory :=
  markFake sdev .erBadBlock 0 (int (lun * sdev.geometry.eblocksInLun + blk))

/-- `mark_fake_twin_rd_bad_lunpba`. -/
def markFakeTwinRdBadLunpba (lun pba headIndex : ℕ) : Memory → Option Memory :=
  markFake sdev .twinRdBadLunpba (baseOffset sdev headIndex + offsetTwin sdev lun pba / 64)
    (offsetTwin sdev lun pba % 64 : ℕ)

/-- `is_fake_bad_lun`. -/
def isFakeBadLun (lun : ℕ) (mem : Memory) : Option Bool := testFake sdev .badLun 0 lun mem

/-- `is_fake_rd_bad_lun`. -/
def isFakeRdBadLun (lun : ℕ) (mem : Memory) : Option Bool := testFake sdev .rdBadLun 0 lun mem

/-- A whole lun fails, except in the blocks of the MBR where these are spared. -/
def lunFails (blkIndex : ℕ) : Bool :=
  !(decide (blkIndex < sdev.mbrEblocks) && sdev.fakeBadLunSkipmbr)

/-- `is_fake_wr_bad_lunppa`. -/
def isFakeWrBadLunppa (lun ppa : ℕ) (mem : Memory) : Option Bool :=
  if sdev.rweErrBufDone = false then some false else do
    if ← testFake sdev .wrBadLunppa (offsetWr sdev lun ppa / 64) (offsetWr sdev lun ppa % 64 : ℕ)
        mem then
      return true
    if ← isFakeBadLun sdev lun mem then
      return lunFails sdev (ppa / sdev.geometry.pagesInEblock)
    return false

/-- `is_fake_rd_bad_lunpba`. -/
def isFakeRdBadLunpba (lun pba : ℕ) (mem : Memory) : Option Bool :=
  let blkIndex := pba / sdev.geometry.logicbsInPage / sdev.geometry.pagesInEblock
  if sdev.rweErrBufDone = false then some false else do
    if ← testFake sdev .rdBadLunpba (offsetRd sdev lun pba / 64) (offsetRd sdev lun pba % 64 : ℕ)
        mem then
      return true
    if ← isFakeBadLun sdev lun mem then
      return lunFails sdev blkIndex
    if ← isFakeRdBadLun sdev lun mem then
      return lunFails sdev blkIndex
    return false

/-- `is_fake_er_bad_block`. -/
def isFakeErBadBlock (lun blk : ℕ) (mem : Memory) : Option Bool :=
  if sdev.rweErrBufDone = false then some false else do
    if ← testFake sdev .erBadBlock 0 (int (lun * sdev.geometry.eblocksInLun + blk)) mem then
      return true
    if ← isFakeBadLun sdev lun mem then
      return lunFails sdev blk
    return false

/-- `is_fake_twin_rd_bad_lunpba`. -/
def isFakeTwinRdBadLunpba (lun pba headIndex : ℕ) (mem : Memory) : Option Bool :=
  if sdev.rweErrBufDone = false then some false
  else if sdev.twinReadErr = false then some false
  else testFake sdev .twinRdBadLunpba
    (baseOffset sdev headIndex + offsetTwin sdev lun pba / 64)
    (offsetTwin sdev lun pba % 64 : ℕ) mem

end

/-! ### Runs of marks -/

/-- The arguments of a mark, and of the query about the same location. -/
inductive Mark
  | wr (lun ppa : ℕ)
  | rd (lun pba : ℕ)
  | er (lun blk : ℕ)
  | twin (lun pba headIndex : ℕ)
  deriving DecidableEq, Repr

/-- The mark made. -/
def mark (sdev : ShannonDev) (mem : Memory) : Mark → Option Memory
  | .wr lun ppa => markFakeWrBadLunppa sdev lun ppa mem
  | .rd lun pba => markFakeRdBadLunpba sdev lun pba mem
  | .er lun blk => markFakeErBadBlock sdev lun blk mem
  | .twin lun pba headIndex => markFakeTwinRdBadLunpba sdev lun pba headIndex mem

/-- The query for it. -/
def isFake (sdev : ShannonDev) (mem : Memory) : Mark → Option Bool
  | .wr lun ppa => isFakeWrBadLunppa sdev lun ppa mem
  | .rd lun pba => isFakeRdBadLunpba sdev lun pba mem
  | .er lun blk => isFakeErBadBlock sdev lun blk mem
  | .twin lun pba headIndex => isFakeTwinRdBadLunpba sdev lun pba headIndex mem

section

variable (g : Geometry)

/-- The arguments name a location of the flash; all are `int`s. -/
def InRange : Mark → Prop
  | .wr lun ppa => lun < g.lunCount ∧ ppa < g.ppas ∧ ppa < 2 ^ 31
  | .rd lun pba => lun < g.lunCount ∧ pba < g.pbas ∧ pba < 2 ^ 31
  | .er lun blk => lun < g.lunCount ∧ blk < g.eblocksInLun
  | .twin lun pba headIndex =>
      lun < g.lunCount ∧ pba < g.pbas ∧ pba < 2 ^ 31 ∧ (headIndex = 0 ∨ headIndex = 1)

/-- The location named: a twin mark is for its block in every superblock. -/
def location : Mark → Mark
  | .twin lun pba headIndex => .twin lun (pba % g.logicbsInSiblingEblock) headIndex
  | m => m

/-- **Injected errors hit exactly the marked locations.**  Marks in range are made, and a
query in range is answered afterwards, without an access outside of a bitmap; the answer
says whether the location was marked. -/
def HitsMarked (sdev : ShannonDev) (mem : Memory) : Prop :=
  ∀ ms : List Mark, (∀ m ∈ ms, InRange sdev.geometry m) →
    ∃ mem', run (mark sdev) mem ms = some mem' ∧
      ∀ q, InRange sdev.geometry q → ∃ b, isFake sdev mem' q = some b ∧
        (b = true ↔ ∃ m ∈ ms, location sdev.geometry m = location sdev.geometry q)

/-- The last bits of a bitmap of `bits` bits, `perLun` for each lun, are in it: there are
none after the last whole byte, or the last page has room, or no `int` reaches them. -/
def Covered (bits perLun : ℕ) : Prop :=
  bits % 8 = 0 ∨ bits / 8 % 4096 ≠ 0 ∨ 2 ^ 31 + bits % 8 ≤ perLun

/-- The geometries the bitmaps are right for. -/
structure Fits : Prop where
  rd : Covered (g.lunCount * g.pbas) g.pbas
  wr : Covered (g.lunCount * g.ppas) g.ppas
  er : g.lunCount * g.eblocksInLun ≤ 2 ^ 31
  twin : 64 ∣ g.lunCount * g.logicbsInSiblingEblock

/-- The bitmap and the bit of a location. -/
def cell : Mark → Fake × ℤ
  | .wr lun ppa => (.wrBadLunppa, (lun * g.ppas + ppa : ℕ))
  | .rd lun pba => (.rdBadLunpba, (lun * g.pbas + pba : ℕ))
  | .er lun blk => (.erBadBlock, int (lun * g.eblocksInLun + blk))
  | .twin lun pba headIndex => (.twinRdBadLunpba,
      (64 * (if headIndex = 0 then 0 else g.lunCount * g.logicbsInSiblingEblock / 64)
        + (lun * g.logicbsInSiblingEblock + pba % g.logicbsInSiblingEblock) : ℕ))

end

/-! ### From the functions to cells -/

theorem bitAt_div_mod (base offset : ℕ) :
    bitAt (base + offset / 64) (offset % 64 : ℕ) = (64 * base + offset : ℕ) := by
  unfold bitAt
  omega

theorem bitAt_zero (nr : ℤ) : bitAt 0 nr = nr := by
  simp [bitAt]

section

variable {sdev : ShannonDev} {mem : Memory}

theorem offsetWr_eq (lun ppa : ℕ) : offsetWr sdev lun ppa = lun * sdev.geometry.ppas + ppa := by
  unfold offsetWr Counts.ppas
  ring

theorem offsetRd_eq (lun pba : ℕ) : offsetRd sdev lun pba = lun * sdev.geometry.pbas + pba := by
  unfold offsetRd Counts.pbas
  ring

theorem markFake_div_mod (hdone : sdev.rweErrBufDone = true) (fake : Fake) (base offset : ℕ) :
    markFake sdev fake (base + offset / 64) (offset % 64 : ℕ) mem
      = setIn mem (fake, (64 * base + offset : ℕ)) := by
  rw [markFake, if_pos hdone, bitAt_div_mod]

theorem testFake_div_mod (hdone : sdev.rweErrBufDone = true) (fake : Fake) (base offset : ℕ) :
    testFake sdev fake (base + offset / 64) (offset % 64 : ℕ) mem
      = (mem fake).test (64 * base + offset : ℕ) := by
  rw [testFake, if_pos hdone, bitAt_div_mod]

/-- Every mark sets the bit of its cell. -/
theorem mark_eq (hdone : sdev.rweErrBufDone = true) (m : Mark) :
    mark sdev mem m = setIn mem (cell sdev.geometry m) := by
  cases m with
  | wr lun ppa =>
      rw [mark, markFakeWrBadLunppa, offsetWr_eq, cell]
      simpa using @markFake_div_mod sdev mem hdone .wrBadLunppa 0 (lun * sdev.geometry.ppas + ppa)
  | rd lun pba =>
      rw [mark, markFakeRdBadLunpba, offsetRd_eq, cell]
      simpa using @markFake_div_mod sdev mem hdone .rdBadLunpba 0 (lun * sdev.geometry.pbas + pba)
  | er lun blk =>
      rw [mark, markFakeErBadBlock, markFake, if_pos hdone, bitAt_zero]
      rfl
  | twin lun pba headIndex => exact markFake_div_mod hdone _ _ _

/-- No whole lun fails. -/
structure NoLun (g : Geometry) (mem : Memory) : Prop where
  badLun : ∀ lun < g.lunCount, (mem .badLun).test lun = some false
  rdBadLun : ∀ lun < g.lunCount, (mem .rdBadLun).test lun = some false

theorem isFakeBadLun_eq (hdone : sdev.rweErrBufDone = true) (h : NoLun sdev.geometry mem) {lun : ℕ}
    (hlun : lun < sdev.geometry.lunCount) : isFakeBadLun sdev lun mem = some false := by
  rw [isFakeBadLun, testFake, if_pos hdone, bitAt_zero]
  exact h.badLun lun hlun

theorem isFakeRdBadLun_eq (hdone : sdev.rweErrBufDone = true) (h : NoLun sdev.geometry mem)
    {lun : ℕ} (hlun : lun < sdev.geometry.lunCount) :
    isFakeRdBadLun sdev lun mem = some false := by
  rw [isFakeRdBadLun, testFake, if_pos hdone, bitAt_zero]
  exact h.rdBadLun lun hlun

/-- Without a failed lun every query tests the bit of its cell. -/
theorem isFake_eq (hdone : sdev.rweErrBufDone = true) (htwin : sdev.twinReadErr = true)
    (h : NoLun sdev.geometry mem) {q : Mark} (hq : InRange sdev.geometry q) :
    isFake sdev mem q = (mem (cell sdev.geometry q).1).test (cell sdev.geometry q).2 := by
  cases q with
  | wr lun ppa =>
      have htest := @testFake_div_mod sdev mem hdone .wrBadLunppa 0
        (lun * sdev.geometry.ppas + ppa)
      rw [Nat.zero_add, Nat.mul_zero, Nat.zero_add] at htest
      rw [isFake, isFakeWrBadLunppa, offsetWr_eq, htest, isFakeBadLun_eq hdone h hq.1, cell]
      rcases (mem .wrBadLunppa).test _ with _ | _ | _ <;> simp [hdone]
  | rd lun pba =>
      have htest := @testFake_div_mod sdev mem hdone .rdBadLunpba 0
        (lun * sdev.geometry.pbas + pba)
      rw [Nat.zero_add, Nat.mul_zero, Nat.zero_add] at htest
      rw [isFake, isFakeRdBadLunpba, offsetRd_eq, htest, isFakeBadLun_eq hdone h hq.1,
        isFakeRdBadLun_eq hdone h hq.1, cell]
      rcases (mem .rdBadLunpba).test _ with _ | _ | _ <;> simp [hdone]
  | er lun blk =>
      rw [isFake, isFakeErBadBlock, testFake, if_pos hdone, bitAt_zero,
        isFakeBadLun_eq hdone h hq.1, cell]
      rcases (mem .erBadBlock).test _ with _ | _ | _ <;> simp [hdone]
  | twin lun pba headIndex =>
      rw [isFake, isFakeTwinRdBadLunpba, if_neg (by simp [hdone]), if_neg (by simp [htwin])]
      exact testFake_div_mod hdone _ _ _

end

/-! ### The bits of a geometry -/

theorem mul_add_inj {n a b c d : ℕ} (hb : b < n) (hd : d < n) (h : a * n + b = c * n + d) :
    a = c ∧ b = d := by
  have hn : 0 < n := Nat.zero_lt_of_lt hb
  have hdiv := congrArg (· / n) h
  have hmod := congrArg (· % n) h
  simp only [Nat.mul_add_mod_self_right, Nat.mod_eq_of_lt hb, Nat.mod_eq_of_lt hd] at hmod
  simp only [Nat.mul_comm _ n, Nat.mul_add_div hn, Nat.div_eq_of_lt hb, Nat.div_eq_of_lt hd,
    Nat.add_zero] at hdiv
  exact ⟨hdiv, hmod⟩

/-- The last bits of a bitmap sized by `N / 8`. -/
theorem covered_iff {luns perLun : ℕ} (hluns : 0 < luns) (hper : 0 < perLun) :
    (∀ lun < luns, ∀ p < perLun, p < 2 ^ 31 →
      lun * perLun + p < 8 * pageUp (luns * perLun / 8)) ↔ Covered (luns * perLun) perLun := by
  constructor
  · intro h
    by_contra hnot
    have hlast := h (luns - 1) (by omega) (perLun - luns * perLun % 8)
    unfold Covered at hnot
    unfold pageUp at hlast
    rw [Nat.sub_mul, Nat.one_mul] at hlast
    have hle : perLun ≤ luns * perLun := Nat.le_mul_of_pos_left _ hluns
    generalize luns * perLun = n at *
    omega
  · intro h lun hlun p hp hint
    have hle : (lun + 1) * perLun ≤ luns * perLun := Nat.mul_le_mul_right _ hlun
    rw [Nat.add_mul, Nat.one_mul] at hle
    unfold Covered at h
    unfold pageUp
    generalize luns * perLun = n at *
    omega

section

variable {g : Geometry}

theorem Geometry.lun_pos : 0 < g.lunCount := g.pos _ (by simp [Counts.all])

theorem Geometry.sb_pos : 0 < g.sbCount := g.pos _ (by simp [Counts.all])

theorem Geometry.sibling_pos : 0 < g.logicbsInSiblingEblock := g.pos _ (by simp [Counts.all])

theorem Geometry.eblocks_pos : 0 < g.eblocksInLun := g.pos _ (by simp [Counts.all])

theorem Geometry.ppas_pos : 0 < g.ppas := by
  have hplanes : 0 < g.planes := g.pos _ (by simp [Counts.all])
  have hpages : 0 < g.pagesInEblock := g.pos _ (by simp [Counts.all])
  exact Nat.mul_pos (Nat.mul_pos g.sb_pos hplanes) hpages

theorem Geometry.pbas_pos : 0 < g.pbas := Nat.mul_pos g.sb_pos g.sibling_pos

theorem size_rd : g.size .rdBadLunpba = pageUp (g.lunCount * g.pbas / 8) := by
  rw [Counts.size, Counts.pbas, Nat.mul_assoc]

theorem size_wr : g.size .wrBadLunppa = pageUp (g.lunCount * g.ppas / 8) := by
  have hbits : g.pagesInEblock * g.planes * g.sbCount * g.lunCount = g.lunCount * g.ppas := by
    unfold Counts.ppas
    ring
  rw [Counts.size, hbits]

theorem int_of_lt {n : ℤ} (h0 : 0 ≤ n) (hn : n < 2 ^ 31) : int n = n :=
  Int.bmod_eq_of_le (by omega) (by omega)

/-- Up to `2^31` blocks the erase index is the number of the block. -/
theorem int_er (h : g.lunCount * g.eblocksInLun ≤ 2 ^ 31) {lun blk : ℕ}
    (hr : InRange g (.er lun blk)) :
    int (lun * g.eblocksInLun + blk) = (lun * g.eblocksInLun + blk : ℕ) := by
  obtain ⟨hlun, hblk⟩ := hr
  have hle : (lun + 1) * g.eblocksInLun ≤ g.lunCount * g.eblocksInLun :=
    Nat.mul_le_mul_right _ hlun
  rw [Nat.add_mul, Nat.one_mul] at hle
  have hcast : (lun * g.eblocksInLun + blk : ℤ) = (lun * g.eblocksInLun + blk : ℕ) := by
    push_cast
    rfl
  rw [hcast, int_of_lt (by omega) (by omega)]

/-- The erase index fits in an `int` for all blocks or the bit `2^31` is at `-2^31`. -/
theorem er_inside_iff : (∀ lun blk, InRange g (.er lun blk) →
      InBytes (g.size (cell g (.er lun blk)).1) (cell g (.er lun blk)).2) ↔
    g.lunCount * g.eblocksInLun ≤ 2 ^ 31 := by
  simp only [cell]
  constructor
  · intro h
    by_contra hlt
    rw [not_le] at hlt
    have hbit := h (2 ^ 31 / g.eblocksInLun) (2 ^ 31 % g.eblocksInLun)
      ⟨Nat.div_lt_of_lt_mul (by rwa [Nat.mul_comm]), Nat.mod_lt _ g.eblocks_pos⟩
    have hsum : ((2 ^ 31 / g.eblocksInLun : ℕ) : ℤ) * g.eblocksInLun
        + (2 ^ 31 % g.eblocksInLun : ℕ) = 2 ^ 31 := by
      exact_mod_cast Nat.div_add_mod' (2 ^ 31) g.eblocksInLun
    rw [hsum] at hbit
    exact absurd hbit.1 (by decide)
  · rintro h lun blk ⟨hlun, hblk⟩
    have hle : (lun + 1) * g.eblocksInLun ≤ g.lunCount * g.eblocksInLun :=
      Nat.mul_le_mul_right _ hlun
    rw [Nat.add_mul, Nat.one_mul] at hle
    have hsize : g.lunCount * g.eblocksInLun ≤ 8 * g.size .erBadBlock := by
      rw [Counts.size, pageUp, Nat.mul_comm g.eblocksInLun]
      omega
    rw [int_er h ⟨hlun, hblk⟩]
    constructor <;> omega

/-- The second half of the twin bitmap starts in the first one unless that fills its
last word. -/
theorem twin_dvd_of_apart (h : Apart g.size (cell g) (location g) (InRange g)) :
    64 ∣ g.lunCount * g.logicbsInSiblingEblock := by
  have hS := g.sibling_pos
  have hL := g.lun_pos
  have hSlt : g.logicbsInSiblingEblock < 2 ^ 31 := g.int_lt _ (by simp [Counts.all])
  have hSle : g.logicbsInSiblingEblock ≤ g.pbas := Nat.le_mul_of_pos_left _ g.sb_pos
  by_contra hdvd
  -- the bit the half of head 1 starts at, as a bit of head 0
  obtain ⟨start, hstart⟩ : ∃ n, n = 64 * (g.lunCount * g.logicbsInSiblingEblock / 64) := ⟨_, rfl⟩
  have hlt : start < g.lunCount * g.logicbsInSiblingEblock := by omega
  have hlun : start / g.logicbsInSiblingEblock < g.lunCount :=
    Nat.div_lt_of_lt_mul (by rwa [Nat.mul_comm])
  have hmod : start % g.logicbsInSiblingEblock < g.logicbsInSiblingEblock := Nat.mod_lt _ hS
  have hcell : cell g (.twin (start / g.logicbsInSiblingEblock)
      (start % g.logicbsInSiblingEblock) 0) = cell g (.twin 0 0 1) := by
    rw [cell, cell, if_pos rfl, if_neg (by decide), ← hstart, Nat.mod_mod, Nat.div_add_mod',
      Nat.zero_mod, Nat.zero_mul, Nat.mul_zero, Nat.zero_add, Nat.zero_add, Nat.add_zero]
  have hplace := h.inj (.twin _ _ 0) (.twin 0 0 1) ⟨hlun, by omega, by omega, Or.inl rfl⟩
    ⟨hL, g.pbas_pos, by decide, Or.inr rfl⟩ hcell
  simp [location] at hplace

theorem twin_cell (h : 64 ∣ g.lunCount * g.logicbsInSiblingEblock) {lun pba headIndex : ℕ}
    (hhead : headIndex = 0 ∨ headIndex = 1) :
    cell g (.twin lun pba headIndex) = (.twinRdBadLunpba,
      (((headIndex * g.lunCount + lun) * g.logicbsInSiblingEblock
        + pba % g.logicbsInSiblingEblock : ℕ) : ℤ)) := by
  rcases hhead with rfl | rfl
  · simp [cell]
  · rw [cell, if_neg (by decide), Nat.mul_div_cancel' h]
    congr 2
    ring

theorem fits_of_apart (h : Apart g.size (cell g) (location g) (InRange g)) : Fits g where
  rd := by
    refine (covered_iff g.lun_pos g.pbas_pos).1 fun lun hlun p hp hint => ?_
    have hin := (h.inside (.rd lun p) ⟨hlun, hp, hint⟩).2
    simp only [cell, size_rd] at hin
    exact_mod_cast hin
  wr := by
    refine (covered_iff g.lun_pos g.ppas_pos).1 fun lun hlun p hp hint => ?_
    have hin := (h.inside (.wr lun p) ⟨hlun, hp, hint⟩).2
    simp only [cell, size_wr] at hin
    exact_mod_cast hin
  er := er_inside_iff.1 fun lun blk => h.inside (.er lun blk)
  twin := twin_dvd_of_apart h

theorem Fits.inside (h : Fits g) (m : Mark) (hm : InRange g m) :
    InBytes (g.size (cell g m).1) (cell g m).2 := by
  cases m with
  | wr lun ppa =>
      have hlt := (covered_iff g.lun_pos g.ppas_pos).2 h.wr lun hm.1 ppa hm.2.1 hm.2.2
      rw [← size_wr] at hlt
      simp only [cell]
      exact ⟨Int.natCast_nonneg _, by exact_mod_cast hlt⟩
  | rd lun pba =>
      have hlt := (covered_iff g.lun_pos g.pbas_pos).2 h.rd lun hm.1 pba hm.2.1 hm.2.2
      rw [← size_rd] at hlt
      simp only [cell]
      exact ⟨Int.natCast_nonneg _, by exact_mod_cast hlt⟩
  | er lun blk => exact er_inside_iff.2 h.er lun blk hm
  | twin lun pba headIndex =>
      have hhead := hm.2.2.2
      have hmod : pba % g.logicbsInSiblingEblock < g.logicbsInSiblingEblock :=
        Nat.mod_lt _ g.sibling_pos
      have hle : (headIndex * g.lunCount + lun + 1) * g.logicbsInSiblingEblock
          ≤ (2 * g.lunCount) * g.logicbsInSiblingEblock := by
        refine Nat.mul_le_mul_right _ ?_
        have hlun := hm.1
        rcases hhead with rfl | rfl <;> omega
      have hsize : (2 * g.lunCount) * g.logicbsInSiblingEblock ≤ 8 * g.size .twinRdBadLunpba := by
        have hdvd := h.twin
        rw [Counts.size, pageUp, Nat.mul_assoc]
        omega
      rw [Nat.add_mul _ 1, Nat.one_mul] at hle
      rw [twin_cell h.twin hhead]
      constructor <;> dsimp only <;> omega

theorem Fits.inj (h : Fits g) (m q : Mark) (hm : InRange g m) (hq : InRange g q)
    (hcell : cell g m = cell g q) : location g m = location g q := by
  cases m <;> cases q <;> try (simp [cell] at hcell; done)
  case wr.wr lun ppa lun' ppa' =>
      have heq : lun * g.ppas + ppa = lun' * g.ppas + ppa' := by
        simpa only [cell, Prod.mk.injEq, true_and, Nat.cast_inj] using hcell
      obtain ⟨rfl, rfl⟩ := mul_add_inj hm.2.1 hq.2.1 heq
      rfl
  case rd.rd lun pba lun' pba' =>
      have heq : lun * g.pbas + pba = lun' * g.pbas + pba' := by
        simpa only [cell, Prod.mk.injEq, true_and, Nat.cast_inj] using hcell
      obtain ⟨rfl, rfl⟩ := mul_add_inj hm.2.1 hq.2.1 heq
      rfl
  case er.er lun blk lun' blk' =>
      have heq : lun * g.eblocksInLun + blk = lun' * g.eblocksInLun + blk' := by
        rw [cell, cell, int_er h.er hm, int_er h.er hq] at hcell
        simpa only [Prod.mk.injEq, true_and, Nat.cast_inj] using hcell
      obtain ⟨rfl, rfl⟩ := mul_add_inj hm.2 hq.2 heq
      rfl
  case twin.twin lun pba head lun' pba' head' =>
      rw [twin_cell h.twin hm.2.2.2, twin_cell h.twin hq.2.2.2, Prod.mk.injEq, Nat.cast_inj]
        at hcell
      obtain ⟨hwhole, hpba⟩ :=
        mul_add_inj (Nat.mod_lt _ g.sibling_pos) (Nat.mod_lt _ g.sibling_pos) hcell.2
      obtain ⟨rfl, rfl⟩ := mul_add_inj hm.1 hq.1 hwhole
      rw [location, location, hpba]

theorem apart_iff : Apart g.size (cell g) (location g) (InRange g) ↔ Fits g :=
  ⟨fits_of_apart, fun h => ⟨h.inside, h.inj⟩⟩

theorem cell_location (m : Mark) : cell g (location g m) = cell g m := by
  cases m <;> simp [location, cell]

/-- The maps of whole luns are sized for their luns, and no mark is made there. -/
theorem noLun_of_marked {ms : List Mark} {mem : Memory}
    (h : Marked g.size (ms.map (cell g)) mem) : NoLun g mem := by
  have hsize : g.lunCount ≤ 8 * ((g.lunCount + 8 * 8 - 1) / (8 * 8) * 8) := by omega
  have hnot {fake : Fake} {i : ℤ} (hfake : fake = .badLun ∨ fake = .rdBadLun) :
      (fake, i) ∉ ms.map (cell g) := by
    intro hmem
    obtain ⟨m, -, hm⟩ := List.mem_map.1 hmem
    rcases hfake with rfl | rfl <;> cases m <;> simp [cell] at hm
  constructor <;> intro lun hlun
  · rw [h.test ⟨Int.natCast_nonneg _, by simp only [Counts.size]; omega⟩,
      decide_eq_false (hnot (Or.inl rfl))]
  · rw [h.test ⟨Int.natCast_nonneg _, by simp only [Counts.size]; omega⟩,
      decide_eq_false (hnot (Or.inr rfl))]

end

/-- **The geometries injected errors are exact for.**  After `init_err_injection` returned
0, with `twin_read_err` set: every sequence of marks in range stays inside the bitmaps and
every query answers for exactly the marked locations, if and only if

* the bits after the last whole byte of the read and of the write bitmap, if any, fall in
  a page that is allocated (or are past every `int`),
* a lun index and block index never make more than an `int`, and
* the bits of one head fill whole words of the twin bitmap. -/
theorem hitsMarked_iff {sdev sdev' : ShannonDev} {vmalloc : Fake → Bool} {mem : Memory}
    (hinit : initErrInjection sdev vmalloc = some (sdev', mem)) (htwin : sdev.twinReadErr = true) :
    HitsMarked sdev' mem ↔ Fits sdev.geometry := by
  unfold initErrInjection at hinit
  split_ifs at hinit
  obtain ⟨rfl, rfl⟩ := Prod.mk.inj (Option.some.inj hinit)
  rw [← apart_iff]
  refine exact_iff (fun maps m => mark_eq rfl m) ?_ ?_
  · intro ms maps hmarked q hq
    exact @isFake_eq { sdev with rweErrBufDone := true } maps rfl htwin
      (noLun_of_marked hmarked) q hq
  · intro m q hplace
    rw [← cell_location, hplace, cell_location]

/-- 64 luns of 512 eblocks in 500 superblocks of four planes. -/
def wideGeometry : Geometry where
  lunCount := 64
  sbCount := 500
  planes := 4
  pagesInEblock := 256
  logicbsInPage := 4
  logicbsInSiblingEblock := 4096
  eblocksInLun := 512
  pos := by decide
  int_lt := by decide
  size_lt := by intro f; cases f <;> decide

/-- The hypotheses of `hitsMarked_iff` are satisfiable. -/
theorem hitsMarked_wide :
    HitsMarked ⟨wideGeometry, true, true, 0, false⟩
      (fun f => Bitmap.zeroed (wideGeometry.size f)) :=
  (@hitsMarked_iff ⟨wideGeometry, false, true, 0, false⟩ _ (fun _ => true) _ rfl rfl).2
    ⟨by unfold Covered; decide, by unfold Covered; decide, by decide, by decide⟩

/-- 3 luns of 24 logical blocks to an eblock: 72 bits for a head. -/
def oddGeometry : Geometry where
  lunCount := 3
  sbCount := 500
  planes := 1
  pagesInEblock := 24
  logicbsInPage := 1
  logicbsInSiblingEblock := 24
  eblocksInLun := 500
  pos := by decide
  int_lt := by decide
  size_lt := by intro f; cases f <;> decide

/-- Block 16 of lun 2 is bit 64, marked for head 0.  The half of head 1 starts at that
bit, so block 0 of lun 0 fails for head 1, where nothing was marked. -/
theorem hitsMarked_odd_fails :
    (run (mark ⟨oddGeometry, true, true, 0, false⟩)
        (fun f => Bitmap.zeroed (oddGeometry.size f)) [.twin 2 16 0]).bind
      (fun mem => isFake ⟨oddGeometry, true, true, 0, false⟩ mem (.twin 0 0 1)) = some true ∧
    ¬HitsMarked ⟨oddGeometry, true, true, 0, false⟩
      (fun f => Bitmap.zeroed (oddGeometry.size f)) := by
  have hrun : (run (mark ⟨oddGeometry, true, true, 0, false⟩)
        (fun f => Bitmap.zeroed (oddGeometry.size f)) [.twin 2 16 0]).bind
      (fun mem => isFake ⟨oddGeometry, true, true, 0, false⟩ mem (.twin 0 0 1)) = some true := by
    decide
  refine ⟨hrun, fun h => ?_⟩
  obtain ⟨mem, hmem, hquery⟩ := h [.twin 2 16 0] (by simp [InRange]; decide)
  obtain ⟨b, hb, hiff⟩ := hquery (.twin 0 0 1) (by simp [InRange]; decide)
  rw [hmem, Option.bind_some, hb, Option.some.injEq] at hrun
  obtain ⟨m, hm, hplace⟩ := hiff.1 hrun
  rw [List.mem_singleton.1 hm] at hplace
  exact absurd hplace (by decide)

end ErrInjection
end Shannon
