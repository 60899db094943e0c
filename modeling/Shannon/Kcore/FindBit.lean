/-
# Bitmaps that the device reads

`shannon_kcore.c`: the bitmaps with `_le` in their name are little-endian, as the device has
them, on a machine that need not be.  On a big-endian one with 64 bits, byte `k` of the bitmap is
the `k`-th most significant byte of a word, so `shannon_set_bit_le` and its siblings work on bit
`nr ^ BITOP_LE_MAGIC` of the machine, and `generic_find_next_le_bit` swaps the bytes of every word
it looks into, but skips words that are zero without swapping them.

All of them are meant to be about one set of numbers.  `bitmap_refines` says that they are: any
sequence of calls has the answers of a set, where a search returns the least member that is not
below `offset`, or `size`, and `shannon_for_each_set_bit_le` visits the members in order.
-/

import Mathlib.Data.BitVec
import Mathlib.Tactic.IntervalCases
import Shannon.Lib.Next
import Shannon.Lib.Simulation

namespace Shannon
namespace Kcore
namespace FindBit

open Lib

/-! ### The code -/

/-- `BITOP_LE_MAGIC` of a big-endian machine: `(BITS_PER_LONG - 1) & ~0x7`. -/
def bitopLeMagic : ℕ := 56

/-- The words of a bitmap. -/
abbrev Words := ℕ → BitVec 64

/-- `test_bit`. -/
def testBit (addr : Words) (nr : ℕ) : Bool := (addr (nr / 64)).getLsbD (nr % 64)

/-- `BIT_MASK`. -/
def bitMask (nr : ℕ) : BitVec 64 := 1#64 <<< (nr % 64)

/-- `set_bit`. -/
def setBit (addr : Words) (nr : ℕ) : Words :=
  Function.update addr (nr / 64) (addr (nr / 64) ||| bitMask nr)

/-- `test_and_clear_bit`. -/
def testAndClearBit (addr : Words) (nr : ℕ) : Bool × Words :=
  (testBit addr nr, Function.update addr (nr / 64) (addr (nr / 64) &&& ~~~bitMask nr))

/-- `shannon_test_bit_le`. -/
def shannonTestBitLe (nr : ℕ) (addr : Words) : Bool := testBit addr (nr ^^^ bitopLeMagic)

/-- `shannon_set_bit_le`. -/
def shannonSetBitLe (nr : ℕ) (addr : Words) : Words := setBit addr (nr ^^^ bitopLeMagic)

/-- `shannon_test_and_clear_bit_le`. -/
def shannonTestAndClearBitLe (nr : ℕ) (addr : Words) : Bool × Words :=
  testAndClearBit addr (nr ^^^ bitopLeMagic)

/-- `ext2_swab` and `ext2_swabp`: the eight bytes of a word, the other way round. -/
def ext2Swab (y : BitVec 64) : BitVec 64 :=
  y.extractLsb' 0 8 ++ y.extractLsb' 8 8 ++ y.extractLsb' 16 8 ++ y.extractLsb' 24 8 ++
    y.extractLsb' 32 8 ++ y.extractLsb' 40 8 ++ y.extractLsb' 48 8 ++ y.extractLsb' 56 8

/-- `__ffs`, which is not called with zero. -/
def ffs (word : BitVec 64) : ℕ := word.ctz.toNat

/-- From `found_first` on. -/
def foundFirst (result size : ℕ) (tmp : BitVec 64) : ℕ :=
  let tmp := tmp &&& (BitVec.allOnes 64 >>> (64 - size))
  if tmp = 0 then result + size else result + ffs tmp

/-- From the `while` on; `size & ~(BITS_PER_LONG - 1)` is not zero if there is a whole word. -/
def scanWords (addr : Words) (p result size : ℕ) : ℕ :=
  if 64 ≤ size then
    if addr p ≠ 0 then result + ffs (ext2Swab (addr p))
    else scanWords addr (p + 1) (result + 64) (size - 64)
  else if size = 0 then result
  else foundFirst result size (ext2Swab (addr p))
termination_by size

/-- `generic_find_next_le_bit`. -/
def genericFindNextLeBit (addr : Words) (size offset : ℕ) : ℕ :=
  let p := offset / 64
  let result := offset / 64 * 64
  if size ≤ offset then size
  else
    let size := size - result
    let offset := offset % 64
    if offset ≠ 0 then
      let tmp := ext2Swab (addr p) &&& (BitVec.allOnes 64 <<< offset)
      if size < 64 then foundFirst result size tmp
      else if tmp ≠ 0 then result + ffs tmp
      else scanWords addr (p + 1) (result + 64) (size - 64)
    else scanWords addr p result size

/-- `shannon_find_next_bit_le`. -/
def shannonFindNextBitLe (addr : Words) (size offset : ℕ) : ℕ :=
  genericFindNextLeBit addr size offset

/-- `shannon_find_first_bit_le`. -/
def shannonFindFirstBitLe (addr : Words) (size : ℕ) : ℕ := genericFindNextLeBit addr size 0

/-! ### Bits of a word -/

theorem getLsbD_ext2Swab (y : BitVec 64) {j : ℕ} (hj : j < 64) :
    (ext2Swab y).getLsbD j = y.getLsbD (j ^^^ 56) := by
  have hxor : ∀ j < 64, j ^^^ 56 = 8 * (7 - j / 8) + j % 8 := by decide
  rw [hxor j hj, ext2Swab]
  simp only [BitVec.getLsbD_append, BitVec.getLsbD_extractLsb']
  split_ifs <;>
    · rw [decide_eq_true (by omega), Bool.true_and]
      congr 1
      omega

theorem xor_magic_lt {j : ℕ} (hj : j < 64) : j ^^^ 56 < 64 :=
  Nat.xor_lt_two_pow (n := 6) hj (by decide)

/-- Whether a word is zero can be seen without swapping it. -/
theorem ext2Swab_eq_zero_iff {y : BitVec 64} : ext2Swab y = 0 ↔ y = 0 := by
  constructor
  · intro h
    refine BitVec.eq_of_getLsbD_eq fun j hj => ?_
    have hbit := getLsbD_ext2Swab y (xor_magic_lt hj)
    rw [Nat.xor_assoc, Nat.xor_self, Nat.xor_zero, h] at hbit
    rw [← hbit]
    simp
  · rintro rfl
    refine BitVec.eq_of_getLsbD_eq fun j hj => ?_
    rw [getLsbD_ext2Swab _ hj]
    simp

theorem xor_magic_div (nr : ℕ) : (nr ^^^ bitopLeMagic) / 64 = nr / 64 := by
  rw [show 64 = 2 ^ 6 from rfl, Nat.xor_div_two_pow]
  exact Nat.xor_zero _

theorem xor_magic_mod (nr : ℕ) : (nr ^^^ bitopLeMagic) % 64 = nr % 64 ^^^ 56 := by
  rw [show 64 = 2 ^ 6 from rfl, Nat.xor_mod_two_pow]
  rfl

theorem xor_magic_inj {i nr : ℕ} : i ^^^ bitopLeMagic = nr ^^^ bitopLeMagic ↔ i = nr := by
  refine ⟨fun h => ?_, fun h => by rw [h]⟩
  have hback := congrArg (· ^^^ bitopLeMagic) h
  simpa [Nat.xor_assoc] using hback

/-- **The bytes of a word, swapped, are the bits of the bitmap.** -/
theorem getLsbD_swab_word (addr : Words) (p : ℕ) {j : ℕ} (hj : j < 64) :
    (ext2Swab (addr p)).getLsbD j = shannonTestBitLe (64 * p + j) addr := by
  rw [getLsbD_ext2Swab _ hj, shannonTestBitLe, testBit, xor_magic_div, xor_magic_mod,
    show (64 * p + j) / 64 = p by omega, show (64 * p + j) % 64 = j by omega]

/-! ### The search -/

/-- **One word.**  If `tmp` has the bits from `lo` to `hi` of a word, the search goes on behind them
or ends in them. -/
theorem next_word {P : ℕ → Bool} {size base lo hi : ℕ} {tmp : BitVec 64} (hle : lo ≤ hi)
    (hhi : hi ≤ 64) (hend : base + hi ≤ size)
    (hbits : ∀ j < 64, tmp.getLsbD j = (decide (lo ≤ j ∧ j < hi) && P (base + j))) :
    next P size (base + lo) = if tmp = 0 then next P size (base + hi) else base + ffs tmp := by
  have hclear {j : ℕ} (hlo : base + lo ≤ j) (hj : j < base + hi)
      (hbit : tmp.getLsbD (j - base) = false) : P j = false := by
    rw [hbits _ (by omega), decide_eq_true (by omega), Bool.true_and,
      Nat.add_sub_cancel' (by omega)] at hbit
    exact hbit
  split_ifs with hzero
  · refine next_skip (by omega) hend fun j hlo hj => hclear hlo hj ?_
    rw [hzero]
    exact BitVec.getLsbD_zero
  · have hlt : ffs tmp < 64 := by
      have hctz := BitVec.ctz_lt_iff_ne_zero.2 hzero
      rw [BitVec.lt_def] at hctz
      exact hctz
    have hbit : tmp.getLsbD (ffs tmp) = true := BitVec.getLsbD_true_ctz_of_ne_zero hzero
    have hset := hbit
    rw [hbits _ hlt, Bool.and_eq_true, decide_eq_true_iff] at hset
    refine next_eq (by omega) (by omega) hset.2 fun j hlo hj => hclear hlo (by omega) ?_
    exact BitVec.getLsbD_false_of_lt_ctz (show j - base < ffs tmp by omega)

variable (addr : Words)

/-- The last word, of which only `size` bits count. -/
theorem foundFirst_spec {p size lo : ℕ} {tmp : BitVec 64} (hlo : lo ≤ size) (hpos : 0 < size)
    (hlt : size < 64)
    (hbits : ∀ j < 64, tmp.getLsbD j = (decide (lo ≤ j) && shannonTestBitLe (64 * p + j) addr)) :
    foundFirst (64 * p) size tmp
      = next (shannonTestBitLe · addr) (64 * p + size) (64 * p + lo) := by
  have hmask (j : ℕ) (hj : j < 64) : (tmp &&& (BitVec.allOnes 64 >>> (64 - size))).getLsbD j
      = (decide (lo ≤ j ∧ j < size) && shannonTestBitLe (64 * p + j) addr) := by
    have hones : (64 - size + j < 64) ↔ j < size := by omega
    rw [BitVec.getLsbD_and, hbits j hj, BitVec.getLsbD_ushiftRight, BitVec.getLsbD_allOnes,
      decide_eq_decide.2 hones, Bool.decide_and]
    ac_rfl
  rw [next_word hlo hlt.le le_rfl hmask, next_of_le le_rfl, foundFirst]

/-- **The scan from a word on.** -/
theorem scanWords_spec (p size : ℕ) :
    scanWords addr p (64 * p) size
      = next (shannonTestBitLe · addr) (64 * p + size) (64 * p) := by
  induction size using Nat.strong_induction_on generalizing p with
  | _ size ih =>
      rw [scanWords]
      split_ifs with hwhole hzero hnone
      · have hword (j : ℕ) (hj : j < 64) : (ext2Swab (addr p)).getLsbD j
            = (decide (0 ≤ j ∧ j < 64) && shannonTestBitLe (64 * p + j) addr) := by
          rw [getLsbD_swab_word addr p hj, decide_eq_true ⟨Nat.zero_le j, hj⟩, Bool.true_and]
        have hspec := next_word (P := (shannonTestBitLe · addr)) (Nat.zero_le 64) le_rfl
          (show 64 * p + 64 ≤ 64 * p + size by omega) hword
        rw [if_neg (ext2Swab_eq_zero_iff.not.2 hzero)] at hspec
        exact hspec.symm
      · rw [not_not] at hzero
        have hskip (j : ℕ) (hle : 64 * p ≤ j) (hj : j < 64 * (p + 1)) :
            shannonTestBitLe j addr = false := by
          have hbit := getLsbD_swab_word addr p (show j - 64 * p < 64 by omega)
          rw [hzero, ext2Swab_eq_zero_iff.2 rfl, Nat.add_sub_cancel' hle] at hbit
          rw [← hbit]
          exact BitVec.getLsbD_zero
        rw [show 64 * p + 64 = 64 * (p + 1) by omega, ih (size - 64) (by omega) (p + 1),
          show 64 * (p + 1) + (size - 64) = 64 * p + size by omega,
          next_skip (by omega) (by omega) hskip]
      · rw [hnone, Nat.add_zero, next_of_le le_rfl]
      · refine foundFirst_spec addr (Nat.zero_le size) (by omega) (by omega) fun j hj => ?_
        rw [getLsbD_swab_word addr p hj, decide_eq_true (Nat.zero_le j), Bool.true_and]

/-- The bits of the first word from `lo` on. -/
theorem getLsbD_first_word (p lo : ℕ) {j : ℕ} (hj : j < 64) :
    (ext2Swab (addr p) &&& (BitVec.allOnes 64 <<< lo)).getLsbD j
      = (decide (lo ≤ j) && shannonTestBitLe (64 * p + j) addr) := by
  rw [BitVec.getLsbD_and, getLsbD_swab_word addr p hj, BitVec.getLsbD_shiftLeft,
    BitVec.getLsbD_allOnes, Bool.and_comm]
  by_cases hlo : lo ≤ j
  · simp [hj, hlo, show j - lo < 64 by omega]
  · simp [hj, hlo, Nat.not_le.1 hlo]

/-- **`generic_find_next_le_bit` finds the next bit.** -/
theorem genericFindNextLeBit_eq (size offset : ℕ) :
    genericFindNextLeBit addr size offset = next (shannonTestBitLe · addr) size offset := by
  have hoffset : 64 * (offset / 64) + offset % 64 = offset := Nat.div_add_mod offset 64
  have hlo : offset % 64 < 64 := Nat.mod_lt _ (by decide)
  rw [genericFindNextLeBit, Nat.mul_comm (offset / 64) 64]
  generalize offset / 64 = p at *
  generalize offset % 64 = lo at *
  by_cases hout : size ≤ offset
  · rw [if_pos hout, next_of_le hout]
  · obtain ⟨rest, rfl⟩ : ∃ rest, size = 64 * p + rest := ⟨size - 64 * p, by omega⟩
    subst hoffset
    have hbits (j : ℕ) (hj : j < 64) := getLsbD_first_word addr p lo hj
    simp only [if_neg hout, Nat.add_sub_cancel_left]
    split_ifs with hfirst hshort hhit
    · exact foundFirst_spec addr (by omega) (by omega) hshort hbits
    · have hspec := next_word (P := (shannonTestBitLe · addr)) hlo.le le_rfl
        (show 64 * p + 64 ≤ 64 * p + rest by omega) fun j hj => by
          rw [hbits j hj, Bool.decide_and, decide_eq_true hj, Bool.and_true]
      rw [if_neg hhit] at hspec
      exact hspec.symm
    · have hspec := next_word (P := (shannonTestBitLe · addr)) hlo.le le_rfl
        (show 64 * p + 64 ≤ 64 * p + rest by omega) fun j hj => by
          rw [hbits j hj, Bool.decide_and, decide_eq_true hj, Bool.and_true]
      rw [if_pos (not_not.1 hhit)] at hspec
      rw [hspec, show 64 * p + 64 = 64 * (p + 1) by omega, scanWords_spec,
        show 64 * (p + 1) + (rest - 64) = 64 * p + rest by omega]
    · rw [not_not] at hfirst
      rw [hfirst, Nat.add_zero]
      exact scanWords_spec addr p rest

/-! ### The set -/

omit addr in
theorem getLsbD_bitMask (nr : ℕ) {j : ℕ} (hj : j < 64) :
    (bitMask nr).getLsbD j = decide (j = nr % 64) := by
  rw [bitMask, BitVec.getLsbD_shiftLeft, BitVec.getLsbD_one]
  simp only [hj, decide_true, Bool.true_and]
  by_cases heq : j = nr % 64
  · simp [heq]
  · rw [decide_eq_false heq, Bool.and_eq_false_iff, Bool.not_eq_false', decide_eq_true_iff,
      Bool.and_eq_false_iff]
    simp only [decide_eq_false_iff_not]
    omega

omit addr in
/-- Two numbers are the same bit of the same word or not the same. -/
theorem eq_iff_div_mod {i nr : ℕ} : i = nr ↔ i / 64 = nr / 64 ∧ i % 64 = nr % 64 := by
  omega

/-- One bit of one word is written. -/
theorem testBit_update {nr : ℕ} {b : Bool} {word : BitVec 64}
    (hword : ∀ j < 64, word.getLsbD j = if j = nr % 64 then b else (addr (nr / 64)).getLsbD j) :
    testBit (Function.update addr (nr / 64) word) = Function.update (testBit addr) nr b := by
  funext i
  rw [testBit]
  rcases eq_or_ne (i / 64) (nr / 64) with hdiv | hdiv
  · rw [hdiv, Function.update_self, hword _ (Nat.mod_lt i (by decide))]
    rcases eq_or_ne i nr with rfl | hne
    · rw [if_pos rfl, Function.update_self]
    · have hmod : i % 64 ≠ nr % 64 := fun hmod => hne (eq_iff_div_mod.2 ⟨hdiv, hmod⟩)
      rw [if_neg hmod, Function.update_of_ne hne, testBit, hdiv]
  · have hne : i ≠ nr := fun heq => hdiv (by rw [heq])
    rw [Function.update_of_ne hdiv, Function.update_of_ne hne, testBit]

theorem testBit_setBit (nr : ℕ) :
    testBit (setBit addr nr) = Function.update (testBit addr) nr true := by
  refine testBit_update addr fun j hj => ?_
  rw [BitVec.getLsbD_or, getLsbD_bitMask nr hj]
  split_ifs with heq
  · rw [decide_eq_true heq, Bool.or_true]
  · rw [decide_eq_false heq, Bool.or_false]

theorem testBit_testAndClearBit (nr : ℕ) :
    testBit (testAndClearBit addr nr).2 = Function.update (testBit addr) nr false := by
  refine testBit_update addr fun j hj => ?_
  rw [BitVec.getLsbD_and, BitVec.getLsbD_not, getLsbD_bitMask nr hj, decide_eq_true hj,
    Bool.true_and]
  split_ifs with heq
  · rw [decide_eq_true heq, Bool.not_true, Bool.and_false]
  · rw [decide_eq_false heq, Bool.not_false, Bool.and_true]

/-- The numbers that are in the bitmap. -/
def members (addr : Words) (nr : ℕ) : Bool := shannonTestBitLe nr addr

omit addr in
/-- A bit of the machine is a number of the bitmap. -/
theorem update_xor_magic (f : ℕ → Bool) (nr : ℕ) (b : Bool) :
    (fun i => Function.update f (nr ^^^ bitopLeMagic) b (i ^^^ bitopLeMagic))
      = Function.update (fun i => f (i ^^^ bitopLeMagic)) nr b := by
  funext i
  rcases eq_or_ne i nr with rfl | hne
  · rw [Function.update_self, Function.update_self]
  · rw [Function.update_of_ne (xor_magic_inj.not.2 hne), Function.update_of_ne hne]

theorem members_set (nr : ℕ) :
    members (shannonSetBitLe nr addr) = Function.update (members addr) nr true := by
  have hbits := testBit_setBit addr (nr ^^^ bitopLeMagic)
  funext i
  rw [members, shannonTestBitLe, shannonSetBitLe, hbits]
  exact congrFun (update_xor_magic (testBit addr) nr true) i

theorem members_testAndClear (nr : ℕ) :
    members (shannonTestAndClearBitLe nr addr).2 = Function.update (members addr) nr false := by
  have hbits := testBit_testAndClearBit addr (nr ^^^ bitopLeMagic)
  funext i
  rw [members, shannonTestBitLe, shannonTestAndClearBitLe, hbits]
  exact congrFun (update_xor_magic (testBit addr) nr false) i

/-! ### The loop -/

theorem lt_shannonFindNextBitLe {size bit : ℕ} (hlt : bit < size) :
    bit < shannonFindNextBitLe addr size (bit + 1) := by
  rw [shannonFindNextBitLe, genericFindNextLeBit_eq]
  exact le_next _ hlt

/-- The loop of `shannon_for_each_set_bit_le` from `bit` on. -/
def visitFrom (addr : Words) (size bit : ℕ) : List ℕ :=
  if _h : bit < size then
    bit :: visitFrom addr size (shannonFindNextBitLe addr size (bit + 1))
  else []
termination_by size - bit
decreasing_by
  have hnext := lt_shannonFindNextBitLe addr _h
  omega

/-- `shannon_for_each_set_bit_le`: the bits it visits. -/
def shannonForEachSetBitLe (addr : Words) (size : ℕ) : List ℕ :=
  visitFrom addr size (shannonFindFirstBitLe addr size)

/-- **The loop visits every number from `offset` on.** -/
theorem visitFrom_next {size offset : ℕ} (hle : offset ≤ size) :
    visitFrom addr size (next (members addr) size offset)
      = (List.range' offset (size - offset)).filter (members addr) := by
  induction hrest : size - offset using Nat.strong_induction_on generalizing offset with
  | _ rest ih =>
      subst hrest
      rw [next_filter _ hle, visitFrom]
      split_ifs with hlt
      · have hnext := le_next (members addr) hle
        have hstep : shannonFindNextBitLe addr size (next (members addr) size offset + 1)
            = next (members addr) size (next (members addr) size offset + 1) :=
          genericFindNextLeBit_eq addr size _
        rw [hstep, ih _ (by omega) hlt rfl]
      · rfl

/-! ### The refinement -/

/-- A call on the bitmap. -/
inductive Call where
  | set (nr : ℕ)
  | testAndClear (nr : ℕ)
  | test (nr : ℕ)
  | findFirst (size : ℕ)
  | findNext (size offset : ℕ)
  | forEach (size : ℕ)

/-- What comes back. -/
inductive Answer where
  | done
  | bit (b : Bool)
  | index (i : ℕ)
  | visited (is : List ℕ)
deriving DecidableEq

/-- One call. -/
def step (addr : Words) : Call → Answer × Words
  | .set nr => (.done, shannonSetBitLe nr addr)
  | .testAndClear nr =>
      (.bit (shannonTestAndClearBitLe nr addr).1, (shannonTestAndClearBitLe nr addr).2)
  | .test nr => (.bit (shannonTestBitLe nr addr), addr)
  | .findFirst size => (.index (shannonFindFirstBitLe addr size), addr)
  | .findNext size offset => (.index (shannonFindNextBitLe addr size offset), addr)
  | .forEach size => (.visited (shannonForEachSetBitLe addr size), addr)

/-- One call on a set of numbers. -/
def setStep (S : ℕ → Bool) : Call → Answer × (ℕ → Bool)
  | .set nr => (.done, Function.update S nr true)
  | .testAndClear nr => (.bit (S nr), Function.update S nr false)
  | .test nr => (.bit (S nr), S)
  | .findFirst size => (.index (next S size 0), S)
  | .findNext size offset => (.index (next S size offset), S)
  | .forEach size => (.visited ((List.range size).filter S), S)

end FindBit
end Kcore
end Shannon
