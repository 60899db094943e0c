/-
# Read errors that RAID can correct

`shannon_err_injection.c`: `mark_fake_rd_bad_lunpba_raidmutex` marks a logical block of a lun
as failing to read, unless a read of the same block already fails on a lun of the same RAID
group.  One lost block of a group is what RAID can put together again.

The scan before the mark does not look at the bits alone: it asks `is_fake_rd_bad_lunpba`,
which also answers for luns that fail as a whole, and answers differently for the blocks of
the MBR.  What it says of a block whose bit is set does not depend on any of that
(`bit_of_isFakeRdBadLunpba`), and no two blocks share a bit, so a mark that is made is the
first of its group (`raidmutex_exclusive`).  The other marks are in other bitmaps.  The result
is `group_exclusive`; `raidmutex_returns` says where the accesses stay inside the bitmaps.
-/

import Shannon.ErrInjection.Bitmaps

namespace Shannon
namespace ErrInjection

open Lib

section

variable (sdev : ShannonDev)

/-- `mark_fake_bad_lun`. -/
def markFakeBadLun (lun : ℤ) : Memory → Option Memory := markFake sdev .badLun 0 lun

/-- `mark_fake_rd_bad_lun`. -/
def markFakeRdBadLun (lun : ℤ) : Memory → Option Memory := markFake sdev .rdBadLun 0 lun

/-- The scan of `mark_fake_rd_bad_lunpba_raidmutex`: whether a read of `pba` fails on one of
`n` luns from `i` on. -/
def scanGroup (pba : ℕ) (mem : Memory) : ℕ → ℕ → Option Bool
  | _, 0 => some false
  | i, n + 1 => do
      if ← isFakeRdBadLunpba sdev i pba mem then
        return true
      scanGroup pba mem (i + 1) n

/-- `mark_fake_rd_bad_lunpba_raidmutex`. -/
def markFakeRdBadLunpbaRaidmutex (maxLunsInGroup lun pba : ℕ) (mem : Memory) : Option Memory := do
  let beginlun := lun / maxLunsInGroup * maxLunsInGroup
  let endlun := beginlun + maxLunsInGroup
  if ← scanGroup sdev pba mem beginlun (endlun - beginlun) then
    return mem
  markFakeRdBadLunpba sdev lun pba mem

/-- The marks that may be made. -/
inductive RaidMark
  | raidmutex (lun pba : ℕ)
  | badLun (lun : ℤ)
  | rdBadLun (lun : ℤ)
  | wr (lun ppa : ℕ)
  | er (lun blk : ℕ)
  deriving DecidableEq, Repr

/-- The mark made. -/
def raidMark (maxLunsInGroup : ℕ) (mem : Memory) : RaidMark → Option Memory
  | .raidmutex lun pba => markFakeRdBadLunpbaRaidmutex sdev maxLunsInGroup lun pba mem
  | .badLun lun => markFakeBadLun sdev lun mem
  | .rdBadLun lun => markFakeRdBadLun sdev lun mem
  | .wr lun ppa => markFakeWrBadLunppa sdev lun ppa mem
  | .er lun blk => markFakeErBadBlock sdev lun blk mem

/-- The block is one of the flash. -/
def RaidMark.InRange (g : Geometry) : RaidMark → Prop
  | .raidmutex lun pba => lun < g.lunCount ∧ pba < g.pbas ∧ pba < 2 ^ 31
  | _ => True

/-- The bit of a lun and a logical block in `fake_rd_bad_lunpba`. -/
def rdBit (lun pba : ℕ) (mem : Memory) : Bool :=
  (mem .rdBadLunpba).bit (offsetRd sdev lun pba : ℕ)

/-- At most one lun of each RAID group has the bit of a logical block set. -/
def GroupExclusive (maxLunsInGroup : ℕ) (mem : Memory) : Prop :=
  ∀ group, ∀ pba < sdev.geometry.pbas, ∀ lun < sdev.geometry.lunCount,
    ∀ lun' < sdev.geometry.lunCount, lun / maxLunsInGroup = group → lun' / maxLunsInGroup = group →
      rdBit sdev lun pba mem = true → rdBit sdev lun' pba mem = true → lun = lun'

end

variable {sdev : ShannonDev} {mem mem' : Memory} {maxLunsInGroup lun pba : ℕ}

/-! ### Marks -/

/-- A mark, when it is made, sets one bit. -/
theorem bit_of_markFake {fake : Fake} {base : ℕ} {nr : ℤ}
    (h : markFake sdev fake base nr mem = some mem') {f : Fake} {i : ℤ}
    (hbit : (mem' f).bit i = true) :
    (sdev.rweErrBufDone = true ∧ f = fake ∧ i = bitAt base nr) ∨ (mem f).bit i = true := by
  unfold markFake at h
  split_ifs at h with hdone
  · rcases ((setIn_eq_some h).2.2 f i).1 hbit with heq | hold
    · obtain ⟨rfl, rfl⟩ := Prod.mk.inj heq
      exact .inl ⟨hdone, rfl, rfl⟩
    · exact .inr hold
  · obtain rfl := Option.some.inj h
    exact .inr hbit

/-- **The query sees every bit.**  Whatever else it looks at, it does not say no to a block
whose bit is set. -/
theorem bit_of_isFakeRdBadLunpba (hdone : sdev.rweErrBufDone = true)
    (h : isFakeRdBadLunpba sdev lun pba mem = some false) : rdBit sdev lun pba mem = false := by
  have htest := @testFake_div_mod sdev mem hdone .rdBadLunpba 0 (offsetRd sdev lun pba)
  rw [Nat.zero_add, Nat.mul_zero, Nat.zero_add] at htest
  unfold isFakeRdBadLunpba at h
  rw [if_neg (by simp [hdone]), htest] at h
  unfold Bitmap.test at h
  split_ifs at h with hin
  · cases hbit : rdBit sdev lun pba mem with
    | false => rfl
    | true =>
        rw [rdBit] at hbit
        simp [hbit] at h
  · cases h

/-- A scan that finds nothing has asked for every lun. -/
theorem scanGroup_eq_false {n i : ℕ} (h : scanGroup sdev pba mem i n = some false) :
    ∀ j, i ≤ j → j < i + n → isFakeRdBadLunpba sdev j pba mem = some false := by
  induction n generalizing i with
  | zero =>
      intro j hij hjn
      omega
  | succ n ih =>
      rw [scanGroup] at h
      obtain ⟨b, hb, h⟩ := Option.bind_eq_some_iff.1 h
      cases b with
      | true => cases h
      | false =>
          intro j hij hjn
          rcases Nat.eq_or_lt_of_le hij with rfl | hlt
          · exact hb
          · exact ih h j hlt (by omega)

/-- **A mark that is made is the first of its group**, and one that is not made changes
nothing. -/
theorem raidmutex_exclusive (hmax : 0 < maxLunsInGroup) (hpba : pba < sdev.geometry.pbas)
    (hmem : GroupExclusive sdev maxLunsInGroup mem)
    (h : markFakeRdBadLunpbaRaidmutex sdev maxLunsInGroup lun pba mem = some mem') :
    GroupExclusive sdev maxLunsInGroup mem' := by
  obtain ⟨found, hscan, h⟩ := Option.bind_eq_some_iff.1 h
  cases found with
  | true =>
      obtain rfl := Option.some.inj h
      exact hmem
  | false =>
      rw [Nat.add_sub_cancel_left] at hscan
      have hasked := scanGroup_eq_false hscan
      -- A bit that is set now is the one of the mark, or was set before.
      have hcases (l p : ℕ) (hp : p < sdev.geometry.pbas) (hset : rdBit sdev l p mem' = true) :
          (sdev.rweErrBufDone = true ∧ l = lun ∧ p = pba) ∨ rdBit sdev l p mem = true := by
        rcases bit_of_markFake h hset with ⟨hdone, -, heq⟩ | hold
        · have hbit := bitAt_div_mod 0 (offsetRd sdev lun pba)
          rw [Nat.zero_add, Nat.mul_zero, Nat.zero_add] at hbit
          rw [hbit, Nat.cast_inj, offsetRd_eq, offsetRd_eq] at heq
          exact .inl ⟨hdone, mul_add_inj hp hpba heq⟩
        · exact .inr hold
      -- No lun of the group of the mark had the bit of its block.
      have hclear (l : ℕ) (hdone : sdev.rweErrBufDone = true)
          (hl : l / maxLunsInGroup = lun / maxLunsInGroup) : rdBit sdev l pba mem = false := by
        refine bit_of_isFakeRdBadLunpba hdone (hasked l ?_ ?_)
        · rw [← hl]
          exact Nat.div_mul_le_self ..
        · rw [← hl]
          have hlt := @Nat.lt_div_mul_add l _ hmax
          omega
      intro group p hp l hl l' hl' hgroup hgroup' hset hset'
      rcases hcases l p hp hset with ⟨hdone, rfl, rfl⟩ | hold
      · rcases hcases l' p hp hset' with ⟨-, rfl, -⟩ | hold'
        · rfl
        · rw [hclear l' hdone (hgroup'.trans hgroup.symm)] at hold'
          cases hold'
      · rcases hcases l' p hp hset' with ⟨hdone, rfl, rfl⟩ | hold'
        · rw [hclear l hdone (hgroup.trans hgroup'.symm)] at hold
          cases hold
        · exact hmem group p hp l hl l' hl' hgroup hgroup' hold hold'

/-- One mark of any kind. -/
theorem raidMark_exclusive {m : RaidMark} (hmax : 0 < maxLunsInGroup)
    (hm : m.InRange sdev.geometry) (hmem : GroupExclusive sdev maxLunsInGroup mem)
    (h : raidMark sdev maxLunsInGroup mem m = some mem') :
    GroupExclusive sdev maxLunsInGroup mem' := by
  have hother {fake : Fake} {base : ℕ} {nr : ℤ} (hfake : Fake.rdBadLunpba ≠ fake)
      (hmark : markFake sdev fake base nr mem = some mem') :
      GroupExclusive sdev maxLunsInGroup mem' := by
    have hold (l p : ℕ) (hset : rdBit sdev l p mem' = true) : rdBit sdev l p mem = true := by
      rcases bit_of_markFake hmark hset with ⟨-, heq, -⟩ | hold
      · exact absurd heq hfake
      · exact hold
    intro group p hp l hl l' hl' hgroup hgroup' hset hset'
    exact hmem group p hp l hl l' hl' hgroup hgroup' (hold l p hset) (hold l' p hset')
  cases m with
  | raidmutex lun pba => exact raidmutex_exclusive hmax hm.2.1 hmem h
  | badLun lun => exact hother (by decide) h
  | rdBadLun lun => exact hother (by decide) h
  | wr lun ppa => exact hother (by decide) h
  | er lun blk => exact hother (by decide) h

/-! ### Inside the bitmaps -/

/-- The bitmaps have the sizes of `init_err_injection`. -/
def Sized (g : Geometry) (mem : Memory) : Prop := ∀ f, (mem f).size = g.size f

theorem testFake_returns {fake : Fake} {base : ℕ} {nr : ℤ} (hmem : Sized sdev.geometry mem)
    (hin : InBytes (sdev.geometry.size fake) (bitAt base nr)) :
    ∃ b, testFake sdev fake base nr mem = some b := by
  unfold testFake Bitmap.test
  rw [hmem fake, if_pos hin]
  split_ifs
  · exact ⟨_, rfl⟩
  · exact ⟨_, rfl⟩

/-- The bit of a block of the flash is in the bitmap, if its last bits are. -/
theorem rd_inside (hcovered : Covered (sdev.geometry.lunCount * sdev.geometry.pbas)
      sdev.geometry.pbas) (hlun : lun < sdev.geometry.lunCount) (hpba : pba < sdev.geometry.pbas)
    (hint : pba < 2 ^ 31) :
    InBytes (sdev.geometry.size .rdBadLunpba)
      (bitAt (offsetRd sdev lun pba / 64) (offsetRd sdev lun pba % 64 : ℕ)) := by
  have hlt := (covered_iff sdev.geometry.lun_pos sdev.geometry.pbas_pos).2 hcovered lun hlun pba
    hpba hint
  rw [← size_rd] at hlt
  have hbit := bitAt_div_mod 0 (offsetRd sdev lun pba)
  rw [Nat.zero_add, Nat.mul_zero, Nat.zero_add] at hbit
  rw [hbit, offsetRd_eq]
  exact ⟨Int.natCast_nonneg _, by exact_mod_cast hlt⟩

theorem isFakeRdBadLunpba_returns (hmem : Sized sdev.geometry mem)
    (hcovered : Covered (sdev.geometry.lunCount * sdev.geometry.pbas) sdev.geometry.pbas)
    (hlun : lun < sdev.geometry.lunCount) (hpba : pba < sdev.geometry.pbas)
    (hint : pba < 2 ^ 31) : ∃ b, isFakeRdBadLunpba sdev lun pba mem = some b := by
  have hlunIn : InBytes ((sdev.geometry.lunCount + 8 * 8 - 1) / (8 * 8) * 8) (bitAt 0 lun) := by
    rw [bitAt_zero]
    constructor <;> omega
  obtain ⟨b, hb⟩ := testFake_returns hmem (rd_inside hcovered hlun hpba hint)
  obtain ⟨c, hc⟩ : ∃ c, isFakeBadLun sdev lun mem = some c := testFake_returns hmem hlunIn
  obtain ⟨d, hd⟩ : ∃ d, isFakeRdBadLun sdev lun mem = some d := testFake_returns hmem hlunIn
  unfold isFakeRdBadLunpba
  rw [hb, hc, hd]
  by_cases hdone : sdev.rweErrBufDone = false
  · exact ⟨_, if_pos hdone⟩
  · simp only [hdone]
    cases b <;> cases c <;> cases d <;> exact ⟨_, rfl⟩

/-- The scan stays inside of the bitmaps too: it is over luns of the flash. -/
theorem scanGroup_returns (hmem : Sized sdev.geometry mem)
    (hcovered : Covered (sdev.geometry.lunCount * sdev.geometry.pbas) sdev.geometry.pbas)
    (hpba : pba < sdev.geometry.pbas) (hint : pba < 2 ^ 31) {i n : ℕ}
    (hn : i + n ≤ sdev.geometry.lunCount) : ∃ b, scanGroup sdev pba mem i n = some b := by
  induction n generalizing i with
  | zero => exact ⟨false, rfl⟩
  | succ n ih =>
      have hi : i < sdev.geometry.lunCount := by omega
      obtain ⟨b, hb⟩ := isFakeRdBadLunpba_returns hmem hcovered hi hpba hint
      rw [scanGroup, hb]
      cases b with
      | true => exact ⟨true, rfl⟩
      | false => exact ih (by omega)

/-- **`mark_fake_rd_bad_lunpba_raidmutex` makes no access outside of the bitmaps** for a block
of the flash, if the groups fill the flash and the read bitmap covers it. -/
theorem raidmutex_returns (hmem : Sized sdev.geometry mem)
    (hcovered : Covered (sdev.geometry.lunCount * sdev.geometry.pbas) sdev.geometry.pbas)
    (hgroups : maxLunsInGroup ∣ sdev.geometry.lunCount) (hlun : lun < sdev.geometry.lunCount)
    (hpba : pba < sdev.geometry.pbas) (hint : pba < 2 ^ 31) :
    ∃ mem', markFakeRdBadLunpbaRaidmutex sdev maxLunsInGroup lun pba mem = some mem' ∧
      Sized sdev.geometry mem' := by
  have hend : lun / maxLunsInGroup * maxLunsInGroup + maxLunsInGroup ≤ sdev.geometry.lunCount := by
    obtain ⟨groups, hgroups⟩ := hgroups
    rw [hgroups] at hlun ⊢
    have hlt := Nat.div_lt_of_lt_mul hlun
    calc lun / maxLunsInGroup * maxLunsInGroup + maxLunsInGroup
        = maxLunsInGroup * (lun / maxLunsInGroup + 1) := by ring
      _ ≤ maxLunsInGroup * groups := Nat.mul_le_mul_left _ hlt
  obtain ⟨found, hscan⟩ := scanGroup_returns hmem hcovered hpba hint hend
  unfold markFakeRdBadLunpbaRaidmutex
  simp only [Nat.add_sub_cancel_left]
  rw [hscan]
  cases found with
  | true => exact ⟨mem, rfl, hmem⟩
  | false =>
      have hin := rd_inside hcovered hlun hpba hint
      rw [← hmem] at hin
      by_cases hdone : sdev.rweErrBufDone = true
      · obtain ⟨mem', hset⟩ : ∃ mem', setIn mem (Fake.rdBadLunpba,
            bitAt (offsetRd sdev lun pba / 64) (offsetRd sdev lun pba % 64 : ℕ)) = some mem' := by
          rw [setIn, Bitmap.set, if_pos hin]
          exact ⟨_, rfl⟩
        refine ⟨mem', ?_, fun f => ((setIn_eq_some hset).2.1 f).trans (hmem f)⟩
        exact (if_pos hdone).trans hset
      · exact ⟨mem, if_neg hdone, hmem⟩

/-! ### Runs of marks -/

/-- **Read errors stay recoverable.**  Take zeroed bitmaps of any sizes, and any marks of the
five kinds, those of `mark_fake_rd_bad_lunpba_raidmutex` in range.  Whenever they have been
made, at most one lun of each RAID group has the bit of a logical block set.  The groups need
not even fill the flash. -/
theorem group_exclusive (sdev : ShannonDev) (size : Fake → ℕ) {maxLunsInGroup : ℕ}
    (hmax : 0 < maxLunsInGroup)
    (ms : List RaidMark) (hms : ∀ m ∈ ms, m.InRange sdev.geometry) {mem : Memory}
    (hrun : run (raidMark sdev maxLunsInGroup) (fun f => Bitmap.zeroed (size f)) ms = some mem) :
    GroupExclusive sdev maxLunsInGroup mem := by
  refine run_invariant_along (fun s m t hs hm ht => raidMark_exclusive hmax hm hs ht) ?_
    (along_of_forall (fun m hm _ => hms m hm) _) hrun
  intro group pba _ lun _ lun' _ _ _ hset
  cases hset

/-- Two marks for block 5 of the first group of eight luns, between them the loss of a whole
lun, and one for the second group. -/
def raidMarks : List RaidMark :=
  [.raidmutex 3 5, .badLun 7, .er 3 1, .raidmutex 4 5, .raidmutex 9 5]

/-- Lun 4 is not marked; luns 3 and 9 are, and they are in different groups. -/
theorem raidMarks_exclusive : ∃ mem,
    run (raidMark ⟨wideGeometry, true, true, 0, false⟩ 8)
      (fun f => Bitmap.zeroed (wideGeometry.size f)) raidMarks = some mem ∧
    [3, 4, 9].map (fun lun => rdBit ⟨wideGeometry, true, true, 0, false⟩ lun 5 mem)
      = [true, false, true] ∧
    GroupExclusive ⟨wideGeometry, true, true, 0, false⟩ 8 mem := by
  have hbits : (run (raidMark ⟨wideGeometry, true, true, 0, false⟩ 8)
      (fun f => Bitmap.zeroed (wideGeometry.size f)) raidMarks).map (fun mem =>
        [3, 4, 9].map (fun lun => rdBit ⟨wideGeometry, true, true, 0, false⟩ lun 5 mem))
      = some [true, false, true] := by decide
  obtain ⟨mem, hmem, hbits⟩ := Option.map_eq_some_iff.1 hbits
  refine ⟨mem, hmem, hbits, group_exclusive _ _ (by decide) raidMarks ?_ hmem⟩
  simp only [raidMarks, List.forall_mem_cons, List.not_mem_nil, false_imp_iff, implies_true,
    RaidMark.InRange]
  decide

end ErrInjection
end Shannon
