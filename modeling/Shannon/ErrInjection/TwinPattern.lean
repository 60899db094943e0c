/-
# Choosing the luns of a twin read error

`shannon_err_injection.c`: `update_fake_pattern` chooses a RAID group of a superblock at random
and two of its luns that are not bad, and marks logical blocks as failing to read on both, so
that RAID cannot put them together again.

Both choices go round a circle from a random place (`Shannon.Lib.Probe`), so they give up only
when there is nothing to choose (`selectGroup_eq_none`, `selectLuns_eq_none`).  Of a lun they
have an offset in the group, and its number is `group->start_lun + offset`, which is the one
that `is_bad_lun` is asked about.  What is marked is this number modulo `max_luns_in_group`:
another lun, unless the group starts at lun 0 or its good luns come before
`max_luns_in_group` (`reported_eq_iff`).

The pages are chosen by random steps.  They get there (`pagesLoop_returns`) unless the page
number can pass the largest `int`, and then they may go round for ever (`pagesLoop_circles`).
`updateFakePattern_iff` puts it together.
-/

import Mathlib.Data.Nat.ModEq
import Shannon.ErrInjection.Bitmaps
import Shannon.Lib.Probe

namespace Shannon
namespace ErrInjection

open Lib

/-! ### The function -/

/-- What is read of a `struct sub_group`. -/
structure SubGroup where
  phyIndex : ℤ
  availableLuns : ℤ
  startLun : ℕ
deriving DecidableEq, Repr

/-- What is read of `struct shannon_dev` besides the geometry.  All are `int`s. -/
structure TwinDev extends ShannonDev where
  parityGroups : ℕ
  maxLunsInGroup : ℕ
  sharedPages : ℕ
  /-- `mbr.pages_in_eblock`. -/
  mbrPagesInEblock : ℕ
  logicbsInEblock : ℕ
  parityGroups_pos : 1 ≤ parityGroups
  maxLuns_ge : 2 ≤ maxLunsInGroup
  /-- `luns_mask` has four words. -/
  maxLuns_le : maxLunsInGroup ≤ 256
  sharedPages_pos : 1 ≤ sharedPages
  sharedPages_lt : sharedPages < 2 ^ 31
  pages_lt : mbrPagesInEblock < 2 ^ 31

/-- The random numbers of one turn of the last loop. -/
structure PageDraws where
  step : ℕ
  step' : ℕ
  plane : ℕ
  sector : ℕ

/-- What `shannon_get_random_bytes` returns, for each call of `get_random`. -/
structure Draws where
  grp : ℕ
  offset : ℕ
  offset' : ℕ
  step : ℕ
  page : ℕ → PageDraws

/-- `get_random`, in `unsigned`s. -/
def getRandom (rand min max : ℕ) : ℕ :=
  if min ≥ max then max else rand % (max - min + 1) + min

/-- The condition of the first loop. -/
def groupUnfit (group : SubGroup) : Bool := group.phyIndex < 0 || group.availableLuns < 2

/-- The first loop: the group, if there is one. -/
def selectGroup (dev : TwinDev) (subGroup : ℕ → SubGroup) (draws : Draws) : Option ℕ :=
  (probe (fun (_ : Unit) grp => (groupUnfit (subGroup grp), ())) dev.parityGroups
    (dev.parityGroups - 1) (getRandom draws.grp 0 (dev.parityGroups - 1)) ()).map Prod.fst

/-- The condition of the second loop, with the bits of `luns_mask` it leaves.
`shannon_test_and_set_bit` is not called for a bad lun. -/
def lunUnfit (isBadLun : ℕ → Bool) (startLun : ℕ) (mask : ℕ → Bool) (offset : ℕ) :
    Bool × (ℕ → Bool) :=
  if isBadLun (startLun + offset) then (true, mask)
  else (mask offset, Function.update mask offset true)

/-- The second loop: the two offsets in the group. -/
def selectLuns (dev : TwinDev) (isBadLun : ℕ → Bool) (startLun : ℕ) (draws : Draws) :
    Option (ℕ × ℕ) := do
  let n := dev.maxLunsInGroup
  let test := lunUnfit isBadLun startLun
  let (offset, mask) ← probe test n (n - 1) (getRandom draws.offset 0 (n - 1)) fun _ => false
  let (offset', _) ← probe test n (n - 1) (getRandom draws.offset' 0 (n - 1)) mask
  return (offset, offset')

/-- `luns[lun]`. -/
def reported (dev : TwinDev) (startLun offset : ℕ) : ℕ := (startLun + offset) % dev.maxLunsInGroup

/-- `step` in turn `k` of the last loop. -/
def pageStep (dev : TwinDev) (draws : PageDraws) : ℕ :=
  let step := getRandom draws.step 0 (dev.sharedPages * 4 % 2 ^ 32)
  let step := getRandom draws.step' step (dev.sharedPages * 8 % 2 ^ 32)
  if step = 0 then 1 else step

/-- `pba` in a turn of the last loop. -/
def pagePba (dev : TwinDev) (draws : PageDraws) (ch : ℤ) : ℤ :=
  let pl := if dev.geometry.planes = 1 then 0 else getRandom draws.plane 0 (dev.geometry.planes - 1)
  let sector := getRandom draws.sector 0 (dev.geometry.logicbsInPage - 1)
  int (ch * dev.geometry.logicbsInPage + pl * dev.logicbsInEblock + sector)

/-- The last loop from turn `k` on: the values of `pba`.  `none` if it is still running after
`fuel` turns. -/
def pagesLoop (dev : TwinDev) (draws : ℕ → PageDraws) : ℕ → ℕ → ℤ → Option (List ℤ)
  | 0, _, ch => if ch < dev.mbrPagesInEblock then none else some []
  | fuel + 1, k, ch =>
      if ch < dev.mbrPagesInEblock then
        (pagesLoop dev draws fuel (k + 1) (int (ch + int (pageStep dev (draws k))))).map
          (pagePba dev (draws k) ch :: ·)
      else some []

/-- How `update_fake_pattern` ends. -/
inductive Pattern
  /-- `twin_read_err` is 0. -/
  | off
  /-- "No valid group for twin_read_err found". -/
  | noGroup
  /-- "No valid luns for twin_read_err found in group". -/
  | noLuns (grp : ℕ)
  /-- The group, the two luns, and the blocks marked on both of them by
  `mark_fake_twin_rd_bad_lunpba`. -/
  | marked (grp lun lun' : ℕ) (pbas : List ℤ)
deriving DecidableEq, Repr

/-- `update_fake_pattern`. -/
def updateFakePattern (dev : TwinDev) (subGroup : ℕ → SubGroup) (isBadLun : ℕ → Bool)
    (draws : Draws) (fuel : ℕ) : Option Pattern :=
  if dev.twinReadErr = false then some .off
  else
    match selectGroup dev subGroup draws with
    | none => some .noGroup
    | some grp =>
        match selectLuns dev isBadLun (subGroup grp).startLun draws with
        | none => some (.noLuns grp)
        | some (offset, offset') =>
            (pagesLoop dev draws.page fuel 0 (getRandom draws.step 0 (dev.sharedPages - 1))).map
              (.marked grp (reported dev (subGroup grp).startLun offset)
                (reported dev (subGroup grp).startLun offset'))

/-! ### What it is for -/

/-- The group can be chosen. -/
def Eligible (dev : TwinDev) (subGroup : ℕ → SubGroup) (grp : ℕ) : Prop :=
  grp < dev.parityGroups ∧ 0 ≤ (subGroup grp).phyIndex ∧ 2 ≤ (subGroup grp).availableLuns

/-- The lun at an offset in a group is good. -/
def GoodLun (dev : TwinDev) (isBadLun : ℕ → Bool) (startLun offset : ℕ) : Prop :=
  offset < dev.maxLunsInGroup ∧ isBadLun (startLun + offset) = false

/-- A group with fewer than two good luns. -/
def FewGood (dev : TwinDev) (isBadLun : ℕ → Bool) (startLun : ℕ) : Prop :=
  ∀ o o', GoodLun dev isBadLun startLun o → GoodLun dev isBadLun startLun o' → o = o'

/-- How it may end: with no group or no luns if there are none, and otherwise, if any block
is marked, with marks for two good luns of the group. -/
def Pattern.Sound (dev : TwinDev) (subGroup : ℕ → SubGroup) (isBadLun : ℕ → Bool) : Pattern → Prop
  | .off => dev.twinReadErr = false
  | .noGroup => ∀ grp, ¬Eligible dev subGroup grp
  | .noLuns grp => Eligible dev subGroup grp ∧ FewGood dev isBadLun (subGroup grp).startLun
  | .marked grp lun lun' pbas => Eligible dev subGroup grp ∧ (pbas ≠ [] → lun ≠ lun' ∧
      ∃ o o', GoodLun dev isBadLun (subGroup grp).startLun o ∧
        GoodLun dev isBadLun (subGroup grp).startLun o' ∧
        lun = (subGroup grp).startLun + o ∧ lun' = (subGroup grp).startLun + o')

/-- Whatever is drawn, it ends, and as it may. -/
def MarksTwoGood (dev : TwinDev) (subGroup : ℕ → SubGroup) (isBadLun : ℕ → Bool) : Prop :=
  ∀ draws, ∃ fuel pattern, updateFakePattern dev subGroup isBadLun draws fuel = some pattern ∧
    pattern.Sound dev subGroup isBadLun

variable {dev : TwinDev} {subGroup : ℕ → SubGroup} {isBadLun : ℕ → Bool} {draws : Draws}
  {grp startLun offset offset' : ℕ}

/-! ### Random numbers -/

theorem getRandom_le (rand min max : ℕ) : getRandom rand min max ≤ max := by
  unfold getRandom
  split_ifs with h
  · exact le_rfl
  · have hlt := Nat.mod_lt rand (show 0 < max - min + 1 by omega)
    omega

/-- Every number in the range can be drawn. -/
theorem getRandom_of_le {rand max : ℕ} (h : rand ≤ max) : getRandom rand 0 max = rand := by
  unfold getRandom
  split_ifs with hmax
  · omega
  · rw [Nat.sub_zero, Nat.add_zero, Nat.mod_eq_of_lt (by omega)]

theorem getRandom_lt (rand : ℕ) {n : ℕ} (hn : 1 ≤ n) : getRandom rand 0 (n - 1) < n := by
  have hle := getRandom_le rand 0 (n - 1)
  omega

/-! ### The group -/

theorem groupUnfit_eq_false {group : SubGroup} :
    groupUnfit group = false ↔ 0 ≤ group.phyIndex ∧ 2 ≤ group.availableLuns := by
  rw [groupUnfit, Bool.or_eq_false_iff, decide_eq_false_iff_not, decide_eq_false_iff_not]
  omega

/-- **No group is chosen only if there is none.** -/
theorem selectGroup_eq_none :
    selectGroup dev subGroup draws = none ↔ ∀ grp, ¬Eligible dev subGroup grp := by
  rw [selectGroup, Option.map_eq_none_iff, probe_eq_none_iff (fun _ _ _ => rfl)
    (getRandom_lt _ dev.parityGroups_pos)]
  constructor
  · rintro h grp ⟨hgrp, hfit⟩
    have hunfit := h grp hgrp
    rw [groupUnfit_eq_false.2 hfit] at hunfit
    cases hunfit
  · intro h grp hgrp
    by_contra hfit
    exact h grp ⟨hgrp, groupUnfit_eq_false.1 (Bool.eq_false_iff.2 hfit)⟩

theorem selectGroup_eq_some (h : selectGroup dev subGroup draws = some grp) :
    Eligible dev subGroup grp := by
  obtain ⟨⟨grp', u⟩, hprobe, rfl⟩ := Option.map_eq_some_iff.1 h
  obtain ⟨hgrp, htest⟩ :=
    probe_eq_some (fun _ _ _ => rfl) (getRandom_lt _ dev.parityGroups_pos) hprobe
  exact ⟨hgrp, groupUnfit_eq_false.1 (Prod.mk.inj htest).1⟩

/-- Every group that can be chosen is, for some random number. -/
theorem selectGroup_of_draw (hgrp : Eligible dev subGroup grp) (hdraw : draws.grp = grp) :
    selectGroup dev subGroup draws = some grp := by
  have hle : grp ≤ dev.parityGroups - 1 := by
    have hlt := hgrp.1
    omega
  have htest : (groupUnfit (subGroup grp), ()) = (false, ()) := by
    rw [groupUnfit_eq_false.2 hgrp.2]
  rw [selectGroup, hdraw, getRandom_of_le hle, probe_of_test htest]
  rfl

/-! ### The luns -/

/-- A bit that is found set stays set. -/
theorem lunUnfit_keep (mask : ℕ → Bool) (offset : ℕ)
    (h : (lunUnfit isBadLun startLun mask offset).1 = true) :
    (lunUnfit isBadLun startLun mask offset).2 = mask := by
  unfold lunUnfit at h ⊢
  split_ifs at h ⊢ with hbad
  · rfl
  · exact Function.update_eq_self_iff.2 h.symm

theorem lunUnfit_eq_false {mask mask' : ℕ → Bool} :
    lunUnfit isBadLun startLun mask offset = (false, mask') ↔
      isBadLun (startLun + offset) = false ∧ mask offset = false ∧
        mask' = Function.update mask offset true := by
  unfold lunUnfit
  cases isBadLun (startLun + offset) with
  | true => simp
  | false =>
      rw [if_neg Bool.false_ne_true, Prod.mk.injEq]
      constructor
      · rintro ⟨hmask, rfl⟩
        exact ⟨rfl, hmask, rfl⟩
      · rintro ⟨-, hmask, rfl⟩
        exact ⟨hmask, rfl⟩

/-- A lun fails its test if it is bad or chosen already. -/
theorem lunUnfit_eq_true {mask : ℕ → Bool} :
    (lunUnfit isBadLun startLun mask offset).1 = true ↔
      isBadLun (startLun + offset) = false → mask offset = true := by
  unfold lunUnfit
  cases hbad : isBadLun (startLun + offset) <;> simp

/-- The offsets chosen are those of two good luns. -/
theorem selectLuns_eq_some
    (h : selectLuns dev isBadLun startLun draws = some (offset, offset')) :
    GoodLun dev isBadLun startLun offset ∧ GoodLun dev isBadLun startLun offset' ∧
      offset ≠ offset' := by
  have hn : 1 ≤ dev.maxLunsInGroup := by
    have hge := dev.maxLuns_ge
    omega
  obtain ⟨⟨o, mask⟩, hfirst, h⟩ := Option.bind_eq_some_iff.1 h
  obtain ⟨⟨o', mask'⟩, hsecond, h⟩ := Option.bind_eq_some_iff.1 h
  obtain ⟨rfl, rfl⟩ := Prod.mk.inj (Option.some.inj h)
  obtain ⟨ho, htest⟩ := probe_eq_some lunUnfit_keep (getRandom_lt _ hn) hfirst
  obtain ⟨ho', htest'⟩ := probe_eq_some lunUnfit_keep (getRandom_lt _ hn) hsecond
  obtain ⟨hgood, -, rfl⟩ := lunUnfit_eq_false.1 htest
  obtain ⟨hgood', hmask, -⟩ := lunUnfit_eq_false.1 htest'
  refine ⟨⟨ho, hgood⟩, ⟨ho', hgood'⟩, ?_⟩
  rintro rfl
  rw [Function.update_self] at hmask
  cases hmask

/-- **No luns are chosen only if fewer than two are good.** -/
theorem selectLuns_eq_none (h : selectLuns dev isBadLun startLun draws = none) :
    FewGood dev isBadLun startLun := by
  have hn : 1 ≤ dev.maxLunsInGroup := by
    have hge := dev.maxLuns_ge
    omega
  simp only [selectLuns] at h
  intro o o' ho ho'
  cases hfirst : probe (lunUnfit isBadLun startLun) dev.maxLunsInGroup (dev.maxLunsInGroup - 1)
      (getRandom draws.offset 0 (dev.maxLunsInGroup - 1)) fun _ => false with
  | none =>
      have hall := (probe_eq_none_iff lunUnfit_keep (getRandom_lt _ hn)).1 hfirst
      cases lunUnfit_eq_true.1 (hall o ho.1) ho.2
  | some first =>
      obtain ⟨a, mask⟩ := first
      rw [hfirst] at h
      have hsecond : probe (lunUnfit isBadLun startLun) dev.maxLunsInGroup
          (dev.maxLunsInGroup - 1) (getRandom draws.offset' 0 (dev.maxLunsInGroup - 1)) mask
            = none := by
        cases hsecond : probe (lunUnfit isBadLun startLun) dev.maxLunsInGroup
            (dev.maxLunsInGroup - 1) (getRandom draws.offset' 0 (dev.maxLunsInGroup - 1)) mask with
        | none => rfl
        | some second => simp [hsecond] at h
      have hall := (probe_eq_none_iff lunUnfit_keep (getRandom_lt _ hn)).1 hsecond
      obtain ⟨-, htest⟩ := probe_eq_some lunUnfit_keep (getRandom_lt _ hn) hfirst
      obtain ⟨-, -, rfl⟩ := lunUnfit_eq_false.1 htest
      -- A good lun that fails the second test is the one of the first.
      have hsame (b : ℕ) (hb : GoodLun dev isBadLun startLun b) : b = a := by
        have hmask := lunUnfit_eq_true.1 (hall b hb.1) hb.2
        by_contra hne
        rw [Function.update_of_ne hne] at hmask
        cases hmask
      rw [hsame o ho, hsame o' ho']

/-- Any two good luns are chosen, for some random numbers. -/
theorem selectLuns_of_draws (ho : GoodLun dev isBadLun startLun offset)
    (ho' : GoodLun dev isBadLun startLun offset') (hne : offset ≠ offset')
    (hdraw : draws.offset = offset) (hdraw' : draws.offset' = offset') :
    selectLuns dev isBadLun startLun draws = some (offset, offset') := by
  have hle : offset ≤ dev.maxLunsInGroup - 1 := by
    have hlt := ho.1
    omega
  have hle' : offset' ≤ dev.maxLunsInGroup - 1 := by
    have hlt := ho'.1
    omega
  have hfirst := lunUnfit_eq_false.2
    ⟨ho.2, rfl, @rfl _ (Function.update (fun _ : ℕ => false) offset true)⟩
  have hfree : Function.update (fun _ : ℕ => false) offset true offset' = false :=
    Function.update_of_ne (Ne.symm hne) ..
  have hsecond := lunUnfit_eq_false.2 ⟨ho'.2, hfree, rfl⟩
  unfold selectLuns
  simp only [hdraw, hdraw', getRandom_of_le hle, getRandom_of_le hle']
  rw [probe_of_test hfirst, Option.bind_eq_bind, Option.bind_some, probe_of_test hsecond]
  rfl

/-- **What is reported is a lun of the group** only if no multiple of `max_luns_in_group` is
taken off its number. -/
theorem reported_eq_iff (hoffset : offset < dev.maxLunsInGroup) :
    (∃ o, reported dev startLun offset = startLun + o) ↔
      startLun + offset < dev.maxLunsInGroup := by
  unfold reported
  constructor
  · rintro ⟨o, ho⟩
    by_contra hge
    have hdiv := Nat.div_add_mod (startLun + offset) dev.maxLunsInGroup
    have hone := Nat.div_pos (not_lt.1 hge) (by omega)
    have hle := Nat.mul_le_mul_left dev.maxLunsInGroup hone
    omega
  · intro hlt
    exact ⟨offset, Nat.mod_eq_of_lt hlt⟩

/-- The two luns reported are different in any case. -/
theorem reported_ne (ho : offset < dev.maxLunsInGroup) (ho' : offset' < dev.maxLunsInGroup)
    (hne : offset ≠ offset') : reported dev startLun offset ≠ reported dev startLun offset' := by
  intro heq
  have hmod : offset ≡ offset' [MOD dev.maxLunsInGroup] := Nat.ModEq.add_left_cancel' startLun heq
  exact hne (hmod.eq_of_lt_of_lt ho ho')

/-! ### The pages -/

/-- A step goes ahead, by at most the last bound or by one. -/
theorem pageStep_bounds (draws : PageDraws) :
    1 ≤ pageStep dev draws ∧ (pageStep dev draws ≤ dev.sharedPages * 8 % 2 ^ 32 ∨
      pageStep dev draws = 1) := by
  have hle := getRandom_le draws.step' (getRandom draws.step 0 (dev.sharedPages * 4 % 2 ^ 32))
    (dev.sharedPages * 8 % 2 ^ 32)
  unfold pageStep
  dsimp only
  split_ifs with hzero
  · exact ⟨le_rfl, .inr rfl⟩
  · exact ⟨Nat.pos_of_ne_zero hzero, .inl hle⟩

/-- Every step up to the bound can be drawn. -/
theorem pageStep_of_le {step : ℕ} (hpos : 1 ≤ step) (hle : step ≤ dev.sharedPages * 8 % 2 ^ 32) :
    pageStep dev ⟨0, step, 0, 0⟩ = step := by
  unfold pageStep
  dsimp only
  rw [getRandom_of_le (Nat.zero_le _), getRandom_of_le hle, if_neg (by omega)]

/-- **The loop ends** if no step takes the page number past the largest `int`. -/
theorem pagesLoop_returns (page : ℕ → PageDraws)
    (hfits : dev.mbrPagesInEblock + dev.sharedPages * 8 % 2 ^ 32 ≤ 2 ^ 31) {fuel k : ℕ} {ch : ℤ}
    (hch : 0 ≤ ch) (hfuel : dev.mbrPagesInEblock ≤ ch + fuel) :
    ∃ pbas, pagesLoop dev page fuel k ch = some pbas := by
  induction fuel generalizing k ch with
  | zero => exact ⟨[], if_neg (by omega)⟩
  | succ fuel ih =>
      by_cases hlt : ch < dev.mbrPagesInEblock
      · have hpages := dev.pages_lt
        obtain ⟨hpos, hbound⟩ := @pageStep_bounds dev (page k)
        have hstep : int (pageStep dev (page k)) = pageStep dev (page k) :=
          int_of_lt (by omega) (by omega)
        have hnext : int (ch + pageStep dev (page k)) = ch + pageStep dev (page k) :=
          int_of_lt (by omega) (by omega)
        obtain ⟨pbas, hpbas⟩ := @ih (k + 1) (ch + pageStep dev (page k)) (by omega) (by omega)
        rw [pagesLoop, if_pos hlt, hstep, hnext, hpbas]
        exact ⟨_, rfl⟩
      · exact ⟨[], if_neg hlt⟩

/-- The page numbers of a walk that never ends: up to the last page, and from there past the
largest `int` to the smallest. -/
def circle (pages : ℕ) : ℕ → ℤ
  | 0 => 0
  | k + 1 => if circle pages k = pages - 1 then -2 ^ 31 else circle pages k + 1

theorem circle_bounds {pages : ℕ} (hpages : 1 ≤ pages) (k : ℕ) :
    -2 ^ 31 ≤ circle pages k ∧ circle pages k < pages := by
  induction k with
  | zero =>
      rw [circle]
      omega
  | succ k ih =>
      rw [circle]
      split_ifs with hlast
      · omega
      · omega

/-- **Otherwise it may go round for ever.** -/
theorem pagesLoop_circles (hpages : 1 ≤ dev.mbrPagesInEblock)
    (hover : 2 ^ 31 < dev.mbrPagesInEblock + dev.sharedPages * 8 % 2 ^ 32) :
    ∃ page : ℕ → PageDraws, ∀ fuel, pagesLoop dev page fuel 0 0 = none := by
  have hlt := dev.pages_lt
  -- One page on, or as far as it takes to get past the largest `int`.
  let last (k : ℕ) : Prop := circle dev.mbrPagesInEblock k = dev.mbrPagesInEblock - 1
  let step (k : ℕ) : ℕ := if last k then 2 ^ 31 - (dev.mbrPagesInEblock - 1) else 1
  have hstep (k : ℕ) : pageStep dev ⟨0, step k, 0, 0⟩ = step k := by
    refine pageStep_of_le ?_ ?_
    · simp only [step]
      split_ifs <;> omega
    · simp only [step]
      split_ifs <;> omega
  have hnext (k : ℕ) : int (circle dev.mbrPagesInEblock k + int (step k))
      = circle dev.mbrPagesInEblock (k + 1) := by
    have hbounds := circle_bounds hpages k
    have hsum : int (circle dev.mbrPagesInEblock k + int (step k))
        = int (circle dev.mbrPagesInEblock k + step k) := Int.add_bmod_bmod
    rw [hsum, circle]
    simp only [step, last]
    split_ifs with hlast
    · have hpast : circle dev.mbrPagesInEblock k
          + (2 ^ 31 - (dev.mbrPagesInEblock - 1) : ℕ) = 2 ^ 31 := by
        rw [hlast]
        omega
      rw [hpast]
      rfl
    · unfold int
      rw [Int.bmod_eq_of_le (by omega) (by omega)]
      rfl
  refine ⟨fun k => ⟨0, step k, 0, 0⟩, fun fuel => ?_⟩
  have hloop (fuel k : ℕ) : pagesLoop dev (fun k => ⟨0, step k, 0, 0⟩) fuel k
      (circle dev.mbrPagesInEblock k) = none := by
    induction fuel generalizing k with
    | zero => exact if_pos (circle_bounds hpages k).2
    | succ fuel ih =>
        rw [pagesLoop, if_pos (circle_bounds hpages k).2, hstep, hnext, ih]
        rfl
  exact hloop fuel 0

theorem pagesLoop_ne_nil {page : ℕ → PageDraws} {fuel k : ℕ} {ch : ℤ} {pbas : List ℤ}
    (hlt : ch < dev.mbrPagesInEblock) (h : pagesLoop dev page fuel k ch = some pbas) :
    pbas ≠ [] := by
  cases fuel with
  | zero =>
      rw [pagesLoop, if_pos hlt] at h
      cases h
  | succ fuel =>
      rw [pagesLoop, if_pos hlt] at h
      obtain ⟨rest, -, rfl⟩ := Option.map_eq_some_iff.1 h
      exact List.cons_ne_nil _ _

/-! ### The result -/

/-- Where the luns marked are the ones chosen: if anything is marked at all, no multiple of
`max_luns_in_group` is taken off the number of a good lun of a group that can be chosen, and
the page numbers stay `int`s. -/
def TwinFits (dev : TwinDev) (subGroup : ℕ → SubGroup) (isBadLun : ℕ → Bool) : Prop :=
  dev.twinReadErr = true → 1 ≤ dev.mbrPagesInEblock → ∀ grp, Eligible dev subGroup grp →
    ¬FewGood dev isBadLun (subGroup grp).startLun →
      dev.mbrPagesInEblock + dev.sharedPages * 8 % 2 ^ 32 ≤ 2 ^ 31 ∧
      ∀ o, GoodLun dev isBadLun (subGroup grp).startLun o →
        (subGroup grp).startLun + o < dev.maxLunsInGroup

/-- The function, once it has a group and two luns. -/
theorem updateFakePattern_eq (htwin : dev.twinReadErr = true)
    (hgroup : selectGroup dev subGroup draws = some grp)
    (hluns : selectLuns dev isBadLun (subGroup grp).startLun draws = some (offset, offset'))
    (fuel : ℕ) : updateFakePattern dev subGroup isBadLun draws fuel =
      (pagesLoop dev draws.page fuel 0 (getRandom draws.step 0 (dev.sharedPages - 1))).map
        (.marked grp (reported dev (subGroup grp).startLun offset)
          (reported dev (subGroup grp).startLun offset')) := by
  simp [updateFakePattern, htwin, hgroup, hluns]

/-- Random numbers that choose a group, two good luns of it, and the first page. -/
theorem updateFakePattern_of_draws (htwin : dev.twinReadErr = true)
    (hgrp : Eligible dev subGroup grp) (ho : GoodLun dev isBadLun (subGroup grp).startLun offset)
    (ho' : GoodLun dev isBadLun (subGroup grp).startLun offset') (hne : offset ≠ offset')
    (page : ℕ → PageDraws) (fuel : ℕ) :
    updateFakePattern dev subGroup isBadLun ⟨grp, offset, offset', 0, page⟩ fuel
      = (pagesLoop dev page fuel 0 0).map (.marked grp
          (reported dev (subGroup grp).startLun offset)
          (reported dev (subGroup grp).startLun offset')) := by
  rw [updateFakePattern_eq htwin (selectGroup_of_draw hgrp rfl)
    (selectLuns_of_draws ho ho' hne rfl rfl), getRandom_of_le (Nat.zero_le _)]
  rfl

/-- A good lun that is chosen first, and is reported under its own number. -/
theorem marksTwoGood_reported (h : MarksTwoGood dev subGroup isBadLun)
    (htwin : dev.twinReadErr = true) (hpages : 1 ≤ dev.mbrPagesInEblock)
    (hgrp : Eligible dev subGroup grp) (ho : GoodLun dev isBadLun (subGroup grp).startLun offset)
    (ho' : GoodLun dev isBadLun (subGroup grp).startLun offset') (hne : offset ≠ offset') :
    (subGroup grp).startLun + offset < dev.maxLunsInGroup := by
  obtain ⟨fuel, pattern, hpattern, hsound⟩ :=
    h ⟨grp, offset, offset', 0, fun _ => ⟨0, 0, 0, 0⟩⟩
  rw [updateFakePattern_of_draws htwin hgrp ho ho' hne] at hpattern
  obtain ⟨pbas, hloop, rfl⟩ := Option.map_eq_some_iff.1 hpattern
  obtain ⟨-, o, -, -, -, hlun, -⟩ := hsound.2 (pagesLoop_ne_nil (by omega) hloop)
  exact (reported_eq_iff ho.1).1 ⟨o, hlun⟩

/-- **Twin errors hit two good luns of the group exactly if the numbers of its good luns are
below `max_luns_in_group`.**  For every superblock, every `is_bad_lun` and every device:
whatever is drawn, `update_fake_pattern` ends, gives up on the group or on the luns only where
there are none, and otherwise marks two good luns of the group it chose, if and only if
`TwinFits` holds. -/
theorem updateFakePattern_iff (dev : TwinDev) (subGroup : ℕ → SubGroup) (isBadLun : ℕ → Bool) :
    MarksTwoGood dev subGroup isBadLun ↔ TwinFits dev subGroup isBadLun := by
  constructor
  · intro h htwin hpages grp hgrp hfew
    obtain ⟨a, b, ha, hb, hab⟩ : ∃ a b, GoodLun dev isBadLun (subGroup grp).startLun a ∧
        GoodLun dev isBadLun (subGroup grp).startLun b ∧ a ≠ b := by
      unfold FewGood at hfew
      push Not at hfew
      obtain ⟨a, b, ha, hb, hab⟩ := hfew
      exact ⟨a, b, ha, hb, hab⟩
    refine ⟨?_, fun o ho => ?_⟩
    · by_contra hover
      obtain ⟨page, hcircles⟩ := pagesLoop_circles hpages (not_le.1 hover)
      obtain ⟨fuel, pattern, hpattern, -⟩ := h ⟨grp, a, b, 0, page⟩
      rw [updateFakePattern_of_draws htwin hgrp ha hb hab, hcircles] at hpattern
      cases hpattern
    · -- Some other lun of the group is good as well.
      rcases eq_or_ne o a with rfl | hoa
      · exact marksTwoGood_reported h htwin hpages hgrp ho hb hab
      · exact marksTwoGood_reported h htwin hpages hgrp ho ha hoa
  · intro hfits draws
    cases htwin : dev.twinReadErr with
    | false => exact ⟨0, .off, by simp [updateFakePattern, htwin], htwin⟩
    | true =>
        cases hgroup : selectGroup dev subGroup draws with
        | none =>
            exact ⟨0, .noGroup, by simp [updateFakePattern, htwin, hgroup],
              selectGroup_eq_none.1 hgroup⟩
        | some grp =>
            have hgrp := selectGroup_eq_some hgroup
            cases hluns : selectLuns dev isBadLun (subGroup grp).startLun draws with
            | none =>
                exact ⟨0, .noLuns grp, by simp [updateFakePattern, htwin, hgroup, hluns], hgrp,
                  selectLuns_eq_none hluns⟩
            | some offsets =>
                obtain ⟨o, o'⟩ := offsets
                obtain ⟨ho, ho', hne⟩ := selectLuns_eq_some hluns
                have hfew : ¬FewGood dev isBadLun (subGroup grp).startLun :=
                  fun hfew => hne (hfew o o' ho ho')
                have heq := updateFakePattern_eq htwin hgroup hluns
                by_cases hpages : 1 ≤ dev.mbrPagesInEblock
                · obtain ⟨hint, hbelow⟩ := hfits htwin hpages grp hgrp hfew
                  obtain ⟨pbas, hpbas⟩ := @pagesLoop_returns dev draws.page hint
                    dev.mbrPagesInEblock 0 (getRandom draws.step 0 (dev.sharedPages - 1))
                    (by omega) (by omega)
                  have hmarked := heq dev.mbrPagesInEblock
                  rw [hpbas, Option.map_some] at hmarked
                  refine ⟨_, _, hmarked, hgrp,
                    fun _ => ⟨reported_ne ho.1 ho'.1 hne, o, o', ho, ho', ?_, ?_⟩⟩
                  · exact Nat.mod_eq_of_lt (hbelow o ho)
                  · exact Nat.mod_eq_of_lt (hbelow o' ho')
                · have hnone : pagesLoop dev draws.page 0 0
                      (getRandom draws.step 0 (dev.sharedPages - 1)) = some [] :=
                    if_neg (by omega)
                  have hmarked := heq 0
                  rw [hnone, Option.map_some] at hmarked
                  exact ⟨_, _, hmarked, hgrp, fun h => absurd rfl h⟩

/-- Two RAID groups of four luns each, eight pages. -/
def twoGroups : TwinDev where
  geometry := wideGeometry
  rweErrBufDone := true
  twinReadErr := true
  mbrEblocks := 0
  fakeBadLunSkipmbr := false
  parityGroups := 2
  maxLunsInGroup := 4
  sharedPages := 1
  mbrPagesInEblock := 8
  logicbsInEblock := 1024
  parityGroups_pos := by decide
  maxLuns_ge := by decide
  maxLuns_le := by decide
  sharedPages_pos := by decide
  sharedPages_lt := by decide
  pages_lt := by decide

/-- The second group has luns 4 to 7, all good.  When it is chosen, with its first two luns,
blocks of luns 0 and 1 are marked, which are in the other group. -/
theorem twoGroups_fails :
    updateFakePattern twoGroups (fun grp => ⟨grp, 4, 4 * grp⟩) (fun _ => false)
        ⟨1, 0, 1, 0, fun _ => ⟨0, 7, 0, 0⟩⟩ 8 = some (.marked 1 0 1 [0, 28]) ∧
      ¬MarksTwoGood twoGroups (fun grp => ⟨grp, 4, 4 * grp⟩) fun _ => false := by
  refine ⟨by decide +kernel, fun h => ?_⟩
  have hlt := @marksTwoGood_reported twoGroups (fun grp => ⟨grp, 4, 4 * grp⟩) (fun _ => false)
    1 0 1 h rfl (by decide) ⟨by decide, by decide, by decide⟩ ⟨by decide, rfl⟩ ⟨by decide, rfl⟩
    (by decide)
  exact absurd hlt (by decide)

end ErrInjection
end Shannon
