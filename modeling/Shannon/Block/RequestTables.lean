/-
# The tables of requests and of commands

`shannon_convert_lreq` (`shannon_block.c`) and `shannon_convert_scsi_scmd`
(`shannon_scsi.c`) size their tables by formulas of their own,
`2 * segments + 1` and `2 * DIV_ROUND_UP(bio_size, logicb_size) + nents`, where
`shannon_convert_bio` has `2 * (DIV_ROUND_UP(bio_size, logicb_size) + segments)`.

Inside one page the entries of a segment are one more than the block boundaries inside
it (`length_cutPieces_lreq`).  The formula for commands counts the blocks and is always
enough, so the guard of that loop never acts (`scsi_maps_all`).  The one for requests
does not look at the blocks: two entries for each segment and one more are enough when
a block is no smaller than a page, and `lreq_fits_iff` says when they are in general.
-/

import Shannon.Block.TableSize
import Mathlib.Algebra.BigOperators.Group.List.Basic

namespace Shannon
namespace Block

open Lib

/-! ### Requests -/

/-- The loop of `shannon_convert_lreq`, before the last entry is marked. -/
def lreqLoop (sbio : ShannonBio) (rq : Lreq) (logicbSize : ℕ) : Except Oops ConvState :=
  forEachSegment (lreqHole sbio.segments)
    (fun v => mapLoop (lreqCut v) (lreqPlace v) logicbSize v.bvLen v.bvLen 0) (counted rq.segs)
    ⟨seedRemained sbio.firstSize logicbSize, false, SgCursor.start (sbio.sg.getD [])⟩

/-- It is what the conversion does before it marks the end. -/
theorem shannonConvertLreq_eq (sbio : ShannonBio) (rq : Lreq) (logicbSize : ℕ) :
    shannonConvertLreq true sbio rq logicbSize
      = (lreqLoop (lreqSetup sbio rq logicbSize) rq logicbSize).bind fun s =>
        s.cursor.markEnd.map fun t => (0, { lreqSetup sbio rq logicbSize with
          hasHole := s.hasHole
          usedSgCount := s.cursor.usedSgCount
          sg := some t }) := rfl

/-- The block boundaries of the device inside the segments, the first of which is at
device byte `x`.  One between two segments is inside neither. -/
def blockCuts (g : ℕ) : ℕ → List BioVec → ℕ
  | _, [] => 0
  | x, v :: vs => crossings g x v.bvLen + blockCuts g (x + v.bvLen) vs

/-- **The entries of a segment**, from any offset on: one more than the block
boundaries inside what is left of it. -/
theorem length_cutPieces_lreq (v : BioVec) {fuel g S total a r o r' : ℕ} {ps : List Piece}
    (hg : 0 < g) (hseed : Seed g S total (a + o) r) (hfit : a + v.bvLen ≤ total)
    (ho : o < v.bvLen)
    (h : cutPieces (lreqCut v) (lreqPlace v) g v.bvLen fuel o r = some (ps, r')) :
    ps.length = 1 + crossings g (S + (a + o)) (v.bvLen - o) := by
  induction fuel generalizing o r ps with
  | zero =>
      rw [cutPieces, if_pos ho] at h
      cases h
  | succ fuel ih =>
      simp only [cutPieces, if_pos ho] at h
      obtain ⟨⟨qs, r₁⟩, hqs, he⟩ := Option.map_eq_some_iff.1 h
      obtain ⟨rfl, rfl⟩ := Prod.mk.inj he
      obtain ⟨hr0, hrle, hclip⟩ := hseed (by omega)
      rw [List.length_cons]
      dsimp only
      by_cases hlast : v.bvLen - o ≤ r
      · -- the rest of the segment ends inside the block
        have hcut : lreqCut v o r = v.bvLen - o := by
          unfold lreqCut
          split_ifs <;> omega
        rw [hcut, cutPieces_done (by omega)] at hqs
        obtain rfl : qs = [] := (Prod.mk.inj (Option.some.inj hqs)).1.symm
        rw [crossings_eq_zero hg (hlast.trans hrle), List.length_nil]
      · -- the block ends first, and the transfer goes on behind it
        have hr : r = toBoundary g (S + (a + o)) := by
          by_contra hne
          have := hclip (by omega)
          omega
        have hcut : lreqCut v o r = r := by
          unfold lreqCut
          rw [if_neg (by omega)]
        rw [hcut] at hqs
        have hrest := ih (by rw [← Nat.add_assoc]; exact hseed.next hg le_rfl (by omega))
          (by omega) hqs
        have hcross := crossings_add_toBoundary hg
          (show toBoundary g (S + (a + o)) < v.bvLen - o by omega)
        rw [← Nat.add_assoc a, ← Nat.add_assoc S, ← Nat.sub_sub, hr] at hrest
        omega

/-- **The entries of all segments.** -/
theorem length_cutAll_lreq {vs : List BioVec} {g S total a r r' : ℕ} {ps : List Piece}
    (hg : 0 < g) (hseed : Seed g S total a r) (hfit : a + (vs.map BioVec.bvLen).sum ≤ total)
    (hseg : ∀ v ∈ vs, 0 < v.bvLen ∧ v.bvOffset + v.bvLen ≤ pageSize)
    (h : cutAll (lreqSegment g) vs r = some (ps, r')) :
    ps.length = vs.length + blockCuts g (S + a) vs := by
  induction vs generalizing a r ps with
  | nil =>
      obtain ⟨rfl, -⟩ := Prod.mk.inj (Option.some.inj h)
      rfl
  | cons v vs ih =>
      simp only [cutAll] at h
      obtain ⟨⟨ps₁, r₁⟩, hv, h⟩ := Option.bind_eq_some_iff.1 h
      obtain ⟨⟨ps₂, r₂⟩, hvs, he⟩ := Option.map_eq_some_iff.1 h
      obtain ⟨rfl, rfl⟩ := Prod.mk.inj he
      rw [List.map_cons, List.sum_cons] at hfit
      obtain ⟨hv0, hpage⟩ := hseg v (List.mem_cons_self ..)
      have hfirst := length_cutPieces_lreq v (o := 0) hg hseed (by omega) hv0 hv
      -- inside a page the segment is cut as by `shannon_convert_bio`, which keeps the seed
      have hseed₁ : Seed g S total (a + v.bvLen) r₁ := by
        obtain ⟨qs, s, hqs, -, hseed₁⟩ :=
          cutPieces_bio v v.bvLen (o := 0) hg hseed (by omega) (Nat.zero_le _) (by omega)
        rw [lreqSegment_eq_bioSegment hpage, bioSegment, hqs] at hv
        exact (Prod.mk.inj (Option.some.inj hv)).2 ▸ hseed₁
      have hrest := ih hseed₁ (by omega) (fun w hw => hseg w (List.mem_cons_of_mem _ hw)) hvs
      simp only [Nat.add_zero, Nat.sub_zero] at hfirst
      rw [← Nat.add_assoc] at hrest
      simp only [blockCuts, List.length_append, List.length_cons]
      omega

/-- The pieces of a whole request. -/
theorem exists_lreqPieces (rq : Lreq) {k : ℕ} (hk : k < 32)
    (hsize : (rq.segs.map BioVec.bvLen).sum = rq.rqBytes)
    (hseg : ∀ v ∈ rq.segs, 0 < v.bvLen ∧ v.bvOffset + v.bvLen ≤ pageSize) :
    ∃ ps r, cutAll (lreqSegment (2 ^ k)) rq.segs
        (seedRemained (firstSize rq.rqPos rq.rqBytes (2 ^ k)) (2 ^ k)) = some (ps, r) ∧
      ps.length = rq.segs.length + blockCuts (2 ^ k) (rq.rqPos * 512) rq.segs := by
  have hg : 0 < 2 ^ k := Nat.two_pow_pos k
  have hseed := seed_start hk rq.rqPos rq.rqBytes
  obtain ⟨ps, r, hps, -⟩ := cutAll_bio rq.segs hg hseed (by omega)
  have hsame := cutAll_congr (fun v hv r => lreqSegment_eq_bioSegment (hseg v hv).2 (2 ^ k) r)
    (seedRemained (firstSize rq.rqPos rq.rqBytes (2 ^ k)) (2 ^ k))
  rw [← hsame] at hps
  have hlen := length_cutAll_lreq hg hseed (by omega) hseg hps
  rw [Nat.add_zero] at hlen
  exact ⟨ps, r, hps, hlen⟩

/-- **When the table of a request is large enough.**  For every start sector, every
power of two as block size and every request of segments inside one page, none empty:
the loop of `shannon_convert_lreq` ends within its `2 * segments + 1` entries exactly
if no more block boundaries of the device are inside the segments than there are
segments, and one.  With more of them `shannon_sg_next` returns `NULL`. -/
theorem lreq_fits_iff (sbio : ShannonBio) (rq : Lreq) {k : ℕ} (hk : k < 32)
    (hsize : (rq.segs.map BioVec.bvLen).sum = rq.rqBytes)
    (hseg : ∀ v ∈ rq.segs, 0 < v.bvLen ∧ v.bvOffset + v.bvLen ≤ pageSize) :
    (∃ s, lreqLoop (lreqSetup sbio rq (2 ^ k)) rq (2 ^ k) = .ok s ∧
        s.cursor.usedSgCount ≤ (lreqSetup sbio rq (2 ^ k)).sgCount) ↔
      blockCuts (2 ^ k) (rq.rqPos * 512) rq.segs ≤ rq.segs.length + 1 := by
  obtain ⟨ps, r, hps, hlen⟩ := exists_lreqPieces rq hk hsize hseg
  rw [← map_snd_counted rq.segs] at hps
  have hloop := forEachSegment_eq (lreqHole rq.segs.length)
    (fun v => mapLoop (lreqCut v) (lreqPlace v) (2 ^ k) v.bvLen v.bvLen 0)
    (fun v r ps r' h c => mapLoop_eq h c) hps false
    (SgCursor.start (shannonSgInitTable (2 * rq.segs.length + 1)))
  have hput := SgCursor.putAll_eq
    (SgCursor.inv_start (endsLast_init (2 * rq.segs.length + 1))) ps
  simp only [SgCursor.start, length_init, Nat.zero_add] at hput
  constructor
  · rintro ⟨s, hs, -⟩
    rcases hput with ⟨-, herr⟩ | ⟨hroom, -⟩
    · rw [SgCursor.start, herr] at hloop
      cases hs.symm.trans hloop
    · omega
  · intro hcuts
    rcases hput with ⟨hover, -⟩ | ⟨hroom, c, hc, -, -, hused, -⟩
    · omega
    · rw [SgCursor.start, hc] at hloop
      exact ⟨_, hloop, hused.trans_le hroom⟩

/-- Blocks no smaller than a page are always served: a segment has at most one boundary
inside. -/
theorem blockCuts_le_length {g : ℕ} (hg : pageSize ≤ g) {vs : List BioVec}
    (hseg : ∀ v ∈ vs, v.bvOffset + v.bvLen ≤ pageSize) (x : ℕ) :
    blockCuts g x vs ≤ vs.length := by
  induction vs generalizing x with
  | nil => exact Nat.zero_le _
  | cons v vs ih =>
      have hv := hseg v (List.mem_cons_self ..)
      have hone : crossings g x v.bvLen ≤ (v.bvLen + g - 1) / g :=
        crossings_le_ceil (lt_of_lt_of_le (by decide) hg)
      have hceil : (v.bvLen + g - 1) / g < 2 := by
        rw [Nat.div_lt_iff_lt_mul (lt_of_lt_of_le (by decide) hg)]
        have : 0 < pageSize := by decide
        omega
      have hrest := ih (fun w hw => hseg w (List.mem_cons_of_mem _ hw)) (x + v.bvLen)
      rw [blockCuts, List.length_cons]
      omega

/-- The hypotheses of `lreq_fits_iff` are satisfiable: two segments from sector 7 on
have one boundary of the 4096-byte blocks inside, and fit. -/
theorem lreq_fits_twoSegments :
    ∃ s, lreqLoop (lreqSetup (freshSbio .toDevice) ⟨7, 4608, twoSegments⟩ (2 ^ 12))
      ⟨7, 4608, twoSegments⟩ (2 ^ 12) = .ok s ∧ s.cursor.usedSgCount ≤ 5 :=
  (lreq_fits_iff (freshSbio .toDevice) ⟨7, 4608, twoSegments⟩ (k := 12) (by decide) (by decide)
    (by decide)).2 (by decide)

/-- One page to a device with blocks of 512 bytes: three entries are allocated, and the
fourth of the eight pieces goes to the entry after the last. -/
theorem lreq_overflows :
    (∀ v ∈ [(⟨3, 0, 4096⟩ : BioVec)], 0 < v.bvLen ∧ v.bvOffset + v.bvLen ≤ pageSize) ∧
      shannonConvertLreq true (freshSbio .toDevice) ⟨0, 4096, [⟨3, 0, 4096⟩]⟩ 512
        = .error .nullDeref ∧
      ¬∃ s, lreqLoop (lreqSetup (freshSbio .toDevice) ⟨0, 4096, [⟨3, 0, 4096⟩]⟩ 512)
          ⟨0, 4096, [⟨3, 0, 4096⟩]⟩ 512 = .ok s ∧
        s.cursor.usedSgCount
          ≤ (lreqSetup (freshSbio .toDevice) ⟨0, 4096, [⟨3, 0, 4096⟩]⟩ 512).sgCount := by
  have hloop : lreqLoop (lreqSetup (freshSbio .toDevice) ⟨0, 4096, [⟨3, 0, 4096⟩]⟩ 512)
      ⟨0, 4096, [⟨3, 0, 4096⟩]⟩ 512 = .error .nullDeref := by rfl
  refine ⟨by decide, ?_, ?_⟩
  · rw [shannonConvertLreq_eq, hloop]
    rfl
  · rintro ⟨s, hs, -⟩
    rw [hloop] at hs
    cases hs

/-! ### Commands -/

/-- Writing a piece counts it. -/
theorem SgCursor.used_put {c c' : SgCursor} {p : Piece} (h : c.put p = .ok c') :
    c'.usedSgCount = c.usedSgCount + 1 := by
  unfold SgCursor.put at h
  split at h
  · cases h
  · split_ifs at h
    obtain rfl := Except.ok.inj h
    rfl

theorem SgCursor.used_putAll {c c' : SgCursor} {ps : List Piece} (h : c.putAll ps = .ok c') :
    c'.usedSgCount = c.usedSgCount + ps.length := by
  induction ps generalizing c with
  | nil =>
      obtain rfl := Except.ok.inj h
      rfl
  | cons p ps ih =>
      obtain ⟨c₁, hput, h⟩ := bind_eq_ok.1 h
      have hused := used_put hput
      have hrest := ih h
      rw [List.length_cons]
      omega

/-- **With room for the pieces the guard does nothing.** -/
theorem scsiLoop_eq_mapLoop {sgCount logicbSize fuel o r r' : ℕ} {v : BioVec} {ps : List Piece}
    (h : cutPieces (bioCut v) (bioPlace v) logicbSize v.bvLen fuel o r = some (ps, r'))
    {c : SgCursor} (hroom : c.usedSgCount + ps.length ≤ sgCount) :
    scsiLoop sgCount logicbSize v fuel o r c
      = mapLoop (bioCut v) (bioPlace v) logicbSize v.bvLen fuel o r c := by
  induction fuel generalizing o r ps c with
  | zero =>
      rw [cutPieces] at h
      split_ifs at h with hlt
      simp only [scsiLoop, mapLoop, hlt, false_and, if_false]
  | succ fuel ih =>
      simp only [cutPieces] at h
      split_ifs at h with hlt
      · obtain ⟨⟨qs, r₁⟩, hqs, he⟩ := Option.map_eq_some_iff.1 h
        obtain ⟨rfl, rfl⟩ := Prod.mk.inj he
        dsimp only [List.length_cons] at hroom
        have hguard : o < v.bvLen ∧ c.usedSgCount < sgCount := ⟨hlt, by omega⟩
        simp only [scsiLoop, scsiCut_eq_bioCut, if_pos hguard, mapLoop, if_pos hlt]
        cases hput : c.put (bioPlace v o (bioCut v o r)) with
        | error e => rfl
        | ok c₁ =>
            have hused := SgCursor.used_put hput
            exact ih hqs (by omega)
      · simp only [scsiLoop, mapLoop, hlt, false_and, if_false]

/-- The same for all elements of the command. -/
theorem scsiSegments_eq (hole : ℕ → BioVec → Bool) (sgCount : ℕ) {logicbSize r r' : ℕ}
    {vs : List (ℕ × BioVec)} {ps : List Piece}
    (h : cutAll (bioSegment logicbSize) (vs.map Prod.snd) r = some (ps, r')) (b : Bool)
    {c : SgCursor} (hroom : c.usedSgCount + ps.length ≤ sgCount) :
    forEachSegment hole (fun v => scsiLoop sgCount logicbSize v v.bvLen 0) vs ⟨r, b, c⟩
      = forEachSegment hole (fun v => mapLoop (bioCut v) (bioPlace v) logicbSize v.bvLen v.bvLen 0)
        vs ⟨r, b, c⟩ := by
  induction vs generalizing r ps b c with
  | nil => rfl
  | cons iv vs ih =>
      obtain ⟨i, v⟩ := iv
      simp only [List.map_cons, cutAll] at h
      obtain ⟨⟨ps₁, r₁⟩, hv, h⟩ := Option.bind_eq_some_iff.1 h
      obtain ⟨⟨ps₂, r₂⟩, hvs, he⟩ := Option.map_eq_some_iff.1 h
      obtain ⟨rfl, rfl⟩ := Prod.mk.inj he
      rw [List.length_append] at hroom
      dsimp only at hroom
      simp only [forEachSegment]
      rw [scsiLoop_eq_mapLoop hv (by omega), mapLoop_eq hv]
      cases hput : c.putAll ps₁ with
      | error e => rfl
      | ok c₁ =>
          have hused := SgCursor.used_putAll hput
          exact ih hvs _ (by dsimp only; omega)

/-- The pieces of a command fit its formula. -/
theorem exists_scsiPieces (startSector : ℕ) (cmd : ScsiCmnd) {k : ℕ} (hk : k < 32)
    (hsize : (cmd.sgl.map BioVec.bvLen).sum = cmd.sdbLength)
    (hseg : ∀ v ∈ cmd.sgl, 0 < v.bvLen ∧ v.InOnePage) :
    ∃ ps r, cutAll (bioSegment (2 ^ k)) cmd.sgl
        (seedRemained (firstSize startSector cmd.sdbLength (2 ^ k)) (2 ^ k)) = some (ps, r) ∧
      ps.flatMap Piece.bytes = cmd.sgl.flatMap BioVec.bytes ∧
      ps.length ≤ 2 * ((cmd.sdbLength + 2 ^ k - 1) / 2 ^ k) + cmd.sgl.length := by
  have hg : 0 < 2 ^ k := Nat.two_pow_pos k
  have hseed := seed_start hk startSector cmd.sdbLength
  obtain ⟨ps, r, hps, hdel⟩ := cutAll_bio cmd.sgl hg hseed (by omega)
  have hcount := length_cutAll_bio hg hseed (by omega) (fun v hv => (hseg v hv).1) hps
  rw [pageCuts_eq_zero fun v hv => (hseg v hv).2, hsize] at hcount
  have hblocks : crossings (2 ^ k) (startSector * 512 + 0) cmd.sdbLength
      ≤ (cmd.sdbLength + 2 ^ k - 1) / 2 ^ k := crossings_le_ceil hg
  exact ⟨ps, r, hps, hdel.bytes_eq, by omega⟩

/-- The conversion returns, and has mapped the bytes. -/
theorem scsi_returns (sbio : ShannonBio) (cmd : ScsiCmnd) {k : ℕ} (hk : k < 32)
    (hsize : (cmd.sgl.map BioVec.bvLen).sum = cmd.sdbLength)
    (hseg : ∀ v ∈ cmd.sgl, 0 < v.bvLen ∧ v.InOnePage) :
    ∃ out, shannonConvertScsiScmd true sbio cmd (2 ^ k) = .ok (0, out) ∧
      out.usedSgCount ≤ out.sgCount ∧
      out.entries.flatMap Piece.bytes = cmd.sgl.flatMap BioVec.bytes := by
  obtain ⟨ps, r, hps, hbytes, hfits⟩ := exists_scsiPieces sbio.startSector cmd hk hsize hseg
  rw [← map_snd_counted cmd.sgl] at hps
  set sgCount := 2 * ((cmd.sdbLength + 2 ^ k - 1) / 2 ^ k) + cmd.sgl.length with hcount
  have hloop := scsiSegments_eq (scsiHole cmd.sgl.length) sgCount hps false
    (c := SgCursor.start (shannonSgInitTable sgCount))
    (by simpa only [SgCursor.start, Nat.zero_add] using hfits)
  rw [forEachSegment_eq _ _ (fun v r ps r' h c => mapLoop_eq h c) hps] at hloop
  rcases SgCursor.putAll_eq (SgCursor.inv_start (endsLast_init sgCount)) ps with
    ⟨hover, -⟩ | ⟨-, c, hc, -, -, -, -⟩
  · simp only [SgCursor.start, length_init] at hover
    omega
  · obtain ⟨hpieces, hused, -⟩ := SgCursor.start_putAll (endsLast_init sgCount) hc
    rw [hc] at hloop
    refine ⟨{ scsiSetup sbio cmd (2 ^ k) with
      hasHole := false || (counted cmd.sgl).any fun x => scsiHole cmd.sgl.length x.1 x.2
      usedSgCount := c.usedSgCount
      sg := some c.table }, ?_, hused.trans_le hfits, ?_⟩
    · rw [shannonConvertScsiScmd, if_pos rfl]
      dsimp only [scsiSetup]
      rw [← hcount, Option.getD_some, hloop]
      rfl
    · rw [← hbytes, ← hpieces]
      rfl

/-- `max_sectors` of `shannon_scsi_template`. -/
def scsiMaxSectors : ℕ := 0xffff

/-- Up to that size nothing overflows in `sg_count`. -/
theorem scsi_sgCount_eq (sbio : ShannonBio) (cmd : ScsiCmnd) {k : ℕ} (hk : k < 31)
    (hsize : (cmd.sgl.map BioVec.bvLen).sum = cmd.sdbLength)
    (hlen : ∀ v ∈ cmd.sgl, 0 < v.bvLen) (hmax : cmd.sdbLength ≤ scsiMaxSectors * 512) :
    (2 * ((cmd.sdbLength + 2 ^ k - 1) % 2 ^ 32 / 2 ^ k) + cmd.sgl.length) % 2 ^ 32
      = (scsiSetup sbio cmd (2 ^ k)).sgCount := by
  have hnents : cmd.sgl.length ≤ cmd.sdbLength := by
    rw [← hsize, ← List.length_map (f := BioVec.bvLen)]
    exact List.length_le_sum_of_one_le _ (by simpa [Nat.one_le_iff_ne_zero, Nat.pos_iff_ne_zero]
      using hlen)
  have hpow : 2 ^ k ≤ 2 ^ 30 := Nat.pow_le_pow_right (by decide) (by omega)
  have hblocks : (cmd.sdbLength + 2 ^ k - 1) / 2 ^ k ≤ cmd.sdbLength := by
    have : (cmd.sdbLength + 2 ^ k - 1) / 2 ^ k < cmd.sdbLength + 1 := by
      rw [Nat.div_lt_iff_lt_mul (Nat.two_pow_pos k), Nat.add_mul, Nat.one_mul]
      have := Nat.le_mul_of_pos_right cmd.sdbLength (Nat.two_pow_pos k)
      have := Nat.two_pow_pos k
      omega
    omega
  rw [scsiMaxSectors] at hmax
  rw [Nat.mod_eq_of_lt (a := cmd.sdbLength + 2 ^ k - 1) (by omega), Nat.mod_eq_of_lt (by omega)]
  rfl

/-- **The guard of the SCSI conversion never acts.**  For every command whose elements
are not empty, do not cross a page and sum to `sdb->length`, every start sector and every
power of two as block size: once the table is allocated the conversion returns, so
`SHN_BUG_ON(offset < sge->length)` does not fire, and the entries carry every byte of the
buffer, in order.  Up to the `max_sectors` of the host the 32-bit arithmetic of the
source computes the `sg_count` this is about. -/
theorem scsi_maps_all (sbio : ShannonBio) (cmd : ScsiCmnd) {k : ℕ} (hk : k < 31)
    (hsize : (cmd.sgl.map BioVec.bvLen).sum = cmd.sdbLength)
    (hseg : ∀ v ∈ cmd.sgl, 0 < v.bvLen ∧ v.InOnePage) :
    (∃ out, shannonConvertScsiScmd true sbio cmd (2 ^ k) = .ok (0, out) ∧
      out.usedSgCount ≤ out.sgCount ∧
      out.entries.flatMap Piece.bytes = cmd.sgl.flatMap BioVec.bytes) ∧
    (cmd.sdbLength ≤ scsiMaxSectors * 512 →
      (2 * ((cmd.sdbLength + 2 ^ k - 1) % 2 ^ 32 / 2 ^ k) + cmd.sgl.length) % 2 ^ 32
        = (scsiSetup sbio cmd (2 ^ k)).sgCount) := by
  constructor
  · exact scsi_returns sbio cmd (by omega) hsize hseg
  · exact scsi_sgCount_eq sbio cmd hk hsize fun v hv => (hseg v hv).1

/-- The hypotheses of `scsi_maps_all` are satisfiable: the command for two segments
inside a page each. -/
theorem scsi_maps_twoSegments :
    ∃ out, shannonConvertScsiScmd true { freshSbio .toDevice with startSector := 7 }
        ⟨some .toDevice, 4608, twoSegments⟩ (2 ^ 9) = .ok (0, out) ∧
      out.usedSgCount ≤ out.sgCount ∧
      out.entries.flatMap Piece.bytes = twoSegments.flatMap BioVec.bytes :=
  (scsi_maps_all { freshSbio .toDevice with startSector := 7 }
    ⟨some .toDevice, 4608, twoSegments⟩ (k := 9) (by decide) (by decide)
    (by unfold BioVec.InOnePage; decide)).1

end Block
end Shannon
