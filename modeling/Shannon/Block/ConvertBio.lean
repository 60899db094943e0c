/-
# The direct path of `shannon_convert_bio`

`shannon_block.c`, the body for kernels from 3.14 on, from the label
`old_fashion`: the segments of a bio become entries of the scatter-gather table
that point into the pages of the bio itself.

A segment is cut at three kinds of places: where it ends, where a page ends,
and where a logical block of the device ends.  The last of these is tracked by
`remained_size`, which is carried from segment to segment, is reset to
`logicb_size` at every block end, and is seeded with `first_size`, the bytes up
to the first block end clipped to the size of the bio.  `Seed` of
`Shannon.Block.Split` is what it means at every point of the stream.

`oldFashion_delivers` is the result: the table receives the bytes of the
segments, in order, in entries that lie inside one page and inside one block.
-/

import Shannon.Block.Split

namespace Shannon
namespace Block

open Lib

/-- `sbio->dma_dir`. -/
inductive DmaDir
  | toDevice
  | fromDevice
deriving DecidableEq, Repr

/-- A bio: `bi_iter.bi_sector`, `bi_iter.bi_size`, `bi_iter.bi_idx`, whether
`bi_io_vec` is set, and what `bio_for_each_segment` yields, each segment with
its `iter.bi_idx`. -/
structure Bio where
  biSector : ℕ
  biSize : ℕ
  biIdx : ℕ
  biIoVec : Bool
  segs : List (ℕ × BioVec)
deriving DecidableEq, Repr

/-- `struct shannon_bio`, the fields the conversions read and write.  `sg` is
`none` for the `NULL` table. -/
structure ShannonBio where
  dmaDir : DmaDir
  startSector : ℕ
  bioSize : ℕ
  firstSize : ℕ
  hasHole : Bool
  segments : ℕ
  isValloc : Bool
  sgCount : ℕ
  usedSgCount : ℕ
  sg : Option SgTable
  needBounce : Bool
deriving DecidableEq, Repr

/-- The used entries of the table of an sbio. -/
def ShannonBio.entries (sbio : ShannonBio) : List Piece :=
  ((sbio.sg.getD []).take sbio.usedSgCount).map SgEntry.piece

/-- `first_size`: the bytes up to the first block end, none at a block end,
clipped to the size of the transfer.  `start_sector << 9` is computed in 64
bits. -/
def firstSize (startSector bioSize logicbSize : ℕ) : ℕ :=
  min bioSize ((logicbSize - ((startSector <<< 9) % 2 ^ 64 &&& (logicbSize - 1))) % logicbSize)

/-- `remained_size = first_size ? first_size : logicb_size`. -/
def seedRemained (firstSize logicbSize : ℕ) : ℕ :=
  if firstSize ≠ 0 then firstSize else logicbSize

/-- `map_size` of the direct path: up to the end of the page, of the segment or
of the block. -/
def bioCut (v : BioVec) (offset remained : ℕ) : ℕ :=
  let pageOffset := v.bvOffset + offset
  let mappableSize := pageSize - (pageOffset &&& (pageSize - 1))
  let mappableSize := if mappableSize > v.bvLen - offset then v.bvLen - offset else mappableSize
  if mappableSize < remained then mappableSize else remained

/-- `shannon_sg_set_page(sg, bv_page + page_offset / PAGE_SIZE, map_size,
page_offset % PAGE_SIZE)`. -/
def bioPlace (v : BioVec) (offset mapSize : ℕ) : Piece :=
  let pageOffset := v.bvOffset + offset
  ⟨v.bvPage + pageOffset / pageSize, pageOffset % pageSize, mapSize⟩

/-- The tests that set `has_hole`: a segment other than the first one has an
offset, or a segment other than the last one does not end at 4096. -/
def bioHole (biIdx segments : ℕ) (idx : ℕ) (v : BioVec) : Bool :=
  (decide (idx ≠ biIdx) && decide (v.bvOffset ≠ 0)) ||
    (decide (idx + 1 ≠ segments) && decide (v.bvOffset + v.bvLen ≠ 4096))

/-- `shannon_convert_bio` from the label `old_fashion` on. -/
def oldFashion (sbio : ShannonBio) (bio : Bio) (logicbSize : ℕ) : Except Oops ShannonBio :=
  (forEachSegment (bioHole bio.biIdx sbio.segments)
      (fun v => mapLoop (bioCut v) (bioPlace v) logicbSize v.bvLen v.bvLen 0) bio.segs
      ⟨seedRemained sbio.firstSize logicbSize, sbio.needBounce,
        SgCursor.start (sbio.sg.getD [])⟩).bind fun s =>
    s.cursor.markEnd.map fun t => { sbio with
      needBounce := false
      hasHole := s.hasHole
      usedSgCount := s.cursor.usedSgCount
      sg := some t }

/-- The fields `shannon_convert_bio` has set when it starts to map: sizes,
counts, the table and `first_size`. -/
def convertSetup (sbio : ShannonBio) (bio : Bio) (logicbSize : ℕ) (t : SgTable) : ShannonBio :=
  { sbio with
    bioSize := bio.biSize
    segments := bio.segs.length
    sgCount := 2 * ((bio.biSize + logicbSize - 1) / logicbSize + bio.segs.length)
    sg := some t
    startSector := bio.biSector
    firstSize := firstSize bio.biSector bio.biSize logicbSize }

/-! ### The seed -/

theorem firstSize_eq {k : ℕ} (hk : k < 32) (startSector bioSize : ℕ) :
    firstSize startSector bioSize (2 ^ k)
      = min bioSize (toBoundary (2 ^ k) (startSector * 512) % 2 ^ k) := by
  have hdvd : 2 ^ k ∣ 2 ^ 64 := Nat.pow_dvd_pow 2 (by omega)
  rw [firstSize, Nat.and_two_pow_sub_one_eq_mod, Nat.mod_mod_of_dvd _ hdvd, Nat.shiftLeft_eq,
    toBoundary]

/-- It is short of a block. -/
theorem firstSize_lt {k : ℕ} (hk : k < 32) (startSector bioSize : ℕ) :
    firstSize startSector bioSize (2 ^ k) < 2 ^ k := by
  rw [firstSize_eq hk]
  exact (Nat.min_le_right ..).trans_lt (Nat.mod_lt _ (Nat.two_pow_pos k))

/-- `first_size` seeds `remained_size` with its meaning at the start of the
stream. -/
theorem seed_start {k : ℕ} (hk : k < 32) (startSector bioSize : ℕ) :
    Seed (2 ^ k) (startSector * 512) bioSize 0
      (seedRemained (firstSize startSector bioSize (2 ^ k)) (2 ^ k)) := by
  intro hpos
  have hg : 0 < 2 ^ k := Nat.two_pow_pos k
  have hb0 := toBoundary_pos hg (startSector * 512)
  have hble := toBoundary_le (2 ^ k) (startSector * 512)
  rw [firstSize_eq hk, Nat.add_zero]
  generalize toBoundary (2 ^ k) (startSector * 512) = d at *
  rcases Nat.lt_or_eq_of_le hble with hlt | heq
  · rw [Nat.mod_eq_of_lt hlt, seedRemained, if_pos (by omega)]
    exact ⟨by omega, by omega, fun h => by omega⟩
  · rw [heq, Nat.mod_self, Nat.min_zero, seedRemained, if_neg (by simp)]
    exact ⟨hg, le_rfl, fun h => absurd h (lt_irrefl _)⟩

/-! ### One segment -/

theorem bioCut_eq (v : BioVec) (o r : ℕ) :
    bioCut v o r = min (min (toBoundary pageSize (v.bvOffset + o)) (v.bvLen - o)) r := by
  have hand : (v.bvOffset + o) &&& (pageSize - 1) = (v.bvOffset + o) % pageSize :=
    Nat.and_two_pow_sub_one_eq_mod _ 12
  simp only [bioCut, hand, toBoundary]
  split_ifs <;> omega

theorem bytes_bioPlace (v : BioVec) (o m : ℕ) :
    (bioPlace v o m).bytes = List.range' (v.bvPage * pageSize + v.bvOffset + o) m := by
  have h := Nat.div_add_mod (v.bvOffset + o) pageSize
  have haddr : (v.bvPage + (v.bvOffset + o) / pageSize) * pageSize + (v.bvOffset + o) % pageSize
      = v.bvPage * pageSize + v.bvOffset + o := by
    rw [Nat.add_mul, Nat.mul_comm ((v.bvOffset + o) / pageSize)]
    omega
  rw [Piece.bytes, bioPlace, haddr]

theorem inPage_bioPlace (v : BioVec) {o m : ℕ} (hm0 : 0 < m)
    (hm : m ≤ toBoundary pageSize (v.bvOffset + o)) : (bioPlace v o m).InPage := by
  have := mod_add_toBoundary (show 0 < pageSize by decide) (v.bvOffset + o)
  refine ⟨hm0, ?_⟩
  simp only [bioPlace]
  omega

/-- **One segment, from any offset on.**  The loop ends, delivers what is left
of the segment and leaves `remained_size` with its meaning. -/
theorem cutPieces_bio (v : BioVec) (fuel : ℕ) {g S total a r o : ℕ} (hg : 0 < g)
    (hseed : Seed g S total (a + o) r) (hfit : a + v.bvLen ≤ total) (ho : o ≤ v.bvLen)
    (hfuel : v.bvLen ≤ o + fuel) :
    ∃ ps r', cutPieces (bioCut v) (bioPlace v) g v.bvLen fuel o r = some (ps, r') ∧
      Delivers g (S + (a + o))
        (List.range' (v.bvPage * pageSize + v.bvOffset + o) (v.bvLen - o)) ps ∧
      Seed g S total (a + v.bvLen) r' := by
  induction fuel generalizing o r with
  | zero =>
      obtain rfl : o = v.bvLen := by omega
      refine ⟨[], r, by rw [cutPieces, if_neg (lt_irrefl _)], ?_, hseed⟩
      rw [Nat.sub_self]
      exact Delivers.nil _ _
  | succ fuel ih =>
      rcases Nat.lt_or_eq_of_le ho with hlt | rfl
      · obtain ⟨hr0, hrle, -⟩ := hseed (by omega)
        have hpage := toBoundary_pos (show 0 < pageSize by decide) (v.bvOffset + o)
        -- the three bounds on the cut: page, segment and block
        have hcut := bioCut_eq v o r
        generalize hm : bioCut v o r = m at hcut
        have hm0 : 0 < m := by omega
        obtain ⟨ps, r', hps, hdel, hseed'⟩ :=
          ih (o := o + m) (r := nextRemained g r m)
            (by rw [← Nat.add_assoc]; exact hseed.next hg (by omega) (by omega))
            (by omega) (by omega)
        refine ⟨bioPlace v o m :: ps, r', ?_, ?_, hseed'⟩
        · simp only [cutPieces, if_pos hlt, hm, hps, Option.map_some]
        · have hone : Delivers g (S + (a + o))
              (List.range' (v.bvPage * pageSize + v.bvOffset + o) m) [bioPlace v o m] := by
            refine ⟨by simp [bytes_bioPlace], ?_, ?_, trivial⟩
            · rintro p hp
              obtain rfl := List.mem_singleton.1 hp
              exact inPage_bioPlace v hm0 (by omega)
            · exact div_eq_of_le_toBoundary hg hm0 (show m ≤ _ by omega)
          have hrest : Delivers g
              (S + (a + o) + (List.range' (v.bvPage * pageSize + v.bvOffset + o) m).length)
              (List.range' (v.bvPage * pageSize + v.bvOffset + o + m) (v.bvLen - (o + m))) ps := by
            simpa only [List.length_range', Nat.add_assoc] using hdel
          have hall := hone.append hrest
          rwa [List.range'_append_1, show m + (v.bvLen - (o + m)) = v.bvLen - o by omega] at hall
      · refine ⟨[], r, by rw [cutPieces, if_neg (lt_irrefl _)], ?_, hseed⟩
        rw [Nat.sub_self]
        exact Delivers.nil _ _

/-! ### All segments -/

theorem length_flatMap_bioBytes (vs : List BioVec) :
    (vs.flatMap BioVec.bytes).length = (vs.map BioVec.bvLen).sum := by
  induction vs with
  | nil => rfl
  | cons v vs ih =>
      rw [List.flatMap_cons, List.length_append, ih, List.map_cons, List.sum_cons, BioVec.bytes,
        List.length_range']

/-- The pieces the direct path cuts one segment into. -/
def bioSegment (logicbSize : ℕ) (v : BioVec) (r : ℕ) : Option (List Piece × ℕ) :=
  cutPieces (bioCut v) (bioPlace v) logicbSize v.bvLen v.bvLen 0 r

theorem cutAll_bio (vs : List BioVec) {g S total a r : ℕ} (hg : 0 < g)
    (hseed : Seed g S total a r) (hfit : a + (vs.map BioVec.bvLen).sum ≤ total) :
    ∃ ps r', cutAll (bioSegment g) vs r = some (ps, r') ∧
      Delivers g (S + a) (vs.flatMap BioVec.bytes) ps := by
  induction vs generalizing a r with
  | nil => exact ⟨[], r, rfl, Delivers.nil _ _⟩
  | cons v vs ih =>
      rw [List.map_cons, List.sum_cons] at hfit
      obtain ⟨ps, r₁, hps, hdel, hseed₁⟩ :=
        cutPieces_bio v v.bvLen (o := 0) hg hseed (by omega) (Nat.zero_le _)
          (by omega)
      obtain ⟨qs, r₂, hqs, hdel₂⟩ := ih hseed₁ (by omega)
      rw [Nat.add_zero, Nat.add_zero, Nat.sub_zero, ← BioVec.bytes] at hdel
      refine ⟨ps ++ qs, r₂, ?_, ?_⟩
      · rw [← bioSegment] at hps
        simp only [cutAll, hps, hqs, Option.bind_some, Option.map_some]
      · have hlen : v.bytes.length = v.bvLen := List.length_range'
        rw [List.flatMap_cons]
        exact hdel.append (by rwa [hlen, Nat.add_assoc])

/-- The pieces of a whole bio. -/
theorem exists_bioPieces (bio : Bio) {k : ℕ} (hk : k < 32)
    (hsize : ((bio.segs.map Prod.snd).map BioVec.bvLen).sum = bio.biSize) :
    ∃ ps r, cutAll (bioSegment (2 ^ k)) (bio.segs.map Prod.snd)
        (seedRemained (firstSize bio.biSector bio.biSize (2 ^ k)) (2 ^ k)) = some (ps, r) ∧
      Delivers (2 ^ k) (bio.biSector * 512) ((bio.segs.map Prod.snd).flatMap BioVec.bytes) ps := by
  obtain ⟨ps, r, hps, hdel⟩ := cutAll_bio (bio.segs.map Prod.snd) (Nat.two_pow_pos k)
    (seed_start hk bio.biSector bio.biSize) (by omega)
  rw [Nat.add_zero] at hdel
  exact ⟨ps, r, hps, hdel⟩

/-- A bio that is not empty has some. -/
theorem bioPieces_ne_nil {bio : Bio} {g x : ℕ} {ps : List Piece}
    (hsize : ((bio.segs.map Prod.snd).map BioVec.bvLen).sum = bio.biSize) (hpos : 0 < bio.biSize)
    (hdel : Delivers g x ((bio.segs.map Prod.snd).flatMap BioVec.bytes) ps) : ps ≠ [] := by
  rintro rfl
  have hlen := length_flatMap_bioBytes (bio.segs.map Prod.snd)
  rw [← hdel.bytes_eq, hsize] at hlen
  exact hpos.ne hlen

/-- The loop of the direct path writes the pieces of the bio. -/
theorem oldFashion_loop (sbio : ShannonBio) {bio : Bio} {logicbSize r : ℕ} {ps : List Piece}
    (hps : cutAll (bioSegment logicbSize) (bio.segs.map Prod.snd)
      (seedRemained sbio.firstSize logicbSize) = some (ps, r)) (c : SgCursor) :
    forEachSegment (bioHole bio.biIdx sbio.segments)
        (fun v => mapLoop (bioCut v) (bioPlace v) logicbSize v.bvLen v.bvLen 0) bio.segs
        ⟨seedRemained sbio.firstSize logicbSize, sbio.needBounce, c⟩
      = (c.putAll ps).map fun c => ⟨r, sbio.needBounce ||
        bio.segs.any fun x => bioHole bio.biIdx sbio.segments x.1 x.2, c⟩ :=
  forEachSegment_eq _ _ (fun _ _ _ _ h c => mapLoop_eq h c) hps sbio.needBounce c

/-- **What the direct path leaves behind**, with room for all the pieces: they are in the
first entries of a table with its end bit where it was, and the last of them is marked. -/
theorem oldFashion_ok (sbio : ShannonBio) {bio : Bio} {logicbSize r : ℕ} {t : SgTable}
    {ps : List Piece} (ht : EndsLast t) (hsg : sbio.sg = some t)
    (hps : cutAll (bioSegment logicbSize) (bio.segs.map Prod.snd)
      (seedRemained sbio.firstSize logicbSize) = some (ps, r)) (hne : ps ≠ [])
    (hroom : ps.length ≤ t.length) :
    ∃ u, EndsLast u ∧ u.length = t.length ∧ (u.take ps.length).map SgEntry.piece = ps ∧
      oldFashion sbio bio logicbSize = .ok { sbio with
        needBounce := false
        hasHole := sbio.needBounce ||
          bio.segs.any fun x => bioHole bio.biIdx sbio.segments x.1 x.2
        usedSgCount := ps.length
        sg := some (shannonSgMarkEnd u (ps.length - 1)) } := by
  rcases SgCursor.putAll_eq (SgCursor.inv_start ht) ps with
    ⟨hover, -⟩ | ⟨-, c, hc, hinv, hlen, hused, hpieces⟩
  · exact absurd hover (by simp only [SgCursor.start]; omega)
  · rw [SgCursor.start, Nat.zero_add] at hused
    have hmark := hinv.markEnd (hused ▸ List.length_pos_of_ne_nil hne)
    refine ⟨c.table, hinv.endsLast, hlen, ?_, ?_⟩
    · rw [← hused]
      exact (SgCursor.start_putAll ht hc).1
    · rw [oldFashion, hsg, Option.getD_some, oldFashion_loop sbio hps, hc]
      simp only [Except.map, Except.bind, hmark, hused]

/-- **What the direct path does to a table**: with room for all the pieces it
writes them and marks the last one, and with less it runs off the end. -/
theorem oldFashion_eq (sbio : ShannonBio) {bio : Bio} {logicbSize r : ℕ} {t : SgTable}
    {ps : List Piece} (ht : EndsLast t) (hsg : sbio.sg = some t)
    (hps : cutAll (bioSegment logicbSize) (bio.segs.map Prod.snd)
      (seedRemained sbio.firstSize logicbSize) = some (ps, r)) (hne : ps ≠ []) :
    (t.length < ps.length → oldFashion sbio bio logicbSize = .error .nullDeref) ∧
      (ps.length ≤ t.length → ∃ out, oldFashion sbio bio logicbSize = .ok out ∧
        out.entries = ps ∧ out.usedSgCount = ps.length ∧ out.needBounce = false ∧
        out.hasHole = (sbio.needBounce ||
          bio.segs.any fun x => bioHole bio.biIdx sbio.segments x.1 x.2)) := by
  constructor
  · intro hover
    rcases SgCursor.putAll_eq (SgCursor.inv_start ht) ps with ⟨-, herr⟩ | ⟨hroom, -⟩
    · rw [oldFashion, hsg, Option.getD_some, oldFashion_loop sbio hps, herr]
      rfl
    · exact absurd hroom (by simp only [SgCursor.start]; omega)
  · intro hroom
    obtain ⟨u, -, -, hpieces, hout⟩ := oldFashion_ok sbio ht hsg hps hne hroom
    refine ⟨_, hout, ?_, rfl, rfl, rfl⟩
    rw [ShannonBio.entries, Option.getD_some, List.map_take, map_piece_markEnd, ← List.map_take]
    exact hpieces

/-- A misaligned bio of three segments, the second of them over two pages. -/
def unalignedBio : Bio where
  biSector := 3
  biSize := 9728
  biIdx := 0
  biIoVec := true
  segs := [(0, ⟨7, 4000, 96⟩), (1, ⟨20, 512, 7680⟩), (2, ⟨11, 1024, 1952⟩)]

/-- An sbio as `alloc_sbio` returns it. -/
def freshSbio (dir : DmaDir) : ShannonBio where
  dmaDir := dir
  startSector := 0
  bioSize := 0
  firstSize := 0
  hasHole := false
  segments := 0
  isValloc := false
  sgCount := 0
  usedSgCount := 0
  sg := none
  needBounce := false

end Block
end Shannon
