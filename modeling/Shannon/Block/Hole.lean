/-
# Holes

`shannon_block.c`: `has_hole` is to say that the data of a transfer is not contiguous
up to whole pages.  The comments in `shannon_convert_bio` and `shannon_convert_lreq`
are the same: all segments start at offset 0 except the first one, and end at 4096
except the last one.  `shannon_convert_lreq` counts the segments; `shannon_convert_bio`
takes a segment for the first or last one by `iter.bi_idx`.

`bio_for_each_segment` yields the single pages of the vectors of a bio, and
`iter.bi_idx` is the number of the vector, so that there are several segments to an
index if a vector has several pages, and the first index is not zero if the bio is the
rest of another one.  `iter.bi_idx` finds the first segment all the same, since pages
of one vector follow each other (`KernelBio.follows`).  It finds the last one exactly
where `LastFound` says, and there `shannon_convert_bio` means what the comments say:
`convertBio_hasHole_iff`.
-/

import Shannon.Block.Bounce

namespace Shannon
namespace Block

/-! ### `bio_for_each_segment` -/

/-- `struct bvec_iter`. -/
structure BvecIter where
  biSize : ℕ
  biIdx : ℕ
  biBvecDone : ℕ
deriving DecidableEq, Repr

/-- `bio_iter_iovec`: what is left of the vector `v`, up to the end of a page. -/
def bioIterIovec (v : BioVec) (iter : BvecIter) : BioVec :=
  let offset := v.bvOffset + iter.biBvecDone
  ⟨v.bvPage + offset / pageSize, offset % pageSize,
    min (min iter.biSize (v.bvLen - iter.biBvecDone)) (pageSize - offset % pageSize)⟩

/-- `bio_advance_iter_single` in the vector `v`. -/
def bioAdvanceIterSingle (v : BioVec) (iter : BvecIter) (bytes : ℕ) : BvecIter :=
  if iter.biBvecDone + bytes = v.bvLen then ⟨iter.biSize - bytes, iter.biIdx + 1, 0⟩
  else ⟨iter.biSize - bytes, iter.biIdx, iter.biBvecDone + bytes⟩

/-- `bio_for_each_segment` from `iter` on: each segment with its `iter.bi_idx`.  A
segment has at least one byte, so `fuel` bytes are at most `fuel` segments. -/
def bioForEachSegment (vecs : List BioVec) : ℕ → BvecIter → List (ℕ × BioVec)
  | 0, _ => []
  | fuel + 1, iter =>
      if iter.biSize = 0 then []
      else match vecs[iter.biIdx]? with
        | none => []
        | some v =>
            (iter.biIdx, bioIterIovec v iter) ::
              bioForEachSegment vecs fuel
                (bioAdvanceIterSingle v iter (bioIterIovec v iter).bvLen)

/-- `struct bio`: its vectors, none empty, and an iterator inside them. -/
structure KernelBio where
  biSector : ℕ
  biIoVec : List BioVec
  biIter : BvecIter
  bvLen_pos : ∀ v ∈ biIoVec, 0 < v.bvLen
  biBvecDone_lt : ∀ v, biIoVec[biIter.biIdx]? = some v → biIter.biBvecDone < v.bvLen
  biSize_le : biIter.biSize + biIter.biBvecDone
    ≤ ((biIoVec.drop biIter.biIdx).map BioVec.bvLen).sum

/-- The segments of a bio. -/
def KernelBio.segs (b : KernelBio) : List (ℕ × BioVec) :=
  bioForEachSegment b.biIoVec b.biIter.biSize b.biIter

/-- What the conversions see of it. -/
def KernelBio.toBio (b : KernelBio) : Bio :=
  ⟨b.biSector, b.biIter.biSize, b.biIter.biIdx, true, b.segs⟩

/-- How a segment follows another one: on the next page of the same vector, or in the
next vector. -/
def Follows (p q : ℕ × BioVec) : Prop :=
  (q.1 = p.1 ∧ p.2.bvOffset + p.2.bvLen = 4096 ∧ q.2.bvOffset = 0) ∨ q.1 = p.1 + 1

/-- The first segment is in the vector of the iterator. -/
theorem bioForEachSegment_head {vecs : List BioVec} {fuel : ℕ} {iter : BvecIter}
    {p : ℕ × BioVec} (h : (bioForEachSegment vecs fuel iter)[0]? = some p) :
    ∃ v, vecs[iter.biIdx]? = some v ∧ iter.biSize ≠ 0 ∧
      p = (iter.biIdx, bioIterIovec v iter) := by
  cases fuel with
  | zero => cases h
  | succ fuel =>
      rw [bioForEachSegment] at h
      split_ifs at h with hsize
      · cases h
      · split at h
        · cases h
        · next v hv => exact ⟨v, hv, hsize, (Option.some.inj h).symm⟩

/-- The iterator is inside its vector, and stays there. -/
theorem biBvecDone_lt_advance {vecs : List BioVec} (hpos : ∀ v ∈ vecs, 0 < v.bvLen)
    {iter : BvecIter} {v : BioVec} (hv : vecs[iter.biIdx]? = some v)
    (hdone : iter.biBvecDone < v.bvLen) :
    ∀ w, vecs[(bioAdvanceIterSingle v iter (bioIterIovec v iter).bvLen).biIdx]? = some w →
      (bioAdvanceIterSingle v iter (bioIterIovec v iter).bvLen).biBvecDone < w.bvLen := by
  intro w hw
  have hle : (bioIterIovec v iter).bvLen ≤ v.bvLen - iter.biBvecDone :=
    (Nat.min_le_left _ _).trans (Nat.min_le_right _ _)
  unfold bioAdvanceIterSingle at hw ⊢
  split_ifs at hw ⊢ with hend
  · exact hpos w (List.mem_of_getElem? hw)
  · obtain rfl := Option.some.inj (hv.symm.trans hw)
    show iter.biBvecDone + (bioIterIovec v iter).bvLen < v.bvLen
    omega

/-- Two segments in a row. -/
theorem follows_advance {vecs : List BioVec} {fuel : ℕ} {iter : BvecIter} {v : BioVec}
    {q : ℕ × BioVec} (hv : vecs[iter.biIdx]? = some v) (hdone : iter.biBvecDone < v.bvLen)
    (hq : (bioForEachSegment vecs fuel
      (bioAdvanceIterSingle v iter (bioIterIovec v iter).bvLen))[0]? = some q) :
    Follows (iter.biIdx, bioIterIovec v iter) q := by
  obtain ⟨w, hw, hsize, rfl⟩ := bioForEachSegment_head hq
  have hlen : (bioIterIovec v iter).bvLen
      = min (min iter.biSize (v.bvLen - iter.biBvecDone))
        (pageSize - (v.bvOffset + iter.biBvecDone) % pageSize) := rfl
  have hoffset : (bioIterIovec v iter).bvOffset = (v.bvOffset + iter.biBvecDone) % pageSize := rfl
  generalize bioIterIovec v iter = seg at *
  unfold bioAdvanceIterSingle at hw hsize ⊢
  split_ifs at hw hsize ⊢ with hend
  · exact .inr rfl
  · left
    obtain rfl := Option.some.inj (hv.symm.trans hw)
    -- neither the vector nor the bio ends here, so a page does
    have hpage : seg.bvLen = pageSize - (v.bvOffset + iter.biBvecDone) % pageSize := by
      simp only at hsize
      omega
    have hlt : (v.bvOffset + iter.biBvecDone) % pageSize < pageSize := Nat.mod_lt _ (by decide)
    refine ⟨rfl, ?_, ?_⟩
    · show seg.bvOffset + seg.bvLen = pageSize
      omega
    · show (v.bvOffset + (iter.biBvecDone + seg.bvLen)) % pageSize = 0
      unfold pageSize at *
      omega

/-- **Every segment follows the one before it.** -/
theorem bioForEachSegment_follows {vecs : List BioVec} (hpos : ∀ v ∈ vecs, 0 < v.bvLen) {fuel : ℕ}
    {iter : BvecIter} (hdone : ∀ v, vecs[iter.biIdx]? = some v → iter.biBvecDone < v.bvLen) {i : ℕ}
    {p q : ℕ × BioVec} (hp : (bioForEachSegment vecs fuel iter)[i]? = some p)
    (hq : (bioForEachSegment vecs fuel iter)[i + 1]? = some q) : Follows p q := by
  induction fuel generalizing iter i with
  | zero => cases hp
  | succ fuel ih =>
      rw [bioForEachSegment] at hp hq
      split_ifs at hp hq with hsize
      · cases hp
      · split at hp
        · cases hp
        · next v hv =>
          rw [hv] at hq
          simp only [List.getElem?_cons_succ] at hq
          cases i with
          | zero =>
              obtain rfl := Option.some.inj hp
              exact follows_advance hv (hdone v hv) hq
          | succ i =>
              rw [List.getElem?_cons_succ] at hp
              exact ih (biBvecDone_lt_advance hpos hv (hdone v hv)) hp hq

namespace KernelBio

variable (b : KernelBio)

theorem follows {i : ℕ} {p q : ℕ × BioVec} (hp : b.segs[i]? = some p)
    (hq : b.segs[i + 1]? = some q) : Follows p q :=
  bioForEachSegment_follows b.bvLen_pos b.biBvecDone_lt hp hq

theorem head_idx {p : ℕ × BioVec} (hp : b.segs[0]? = some p) : p.1 = b.biIter.biIdx := by
  obtain ⟨v, -, -, rfl⟩ := bioForEachSegment_head hp
  rfl

/-- The indices do not decrease. -/
theorem idx_le {i j : ℕ} {p q : ℕ × BioVec} (hij : i ≤ j) (hp : b.segs[i]? = some p)
    (hq : b.segs[j]? = some q) : p.1 ≤ q.1 := by
  induction j generalizing q with
  | zero =>
      obtain rfl : i = 0 := by omega
      obtain rfl := Option.some.inj (hp.symm.trans hq)
      exact le_rfl
  | succ j ih =>
      rcases Nat.lt_or_eq_of_le hij with hlt | rfl
      · have hj : j < b.segs.length := by
          have := (List.getElem?_eq_some_iff.1 hq).1
          omega
        have hle := ih (by omega) (List.getElem?_eq_getElem hj)
        rcases b.follows (List.getElem?_eq_getElem hj) hq with ⟨heq, -, -⟩ | heq
        · omega
        · omega
      · obtain rfl := Option.some.inj (hp.symm.trans hq)
        exact le_rfl

/-- A segment with the index of the iterator is the first one, or has no offset. -/
theorem offset_of_idx_eq {i : ℕ} {p : ℕ × BioVec} (hp : b.segs[i]? = some p) (hi : i ≠ 0)
    (hidx : p.1 = b.biIter.biIdx) : p.2.bvOffset = 0 := by
  obtain ⟨j, rfl⟩ := Nat.exists_eq_succ_of_ne_zero hi
  have hlen := (List.getElem?_eq_some_iff.1 hp).1
  have hj : b.segs[j]? = some b.segs[j] := List.getElem?_eq_getElem (by omega)
  have h0 : b.segs[0]? = some b.segs[0] := List.getElem?_eq_getElem (by omega)
  have hhead := b.head_idx h0
  have hle := b.idx_le (Nat.zero_le j) h0 hj
  rcases b.follows hj hp with ⟨-, -, hoffset⟩ | hnext
  · exact hoffset
  · omega

/-- A segment with the index of the last one is the last one, or ends at 4096. -/
theorem end_of_idx_eq {i j : ℕ} {p q : ℕ × BioVec} (hp : b.segs[i]? = some p)
    (hq : b.segs[j]? = some q) (hij : i < j) (hidx : p.1 = q.1) :
    p.2.bvOffset + p.2.bvLen = 4096 := by
  have hlen := (List.getElem?_eq_some_iff.1 hq).1
  have hnext : b.segs[i + 1]? = some b.segs[i + 1] := List.getElem?_eq_getElem (by omega)
  have hle := b.idx_le hij hnext hq
  rcases b.follows hp hnext with ⟨-, hend, -⟩ | hsucc
  · exact hend
  · omega

end KernelBio

/-! ### The two tests -/

/-- What the comments say: all segments start at offset 0 except the first one, and
end at 4096 except the last one. -/
def NoHole (vs : List BioVec) : Prop :=
  ∀ i v, vs[i]? = some v →
    (i ≠ 0 → v.bvOffset = 0) ∧ (i + 1 ≠ vs.length → v.bvOffset + v.bvLen = 4096)

/-- **The counting test of `shannon_convert_lreq` is what the comments say.** -/
theorem lreqHole_eq_false_iff (vs : List BioVec) :
    ((counted vs).any fun x => lreqHole vs.length x.1 x.2) = false ↔ NoHole vs := by
  rw [List.any_eq_false]
  constructor
  · intro h i v hv
    have hmem : (i, v) ∈ counted vs := by
      rw [counted, List.mem_map]
      exact ⟨(v, i), List.mk_mem_zipIdx_iff_getElem?.2 hv, rfl⟩
    simpa [lreqHole, not_or, imp_iff_not_or] using h _ hmem
  · rintro h ⟨i, v⟩ hmem
    obtain ⟨⟨w, j⟩, hw, he⟩ := List.mem_map.1 hmem
    obtain ⟨rfl, rfl⟩ := Prod.mk.inj he
    simpa [lreqHole, not_or, imp_iff_not_or] using h _ _ (List.mk_mem_zipIdx_iff_getElem?.1 hw)

namespace KernelBio

variable (b : KernelBio)

/-- All segments but the first one start at offset 0. -/
def StartsFit : Prop := ∀ i p, b.segs[i]? = some p → i ≠ 0 → p.2.bvOffset = 0

/-- All segments but the last one end at 4096. -/
def EndsFit : Prop :=
  ∀ i p, b.segs[i]? = some p → i + 1 ≠ b.segs.length → p.2.bvOffset + p.2.bvLen = 4096

/-- All segments end at 4096 but those whose vector has the number of the last
segment. -/
def IndexedEndsFit : Prop :=
  ∀ (i : ℕ) (p : ℕ × BioVec), b.segs[i]? = some p → p.1 + 1 ≠ b.segs.length →
    p.2.bvOffset + p.2.bvLen = 4096

/-- Where taking `iter.bi_idx == segments - 1` for the last segment makes no
difference: the last segment has this index; or there is a hole that is found anyway;
or the last segment ends at 4096 exactly if all the others do. -/
def LastFound : Prop :=
  (∃ i p, b.segs[i]? = some p ∧ i + 1 = b.segs.length ∧ p.1 + 1 = b.segs.length) ∨
  (∃ i p, b.segs[i]? = some p ∧ i ≠ 0 ∧ p.2.bvOffset ≠ 0) ∨
  (∃ i p, b.segs[i]? = some p ∧ i + 1 ≠ b.segs.length ∧ p.1 + 1 ≠ b.segs.length ∧
    p.2.bvOffset + p.2.bvLen ≠ 4096) ∨
  ((∀ i p, b.segs[i]? = some p → i + 1 = b.segs.length → p.2.bvOffset + p.2.bvLen = 4096) ↔
    b.EndsFit)

theorem noHole_iff : NoHole (b.segs.map Prod.snd) ↔ b.StartsFit ∧ b.EndsFit := by
  simp only [NoHole, StartsFit, EndsFit, List.getElem?_map, Option.map_eq_some_iff,
    List.length_map]
  constructor
  · intro h
    exact ⟨fun i p hp => (h i p.2 ⟨p, hp, rfl⟩).1, fun i p hp => (h i p.2 ⟨p, hp, rfl⟩).2⟩
  · rintro ⟨hstart, hend⟩ i v ⟨p, hp, rfl⟩
    exact ⟨hstart i p hp, hend i p hp⟩

/-- The tests of `shannon_convert_bio`: the first segment is found, the last one is
looked for by its index. -/
theorem bioHole_eq_false_iff :
    (b.segs.any fun x => bioHole b.biIter.biIdx b.segs.length x.1 x.2) = false ↔
      b.StartsFit ∧ b.IndexedEndsFit := by
  rw [List.any_eq_false]
  constructor
  · intro h
    have hall (i : ℕ) (p : ℕ × BioVec) (hp : b.segs[i]? = some p) :
        (p.1 = b.biIter.biIdx ∨ p.2.bvOffset = 0) ∧
          (p.1 + 1 = b.segs.length ∨ p.2.bvOffset + p.2.bvLen = 4096) := by
      simpa [bioHole, not_or, imp_iff_not_or] using h p (List.mem_of_getElem? hp)
    refine ⟨fun i p hp hi => ?_, fun i p hp hidx => (hall i p hp).2.resolve_left hidx⟩
    rcases (hall i p hp).1 with hidx | hoffset
    · exact b.offset_of_idx_eq hp hi hidx
    · exact hoffset
  · rintro ⟨hstart, hend⟩ p hmem
    obtain ⟨i, hp⟩ := List.mem_iff_getElem?.1 hmem
    have hoffset : p.1 = b.biIter.biIdx ∨ p.2.bvOffset = 0 := by
      rcases Nat.eq_zero_or_pos i with rfl | hi
      · exact .inl (b.head_idx hp)
      · exact .inr (hstart i p hp hi.ne')
    have hends : p.1 + 1 = b.segs.length ∨ p.2.bvOffset + p.2.bvLen = 4096 := by
      by_cases hidx : p.1 + 1 = b.segs.length
      · exact .inl hidx
      · exact .inr (hend i p hp hidx)
    simpa [bioHole, not_or, imp_iff_not_or] using ⟨hoffset, hends⟩

/-- If the last segment has the index it is looked for by, the two tests for the ends
agree. -/
theorem indexedEndsFit_iff {i : ℕ} {p : ℕ × BioVec} (hp : b.segs[i]? = some p)
    (hi : i + 1 = b.segs.length) (hidx : p.1 + 1 = b.segs.length) :
    b.IndexedEndsFit ↔ b.EndsFit := by
  constructor
  · intro h j q hq hj
    by_cases hqidx : q.1 + 1 = b.segs.length
    · have hlt := (List.getElem?_eq_some_iff.1 hq).1
      exact b.end_of_idx_eq hq hp (by omega) (by omega)
    · exact h j q hq hqidx
  · intro h j q hq hqidx
    refine h j q hq fun hj => hqidx ?_
    obtain rfl : j = i := by omega
    obtain rfl := Option.some.inj (hp.symm.trans hq)
    exact hidx

/-- **Where the two tests agree.** -/
theorem tests_agree_iff :
    (b.StartsFit ∧ b.IndexedEndsFit ↔ b.StartsFit ∧ b.EndsFit) ↔ b.LastFound := by
  constructor
  · intro h
    by_cases hstart : b.StartsFit
    · by_cases hlast : ∃ i p, b.segs[i]? = some p ∧ i + 1 = b.segs.length ∧
          p.1 + 1 = b.segs.length
      · exact .inl hlast
      by_cases hfound : ∃ i p, b.segs[i]? = some p ∧ i + 1 ≠ b.segs.length ∧
          p.1 + 1 ≠ b.segs.length ∧ p.2.bvOffset + p.2.bvLen ≠ 4096
      · exact .inr (.inr (.inl hfound))
      refine .inr (.inr (.inr ?_))
      have hends : b.IndexedEndsFit ↔ b.EndsFit := by
        simpa only [hstart, true_and] using h
      rw [← hends]
      constructor
      · intro hall i p hp hidx
        by_cases hi : i + 1 = b.segs.length
        · exact hall i p hp hi
        · exact not_not.1 fun hne => hfound ⟨i, p, hp, hi, hidx, hne⟩
      · intro hall i p hp hi
        exact hall i p hp fun hidx => hlast ⟨i, p, hp, hi, hidx⟩
    · simp only [StartsFit, not_forall] at hstart
      obtain ⟨i, p, hp, hi, hoffset⟩ := hstart
      exact .inr (.inl ⟨i, p, hp, hi, hoffset⟩)
  · rintro (⟨i, p, hp, hi, hidx⟩ | ⟨i, p, hp, hi, hoffset⟩ | ⟨i, p, hp, hi, hidx, hne⟩ | h)
    · rw [b.indexedEndsFit_iff hp hi hidx]
    · exact iff_of_false (fun h => hoffset (h.1 i p hp hi)) fun h => hoffset (h.1 i p hp hi)
    · exact iff_of_false (fun h => hne (h.2 i p hp hidx)) fun h => hne (h.2 i p hp hi)
    · by_cases hlast : ∃ i p, b.segs[i]? = some p ∧ i + 1 = b.segs.length ∧
          p.1 + 1 = b.segs.length
      · obtain ⟨i, p, hp, hi, hidx⟩ := hlast
        rw [b.indexedEndsFit_iff hp hi hidx]
      · refine and_congr_right fun _ => ⟨fun hall => h.1 fun i p hp hi => ?_, fun hall => ?_⟩
        · exact hall i p hp fun hidx => hlast ⟨i, p, hp, hi, hidx⟩
        · intro i p hp _
          by_cases hi : i + 1 = b.segs.length
          · exact h.2 hall i p hp hi
          · exact hall i p hp hi

end KernelBio

/-! ### What the conversions leave in `has_hole` -/

/-- A loop over the segments that returns has tested all of them. -/
theorem forEachSegment_hasHole {hole : ℕ → BioVec → Bool}
    {body : BioVec → ℕ → SgCursor → Except Oops (ℕ × SgCursor)} {vs : List (ℕ × BioVec)}
    {s t : ConvState} (h : forEachSegment hole body vs s = .ok t) :
    t.hasHole = (s.hasHole || vs.any fun x => hole x.1 x.2) := by
  induction vs generalizing s with
  | nil =>
      obtain rfl := Except.ok.inj h
      simp
  | cons x vs ih =>
      obtain ⟨y, -, h⟩ := bind_eq_ok.1 h
      rw [ih h, List.any_cons, Bool.or_assoc]

theorem oldFashion_hasHole {sbio out : ShannonBio} {bio : Bio} {logicbSize : ℕ}
    (h : oldFashion sbio bio logicbSize = .ok out) :
    out.hasHole = (sbio.needBounce ||
      bio.segs.any fun x => bioHole bio.biIdx sbio.segments x.1 x.2) := by
  obtain ⟨s, hs, h⟩ := bind_eq_ok.1 h
  obtain ⟨t, -, rfl⟩ := map_eq_ok.1 h
  exact forEachSegment_hasHole hs

/-- What `shannon_convert_lreq` leaves in `has_hole` is its counting test. -/
theorem convertLreq_hasHole {sbio out : ShannonBio} {rq : Lreq} {logicbSize : ℕ} {ret : ℤ}
    (h : shannonConvertLreq true sbio rq logicbSize = .ok (ret, out)) :
    out.hasHole = (counted rq.segs).any fun x => lreqHole rq.segs.length x.1 x.2 := by
  rw [shannonConvertLreq, if_pos rfl] at h
  obtain ⟨s, hs, h⟩ := bind_eq_ok.1 h
  obtain ⟨t, -, he⟩ := map_eq_ok.1 h
  obtain ⟨-, rfl⟩ := Prod.mk.inj he
  exact forEachSegment_hasHole hs

/-- A conversion that returns 0 and needs no bounce pages has taken the direct
path. -/
theorem shannonConvertBio_direct {env : ConvertEnv} {mem : Mem} {sbio : ShannonBio} {bio : Bio}
    {logicbSize : ℕ} {c : Converted} (h : shannonConvertBio env mem sbio bio logicbSize = .ok c)
    (hret : c.ret = 0) (hbounce : (convertStart env sbio bio logicbSize).needBounce = false) :
    oldFashion (convertStart env sbio bio logicbSize) bio logicbSize = .ok c.sbio := by
  rcases shannonConvertBio_cases h with
    ⟨hfailed, -⟩ | ⟨-, -, ⟨hneed, -⟩ | ⟨-, out, hout, rfl⟩⟩
  · rcases hfailed with hfailed | hfailed <;> simp [hfailed, einval, enomem] at hret
  · simp [hbounce] at hneed
  · exact hout

/-- **Where `has_hole` means what the comments say.**  For every bio, whatever its
vectors and wherever its iterator stands: when no bounce pages are needed,
`shannon_convert_bio` leaves `has_hole` clear exactly on the segments without a hole,
and so as the counting test does, if and only if `LastFound`. -/
theorem convertBio_hasHole_iff (b : KernelBio) {env : ConvertEnv} {mem : Mem} {sbio : ShannonBio}
    {logicbSize : ℕ} {c : Converted}
    (h : shannonConvertBio env mem sbio b.toBio logicbSize = .ok c) (hret : c.ret = 0)
    (hbounce : (convertStart env sbio b.toBio logicbSize).needBounce = false) :
    ((c.sbio.hasHole = false ↔ NoHole (b.segs.map Prod.snd)) ↔ b.LastFound) ∧
    ((c.sbio.hasHole = (counted (b.segs.map Prod.snd)).any fun x =>
      lreqHole b.segs.length x.1 x.2) ↔ b.LastFound) := by
  have hhole : c.sbio.hasHole
      = b.segs.any fun x => bioHole b.biIter.biIdx b.segs.length x.1 x.2 := by
    rw [oldFashion_hasHole (shannonConvertBio_direct h hret hbounce), hbounce]
    rfl
  have hcode : c.sbio.hasHole = false ↔ b.StartsFit ∧ b.IndexedEndsFit := by
    rw [hhole]
    exact b.bioHole_eq_false_iff
  have hlreq := lreqHole_eq_false_iff (b.segs.map Prod.snd)
  rw [List.length_map] at hlreq
  have hsame : (c.sbio.hasHole = false ↔ NoHole (b.segs.map Prod.snd)) ↔ b.LastFound := by
    rw [hcode, b.noHole_iff]
    exact b.tests_agree_iff
  refine ⟨hsame, ?_⟩
  rw [← hsame, ← hlreq]
  generalize ((counted (b.segs.map Prod.snd)).any fun x => lreqHole b.segs.length x.1 x.2) = hole
  cases c.sbio.hasHole <;> cases hole <;> simp

/-- A bio of two pages and a part of a third one, from its start on. -/
def wholeBio : KernelBio where
  biSector := 0
  biIoVec := [⟨9, 512, 3584⟩, ⟨4, 0, 4096⟩, ⟨6, 0, 512⟩]
  biIter := ⟨8192, 0, 0⟩
  bvLen_pos := by decide
  biBvecDone_lt := by decide
  biSize_le := by decide

/-- The rest of a bio behind its first vector: half a kilobyte of one page, and another
page. -/
def splitBio : KernelBio where
  biSector := 8
  biIoVec := [⟨9, 0, 4096⟩, ⟨4, 0, 512⟩, ⟨6, 0, 4096⟩]
  biIter := ⟨4608, 1, 0⟩
  bvLen_pos := by decide
  biBvecDone_lt := by decide
  biSize_le := by decide

/-- Tables can be had. -/
def plainEnv : ConvertEnv := ⟨true, true, fun _ => none⟩

/-- The hypotheses of `convertBio_hasHole_iff` are satisfiable: `wholeBio` has no hole,
and `has_hole` stays clear. -/
theorem convertBio_hasHole_wholeBio :
    ∃ c, shannonConvertBio plainEnv (fun _ => 0) (freshSbio .toDevice) wholeBio.toBio 4096
        = .ok c ∧ wholeBio.LastFound ∧
      (c.sbio.hasHole = false ↔ NoHole (wholeBio.segs.map Prod.snd)) := by
  obtain ⟨c, hc, hret⟩ : ∃ c, shannonConvertBio plainEnv (fun _ => 0) (freshSbio .toDevice)
      wholeBio.toBio 4096 = .ok c ∧ c.ret = 0 := ⟨_, rfl, rfl⟩
  have hlast : wholeBio.LastFound := .inl ⟨2, (2, ⟨6, 0, 512⟩), rfl, rfl, rfl⟩
  exact ⟨c, hc, hlast, ((convertBio_hasHole_iff wholeBio hc hret rfl).1).2 hlast⟩

/-- `splitBio` has a hole, since its first segment ends at 512; its index is the number
of segments less one, so it passes for the last one, and `has_hole` stays clear. -/
theorem convertBio_hasHole_splitBio :
    ∃ c, shannonConvertBio plainEnv (fun _ => 0) (freshSbio .toDevice) splitBio.toBio 4096
        = .ok c ∧ c.ret = 0 ∧
      (convertStart plainEnv (freshSbio .toDevice) splitBio.toBio 4096).needBounce = false ∧
      c.sbio.hasHole = false ∧ ¬NoHole (splitBio.segs.map Prod.snd) := by
  refine ⟨_, rfl, rfl, rfl, rfl, fun h => ?_⟩
  exact absurd ((h 0 ⟨4, 0, 512⟩ rfl).2 (by decide)) (by decide)

end Block
end Shannon
