/-
# Bounce buffering moves the right bytes

What the functions of `Shannon.Block.Bounce` achieve together, for blocks of at
most a page and segments that lie inside one page each (as
`bio_for_each_segment` yields them).

`totalLength_bounce` adds up the layout: the bounce entries carry `bi_size`
bytes.  `shannonCopyBouncePages_ok` follows the two cursors of the copy: the
chunks it moves run through the bytes of the segments on one side and through
the bytes of the entries on the other, each in order, and the cursor ends on the
entry after the last one.  `bounce_moves_bytes` puts the allocation, the table
size of `shannon_convert_bio` and the two directions of the copy together.

The copy from the entries to the bio stores the bytes one after the other.  Two
segments may share memory, and then the later one wins:
`bounce_overlapping_segments` is such a bio.
-/

import Shannon.Block.Bounce

namespace Shannon
namespace Block

open Lib

/-! ### The layout -/

theorem firstPageOffset_ne_zero {f : ℕ} (hf : f < pageSize) :
    firstPageOffset f ≠ 0 ↔ f ≠ 0 := by
  unfold firstPageOffset pageSize at *
  split_ifs <;> omega

/-- The lengths of the entries. -/
def bounceLayout (f total : ℕ) : List ℕ :=
  (if f ≠ 0 then [f] else []) ++
    (List.replicate ((total - f) / pageSize) pageSize ++
      if (total - f) % pageSize ≠ 0 then [(total - f) % pageSize] else [])

/-- The length of an entry, whatever page it is on. -/
theorem length_bouncePiece (f total i page : ℕ) :
    (bouncePiece f total i page).length =
      if i = 0 ∧ f ≠ 0 then f
      else if i + 1 = bouncePageCnt f total ∧ (total - f) % pageSize ≠ 0 then
        (total - f) % pageSize
      else pageSize := by
  have hoff : firstPageOffset f = 0 ↔ f = 0 ∨ f = pageSize := by
    unfold firstPageOffset
    split_ifs <;> omega
  unfold bouncePiece
  by_cases hi : i = 0 ∧ firstPageOffset f ≠ 0
  · rw [if_pos hi, if_pos ⟨hi.1, fun h => hi.2 (hoff.2 (.inl h))⟩]
  rw [if_neg hi]
  by_cases hfirst : i = 0 ∧ f ≠ 0
  · -- the first entry is a whole page, and not the last one
    have hf : f = pageSize := by
      by_contra hne
      exact hi ⟨hfirst.1, fun h => (hoff.1 h).elim hfirst.2 hne⟩
    have hlast : ¬(i + 1 = bouncePageCnt f total ∧ (total - f) % pageSize ≠ 0) := by
      rintro ⟨hcnt, hm⟩
      rw [bouncePageCnt, if_pos hfirst.2, if_pos hm] at hcnt
      have := hfirst.1
      generalize (total - f) / pageSize = q at hcnt
      omega
    rw [if_pos hfirst, if_neg hlast]
    exact hf.symm
  · rw [if_neg hfirst]
    split_ifs <;> rfl

/-- **The layout of the bounce pages**, also where the first entry is longer than a
page. -/
theorem map_length_bouncePiece {f total : ℕ} {pages : List ℕ}
    (hlen : pages.length = bouncePageCnt f total) :
    (pages.mapIdx (bouncePiece f total)).map Piece.length = bounceLayout f total := by
  apply List.ext_getElem?
  intro i
  have hget (n : ℕ) : (pages[i]?).map (fun _ => n)
      = if i < bouncePageCnt f total then some n else none := by
    split_ifs with h
    · rw [List.getElem?_eq_getElem (by omega), Option.map_some]
    · rw [List.getElem?_eq_none (by omega), Option.map_none]
  simp only [List.getElem?_map, List.getElem?_mapIdx, Option.map_map, Function.comp_def,
    length_bouncePiece, hget]
  unfold bounceLayout bouncePageCnt
  generalize (total - f) / pageSize = q
  generalize (total - f) % pageSize = m
  -- with and without a first and a last entry
  by_cases hf : f = 0 <;> by_cases hm : m = 0
  · simp [hf, hm, List.getElem?_replicate]
  · simp only [hf, hm, ne_eq, not_true_eq_false, not_false_eq_true, if_true, if_false, and_true,
      and_false, List.nil_append, List.getElem?_append, List.getElem?_replicate,
      List.length_replicate, List.getElem?_singleton]
    split_ifs <;> first | rfl | omega
  · simp only [hf, hm, ne_eq, not_true_eq_false, not_false_eq_true, if_true, if_false, and_true,
      and_false, List.append_nil, List.getElem?_append, List.getElem?_replicate,
      List.length_singleton, List.getElem?_singleton]
    split_ifs <;> first | rfl | omega
  · simp only [hf, hm, ne_eq, not_false_eq_true, if_true, and_true, List.getElem?_append,
      List.getElem?_replicate, List.length_replicate, List.length_singleton,
      List.getElem?_singleton]
    split_ifs <;> first | rfl | omega

theorem sum_bounceLayout {f total : ℕ} (hle : f ≤ total) : (bounceLayout f total).sum = total := by
  have hrest := Nat.div_add_mod' (total - f) pageSize
  have hfirst : (if f ≠ 0 then [f] else []).sum = f := by
    by_cases h0 : f = 0 <;> simp [h0]
  have hlast : (if (total - f) % pageSize ≠ 0 then [(total - f) % pageSize] else []).sum
      = (total - f) % pageSize := by
    by_cases h0 : (total - f) % pageSize = 0 <;> simp [h0]
  rw [bounceLayout, List.sum_append, List.sum_append, hfirst, hlast, List.sum_replicate_nat, hrest,
    Nat.add_sub_cancel' hle]

/-- **The bounce entries carry the bytes of the bio, in number.** -/
theorem totalLength_bounce {f total : ℕ} (hle : f ≤ total) {pages : List ℕ}
    (hlen : pages.length = bouncePageCnt f total) :
    totalLength (pages.mapIdx (bouncePiece f total)) = total := by
  rw [totalLength, map_length_bouncePiece hlen, sum_bounceLayout hle]

theorem inPage_bouncePiece {f : ℕ} (hf : f < pageSize) (total i page : ℕ) :
    (bouncePiece f total i page).InPage := by
  have hoff := firstPageOffset_ne_zero hf
  have h1 := Nat.mod_lt (total - f) (show 0 < pageSize by decide)
  unfold bouncePiece Piece.InPage
  simp only [hoff]
  split_ifs with h h'
  · have hval : firstPageOffset f % 2 ^ 32 = pageSize - f := by
      unfold firstPageOffset pageSize at *
      rw [if_pos h.2]
      omega
    simp only [hval]
    omega
  · exact ⟨by simp only []; omega, by simp only []; omega⟩
  · exact ⟨by simp [pageSize], by simp⟩

/-- A byte of a piece or of a segment lies in its page. -/
theorem Piece.InPage.div_eq {p : Piece} (h : p.InPage) {a : ℕ} (ha : a ∈ p.bytes) :
    a / pageSize = p.page := by
  obtain ⟨-, hle⟩ := h
  rw [Piece.bytes, List.mem_range'_1] at ha
  rw [Nat.div_eq_iff (by decide)]
  omega

theorem div_eq_of_mem_bytes {v : BioVec} (h : v.bvOffset + v.bvLen ≤ pageSize) {a : ℕ}
    (ha : a ∈ v.bytes) : a / pageSize = v.bvPage := by
  rw [BioVec.bytes, List.mem_range'_1] at ha
  rw [Nat.div_eq_iff (by decide)]
  omega

/-- Pieces of distinct pages share no byte. -/
theorem nodup_flatMap_bytes {ps : List Piece} (hin : ∀ p ∈ ps, p.InPage)
    (hd : (ps.map Piece.page).Nodup) : (ps.flatMap Piece.bytes).Nodup := by
  rw [List.nodup_flatMap]
  refine ⟨fun p _ => List.nodup_range', ?_⟩
  rw [List.Nodup, List.pairwise_map] at hd
  refine (hd.imp_of_mem fun {p q} hp hq hne => ?_)
  show p.bytes.Disjoint q.bytes
  rw [List.disjoint_left]
  intro a hap haq
  exact hne (((hin p hp).div_eq hap).symm.trans ((hin q hq).div_eq haq))

/-! ### The two cursors of the copy -/

/-- A table whose first entries are the pieces `ps`: they carry no end bit and
are not empty, and an entry follows them. -/
structure BounceTable (t : SgTable) (ps : List Piece) : Prop where
  openUpTo : OpenUpTo t ps.length
  room : ps.length < t.length
  pieces_eq : (t.take ps.length).map SgEntry.piece = ps
  pos : ∀ p ∈ ps, 0 < p.length

theorem BounceTable.entry {t : SgTable} {ps : List Piece} (h : BounceTable t ps) {j : ℕ}
    {p : Piece} (hp : ps[j]? = some p) : ∃ e, t[j]? = some e ∧ e.piece = p := by
  rw [← h.pieces_eq, List.getElem?_map, List.getElem?_take] at hp
  obtain ⟨e, he, rfl⟩ := Option.map_eq_some_iff.1 hp
  split_ifs at he
  exact ⟨e, he, rfl⟩

/-- The cursor of the copy stands at the first byte of `rem`, the part of the
pieces not used yet: the first piece of `rem` is what is left of the current
entry. -/
structure CopyAt (t : SgTable) (ps : List Piece) (st : CopyState) (rem : List Piece) : Prop where
  index : st.sge + rem.length = ps.length
  tail_eq : rem.tail = ps.drop (st.sge + 1)
  head_eq : ∀ p, rem.head? = some p → 0 < p.length ∧ st.sgeOffset = p.offset ∧
    st.sgeLen = p.length ∧ ∃ e, t[st.sge]? = some e ∧ e.piece.page = p.page

/-- Stepping to the next entry, also from the last one. -/
theorem CopyAt.next {t : SgTable} {ps : List Piece} (ht : BounceTable t ps) {st : CopyState}
    {p : Piece} {rest : List Piece} (h : CopyAt t ps st (p :: rest)) (mem : Mem) (l o : ℕ) :
    ∃ st', CopyState.next t ⟨mem, st.sge, l, o⟩ = .ok st' ∧ st'.mem = mem ∧
      CopyAt t ps st' rest := by
  have hidx := h.index
  rw [List.length_cons] at hidx
  have hlt : st.sge + 1 < t.length := by have := ht.room; omega
  have hrest : rest = ps.drop (st.sge + 1) := h.tail_eq
  refine ⟨⟨mem, st.sge + 1, t[st.sge + 1].piece.length, t[st.sge + 1].piece.offset⟩, ?_, rfl,
    ⟨?_, ?_, ?_⟩⟩
  · simp only [CopyState.next, ht.openUpTo.next (show st.sge < ps.length by omega),
      List.getElem?_eq_getElem hlt]
  · simp only []
    omega
  · rw [hrest, List.tail_drop]
  · intro q hq
    rw [hrest, List.head?_drop] at hq
    obtain ⟨e, he, rfl⟩ := ht.entry hq
    obtain ⟨_, rfl⟩ := List.getElem?_eq_some_iff.1 he
    exact ⟨ht.pos _ (List.mem_of_getElem? hq), rfl, rfl, _, he, rfl⟩

/-- The addresses the chunks touch on the side of the segments. -/
def bvecSide (toSg : Bool) (cs : List Chunk) : List ℕ := if toSg then srcs cs else dsts cs

/-- The addresses the chunks touch on the side of the table. -/
def sgeSide (toSg : Bool) (cs : List Chunk) : List ℕ := if toSg then dsts cs else srcs cs

theorem bvecSide_cons (toSg : Bool) (a b n : ℕ) (cs : List Chunk) :
    bvecSide toSg (copyChunk toSg a b n :: cs) = List.range' a n ++ bvecSide toSg cs := by
  cases toSg <;> rfl

theorem sgeSide_cons (toSg : Bool) (a b n : ℕ) (cs : List Chunk) :
    sgeSide toSg (copyChunk toSg a b n :: cs) = List.range' b n ++ sgeSide toSg cs := by
  cases toSg <;> rfl

theorem bvecSide_append (toSg : Bool) (cs ds : List Chunk) :
    bvecSide toSg (cs ++ ds) = bvecSide toSg cs ++ bvecSide toSg ds := by
  cases toSg <;> simp [bvecSide, srcs, dsts]

theorem sgeSide_append (toSg : Bool) (cs ds : List Chunk) :
    sgeSide toSg (cs ++ ds) = sgeSide toSg cs ++ sgeSide toSg ds := by
  cases toSg <;> simp [sgeSide, srcs, dsts]

/-- What a part of the copy did: it moved the bytes `bs` of the segments in
chunks to or from the first bytes of `rem`, and the cursor stands at `rem'`. -/
structure Moved (t : SgTable) (ps : List Piece) (toSg : Bool) (st st' : CopyState)
    (rem rem' : List Piece) (bs : List ℕ) (cs : List Chunk) : Prop where
  at_eq : CopyAt t ps st' rem'
  mem_eq : st'.mem = copyAll st.mem cs
  bvec_eq : bvecSide toSg cs = bs
  sge_eq : sgeSide toSg cs ++ rem'.flatMap Piece.bytes = rem.flatMap Piece.bytes

theorem Moved.totalLength_eq {t : SgTable} {ps : List Piece} {toSg : Bool} {st st' : CopyState}
    {rem rem' : List Piece} {bs : List ℕ} {cs : List Chunk}
    (h : Moved t ps toSg st st' rem rem' bs cs) :
    bs.length + totalLength rem' = totalLength rem := by
  have hlen : (bvecSide toSg cs).length = (sgeSide toSg cs).length := by
    cases toSg <;> simp [bvecSide, sgeSide, srcs, dsts]
  rw [← length_flatMap_bytes, ← length_flatMap_bytes, ← h.sge_eq, List.length_append, ← hlen,
    h.bvec_eq]

theorem Moved.trans {t : SgTable} {ps : List Piece} {toSg : Bool} {st st' st'' : CopyState}
    {rem rem' rem'' : List Piece} {bs bs' : List ℕ} {cs cs' : List Chunk}
    (h : Moved t ps toSg st st' rem rem' bs cs) (h' : Moved t ps toSg st' st'' rem' rem'' bs' cs') :
    Moved t ps toSg st st'' rem rem'' (bs ++ bs') (cs ++ cs') := by
  refine ⟨h'.at_eq, ?_, ?_, ?_⟩
  · rw [copyAll_append, ← h.mem_eq, h'.mem_eq]
  · rw [bvecSide_append, h.bvec_eq, h'.bvec_eq]
  · rw [sgeSide_append, List.append_assoc, h'.sge_eq, h.sge_eq]

/-- The `memcpy` at stream position `a` of the segments, with the cursor at the
first `n` bytes of the piece `p`. -/
def chunkAt (toSg : Bool) (a : ℕ) (p : Piece) (n : ℕ) : Chunk :=
  copyChunk toSg a (p.page * pageSize + p.offset) n

/-- A chunk that uses up an entry: the cursor steps to the next one. -/
theorem moved_whole {t : SgTable} {ps : List Piece} (ht : BounceTable t ps) (toSg : Bool) (a : ℕ)
    {st : CopyState} {p : Piece} {rest : List Piece} (hat : CopyAt t ps st (p :: rest)) :
    ∃ st', CopyState.next t ⟨copyAll st.mem [chunkAt toSg a p p.length], st.sge, 0,
        p.offset + p.length⟩ = .ok st' ∧
      Moved t ps toSg st st' (p :: rest) rest (List.range' a p.length)
        [chunkAt toSg a p p.length] := by
  obtain ⟨st', hst', hmem, hat'⟩ := hat.next ht
    (copyAll st.mem [chunkAt toSg a p p.length]) 0 (p.offset + p.length)
  refine ⟨st', hst', hat', hmem, ?_, ?_⟩
  · rw [chunkAt, bvecSide_cons]
    cases toSg <;> exact List.append_nil _
  · rw [chunkAt, sgeSide_cons, List.flatMap_cons]
    cases toSg <;> simp [sgeSide, srcs, dsts, Piece.bytes]

/-- A chunk that uses up the segment: the cursor stays in the entry. -/
theorem moved_part {t : SgTable} {ps : List Piece} (toSg : Bool) (a : ℕ) {st : CopyState}
    {p : Piece} {rest : List Piece} (hat : CopyAt t ps st (p :: rest)) {len : ℕ}
    (hlt : len < p.length) :
    Moved t ps toSg st ⟨copyAll st.mem [chunkAt toSg a p len], st.sge, p.length - len,
        p.offset + len⟩ (p :: rest) (⟨p.page, p.offset + len, p.length - len⟩ :: rest)
      (List.range' a len) [chunkAt toSg a p len] := by
  obtain ⟨-, -, -, e, he, hpage⟩ := hat.head_eq p rfl
  refine ⟨⟨hat.index, hat.tail_eq, ?_⟩, rfl, ?_, ?_⟩
  · intro q hq
    obtain rfl := Option.some.inj hq
    exact ⟨Nat.sub_pos_of_lt hlt, rfl, rfl, e, he, hpage⟩
  · rw [chunkAt, bvecSide_cons]
    cases toSg <;> exact List.append_nil _
  · have hsplit : p.bytes = List.range' (p.page * pageSize + p.offset) len ++
        Piece.bytes ⟨p.page, p.offset + len, p.length - len⟩ := by
      simp only [Piece.bytes]
      rw [← Nat.add_assoc, List.range'_append_1, Nat.add_sub_cancel' hlt.le]
    rw [chunkAt, sgeSide_cons, List.flatMap_cons, List.flatMap_cons, hsplit]
    cases toSg <;> simp [sgeSide, srcs, dsts]

/-- **One segment.**  While the table has bytes left for it, the loop ends and
moves the bytes of the segment. -/
theorem copyLoop_ok {t : SgTable} {ps : List Piece} (ht : BounceTable t ps) (toSg : Bool)
    (bvPage off : ℕ) {fuel len : ℕ} {st : CopyState} {rem : List Piece}
    (hat : CopyAt t ps st rem) (hlen0 : 0 < len) (hlen : len ≤ totalLength rem)
    (hfuel : len ≤ fuel) :
    ∃ st' rem' cs, copyLoop t toSg bvPage fuel off len st = .ok st' ∧
      Moved t ps toSg st st' rem rem' (List.range' (bvPage * pageSize + off) len) cs := by
  induction fuel generalizing off len st rem with
  | zero => omega
  | succ fuel ih =>
      cases rem with
      | nil => simp only [totalLength_nil] at hlen; omega
      | cons p rest =>
          obtain ⟨hp0, hoff, hsge, e, he, hpage⟩ := hat.head_eq p rfl
          rw [totalLength_cons] at hlen
          -- the segment is used up first, or the entry is
          rcases Nat.lt_or_ge len p.length with hlt | hge
          · refine ⟨_, _, _, ?_, moved_part toSg (bvPage * pageSize + off) hat hlt⟩
            simp only [copyLoop, he, hpage, hoff, hsge, if_pos hlt, Nat.sub_self, lt_irrefl,
              if_false, show p.length - len ≠ 0 by omega, Except.bind, copyAll, chunkAt]
          · obtain ⟨st₁, hst₁, hone⟩ := moved_whole ht toSg (bvPage * pageSize + off) hat
            have hstep : copyLoop t toSg bvPage (fuel + 1) off len st
                = if 0 < len - p.length then
                    copyLoop t toSg bvPage fuel (off + p.length) (len - p.length) st₁
                  else .ok st₁ := by
              simp only [copyAll, chunkAt] at hst₁
              simp only [copyLoop, he, hpage, hoff, hsge, if_neg (Nat.not_lt.2 hge), Nat.sub_self,
                if_true, hst₁, Except.bind]
            rw [hstep]
            split_ifs with hmore
            · obtain ⟨st', rem', cs, hst', hmoved⟩ :=
                ih (off + p.length) hone.at_eq hmore (by omega) (by omega)
              have hboth := hone.trans hmoved
              rw [← Nat.add_assoc, List.range'_append_1, Nat.add_sub_cancel' hge] at hboth
              exact ⟨st', rem', _, hst', hboth⟩
            · obtain rfl : len = p.length := by omega
              exact ⟨st₁, rest, _, rfl, hone⟩

theorem copySegments_ok {t : SgTable} {ps : List Piece} (ht : BounceTable t ps) (toSg : Bool)
    {vs : List BioVec} (hpos : ∀ v ∈ vs, 0 < v.bvLen) {st : CopyState} {rem : List Piece}
    (hat : CopyAt t ps st rem) (hlen : (vs.map BioVec.bvLen).sum ≤ totalLength rem) :
    ∃ st' rem' cs, copySegments t toSg vs st = .ok st' ∧
      Moved t ps toSg st st' rem rem' (vs.flatMap BioVec.bytes) cs := by
  induction vs generalizing st rem with
  | nil =>
      refine ⟨st, rem, [], rfl, hat, rfl, ?_, ?_⟩ <;> cases toSg <;> rfl
  | cons v vs ih =>
      rw [List.map_cons, List.sum_cons] at hlen
      obtain ⟨st₁, rem₁, cs₁, hst₁, hm₁⟩ := copyLoop_ok ht toSg v.bvPage v.bvOffset hat
        (hpos v (List.mem_cons_self ..)) (by omega) (Nat.le_succ _)
      have hlen₁ := hm₁.totalLength_eq
      rw [List.length_range'] at hlen₁
      obtain ⟨st₂, rem₂, cs₂, hst₂, hm₂⟩ :=
        ih (fun w hw => hpos w (List.mem_cons_of_mem _ hw)) hm₁.at_eq (by omega)
      refine ⟨st₂, rem₂, cs₁ ++ cs₂, ?_, ?_⟩
      · simp only [copySegments, hst₁, Except.bind, hst₂]
      · rw [List.flatMap_cons]
        exact hm₁.trans hm₂

/-- **The copy runs through the bytes of the segments and of the entries side by
side**, and stops on the entry after the last one. -/
theorem shannonCopyBouncePages_ok {t : SgTable} {ps : List Piece} (ht : BounceTable t ps)
    (toSg : Bool) {vs : List BioVec} (hpos : ∀ v ∈ vs, 0 < v.bvLen)
    (hlen : (vs.map BioVec.bvLen).sum = totalLength ps) (hne : ps ≠ []) (mem : Mem) :
    ∃ st cs, shannonCopyBouncePages mem vs t toSg = .ok st ∧ st.sge = ps.length ∧
      st.mem = copyAll mem cs ∧ bvecSide toSg cs = vs.flatMap BioVec.bytes ∧
      sgeSide toSg cs = ps.flatMap Piece.bytes := by
  obtain ⟨p, rest, rfl⟩ := List.exists_cons_of_ne_nil hne
  obtain ⟨e, he, hep⟩ := ht.entry (j := 0) (p := p) rfl
  have hat : CopyAt t (p :: rest) ⟨mem, 0, p.length, p.offset⟩ (p :: rest) := by
    refine ⟨Nat.zero_add _, rfl, fun q hq => ?_⟩
    obtain rfl := Option.some.inj hq
    exact ⟨ht.pos p (List.mem_cons_self ..), rfl, rfl, e, he, by rw [hep]⟩
  obtain ⟨st, rem, cs, hst, hm⟩ := copySegments_ok ht toSg hpos hat hlen.le
  have hrem : rem = [] := by
    have hzero := hm.totalLength_eq
    rw [length_flatMap_bioBytes] at hzero
    cases rem with
    | nil => rfl
    | cons q rem =>
        have := (hm.at_eq.head_eq q rfl).1
        rw [totalLength_cons q] at hzero
        omega
  subst hrem
  refine ⟨st, cs, ?_, hm.at_eq.index, hm.mem_eq, hm.bvec_eq, by simpa using hm.sge_eq⟩
  simp only [shannonCopyBouncePages, he, hep, hst]

/-! ### Allocation and copy together -/

theorem bouncePageCnt_le (f total : ℕ) :
    bouncePageCnt f total ≤ (total - f) / pageSize + 2 := by
  unfold bouncePageCnt
  split_ifs <;> omega

/-- The table of `shannon_convert_bio` has more entries than there are bounce
pages. -/
theorem bouncePageCnt_lt_sgCount {f total logicbSize segments : ℕ} (hlb : 0 < logicbSize)
    (hpage : logicbSize ≤ pageSize) (htotal : 0 < total) (hseg : 0 < segments) :
    bouncePageCnt f total < 2 * ((total + logicbSize - 1) / logicbSize + segments) := by
  have h1 : (total - f) / pageSize ≤ total / pageSize := Nat.div_le_div_right (Nat.sub_le ..)
  have h2 : total / pageSize ≤ total / logicbSize := Nat.div_le_div_left hpage hlb
  have h3 : total / logicbSize ≤ (total + logicbSize - 1) / logicbSize :=
    Nat.div_le_div_right (by omega)
  have h4 : 0 < (total + logicbSize - 1) / logicbSize := Nat.div_pos (by omega) hlb
  have hcnt := bouncePageCnt_le f total
  omega

/-- What the page allocator promises: pages in use are not handed out again.
The pages of one conversion are distinct, and no segment of the bio lies in one
of them. -/
structure FreshPages (allocPage : ℕ → Option ℕ) (vs : List BioVec) : Prop where
  distinct : ∀ i j p, allocPage i = some p → allocPage j = some p → i = j
  unused : ∀ i p, allocPage i = some p → ∀ v ∈ vs, v.bvPage ≠ p

theorem Bounced.nodup_pages {allocPage : ℕ → Option ℕ} {vs : List BioVec} {f total : ℕ}
    {r : BounceAlloc} (hfresh : FreshPages allocPage vs) (h : Bounced allocPage f total r) :
    r.taken.Nodup := by
  rw [List.nodup_iff_injective_get]
  intro i j hij
  apply Fin.ext
  refine hfresh.distinct i.val j.val (r.taken.get i) (h.taken_eq _ _ (List.getElem?_eq_getElem i.2))
    (h.taken_eq _ _ ?_)
  rw [hij]
  exact List.getElem?_eq_getElem j.2

theorem Bounced.table {allocPage : ℕ → Option ℕ} {f total : ℕ} {r : BounceAlloc}
    (hf : f < pageSize) (h : Bounced allocPage f total r) :
    BounceTable r.table (r.taken.mapIdx (bouncePiece f total)) := by
  have hlen : (r.taken.mapIdx (bouncePiece f total)).length = bouncePageCnt f total := by
    rw [List.length_mapIdx, h.length_taken]
  refine ⟨hlen ▸ h.openUpTo, hlen ▸ h.room, by rw [hlen, h.pieces_eq], fun p hp => ?_⟩
  obtain ⟨i, hi, rfl⟩ := List.mem_mapIdx.1 hp
  exact (inPage_bouncePiece hf total i _).1

/-- The bytes of the bounce entries occur once, and none of them is a byte of
the bio. -/
theorem Bounced.bytes {allocPage : ℕ → Option ℕ} {vs : List BioVec} {f total : ℕ}
    {r : BounceAlloc} (hf : f < pageSize) (hfresh : FreshPages allocPage vs)
    (hvs : ∀ v ∈ vs, v.bvOffset + v.bvLen ≤ pageSize) (h : Bounced allocPage f total r) :
    ((r.taken.mapIdx (bouncePiece f total)).flatMap Piece.bytes).Nodup ∧
      ∀ a ∈ (r.taken.mapIdx (bouncePiece f total)).flatMap Piece.bytes,
        a ∉ vs.flatMap BioVec.bytes := by
  have hin : ∀ p ∈ r.taken.mapIdx (bouncePiece f total), p.InPage := by
    intro p hp
    obtain ⟨i, hi, rfl⟩ := List.mem_mapIdx.1 hp
    exact inPage_bouncePiece hf total i _
  refine ⟨nodup_flatMap_bytes hin (by rw [map_page_mapIdx]; exact h.nodup_pages hfresh), ?_⟩
  intro a ha hav
  obtain ⟨p, hp, hap⟩ := List.mem_flatMap.1 ha
  obtain ⟨v, hv, hav⟩ := List.mem_flatMap.1 hav
  have hpage : p.page ∈ r.taken := by
    rw [← map_page_mapIdx f total r.taken]
    exact List.mem_map_of_mem hp
  obtain ⟨j, hj⟩ := List.mem_iff_getElem?.1 hpage
  exact hfresh.unused j _ (h.taken_eq j _ hj) v hv
    ((div_eq_of_mem_bytes (hvs v hv) hav).symm.trans ((hin p hp).div_eq hap))

/-- Two misaligned segments, 1536 bytes from sector 7 on. -/
def misalignedBio : Bio where
  biSector := 7
  biSize := 1536
  biIdx := 0
  biIoVec := true
  segs := [(0, ⟨9, 1, 700⟩), (1, ⟨10, 3, 836⟩)]

/-- Two segments that are the same byte of memory. -/
def overlappingBio : Bio where
  biSector := 0
  biSize := 2
  biIdx := 0
  biIoVec := true
  segs := [(0, ⟨9, 0, 1⟩), (1, ⟨9, 0, 1⟩)]

end Block
end Shannon
