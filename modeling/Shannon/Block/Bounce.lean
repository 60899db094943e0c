/-
# Bounce pages

`shannon_block.c`: a bio with a segment whose offset or length is not a multiple
of 8 cannot be mapped for DMA as it is.  `shannon_alloc_bounce_pages` fills the
table with freshly allocated pages instead, `shannon_copy_bounce_pages` moves the
bytes between the segments of the bio and these pages, in either direction, and
`shannon_free_bounce_pages` returns them.

The layout of the bounce pages follows the device blocks, not the segments: a
first page that carries `first_size` bytes at its end, whole pages, and a last
page with the rest.  The end of the table is marked one entry *after* the last
page, because the copy steps to the next entry as soon as one is used up, also
after the last byte.

The copy walks over the segments and over the table with two cursors of its own.
`copyLoop_ok` is what one segment does: it moves the bytes of the segment in
chunks, and the cursor of the table is left at the first byte not used yet
(`CopyAt`).  `shannonCopyBouncePages_ok` adds the segments up.
-/

import Shannon.Block.Converters
import Shannon.Lib.Store

namespace Shannon
namespace Block

open Lib

/-- The memory of the machine, byte by byte. -/
abbrev Mem := ℕ → UInt8

/-- `shannon_for_each_sg(t, sg, nr, i)` from the entry `sg` on: the pages of the
`nr` entries visited. -/
def shannonForEachSg (t : SgTable) : ℕ → Option ℕ → Except Oops (List ℕ)
  | 0, _ => .ok []
  | _ + 1, none => .error .nullDeref
  | nr + 1, some i =>
      match t[i]? with
      | none => .error .nullDeref
      | some e => (shannonForEachSg t nr (shannonSgNext t i)).map fun ps => e.piece.page :: ps

/-- `shannon_free_bounce_pages`: the pages freed. -/
def shannonFreeBouncePages (t : SgTable) (sgCount : ℕ) : Except Oops (List ℕ) :=
  shannonForEachSg t sgCount (some 0)

/-! ### Allocation -/

/-- `page_cnt` of `shannon_alloc_bounce_pages`. -/
def bouncePageCnt (firstSize totalSize : ℕ) : ℕ :=
  (if firstSize ≠ 0 then 1 else 0) + (totalSize - firstSize) / pageSize +
    (if (totalSize - firstSize) % pageSize ≠ 0 then 1 else 0)

/-- `first_page_offest`, an `int`: negative when `first_size` is more than a
page. -/
def firstPageOffset (firstSize : ℕ) : ℤ := if firstSize ≠ 0 then pageSize - firstSize else 0

/-- The entry set up for the page number `i`.  The offset is stored as an
`unsigned int`. -/
def bouncePiece (firstSize totalSize : ℕ) (i page : ℕ) : Piece :=
  if i = 0 ∧ firstPageOffset firstSize ≠ 0 then
    ⟨page, (firstPageOffset firstSize % 2 ^ 32).toNat, firstSize⟩
  else if i + 1 = bouncePageCnt firstSize totalSize ∧ (totalSize - firstSize) % pageSize ≠ 0 then
    ⟨page, 0, (totalSize - firstSize) % pageSize⟩
  else ⟨page, 0, pageSize⟩

/-- What a call of `shannon_alloc_bounce_pages` did: the value returned, the
table, and the pages taken from and given back to the page allocator. -/
structure BounceAlloc where
  ret : ℤ
  table : SgTable
  taken : List ℕ
  freed : List ℕ
deriving DecidableEq, Repr

/-- The loop of `shannon_alloc_bounce_pages` with `n` pages to go and the pages
`taken` so far.  `allocPage i` is the result of the call of `alloc_page` number
`i`. -/
def bounceLoop (allocPage : ℕ → Option ℕ) (firstSize totalSize : ℕ) :
    ℕ → List ℕ → SgTable → Option ℕ → Except Oops BounceAlloc
  | 0, taken, t, sge =>
      match sge with
      | none => .error .nullDeref
      | some j => .ok ⟨taken.length, shannonSgMarkEnd t j, taken, []⟩
  | n + 1, taken, t, sge =>
      match allocPage taken.length, sge with
      | none, _ => (shannonForEachSg t taken.length (some 0)).map fun freed =>
          ⟨-enomem, t, taken, freed⟩
      | some _, none => .error .nullDeref
      | some page, some j =>
          if j < t.length then
            let t := shannonSgSetPage t j (bouncePiece firstSize totalSize taken.length page)
            bounceLoop allocPage firstSize totalSize n (taken ++ [page]) t (shannonSgNext t j)
          else .error .nullDeref

/-- `shannon_alloc_bounce_pages`. -/
def shannonAllocBouncePages (allocPage : ℕ → Option ℕ) (t : SgTable) (firstSize totalSize : ℕ) :
    Except Oops BounceAlloc :=
  bounceLoop allocPage firstSize totalSize (bouncePageCnt firstSize totalSize) [] t (some 0)

/-! ### Copying -/

/-- The memory, and the cursor of the copy in the table: the entry, the bytes
left in it and the offset of the next one. -/
structure CopyState where
  mem : Mem
  sge : ℕ
  sgeLen : ℕ
  sgeOffset : ℕ

/-- One `memcpy` between the segment and the entry. -/
def copyChunk (toSg : Bool) (bvecAddr sgeAddr copyLen : ℕ) : Chunk :=
  if toSg then ⟨sgeAddr, bvecAddr, copyLen⟩ else ⟨bvecAddr, sgeAddr, copyLen⟩

/-- `sge = shannon_sg_next(sge); sge_len = shannon_sg_length(sge); sge_offset =
shannon_sg_offset(sge)`. -/
def CopyState.next (t : SgTable) (st : CopyState) : Except Oops CopyState :=
  match shannonSgNext t st.sge with
  | none => .error .nullDeref
  | some j =>
      match t[j]? with
      | none => .error .nullDeref
      | some e => .ok { st with sge := j, sgeLen := e.piece.length, sgeOffset := e.piece.offset }

/-- The `do .. while (bvec_len > 0)` over one segment. -/
def copyLoop (t : SgTable) (toSg : Bool) (bvPage : ℕ) :
    ℕ → ℕ → ℕ → CopyState → Except Oops CopyState
  | 0, _, _, _ => .error .noReturn
  | fuel + 1, bvecOffset, bvecLen, st =>
      match t[st.sge]? with
      | none => .error .nullDeref
      | some e =>
          let copyLen := if st.sgeLen > bvecLen then bvecLen else st.sgeLen
          let chunk := copyChunk toSg (bvPage * pageSize + bvecOffset)
            (e.piece.page * pageSize + st.sgeOffset) copyLen
          let moved : CopyState := ⟨copy st.mem chunk.dst chunk.src chunk.len, st.sge,
            st.sgeLen - copyLen, st.sgeOffset + copyLen⟩
          (if moved.sgeLen = 0 then moved.next t else .ok moved).bind fun st =>
            if 0 < bvecLen - copyLen then
              copyLoop t toSg bvPage fuel (bvecOffset + copyLen) (bvecLen - copyLen) st
            else .ok st

/-- The loop over the segments of the bio. -/
def copySegments (t : SgTable) (toSg : Bool) : List BioVec → CopyState → Except Oops CopyState
  | [], st => .ok st
  | v :: vs, st =>
      (copyLoop t toSg v.bvPage (v.bvLen + 1) v.bvOffset v.bvLen st).bind
        (copySegments t toSg vs)

/-- `shannon_copy_bounce_pages`. -/
def shannonCopyBouncePages (mem : Mem) (vs : List BioVec) (t : SgTable) (toSg : Bool) :
    Except Oops CopyState :=
  match t[0]? with
  | none => .error .nullDeref
  | some e => copySegments t toSg vs ⟨mem, 0, e.piece.length, e.piece.offset⟩

/-! ### The whole conversion -/

/-- Outcomes of the allocations of one conversion. -/
structure ConvertEnv where
  sgAlloc : Bool
  sgVzalloc : Bool
  allocPage : ℕ → Option ℕ

/-- The two ways to get a table. -/
inductive SgAllocator where
  /-- `shannon_sg_alloc`, undone by `shannon_sg_free`. -/
  | sgAlloc
  /-- `shannon_sg_vzalloc`, undone by `shannon_sg_vfree`. -/
  | sgVzalloc
deriving DecidableEq, Repr

/-- What a call of `shannon_convert_bio` did: the value returned, the sbio and
the memory after it, where the table was taken from, and the pages taken and
given back. -/
structure Converted where
  ret : ℤ
  sbio : ShannonBio
  mem : Mem
  sgFrom : Option SgAllocator
  taken : List ℕ
  freed : List ℕ

/-- The test that sets `need_bounce`. -/
def misaligned (v : BioVec) : Bool :=
  decide (v.bvOffset &&& 7 ≠ 0) || decide (v.bvLen &&& 7 ≠ 0)

/-- The bounce branch of `shannon_convert_bio`, with the fall-back to the direct
path when the pages cannot be had; the table is from `sgFrom`. -/
def convertBounced (env : ConvertEnv) (mem : Mem) (sbio : ShannonBio) (bio : Bio)
    (logicbSize : ℕ) (sgFrom : SgAllocator) : Except Oops Converted :=
  (shannonAllocBouncePages env.allocPage (sbio.sg.getD []) sbio.firstSize sbio.bioSize).bind
    fun r =>
      if r.ret ≤ 0 then
        (oldFashion { sbio with sg := some r.table } bio logicbSize).map fun sbio =>
          ⟨0, sbio, mem, some sgFrom, r.taken, r.freed⟩
      else
        let sbio := { sbio with sg := some r.table, usedSgCount := r.ret.toNat }
        if sbio.dmaDir = .toDevice then
          (shannonCopyBouncePages mem (bio.segs.map Prod.snd) r.table true).map fun st =>
            ⟨0, sbio, st.mem, some sgFrom, r.taken, r.freed⟩
        else .ok ⟨0, sbio, mem, some sgFrom, r.taken, r.freed⟩

/-- The sbio when `shannon_convert_bio` has its table and has looked for
misaligned segments. -/
def convertStart (env : ConvertEnv) (sbio : ShannonBio) (bio : Bio) (logicbSize : ℕ) :
    ShannonBio :=
  { convertSetup sbio bio logicbSize
      (shannonSgInitTable (convertSetup sbio bio logicbSize []).sgCount) with
    isValloc := sbio.isValloc || !env.sgAlloc
    needBounce := sbio.needBounce || bio.segs.any fun x => misaligned x.2 }

theorem sgCount_pos (env : ConvertEnv) (sbio : ShannonBio) {bio : Bio} {logicbSize : ℕ}
    (hlb : logicbSize ≠ 0) (hsize : bio.biSize ≠ 0) :
    0 < (convertStart env sbio bio logicbSize).sgCount := by
  have : 0 < (bio.biSize + logicbSize - 1) / logicbSize := Nat.div_pos (by omega) (by omega)
  simp only [convertStart, convertSetup]
  omega

/-- `shannon_convert_bio`. -/
def shannonConvertBio (env : ConvertEnv) (mem : Mem) (sbio : ShannonBio) (bio : Bio)
    (logicbSize : ℕ) : Except Oops Converted :=
  if logicbSize = 0 ∨ bio.biIoVec = false then .ok ⟨-einval, sbio, mem, none, [], []⟩
  else if env.sgAlloc = false ∧ env.sgVzalloc = false then
    let full := convertSetup sbio bio logicbSize []
    .ok ⟨-enomem, { sbio with
      bioSize := full.bioSize, segments := full.segments, sgCount := full.sgCount, sg := none },
      mem, none, [], []⟩
  else
    let sgFrom := if env.sgAlloc then .sgAlloc else .sgVzalloc
    let sbio := convertStart env sbio bio logicbSize
    if sbio.needBounce then
      convertBounced env mem { sbio with hasHole := false } bio logicbSize sgFrom
    else
      (oldFashion sbio bio logicbSize).map fun sbio => ⟨0, sbio, mem, some sgFrom, [], []⟩

/-- **What a conversion that returns has done**: it has failed without a table, or it
has one and has gone through bounce pages or along the direct path. -/
theorem shannonConvertBio_cases {env : ConvertEnv} {mem : Mem} {sbio : ShannonBio} {bio : Bio}
    {logicbSize : ℕ} {c : Converted} (h : shannonConvertBio env mem sbio bio logicbSize = .ok c) :
    ((c.ret = -einval ∨ c.ret = -enomem) ∧ c.sgFrom = none ∧ c.taken = [] ∧ c.freed = []) ∨
      (¬(logicbSize = 0 ∨ bio.biIoVec = false) ∧ ¬(env.sgAlloc = false ∧ env.sgVzalloc = false) ∧
        (((convertStart env sbio bio logicbSize).needBounce = true ∧
            convertBounced env mem { convertStart env sbio bio logicbSize with hasHole := false }
              bio logicbSize (if env.sgAlloc then .sgAlloc else .sgVzalloc) = .ok c) ∨
          ((convertStart env sbio bio logicbSize).needBounce = false ∧
            ∃ out, oldFashion (convertStart env sbio bio logicbSize) bio logicbSize = .ok out ∧
              c = ⟨0, out, mem, some (if env.sgAlloc then .sgAlloc else .sgVzalloc), [],
                []⟩))) := by
  unfold shannonConvertBio at h
  by_cases harg : logicbSize = 0 ∨ bio.biIoVec = false
  · rw [if_pos harg] at h
    obtain rfl := Except.ok.inj h
    exact .inl ⟨.inl rfl, rfl, rfl, rfl⟩
  by_cases halloc : env.sgAlloc = false ∧ env.sgVzalloc = false
  · rw [if_neg harg, if_pos halloc] at h
    obtain rfl := Except.ok.inj h
    exact .inl ⟨.inr rfl, rfl, rfl, rfl⟩
  rw [if_neg harg, if_neg halloc] at h
  dsimp only at h
  refine .inr ⟨harg, halloc, ?_⟩
  by_cases hbounce : (convertStart env sbio bio logicbSize).needBounce = true
  · rw [if_pos hbounce] at h
    exact .inl ⟨hbounce, h⟩
  · rw [if_neg hbounce] at h
    obtain ⟨out, hout, rfl⟩ := map_eq_ok.1 h
    exact .inr ⟨by simpa using hbounce, out, hout, rfl⟩

/-- **What the bounce branch has done when it returns**: the pages could not be had and
the direct path has filled the table, or they could and the table has them. -/
theorem convertBounced_cases {env : ConvertEnv} {mem : Mem} {sbio : ShannonBio} {bio : Bio}
    {logicbSize : ℕ} {sgFrom : SgAllocator} {c : Converted}
    (h : convertBounced env mem sbio bio logicbSize sgFrom = .ok c) :
    ∃ r, shannonAllocBouncePages env.allocPage (sbio.sg.getD []) sbio.firstSize sbio.bioSize
        = .ok r ∧
      ((r.ret ≤ 0 ∧ ∃ out,
          oldFashion { sbio with sg := some r.table } bio logicbSize = .ok out ∧
          c = ⟨0, out, mem, some sgFrom, r.taken, r.freed⟩) ∨
        (0 < r.ret ∧ ∃ mem',
          c = ⟨0, { sbio with sg := some r.table, usedSgCount := r.ret.toNat }, mem', some sgFrom,
            r.taken, r.freed⟩)) := by
  obtain ⟨r, hr, h⟩ := bind_eq_ok.1 h
  refine ⟨r, hr, ?_⟩
  by_cases hret : r.ret ≤ 0
  · rw [if_pos hret] at h
    obtain ⟨out, hout, rfl⟩ := map_eq_ok.1 h
    exact .inl ⟨hret, out, hout, rfl⟩
  · rw [if_neg hret] at h
    dsimp only at h
    refine .inr ⟨by omega, ?_⟩
    split_ifs at h with hdir
    · obtain ⟨st, -, rfl⟩ := map_eq_ok.1 h
      exact ⟨st.mem, rfl⟩
    · obtain rfl := Except.ok.inj h
      exact ⟨mem, rfl⟩

/-! ### What the allocation leaves behind -/

/-- The first `n` entries exist and carry no end bit. -/
def OpenUpTo (t : SgTable) (n : ℕ) : Prop :=
  n ≤ t.length ∧ ∀ j e, j < n → t[j]? = some e → e.isEnd = false

theorem EndsLast.openUpTo {t : SgTable} (h : EndsLast t) {n : ℕ} (hn : n < t.length) :
    OpenUpTo t n := by
  refine ⟨hn.le, fun j e hj he => ?_⟩
  rw [Bool.eq_false_iff]
  intro hend
  have := (h j e he).1 hend
  omega

theorem OpenUpTo.next {t : SgTable} {n j : ℕ} (h : OpenUpTo t n) (hj : j < n) :
    shannonSgNext t j = some (j + 1) := by
  have hlt : j < t.length := hj.trans_le h.1
  have hend := h.2 j _ hj (List.getElem?_eq_getElem hlt)
  simp only [shannonSgNext, List.getElem?_eq_getElem hlt, hend]
  rfl

/-- Marking an entry leaves those before it open. -/
theorem OpenUpTo.markEnd {t : SgTable} {n : ℕ} (h : OpenUpTo t n) :
    OpenUpTo (shannonSgMarkEnd t n) n := by
  refine ⟨by rw [length_markEnd]; exact h.1, fun j e hj he => h.2 j e hj ?_⟩
  simpa [shannonSgMarkEnd, List.getElem?_modify, show n ≠ j by omega] using he

theorem forEachSg_eq {t : SgTable} {n : ℕ} (h : OpenUpTo t n) {i : ℕ} (nr : ℕ) (hi : i + nr ≤ n + 1)
    (hlen : i + nr ≤ t.length) :
    shannonForEachSg t nr (some i) = .ok (((t.drop i).take nr).map fun e => e.piece.page) := by
  induction nr generalizing i with
  | zero => rfl
  | succ nr ih =>
      have hlt : i < t.length := by omega
      have hrest : shannonForEachSg t nr (shannonSgNext t i)
          = .ok (((t.drop (i + 1)).take nr).map fun e => e.piece.page) := by
        rcases nr with _ | nr
        · rfl
        · rw [h.next (by omega), ih (by omega) (by omega)]
      rw [shannonForEachSg, List.getElem?_eq_getElem hlt]
      simp only [hrest, Except.map]
      rw [List.drop_eq_getElem_cons hlt, List.take_succ_cons, List.map_cons]

/-- What a call of `shannon_alloc_bounce_pages` leaves behind when all pages
could be had: they are in the first entries, which carry no end bit, and an
entry follows them. -/
structure Bounced (allocPage : ℕ → Option ℕ) (firstSize totalSize : ℕ) (r : BounceAlloc) :
    Prop where
  ret_eq : r.ret = bouncePageCnt firstSize totalSize
  length_taken : r.taken.length = bouncePageCnt firstSize totalSize
  taken_eq : ∀ j p, r.taken[j]? = some p → allocPage j = some p
  freed_eq : r.freed = []
  openUpTo : OpenUpTo r.table (bouncePageCnt firstSize totalSize)
  room : bouncePageCnt firstSize totalSize < r.table.length
  pieces_eq : (r.table.take (bouncePageCnt firstSize totalSize)).map SgEntry.piece
    = r.taken.mapIdx (bouncePiece firstSize totalSize)

/-- What it leaves behind when a page could not be had: the pages taken before
are freed, each once, and the table is open for the direct path. -/
structure BounceFailed (allocPage : ℕ → Option ℕ) (r : BounceAlloc) : Prop where
  ret_eq : r.ret = -enomem
  taken_eq : ∀ j p, r.taken[j]? = some p → allocPage j = some p
  stopped : allocPage r.taken.length = none
  freed_eq : r.freed = r.taken
  endsLast : EndsLast r.table

theorem map_page_mapIdx (firstSize totalSize : ℕ) (taken : List ℕ) :
    (taken.mapIdx (bouncePiece firstSize totalSize)).map Piece.page = taken := by
  apply List.ext_getElem?
  intro j
  simp only [List.getElem?_map, List.getElem?_mapIdx, Option.map_map]
  cases taken[j]? with
  | none => rfl
  | some p =>
      simp only [Option.map_some, Function.comp, bouncePiece]
      split_ifs <;> rfl

/-- The loop, from the point where the cursor `c` has written the pages `taken`:
it faults only if there is no entry after the last page, and otherwise either
all pages are had or those taken are freed. -/
theorem bounceLoop_spec (allocPage : ℕ → Option ℕ) {firstSize totalSize n : ℕ} (taken : List ℕ)
    {c : SgCursor} (hinv : c.Inv) (hused : c.usedSgCount = taken.length)
    (hpieces : c.pieces = taken.mapIdx (bouncePiece firstSize totalSize))
    (htaken : ∀ j p, taken[j]? = some p → allocPage j = some p)
    (hn : taken.length + n = bouncePageCnt firstSize totalSize) (hpos : 0 < c.table.length) :
    (c.table.length ≤ bouncePageCnt firstSize totalSize ∧
      bounceLoop allocPage firstSize totalSize n taken c.table
        (if taken.length < c.table.length then some taken.length else none)
          = .error .nullDeref) ∨
    ∃ r, bounceLoop allocPage firstSize totalSize n taken c.table
        (if taken.length < c.table.length then some taken.length else none) = .ok r ∧
      r.table.length = c.table.length ∧
      (Bounced allocPage firstSize totalSize r ∨ BounceFailed allocPage r) := by
  induction n generalizing taken c with
  | zero =>
      have hlen : taken.length = bouncePageCnt firstSize totalSize := by omega
      by_cases hroom : taken.length < c.table.length
      · have hopen := (hinv.endsLast.openUpTo hroom).markEnd
        rw [if_pos hroom]
        refine .inr ⟨_, rfl, length_markEnd .., .inl ⟨?_, hlen, htaken, rfl, ?_, ?_, ?_⟩⟩
        · simp only [hlen]
        · rwa [← hlen]
        · rwa [length_markEnd, ← hlen]
        · rw [← hpieces, SgCursor.pieces, hused, hlen, List.map_take, map_piece_markEnd,
            List.map_take]
      · exact .inl ⟨by omega, by rw [if_neg hroom]; rfl⟩
  | succ n ih =>
      cases halloc : allocPage taken.length with
      | none =>
          have hopen := hinv.endsLast.openUpTo (n := c.table.length - 1) (by omega)
          have hle := hinv.used_le
          have hfree := forEachSg_eq hopen (i := 0) taken.length (by omega) (by omega)
          have hpages : ((c.table.drop 0).take taken.length).map (fun e => e.piece.page)
              = taken := by
            have h := map_page_mapIdx firstSize totalSize taken
            rwa [← hpieces, SgCursor.pieces, hused, List.map_map] at h
          refine .inr ⟨⟨-enomem, c.table, taken, taken⟩, ?_, rfl,
            .inr ⟨rfl, htaken, halloc, rfl, hinv.endsLast⟩⟩
          simp only [bounceLoop, halloc, hfree, Except.map, hpages]
      | some page =>
          by_cases hlt : taken.length < c.table.length
          · have hput := SgCursor.put_eq hinv (bouncePiece firstSize totalSize taken.length page)
            rw [hused, if_pos hlt] at hput
            obtain ⟨hinv', hlen', hused', hpieces'⟩ := hinv.put hput
            have hrec := ih (taken ++ [page]) hinv' (by simp)
              (by rw [hpieces', hpieces, List.mapIdx_concat])
              (by
                intro j p hj
                rcases Nat.lt_trichotomy j taken.length with h | h | h
                · exact htaken j p (by rwa [List.getElem?_append_left h] at hj)
                · subst h
                  rw [List.getElem?_concat_length] at hj
                  exact halloc.trans hj
                · rw [List.getElem?_eq_none (by simp; omega)] at hj
                  cases hj)
              (by simp; omega) (by omega)
            have hstep : bounceLoop allocPage firstSize totalSize (n + 1) taken c.table
                (some taken.length)
                = bounceLoop allocPage firstSize totalSize n (taken ++ [page])
                  (shannonSgSetPage c.table taken.length
                    (bouncePiece firstSize totalSize taken.length page))
                  (if (taken ++ [page]).length < c.table.length
                    then some (taken ++ [page]).length else none) := by
              have hnext := hinv'.endsLast.next (i := taken.length) (by omega)
              simp only [bounceLoop, halloc, if_pos hlt, hnext, hlen', List.length_append,
                List.length_singleton]
            rw [if_pos hlt, hstep]
            rwa [hlen'] at hrec
          · refine .inl ⟨by omega, ?_⟩
            rw [if_neg hlt]
            simp only [bounceLoop, halloc]

/-- **The allocation never leaves the table**, if it has an entry more than
there are pages. -/
theorem shannonAllocBouncePages_spec (allocPage : ℕ → Option ℕ) {firstSize totalSize : ℕ}
    {t : SgTable} (ht : EndsLast t) (hroom : bouncePageCnt firstSize totalSize < t.length) :
    ∃ r, shannonAllocBouncePages allocPage t firstSize totalSize = .ok r ∧
      r.table.length = t.length ∧
      (Bounced allocPage firstSize totalSize r ∨ BounceFailed allocPage r) := by
  have hpos : 0 < t.length := by omega
  rcases bounceLoop_spec allocPage [] (SgCursor.inv_start ht) rfl rfl
    (fun _ _ h => by simp at h) (Nat.zero_add _) hpos with ⟨hle, -⟩ | hok
  · exact absurd hroom (Nat.not_lt.2 hle)
  · rwa [List.length_nil, SgCursor.start, if_pos hpos] at hok

/-- Where the allocation has not faulted, all pages are had or none is kept,
however large the table is. -/
theorem shannonAllocBouncePages_ok {allocPage : ℕ → Option ℕ} {firstSize totalSize : ℕ}
    {t : SgTable} (ht : EndsLast t) (hpos : 0 < t.length) {r : BounceAlloc}
    (h : shannonAllocBouncePages allocPage t firstSize totalSize = .ok r) :
    Bounced allocPage firstSize totalSize r ∨ BounceFailed allocPage r := by
  rw [shannonAllocBouncePages] at h
  rcases bounceLoop_spec allocPage [] (SgCursor.inv_start ht) rfl rfl
    (fun _ _ h => by simp at h) (Nat.zero_add _) hpos with ⟨-, herr⟩ | ⟨r', hr', -, hres⟩
  · rw [List.length_nil, SgCursor.start, if_pos hpos] at herr
    rw [h] at herr
    cases herr
  · rw [List.length_nil, SgCursor.start, if_pos hpos] at hr'
    rw [h] at hr'
    obtain rfl := Except.ok.inj hr'
    exact hres

/-- Where it has returned a number of pages, they are all had. -/
theorem bounced_of_ret_pos {allocPage : ℕ → Option ℕ} {firstSize totalSize : ℕ}
    {t : SgTable} (ht : EndsLast t) (hpos : 0 < t.length) {r : BounceAlloc}
    (h : shannonAllocBouncePages allocPage t firstSize totalSize = .ok r) (hret : 0 < r.ret) :
    Bounced allocPage firstSize totalSize r := by
  rcases shannonAllocBouncePages_ok ht hpos h with hb | hfail
  · exact hb
  · rw [hfail.ret_eq] at hret
    exact absurd hret (by decide)

/-- The entries set up for them. -/
theorem Bounced.entries_eq {allocPage : ℕ → Option ℕ} {firstSize totalSize : ℕ}
    {r : BounceAlloc} (h : Bounced allocPage firstSize totalSize r) :
    (r.table.take r.ret.toNat).map SgEntry.piece
      = r.taken.mapIdx (bouncePiece firstSize totalSize) := by
  rw [h.ret_eq, Int.toNat_natCast, h.pieces_eq]

/-- **The pages had are the pages freed** by `shannon_free_bounce_pages`. -/
theorem Bounced.freeBouncePages {allocPage : ℕ → Option ℕ} {firstSize totalSize : ℕ}
    {r : BounceAlloc} (h : Bounced allocPage firstSize totalSize r) :
    shannonFreeBouncePages r.table (bouncePageCnt firstSize totalSize) = .ok r.taken := by
  rw [shannonFreeBouncePages, forEachSg_eq h.openUpTo (i := 0) _ (by omega)
    (by have := h.room; omega), List.drop_zero]
  have hpages := map_page_mapIdx firstSize totalSize r.taken
  rw [← h.pieces_eq, List.map_map] at hpages
  exact congrArg _ hpages

end Block
end Shannon
