/-
# Splitting segments into table entries

`shannon_convert_bio`, `shannon_convert_lreq` and `shannon_convert_scsi_scmd`
walk over the segments of a transfer and cut each one into entries.  Inside a
segment the loop is the same in all of them:

    while (offset < len) {
            map_size = ..;
            remained_size -= map_size;
            if (remained_size == 0)
                    remained_size = logicb_size;
            sg = sg ? shannon_sg_next(sg) : sbio->sg;
            shannon_sg_set_page(sg, .., map_size, ..);
            used_sg_count++;
            offset += map_size;
    }

They differ in how `map_size` is chosen and where the entry points to, which
are the parameters `cut` and `place` of `mapLoop`.  The variable `undone` of the
source is written and never read, and is left out.

`cutPieces` is the loop without the table: the list of pieces it cuts and the
`remained_size` it hands to the next segment.  `mapLoop_eq` says that the loop
of the source writes exactly these pieces through the cursor of
`Shannon.Block.Scatter`, and `forEachSegment_eq` says the same of the loop over
the segments.  Everything about bytes, pages and blocks is then a statement
about `cutAll`.

Byte counts are natural numbers.  The source keeps them in `int` and
`unsigned int`.
-/

import Shannon.Block.Scatter

namespace Shannon
namespace Block

open Lib

theorem bind_eq_ok {ε α β : Type*} {x : Except ε α} {f : α → Except ε β} {b : β} :
    x.bind f = .ok b ↔ ∃ a, x = .ok a ∧ f a = .ok b := by
  cases x <;> simp [Except.bind]

theorem map_eq_ok {ε α β : Type*} {x : Except ε α} {f : α → β} {b : β} :
    x.map f = .ok b ↔ ∃ a, x = .ok a ∧ f a = b := by
  cases x <;> simp [Except.map]

/-- A segment of a transfer: `struct bio_vec`, or an entry of the scatterlist of
a SCSI command.  It may span several pages. -/
structure BioVec where
  bvPage : ℕ
  bvOffset : ℕ
  bvLen : ℕ
deriving DecidableEq, Repr

/-- The byte addresses of a segment, in order. -/
def BioVec.bytes (v : BioVec) : List ℕ := List.range' (v.bvPage * pageSize + v.bvOffset) v.bvLen

/-- `remained_size -= map_size; if (remained_size == 0) remained_size = logicb_size`. -/
def nextRemained (logicbSize remained mapSize : ℕ) : ℕ :=
  if remained - mapSize = 0 then logicbSize else remained - mapSize

section Loop

variable (cut : ℕ → ℕ → ℕ) (place : ℕ → ℕ → Piece) (logicbSize len : ℕ)

/-- The loop over one segment of `len` bytes.  `cut offset remained` is
`map_size` and `place offset mapSize` the entry.  An iteration that makes
progress takes at least one byte, so `fuel` bytes of progress are `fuel`
iterations; a loop still running after that does not return. -/
def mapLoop : ℕ → ℕ → ℕ → SgCursor → Except Oops (ℕ × SgCursor)
  | 0, offset, remained, c => if offset < len then .error .noReturn else .ok (remained, c)
  | fuel + 1, offset, remained, c =>
      if offset < len then
        (c.put (place offset (cut offset remained))).bind fun c =>
          mapLoop fuel (offset + cut offset remained)
            (nextRemained logicbSize remained (cut offset remained)) c
      else .ok (remained, c)

/-- The same loop without the table: the pieces, and the final `remained_size`. -/
def cutPieces : ℕ → ℕ → ℕ → Option (List Piece × ℕ)
  | 0, offset, remained => if offset < len then none else some ([], remained)
  | fuel + 1, offset, remained =>
      if offset < len then
        (cutPieces fuel (offset + cut offset remained)
            (nextRemained logicbSize remained (cut offset remained))).map fun x =>
          (place offset (cut offset remained) :: x.1, x.2)
      else some ([], remained)

variable {cut place logicbSize len}

/-- At the end of the segment nothing is left to cut. -/
theorem cutPieces_done {offset : ℕ} (h : ¬offset < len) (fuel remained : ℕ) :
    cutPieces cut place logicbSize len fuel offset remained = some ([], remained) := by
  cases fuel with
  | zero => rw [cutPieces, if_neg h]
  | succ fuel => rw [cutPieces, if_neg h]

/-- **The loop writes the pieces it cuts.** -/
theorem mapLoop_eq {fuel offset remained : ℕ} {ps : List Piece} {r : ℕ}
    (h : cutPieces cut place logicbSize len fuel offset remained = some (ps, r)) (c : SgCursor) :
    mapLoop cut place logicbSize len fuel offset remained c
      = (c.putAll ps).map fun c => (r, c) := by
  induction fuel generalizing offset remained ps c with
  | zero =>
      simp only [cutPieces] at h
      split_ifs at h with hlt
      obtain ⟨rfl, rfl⟩ := Prod.mk.inj (Option.some.inj h)
      simp only [mapLoop, if_neg hlt, SgCursor.putAll, Except.map]
  | succ fuel ih =>
      simp only [cutPieces] at h
      split_ifs at h with hlt
      · obtain ⟨⟨qs, r'⟩, hq, he⟩ := Option.map_eq_some_iff.1 h
        obtain ⟨rfl, rfl⟩ := Prod.mk.inj he
        simp only [mapLoop, if_pos hlt, SgCursor.putAll]
        cases c.put (place offset (cut offset remained)) with
        | error e => rfl
        | ok c₁ => exact ih hq c₁
      · obtain ⟨rfl, rfl⟩ := Prod.mk.inj (Option.some.inj h)
        simp only [mapLoop, if_neg hlt, SgCursor.putAll, Except.map]

/-- A loop that returns has written the pieces it cuts. -/
theorem cutPieces_of_mapLoop {fuel offset remained : ℕ} {c : SgCursor} {x : ℕ × SgCursor}
    (h : mapLoop cut place logicbSize len fuel offset remained c = .ok x) :
    ∃ ps, cutPieces cut place logicbSize len fuel offset remained = some (ps, x.1) ∧
      c.putAll ps = .ok x.2 := by
  induction fuel generalizing offset remained c with
  | zero =>
      rw [mapLoop] at h
      split_ifs at h with hlt
      obtain rfl := Except.ok.inj h
      exact ⟨[], cutPieces_done hlt .., rfl⟩
  | succ fuel ih =>
      rw [mapLoop] at h
      split_ifs at h with hlt
      · obtain ⟨c₁, hput, h⟩ := bind_eq_ok.1 h
        obtain ⟨ps, hps, hall⟩ := ih h
        refine ⟨place offset (cut offset remained) :: ps, ?_, ?_⟩
        · simp only [cutPieces, if_pos hlt, hps, Option.map_some]
        · rw [SgCursor.putAll, hput]
          exact hall
      · obtain rfl := Except.ok.inj h
        exact ⟨[], cutPieces_done hlt .., rfl⟩

/-- Two loops that choose the same cuts and places inside the segment cut the
same pieces. -/
theorem cutPieces_congr {cut' : ℕ → ℕ → ℕ} {place' : ℕ → ℕ → Piece}
    (hcut : ∀ o r, o < len → cut o r = cut' o r)
    (hplace : ∀ o m, o < len → place o m = place' o m) (fuel offset remained : ℕ) :
    cutPieces cut place logicbSize len fuel offset remained
      = cutPieces cut' place' logicbSize len fuel offset remained := by
  induction fuel generalizing offset remained with
  | zero => rfl
  | succ fuel ih =>
      by_cases hlt : offset < len
      · simp only [cutPieces, if_pos hlt, ih, hcut _ _ hlt, hplace _ _ hlt]
      · simp only [cutPieces, if_neg hlt]

end Loop

/-! ### The loop over the segments -/

/-- What the converters carry from one segment to the next. -/
structure ConvState where
  remainedSize : ℕ
  hasHole : Bool
  cursor : SgCursor
deriving DecidableEq, Repr

/-- The loop over the segments.  A segment comes with the index the source
compares it by; `hole` is the test that sets `has_hole`, `body` the loop over
the segment. -/
def forEachSegment (hole : ℕ → BioVec → Bool)
    (body : BioVec → ℕ → SgCursor → Except Oops (ℕ × SgCursor)) :
    List (ℕ × BioVec) → ConvState → Except Oops ConvState
  | [], s => .ok s
  | (i, v) :: vs, s =>
      (body v s.remainedSize s.cursor).bind fun x =>
        forEachSegment hole body vs ⟨x.1, s.hasHole || hole i v, x.2⟩

/-- The pieces of all segments, and the final `remained_size`. -/
def cutAll (seg : BioVec → ℕ → Option (List Piece × ℕ)) :
    List BioVec → ℕ → Option (List Piece × ℕ)
  | [], r => some ([], r)
  | v :: vs, r =>
      (seg v r).bind fun x => (cutAll seg vs x.2).map fun y => (x.1 ++ y.1, y.2)

theorem putAll_append (c : SgCursor) (ps qs : List Piece) :
    c.putAll (ps ++ qs) = (c.putAll ps).bind fun c => c.putAll qs := by
  induction ps generalizing c with
  | nil => rfl
  | cons p ps ih =>
      simp only [List.cons_append, SgCursor.putAll]
      cases c.put p with
      | error e => rfl
      | ok c₁ => exact ih c₁

/-- **The loop over the segments writes the pieces of all of them**, and sets
`has_hole` when some segment passes the test. -/
theorem forEachSegment_eq (hole : ℕ → BioVec → Bool)
    (body : BioVec → ℕ → SgCursor → Except Oops (ℕ × SgCursor))
    {seg : BioVec → ℕ → Option (List Piece × ℕ)}
    (hbody : ∀ v r ps r', seg v r = some (ps, r') →
      ∀ c, body v r c = (c.putAll ps).map fun c => (r', c))
    {vs : List (ℕ × BioVec)} {r r' : ℕ} {ps : List Piece}
    (h : cutAll seg (vs.map Prod.snd) r = some (ps, r')) (b : Bool) (c : SgCursor) :
    forEachSegment hole body vs ⟨r, b, c⟩
      = (c.putAll ps).map fun c => ⟨r', b || vs.any fun x => hole x.1 x.2, c⟩ := by
  induction vs generalizing r ps b c with
  | nil =>
      obtain ⟨rfl, rfl⟩ := Prod.mk.inj (Option.some.inj h)
      simp [forEachSegment, SgCursor.putAll, Except.map]
  | cons iv vs ih =>
      obtain ⟨i, v⟩ := iv
      simp only [List.map_cons, cutAll] at h
      obtain ⟨⟨qs, s⟩, hv, h⟩ := Option.bind_eq_some_iff.1 h
      obtain ⟨⟨qs', s'⟩, hvs, he⟩ := Option.map_eq_some_iff.1 h
      obtain ⟨rfl, rfl⟩ := Prod.mk.inj he
      simp only [forEachSegment, hbody v r qs s hv c, putAll_append, List.any_cons]
      cases c.putAll qs with
      | error e => rfl
      | ok c₁ =>
          simp only [Except.map, Except.bind]
          rw [ih hvs, Bool.or_assoc]
          rfl

/-- A loop over the segments that returns has written their pieces. -/
theorem cutAll_of_forEachSegment {hole : ℕ → BioVec → Bool}
    {body : BioVec → ℕ → SgCursor → Except Oops (ℕ × SgCursor)}
    {seg : BioVec → ℕ → Option (List Piece × ℕ)}
    (hbody : ∀ v r c x, body v r c = .ok x →
      ∃ ps, seg v r = some (ps, x.1) ∧ c.putAll ps = .ok x.2)
    {vs : List (ℕ × BioVec)} {s s' : ConvState} (h : forEachSegment hole body vs s = .ok s') :
    ∃ ps, cutAll seg (vs.map Prod.snd) s.remainedSize = some (ps, s'.remainedSize) ∧
      s.cursor.putAll ps = .ok s'.cursor := by
  induction vs generalizing s with
  | nil =>
      obtain rfl := Except.ok.inj h
      exact ⟨[], rfl, rfl⟩
  | cons iv vs ih =>
      obtain ⟨x, hx, h⟩ := bind_eq_ok.1 h
      obtain ⟨ps, hps, hput⟩ := hbody _ _ _ _ hx
      obtain ⟨qs, hqs, hrest⟩ := ih h
      refine ⟨ps ++ qs, ?_, ?_⟩
      · simp only [List.map_cons, cutAll, hps, Option.bind_some, hqs, Option.map_some]
      · rw [putAll_append, hput]
        exact hrest

theorem cutAll_congr {seg seg' : BioVec → ℕ → Option (List Piece × ℕ)} {vs : List BioVec}
    (h : ∀ v ∈ vs, ∀ r, seg v r = seg' v r) (r : ℕ) : cutAll seg vs r = cutAll seg' vs r := by
  induction vs generalizing r with
  | nil => rfl
  | cons v vs ih =>
      simp only [cutAll, h v (List.mem_cons_self ..),
        ih fun w hw => h w (List.mem_cons_of_mem _ hw)]

/-! ### Pieces and blocks -/

/-- The pieces, laid out one after the other from position `x`, stay inside the
blocks of `g` bytes. -/
def WithinBlocks (g : ℕ) : ℕ → List Piece → Prop
  | _, [] => True
  | x, p :: ps => x / g = (x + p.length - 1) / g ∧ WithinBlocks g (x + p.length) ps

/-- The bytes the pieces carry, in number. -/
def totalLength (ps : List Piece) : ℕ := (ps.map Piece.length).sum

@[simp] theorem totalLength_nil : totalLength [] = 0 := rfl

@[simp] theorem totalLength_cons (p : Piece) (ps : List Piece) :
    totalLength (p :: ps) = p.length + totalLength ps := rfl

theorem WithinBlocks.append {g x : ℕ} {ps qs : List Piece} (hp : WithinBlocks g x ps)
    (hq : WithinBlocks g (x + totalLength ps) qs) : WithinBlocks g x (ps ++ qs) := by
  induction ps generalizing x with
  | nil => simpa using hq
  | cons p ps ih =>
      refine ⟨hp.1, ih hp.2 ?_⟩
      rwa [totalLength_cons, ← Nat.add_assoc] at hq

/-- In terms of single entries: one that carries the stream bytes `[a, b)` has
its first and its last byte in the same block. -/
theorem WithinBlocks.of_append {g x : ℕ} {pre post : List Piece} {p : Piece}
    (h : WithinBlocks g x (pre ++ p :: post)) :
    (x + totalLength pre) / g = (x + totalLength pre + p.length - 1) / g := by
  induction pre generalizing x with
  | nil => exact h.1
  | cons q pre ih =>
      have := ih h.2
      rwa [totalLength_cons, ← Nat.add_assoc]

theorem length_flatMap_bytes (ps : List Piece) :
    (ps.flatMap Piece.bytes).length = totalLength ps := by
  induction ps with
  | nil => rfl
  | cons p ps ih =>
      rw [List.flatMap_cons, List.length_append, ih, totalLength_cons, Piece.bytes,
        List.length_range']

/-- What a conversion has to deliver for the bytes `bs` of a stream that starts
at device byte `x`: the pieces carry these bytes in this order, each lies inside
one page, and none crosses a block. -/
structure Delivers (g x : ℕ) (bs : List ℕ) (ps : List Piece) : Prop where
  bytes_eq : ps.flatMap Piece.bytes = bs
  inPage : ∀ p ∈ ps, p.InPage
  within : WithinBlocks g x ps

theorem Delivers.totalLength_eq {g x : ℕ} {bs : List ℕ} {ps : List Piece}
    (h : Delivers g x bs ps) : totalLength ps = bs.length := by
  rw [← length_flatMap_bytes, h.bytes_eq]

theorem Delivers.nil (g x : ℕ) : Delivers g x [] [] :=
  ⟨rfl, fun _ h => absurd h List.not_mem_nil, trivial⟩

theorem Delivers.append {g x : ℕ} {bs cs : List ℕ} {ps qs : List Piece}
    (hp : Delivers g x bs ps) (hq : Delivers g (x + bs.length) cs qs) :
    Delivers g x (bs ++ cs) (ps ++ qs) := by
  refine ⟨by rw [List.flatMap_append, hp.bytes_eq, hq.bytes_eq], fun p h => ?_, ?_⟩
  · rcases List.mem_append.1 h with h | h
    · exact hp.inPage p h
    · exact hq.inPage p h
  · exact hp.within.append (hp.totalLength_eq ▸ hq.within)

/-- What `remained_size` means at stream position `a` of a transfer of `total`
bytes that starts at device byte `S`: it is positive and does not reach past
the end of the block, and where it stops short of it (the seed was clipped to
the size of the transfer) the transfer ends first. -/
def Seed (g S total a r : ℕ) : Prop :=
  a < total → 0 < r ∧ r ≤ toBoundary g (S + a) ∧ (r < toBoundary g (S + a) → total ≤ a + r)

/-- **One cut keeps the meaning of `remained_size`.** -/
theorem Seed.next {g S total a r m : ℕ} (hg : 0 < g) (h : Seed g S total a r) (hmr : m ≤ r)
    (hlt : a < total) : Seed g S total (a + m) (nextRemained g r m) := by
  intro ham
  obtain ⟨hr0, hrle, hclip⟩ := h hlt
  unfold nextRemained
  split_ifs with h0
  · have hr : r = toBoundary g (S + a) := by
      by_contra hne
      have := hclip (by omega)
      omega
    have hm : m = toBoundary g (S + a) := by omega
    rw [← Nat.add_assoc, hm, toBoundary_add_self hg]
    exact ⟨hg, le_rfl, fun h => absurd h (lt_irrefl _)⟩
  · have hmt : m < toBoundary g (S + a) := by omega
    rw [← Nat.add_assoc, toBoundary_add hmt]
    exact ⟨by omega, by omega, fun h => by have := hclip (by omega); omega⟩

end Block
end Shannon
