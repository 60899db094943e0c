/-
# Scatter-gather tables

`shannon_scatter.c` wraps the kernel's `struct scatterlist`.  A table is an
array of entries; an entry points to a page and carries an offset, a length and
the end bit of `page_link`.  `sg_next` returns `NULL` at an entry whose end bit
is set and the next entry otherwise, `sg_set_page` keeps the end bit,
`sg_mark_end` sets it, and `sg_init_table` clears the table and marks its last
entry.

Pages are numbered as in the kernel's memory map, so that `page + n` is pointer
arithmetic on `struct page`, and byte `i` of page `p` has the address
`p * pageSize + i`.

The three converters of the driver fill a table through one cursor, the `sg`
variable of the source, which is `NULL` before the first entry
(`sg = sg ? shannon_sg_next(sg) : sbio->sg`).  `SgCursor.putAll_eq` says all
there is to know about it: writing `ps` in this way succeeds exactly when the
table has room, and then the first `used_sg_count` entries are the pieces
written, in order.
-/

import Shannon.Lib.Boundary
import Mathlib.Algebra.GroupWithZero.Nat
import Mathlib.Algebra.Ring.Int.Defs
import Mathlib.Data.List.Basic

namespace Shannon
namespace Block

/-- `PAGE_SIZE`. -/
def pageSize : ℕ := 4096

/-- How a call can fail to return: a `NULL` pointer is dereferenced, a segment is
read through a `bi_io_vec` that is `NULL`, a `BUG_ON` fires, or a loop does not
end. -/
inductive Oops
  | nullDeref
  | noIoVec
  | bugOn
  | noReturn
deriving DecidableEq, Repr

/-- A byte range of one page: what an entry of a table describes. -/
structure Piece where
  page : ℕ
  offset : ℕ
  length : ℕ
deriving DecidableEq, Repr

/-- The byte addresses of a piece, in order. -/
def Piece.bytes (p : Piece) : List ℕ := List.range' (p.page * pageSize + p.offset) p.length

/-- The piece is not empty and lies inside its page. -/
def Piece.InPage (p : Piece) : Prop := 0 < p.length ∧ p.offset + p.length ≤ pageSize

instance (p : Piece) : Decidable p.InPage := inferInstanceAs (Decidable (_ ∧ _))

/-- `struct scatterlist`: the piece, and the end bit of `page_link`. -/
structure SgEntry where
  piece : Piece
  isEnd : Bool
deriving DecidableEq, Repr

abbrev SgTable := List SgEntry

/-- `sg_init_table`: every entry is zero, the last one carries the end bit. -/
def shannonSgInitTable (nents : ℕ) : SgTable :=
  (List.range nents).map fun i => ⟨⟨0, 0, 0⟩, decide (i + 1 = nents)⟩

/-- `sg_next`: `NULL` at the entry that carries the end bit. -/
def shannonSgNext (t : SgTable) (i : ℕ) : Option ℕ :=
  match t[i]? with
  | some e => if e.isEnd then none else some (i + 1)
  | none => none

/-- `sg_set_page`: the end bit stays. -/
def shannonSgSetPage (t : SgTable) (i : ℕ) (p : Piece) : SgTable :=
  t.modify i fun e => { e with piece := p }

/-- `sg_mark_end`. -/
def shannonSgMarkEnd (t : SgTable) (i : ℕ) : SgTable :=
  t.modify i fun e => { e with isEnd := true }

/-- The only end bit of the table is on its last entry, as `sg_init_table`
leaves it. -/
def EndsLast (t : SgTable) : Prop := ∀ i e, t[i]? = some e → (e.isEnd = true ↔ i + 1 = t.length)

theorem endsLast_init (nents : ℕ) : EndsLast (shannonSgInitTable nents) := by
  intro i e he
  simp only [shannonSgInitTable, List.getElem?_map, Option.map_eq_some_iff] at he
  obtain ⟨j, hj, rfl⟩ := he
  obtain ⟨_, rfl⟩ := List.getElem?_eq_some_iff.1 hj
  simp [shannonSgInitTable]

@[simp] theorem length_init (nents : ℕ) : (shannonSgInitTable nents).length = nents := by
  simp [shannonSgInitTable]

@[simp] theorem length_setPage (t : SgTable) (i : ℕ) (p : Piece) :
    (shannonSgSetPage t i p).length = t.length := by
  simp [shannonSgSetPage]

@[simp] theorem length_markEnd (t : SgTable) (i : ℕ) :
    (shannonSgMarkEnd t i).length = t.length := by
  simp [shannonSgMarkEnd]

theorem getElem?_setPage (t : SgTable) (i j : ℕ) (p : Piece) :
    (shannonSgSetPage t i p)[j]? =
      if i = j then t[j]?.map (fun e => { e with piece := p }) else t[j]? := by
  simp only [shannonSgSetPage, List.getElem?_modify]
  split_ifs <;> simp

/-- The end bit is no part of what an entry describes. -/
theorem map_piece_markEnd (t : SgTable) (i : ℕ) :
    (shannonSgMarkEnd t i).map SgEntry.piece = t.map SgEntry.piece := by
  apply List.ext_getElem?
  intro j
  simp only [shannonSgMarkEnd, List.getElem?_map, List.getElem?_modify]
  by_cases h : i = j
  · cases t[j]? <;> simp [h]
  · simp [h]

theorem EndsLast.setPage {t : SgTable} (h : EndsLast t) (i : ℕ) (p : Piece) :
    EndsLast (shannonSgSetPage t i p) := by
  intro j e he
  rw [getElem?_setPage] at he
  rw [length_setPage]
  split_ifs at he
  · obtain ⟨e', he', rfl⟩ := Option.map_eq_some_iff.1 he
    exact h j e' he'
  · exact h j e he

theorem EndsLast.next {t : SgTable} (h : EndsLast t) {i : ℕ} (hi : i < t.length) :
    shannonSgNext t i = if i + 1 < t.length then some (i + 1) else none := by
  have he := h i _ (List.getElem?_eq_getElem hi)
  simp only [shannonSgNext, List.getElem?_eq_getElem hi]
  split_ifs <;> simp_all
  omega

/-! ### The cursor of the converters -/

/-- The table being filled, the `sg` variable of the source (`NULL` before the
first entry) and `used_sg_count`. -/
structure SgCursor where
  table : SgTable
  sg : Option ℕ
  usedSgCount : ℕ
deriving DecidableEq, Repr

/-- The cursor at the start of a conversion. -/
def SgCursor.start (t : SgTable) : SgCursor := ⟨t, none, 0⟩

/-- `sg = sg ? shannon_sg_next(sg) : sbio->sg; shannon_sg_set_page(sg, ..);
used_sg_count++`.  Past the end bit `sg` is `NULL` and `shannon_sg_set_page`
dereferences it. -/
def SgCursor.put (c : SgCursor) (p : Piece) : Except Oops SgCursor :=
  match c.sg.elim (some 0) (shannonSgNext c.table) with
  | none => .error .nullDeref
  | some i =>
      if i < c.table.length then .ok ⟨shannonSgSetPage c.table i p, some i, c.usedSgCount + 1⟩
      else .error .nullDeref

/-- Write the pieces one after the other. -/
def SgCursor.putAll : SgCursor → List Piece → Except Oops SgCursor
  | c, [] => .ok c
  | c, p :: ps => (c.put p).bind fun c => c.putAll ps

/-- `shannon_sg_mark_end(sg)` after the loops: `sg` is the last entry written,
and `NULL` when none was. -/
def SgCursor.markEnd (c : SgCursor) : Except Oops SgTable :=
  match c.sg with
  | none => .error .nullDeref
  | some i => .ok (shannonSgMarkEnd c.table i)

/-- The pieces written so far: the first `used_sg_count` entries. -/
def SgCursor.pieces (c : SgCursor) : List Piece := (c.table.take c.usedSgCount).map SgEntry.piece

/-- What the converters keep of their cursor: `sg` is the last entry written,
and the only end bit is that of the last entry of the table. -/
structure SgCursor.Inv (c : SgCursor) : Prop where
  endsLast : EndsLast c.table
  used_le : c.usedSgCount ≤ c.table.length
  sg_eq : c.sg = if c.usedSgCount = 0 then none else some (c.usedSgCount - 1)

theorem SgCursor.inv_start {t : SgTable} (h : EndsLast t) : (SgCursor.start t).Inv :=
  ⟨h, Nat.zero_le _, rfl⟩

/-- The entry the next piece goes to is the one after those used, if there is
one. -/
theorem SgCursor.put_eq {c : SgCursor} (h : c.Inv) (p : Piece) :
    c.put p = if c.usedSgCount < c.table.length then
      .ok ⟨shannonSgSetPage c.table c.usedSgCount p, some c.usedSgCount, c.usedSgCount + 1⟩
      else .error .nullDeref := by
  rcases Nat.eq_zero_or_pos c.usedSgCount with h0 | h0
  · simp only [SgCursor.put, h.sg_eq, h0, if_true, Option.elim]
  · have hlt : c.usedSgCount - 1 < c.table.length := by have := h.used_le; omega
    have hs : c.usedSgCount - 1 + 1 = c.usedSgCount := by omega
    simp only [SgCursor.put, h.sg_eq, show c.usedSgCount ≠ 0 by omega, if_false, Option.elim,
      h.endsLast.next hlt, hs]
    by_cases hroom : c.usedSgCount < c.table.length
    · simp only [if_pos hroom]
    · simp only [if_neg hroom]

theorem SgCursor.Inv.put {c c' : SgCursor} (h : c.Inv) {p : Piece} (hp : c.put p = .ok c') :
    c'.Inv ∧ c'.table.length = c.table.length ∧ c'.usedSgCount = c.usedSgCount + 1 ∧
      c'.pieces = c.pieces ++ [p] := by
  rw [SgCursor.put_eq h] at hp
  split_ifs at hp with hlt
  obtain rfl := Except.ok.inj hp
  refine ⟨⟨h.endsLast.setPage _ _, (length_setPage ..).symm ▸ hlt, by simp⟩, by simp, rfl, ?_⟩
  have htake : (shannonSgSetPage c.table c.usedSgCount p).take c.usedSgCount
      = c.table.take c.usedSgCount := by
    apply List.ext_getElem?
    intro j
    simp only [List.getElem?_take, getElem?_setPage]
    split_ifs <;> first | rfl | omega
  have hget : (shannonSgSetPage c.table c.usedSgCount p)[c.usedSgCount]?
      = some { c.table[c.usedSgCount] with piece := p } := by
    rw [getElem?_setPage, if_pos rfl, List.getElem?_eq_getElem hlt, Option.map_some]
  simp only [SgCursor.pieces, List.take_add_one, htake, hget, Option.toList_some,
    List.map_append, List.map_cons, List.map_nil]

/-- **The cursor fills the table in order, and stops at its end.** -/
theorem SgCursor.putAll_eq {c : SgCursor} (h : c.Inv) (ps : List Piece) :
    (c.table.length < c.usedSgCount + ps.length ∧ c.putAll ps = .error .nullDeref) ∨
      (c.usedSgCount + ps.length ≤ c.table.length ∧ ∃ c', c.putAll ps = .ok c' ∧ c'.Inv ∧
        c'.table.length = c.table.length ∧ c'.usedSgCount = c.usedSgCount + ps.length ∧
        c'.pieces = c.pieces ++ ps) := by
  induction ps generalizing c with
  | nil => exact .inr ⟨by simpa using h.used_le, c, rfl, h, rfl, rfl, (List.append_nil _).symm⟩
  | cons p ps ih =>
      by_cases hlt : c.usedSgCount < c.table.length
      · obtain ⟨c₁, hc₁⟩ : ∃ c₁, c.put p = .ok c₁ := ⟨_, by rw [SgCursor.put_eq h, if_pos hlt]⟩
        obtain ⟨h₁, hlen, hused, hpieces⟩ := h.put hc₁
        have hput : c.putAll (p :: ps) = c₁.putAll ps := by rw [SgCursor.putAll, hc₁]; rfl
        rw [hput, List.length_cons]
        rcases ih h₁ with ⟨hover, herr⟩ | ⟨hroom, c', hc', h', hlen', hused', hpieces'⟩
        · exact .inl ⟨by omega, herr⟩
        · refine .inr ⟨by omega, c', hc', h', by omega, by omega, ?_⟩
          rw [hpieces', hpieces, List.append_assoc, List.singleton_append]
      · have herr : c.put p = .error .nullDeref := by rw [SgCursor.put_eq h, if_neg hlt]
        refine .inl ⟨by rw [List.length_cons]; omega, ?_⟩
        rw [SgCursor.putAll, herr]
        rfl

/-- From the start of a table: a conversion that did not fault has written its
pieces into the first entries. -/
theorem SgCursor.start_putAll {t : SgTable} (ht : EndsLast t) {ps : List Piece} {c : SgCursor}
    (hc : (SgCursor.start t).putAll ps = .ok c) :
    c.pieces = ps ∧ c.usedSgCount = ps.length ∧ c.Inv := by
  rcases SgCursor.putAll_eq (inv_start ht) ps with ⟨-, herr⟩ | ⟨-, c', hc', hinv, -, hused, hpc⟩
  · rw [hc] at herr
    cases herr
  · obtain rfl := Except.ok.inj (hc.symm.trans hc')
    exact ⟨by simpa [SgCursor.pieces, SgCursor.start] using hpc, by simpa [start] using hused, hinv⟩

/-- Marking the end faults exactly when nothing was written, and does not touch
the pieces. -/
theorem SgCursor.markEnd_ok {c : SgCursor} {t : SgTable} (h : c.markEnd = .ok t) :
    (t.take c.usedSgCount).map SgEntry.piece = c.pieces := by
  unfold SgCursor.markEnd at h
  split at h
  · cases h
  · obtain rfl := Except.ok.inj h
    rw [List.map_take, map_piece_markEnd, SgCursor.pieces, List.map_take]

theorem SgCursor.Inv.markEnd {c : SgCursor} (h : c.Inv) (hpos : 0 < c.usedSgCount) :
    c.markEnd = .ok (shannonSgMarkEnd c.table (c.usedSgCount - 1)) := by
  rw [SgCursor.markEnd, h.sg_eq, if_neg (by omega)]

end Block
end Shannon
