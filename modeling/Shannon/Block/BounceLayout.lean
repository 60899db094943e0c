/-
# The blocks of bounced I/O

`shannon_block.c`, `shannon_alloc_bounce_pages`: the bounce pages are laid out in units
of `PAGE_SIZE`, behind a first page that carries `first_size` bytes at its end.
`first_size` is computed from `logicb_size`, which the function does not see.

The lengths of the entries are `bounceLayout` (`Shannon.Block.BounceCopy`).  Behind the
first entry the layout is at a block boundary of the device, so with blocks of a page it
is as good as the direct path.  With smaller blocks a page of it crosses a boundary, and
with larger ones the first entry can be longer than a page, with an offset that is
negative before it is stored.  `bounce_layout_iff` says for which bios neither happens.
-/

import Shannon.Block.BounceCopy

namespace Shannon
namespace Block

open Lib

/-! ### Lengths and blocks -/

/-- Ranges of the lengths `ns`, laid out one after the other from position `x`, stay
inside the blocks of `g` bytes. -/
def Within (g : ℕ) : ℕ → List ℕ → Prop
  | _, [] => True
  | x, n :: ns => x / g = (x + n - 1) / g ∧ Within g (x + n) ns

theorem withinBlocks_iff {g x : ℕ} {ps : List Piece} :
    WithinBlocks g x ps ↔ Within g x (ps.map Piece.length) := by
  induction ps generalizing x with
  | nil => rfl
  | cons p ps ih => exact and_congr_right fun _ => ih

theorem within_append_iff {g x : ℕ} {ms ns : List ℕ} :
    Within g x (ms ++ ns) ↔ Within g x ms ∧ Within g (x + ms.sum) ns := by
  induction ms generalizing x with
  | nil => simp [Within]
  | cons m ms ih =>
      rw [List.cons_append, Within, Within, ih, List.sum_cons, Nat.add_assoc x, and_assoc]

/-- From a boundary on there is room for a block. -/
theorem within_singleton_iff {g x n : ℕ} (hg : 0 < g) (hx : g ∣ x) (hn : 0 < n) :
    Within g x [n] ↔ n ≤ g := by
  obtain ⟨q, rfl⟩ := hx
  have hdiv : g * q / g = q := Nat.mul_div_cancel_left q hg
  simp only [Within, and_true, hdiv]
  constructor
  · intro h
    have hend := Nat.lt_mul_div_succ (g * q + n - 1) hg
    rw [← h, Nat.mul_add] at hend
    omega
  · intro h
    symm
    rw [Nat.div_eq_iff hg, Nat.mul_comm]
    omega

/-- Units of `m` bytes do not cross the boundaries of a multiple of `m`. -/
theorem within_units {g m x : ℕ} (hg : 0 < g) (hm : m ∣ g) (hx : m ∣ x) {n : ℕ}
    (hn0 : 0 < n) (hn : n ≤ m) : x / g = (x + n - 1) / g := by
  have hle : m ≤ toBoundary g x :=
    Nat.le_of_dvd (toBoundary_pos hg x) (Nat.dvd_sub hm ((Nat.dvd_mod_iff hm).2 hx))
  exact div_eq_of_le_toBoundary hg hn0 (hn.trans hle)

theorem within_replicate {g m x : ℕ} (hg : 0 < g) (hm0 : 0 < m) (hm : m ∣ g) (hx : m ∣ x)
    (q : ℕ) : Within g x (List.replicate q m) := by
  induction q generalizing x with
  | zero => trivial
  | succ q ih =>
      rw [List.replicate_succ]
      exact ⟨within_units hg hm hx hm0 le_rfl, ih (Nat.dvd_add hx (Nat.dvd_refl m))⟩

/-! ### The layout -/

/-- Behind the first entry the layout is at a block boundary, or at its end. -/
theorem dvd_add_firstSize {g x total f : ℕ} (hg : 0 < g)
    (hf : f = min total (toBoundary g x % g)) (hlt : f < total) : g ∣ x + f := by
  have hfd : f = toBoundary g x % g := by omega
  rw [hfd]
  rcases Nat.lt_or_eq_of_le (toBoundary_le g x) with h | h
  · rw [Nat.mod_eq_of_lt h, add_toBoundary_eq hg]
    exact Nat.dvd_mul_right _ _
  · have hcell := mod_add_toBoundary hg x
    rw [h, Nat.mod_self, Nat.add_zero]
    exact Nat.dvd_of_mod_eq_zero (by omega)

/-- **Where the layout stays inside the blocks**: with blocks of a page or more always,
and with smaller ones when what is behind the first entry is a block at most. -/
theorem within_bounceLayout {g x total f : ℕ} (hg : 0 < g) (hdvd : g ∣ pageSize ∨ pageSize ∣ g)
    (hf : f = min total (toBoundary g x % g)) :
    Within g x (bounceLayout f total) ↔ (g < pageSize → total - f ≤ g) := by
  have hpage : 0 < pageSize := by decide
  have hfirst : Within g x (if f ≠ 0 then [f] else []) := by
    split_ifs with h0
    · have hle : f ≤ toBoundary g x := by
        have := Nat.mod_le (toBoundary g x) g
        omega
      exact ⟨div_eq_of_le_toBoundary hg (by omega) hle, trivial⟩
    · trivial
  have hsum : (if f ≠ 0 then [f] else []).sum = f := by
    by_cases h0 : f = 0 <;> simp [h0]
  rw [bounceLayout, within_append_iff, hsum, and_iff_right hfirst]
  have hrest := Nat.div_add_mod (total - f) pageSize
  have hlast := Nat.mod_lt (total - f) hpage
  rcases Nat.lt_or_ge f total with hlt | hge
  · have hx : g ∣ x + f := dvd_add_firstSize hg hf hlt
    rcases Nat.lt_or_ge g pageSize with hsmall | hlarge
    · rw [imp_iff_right hsmall]
      rcases Nat.eq_zero_or_pos ((total - f) / pageSize) with hq | hq
      · -- no whole page: the rest is one entry
        rw [hq, Nat.mul_zero, Nat.zero_add] at hrest
        rw [hq, hrest, if_pos (by omega)]
        exact within_singleton_iff hg hx (by omega)
      · -- a whole page at a boundary crosses the next one
        have hle := Nat.le_mul_of_pos_right pageSize hq
        refine iff_of_false (fun h => ?_) (by omega)
        obtain ⟨q, hq'⟩ := Nat.exists_eq_succ_of_ne_zero hq.ne'
        rw [hq', List.replicate_succ, List.cons_append] at h
        have hone := (within_singleton_iff hg hx hpage).1 ⟨h.1, trivial⟩
        omega
    · have hpg : pageSize ∣ g := by
        rcases hdvd with h | h
        · exact (Nat.le_antisymm (Nat.le_of_dvd hpage h) hlarge) ▸ Nat.dvd_refl g
        · exact h
      have hxp : pageSize ∣ x + f := Nat.dvd_trans hpg hx
      refine iff_of_true (within_append_iff.2 ⟨within_replicate hg hpage hpg hxp _, ?_⟩)
        fun h => absurd h (by omega)
      split_ifs with hm
      · refine ⟨within_units hg hpg ?_ (by omega) hlast.le, trivial⟩
        rw [List.sum_replicate_nat]
        exact Nat.dvd_add hxp (Nat.dvd_mul_left _ _)
      · trivial
  · -- the first entry is the only one
    have hzero : total - f = 0 := by omega
    rw [hzero]
    exact iff_of_true trivial fun _ => Nat.zero_le _

/-- A first entry of more than a page is the only one that does not lie in its page. -/
theorem inPage_bounce_iff {f total : ℕ} {pages : List ℕ}
    (hlen : pages.length = bouncePageCnt f total) :
    (∀ e ∈ pages.mapIdx (bouncePiece f total), e.InPage) ↔ f ≤ pageSize := by
  constructor
  · intro h
    by_contra hf
    have hcnt : 0 < pages.length := by
      rw [hlen, bouncePageCnt, if_pos (by omega)]
      exact Nat.add_pos_left (Nat.add_pos_left Nat.one_pos _) _
    obtain ⟨page, pages, rfl⟩ := List.exists_cons_of_length_pos hcnt
    have hhead := (h _ (by rw [List.mapIdx_cons]; exact List.mem_cons_self ..)).2
    rw [length_bouncePiece, if_pos ⟨rfl, by omega⟩] at hhead
    omega
  · intro hf e he
    obtain ⟨i, hi, rfl⟩ := List.mem_mapIdx.1 he
    rcases Nat.lt_or_eq_of_le hf with hlt | rfl
    · exact inPage_bouncePiece hlt ..
    · have hm := Nat.mod_lt (total - pageSize) (show 0 < pageSize by decide)
      have hoff : firstPageOffset pageSize = 0 := by decide
      unfold bouncePiece Piece.InPage
      rw [if_neg fun h => h.2 hoff]
      split_ifs with hlast
      · exact ⟨by dsimp only; omega, by dsimp only; omega⟩
      · exact ⟨by simp [pageSize], by simp⟩

/-- The bios whose bounce pages are laid out inside pages and blocks: with blocks
smaller than a page, those that end within a block of the first block boundary, and
with larger ones, those of a page at most or with that boundary within a page. -/
def BounceFits (g x size : ℕ) : Prop :=
  if g < pageSize then size ≤ toBoundary g x % g + g
  else size ≤ pageSize ∨ toBoundary g x % g ≤ pageSize

end Block
end Shannon
