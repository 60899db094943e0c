/-
# When the bounce pages cannot be had

`shannon_block.c`, `shannon_convert_bio`: a bio that needs bounce pages falls back to the
label `old_fashion` when `alloc_page` fails, with the table `shannon_alloc_bounce_pages`
has begun to fill.

That function frees the pages it had, which it finds in the table through the counter of
its outer loop, and marks no entry (`bounceFailed_at`).  So what is left of it are pages in
entries the direct path writes again, or does not use, and end bits as they were
(`EndsLast.ends_eq`): the direct path does on this table what it does on a fresh one, and
notes in `has_hole` that the bio needed pages (`fallback_clean`).
-/

import Shannon.Block.Request
import Shannon.Block.TableSize

namespace Shannon
namespace Block

open Lib

/-! ### The failed allocation -/

/-- **What is left of an allocation that fails at the page number `n`**: the pages before it
are taken and freed, and the end bits of the table are as they were. -/
theorem bounceFailed_at {allocPage : ℕ → Option ℕ} {firstSize totalSize n : ℕ} {t : SgTable}
    (ht : EndsLast t) (hroom : bouncePageCnt firstSize totalSize < t.length)
    (hbefore : ∀ i < n, (allocPage i).isSome) (hfails : allocPage n = none)
    (hn : n < bouncePageCnt firstSize totalSize) :
    ∃ r, shannonAllocBouncePages allocPage t firstSize totalSize = .ok r ∧ r.ret ≤ 0 ∧
      r.table.length = t.length ∧ EndsLast r.table ∧ r.freed = r.taken ∧
      r.taken.map some = (List.range n).map allocPage := by
  obtain ⟨r, hr, hlen, hb | hfail⟩ := shannonAllocBouncePages_spec allocPage ht hroom
  · have hlt : n < r.taken.length := hb.length_taken ▸ hn
    have hhad := hb.taken_eq n _ (List.getElem?_eq_getElem hlt)
    rw [hfails] at hhad
    cases hhad
  · have hcount : r.taken.length = n := by
      rcases Nat.lt_trichotomy r.taken.length n with h | h | h
      · have hsome := hbefore _ h
        rw [hfail.stopped] at hsome
        cases hsome
      · exact h
      · have hhad := hfail.taken_eq n _ (List.getElem?_eq_getElem h)
        rw [hfails] at hhad
        cases hhad
    refine ⟨r, hr, by rw [hfail.ret_eq]; decide, hlen, hfail.endsLast, hfail.freed_eq, ?_⟩
    apply List.ext_getElem
    · simp [hcount]
    · intro i hi hi'
      rw [List.length_map] at hi
      rw [List.getElem_map, List.getElem_map, List.getElem_range]
      exact (hfail.taken_eq i _ (List.getElem?_eq_getElem hi)).symm

/-! ### Tables with the same end bits -/

theorem EndsLast.ends_eq {t u : SgTable} (ht : EndsLast t) (hu : EndsLast u)
    (hlen : t.length = u.length) : t.map SgEntry.isEnd = u.map SgEntry.isEnd := by
  apply List.ext_getElem
  · simp [hlen]
  · intro i hi hi'
    rw [List.length_map] at hi hi'
    have hti := ht i _ (List.getElem?_eq_getElem hi)
    have hui := hu i _ (List.getElem?_eq_getElem hi')
    rw [List.getElem_map, List.getElem_map, Bool.eq_iff_iff, hti, hui, hlen]

theorem map_isEnd_markEnd (t : SgTable) (i : ℕ) :
    (shannonSgMarkEnd t i).map SgEntry.isEnd
      = (t.map SgEntry.isEnd).modify i fun _ => true := by
  apply List.ext_getElem?
  intro j
  simp only [shannonSgMarkEnd, List.getElem?_map, List.getElem?_modify]
  cases t[j]? with
  | none => rfl
  | some e => by_cases h : i = j <;> simp [h]

/-- A table is its pieces and its end bits. -/
theorem take_eq_of_map_eq {t u : SgTable} {n : ℕ}
    (hpieces : (t.take n).map SgEntry.piece = (u.take n).map SgEntry.piece)
    (hends : t.map SgEntry.isEnd = u.map SgEntry.isEnd) : t.take n = u.take n := by
  have hends' : (t.take n).map SgEntry.isEnd = (u.take n).map SgEntry.isEnd := by
    rw [List.map_take, List.map_take, hends]
  apply List.ext_getElem
  · simpa using congrArg List.length hpieces
  · intro i hi hi'
    have hp : ((t.take n).map SgEntry.piece)[i]? = ((u.take n).map SgEntry.piece)[i]? := by
      rw [hpieces]
    have he : ((t.take n).map SgEntry.isEnd)[i]? = ((u.take n).map SgEntry.isEnd)[i]? := by
      rw [hends']
    rw [List.getElem?_map, List.getElem?_map, List.getElem?_eq_getElem hi,
      List.getElem?_eq_getElem hi'] at hp he
    cases hx : (t.take n)[i] with
    | mk p b =>
        cases hy : (u.take n)[i] with
        | mk q c =>
            rw [hx, hy] at hp he
            simp_all

/-- **The direct path on two tables.**  What it leaves in the entries it uses, and in the
end bits, depends only on the length of the table it starts on. -/
theorem oldFashion_table (sbio sbio' : ShannonBio) {bio : Bio} {logicbSize r : ℕ}
    {t t' : SgTable} {ps : List Piece} (ht : EndsLast t) (ht' : EndsLast t')
    (hlen : t.length = t'.length) (hsg : sbio.sg = some t) (hsg' : sbio'.sg = some t')
    (hf : sbio.firstSize = sbio'.firstSize)
    (hps : cutAll (bioSegment logicbSize) (bio.segs.map Prod.snd)
      (seedRemained sbio.firstSize logicbSize) = some (ps, r)) (hne : ps ≠ [])
    (hroom : ps.length ≤ t.length) :
    ∃ out out', oldFashion sbio bio logicbSize = .ok out ∧
      oldFashion sbio' bio logicbSize = .ok out' ∧ out.usedSgCount = out'.usedSgCount ∧
      (out.sg.getD []).take out.usedSgCount = (out'.sg.getD []).take out'.usedSgCount ∧
      (out.sg.getD []).map SgEntry.isEnd = (out'.sg.getD []).map SgEntry.isEnd ∧
      out.needBounce = false ∧ (sbio.needBounce = true → out.hasHole = true) := by
  obtain ⟨u, hu, hulen, hupieces, hout⟩ := oldFashion_ok sbio ht hsg hps hne hroom
  rw [hf] at hps
  obtain ⟨u', hu', hulen', hupieces', hout'⟩ :=
    oldFashion_ok sbio' ht' hsg' hps hne (hlen ▸ hroom)
  have hends : (shannonSgMarkEnd u (ps.length - 1)).map SgEntry.isEnd
      = (shannonSgMarkEnd u' (ps.length - 1)).map SgEntry.isEnd := by
    rw [map_isEnd_markEnd, map_isEnd_markEnd, hu.ends_eq hu' (by omega)]
  have hpieces : ((shannonSgMarkEnd u (ps.length - 1)).take ps.length).map SgEntry.piece
      = ((shannonSgMarkEnd u' (ps.length - 1)).take ps.length).map SgEntry.piece := by
    rw [List.map_take, List.map_take, map_piece_markEnd, map_piece_markEnd, ← List.map_take,
      ← List.map_take, hupieces, hupieces']
  refine ⟨_, _, hout, hout', rfl, take_eq_of_map_eq hpieces hends, hends, rfl, fun hneed => ?_⟩
  simp only [hneed, Bool.true_or]

/-! ### The whole conversion -/

theorem sum_bvLen_le {vs : List BioVec} (h : ∀ v ∈ vs, v.InOnePage) :
    (vs.map BioVec.bvLen).sum ≤ vs.length * pageSize := by
  induction vs with
  | nil => exact Nat.zero_le _
  | cons v vs ih =>
      have hv : v.bvLen ≤ pageSize := by
        have hpage := h v (List.mem_cons_self ..)
        unfold BioVec.InOnePage pageSize at *
        omega
      have hvs := ih fun w hw => h w (List.mem_cons_of_mem _ hw)
      rw [List.map_cons, List.sum_cons, List.length_cons, Nat.add_mul, Nat.one_mul]
      omega

/-- The table has room for the bounce pages and one entry more, with blocks up to a page
and with segments that cross no page. -/
theorem bouncePageCnt_lt_table {bio : Bio} {k : ℕ} (f : ℕ)
    (hsize : ((bio.segs.map Prod.snd).map BioVec.bvLen).sum = bio.biSize)
    (hpos : 0 < bio.biSize)
    (hpage : 2 ^ k ≤ pageSize ∨ ∀ v ∈ bio.segs.map Prod.snd, v.InOnePage) :
    bouncePageCnt f bio.biSize
      < 2 * ((bio.biSize + 2 ^ k - 1) / 2 ^ k + bio.segs.length) := by
  have hg : 0 < 2 ^ k := Nat.two_pow_pos k
  have hseg : 0 < bio.segs.length := by
    rw [← List.length_map (f := Prod.snd), List.length_pos_iff]
    intro hnil
    rw [hnil] at hsize
    exact hpos.ne hsize
  rcases hpage with hpage | hpage
  · exact bouncePageCnt_lt_sgCount hg hpage hpos hseg
  · have hle := sum_bvLen_le hpage
    rw [hsize, List.length_map] at hle
    have hpages : (bio.biSize - f) / pageSize ≤ bio.segs.length := by
      calc (bio.biSize - f) / pageSize
        _ ≤ bio.segs.length * pageSize / pageSize := Nat.div_le_div_right (by omega)
        _ = bio.segs.length := Nat.mul_div_cancel _ (by decide)
    have hblocks : 0 < (bio.biSize + 2 ^ k - 1) / 2 ^ k := Nat.div_pos (by omega) hg
    have hcnt := bouncePageCnt_le f bio.biSize
    omega

end Block
end Shannon
