/-
# The size of the table

`shannon_block.c`, `shannon_convert_bio`: the table is allocated for
`2 * (DIV_ROUND_UP(bio_size, logicb_size) + segments)` entries before anything is cut,
and the direct path follows `shannon_sg_next` without a test.

An entry ends where its segment ends, or at a page boundary inside the segment, or at
a block boundary inside the bio (`length_cutPieces_bio`).  The blocks account for the
last kind, whatever the fragmentation, and the segments for the first.  For the page
boundaries there is nothing in the formula but the factor of two, which is enough when
a page has room for a block, or when no segment has a page boundary inside
(`oldFashion_fits`).
-/

import Shannon.Block.Converters

namespace Shannon
namespace Block

open Lib

/-! ### One segment -/

/-- **The entries of a segment**, from any offset on: one more than the page and
block boundaries inside what is left of it. -/
theorem length_cutPieces_bio (v : BioVec) {fuel g S total a r o r' : ℕ} {ps : List Piece}
    (hg : 0 < g) (hseed : Seed g S total (a + o) r) (hfit : a + v.bvLen ≤ total)
    (ho : o < v.bvLen)
    (h : cutPieces (bioCut v) (bioPlace v) g v.bvLen fuel o r = some (ps, r')) :
    ps.length ≤ 1 + crossings pageSize (v.bvOffset + o) (v.bvLen - o)
      + crossings g (S + (a + o)) (v.bvLen - o) := by
  induction fuel generalizing o r ps with
  | zero =>
      rw [cutPieces, if_pos ho] at h
      cases h
  | succ fuel ih =>
      simp only [cutPieces, if_pos ho] at h
      obtain ⟨⟨qs, r₁⟩, hqs, he⟩ := Option.map_eq_some_iff.1 h
      obtain ⟨rfl, rfl⟩ := Prod.mk.inj he
      obtain ⟨hr0, hrle, hclip⟩ := hseed (by omega)
      have hcut := bioCut_eq v o r
      generalize bioCut v o r = m at hcut hqs
      have hmle : m ≤ v.bvLen - o := by omega
      rcases Nat.lt_or_eq_of_le hmle with hlt | heq
      · have hrest := ih (by rw [← Nat.add_assoc]; exact hseed.next hg (by omega) (by omega))
          (by omega) hqs
        rw [← Nat.add_assoc v.bvOffset, ← Nat.add_assoc a, ← Nat.add_assoc S,
          ← Nat.sub_sub] at hrest
        have hpage : crossings pageSize (v.bvOffset + o + m) (v.bvLen - o - m)
            ≤ crossings pageSize (v.bvOffset + o) (v.bvLen - o) := crossings_add_le hmle
        have hblock : crossings g (S + (a + o) + m) (v.bvLen - o - m)
            ≤ crossings g (S + (a + o)) (v.bvLen - o) := crossings_add_le hmle
        rw [List.length_cons]
        dsimp only
        -- short of the end of the segment the cut is at a page or at a block boundary
        by_cases hm : m = toBoundary pageSize (v.bvOffset + o)
        · subst hm
          have := crossings_add_toBoundary (show 0 < pageSize by decide) hlt
          omega
        · have hmr : m = r := by omega
          have hr : r = toBoundary g (S + (a + o)) := by
            by_contra hne
            have := hclip (by omega)
            omega
          rw [hmr, hr] at hlt hrest hpage
          have := crossings_add_toBoundary hg hlt
          omega
      · rw [cutPieces_done (show ¬o + m < v.bvLen by omega)] at hqs
        obtain rfl : qs = [] := (Prod.mk.inj (Option.some.inj hqs)).1.symm
        rw [List.length_singleton]
        omega

/-! ### All segments -/

/-- The page boundaries inside the segments. -/
def pageCuts (vs : List BioVec) : ℕ :=
  (vs.map fun v => crossings pageSize v.bvOffset v.bvLen).sum

/-- **The entries of all segments.** -/
theorem length_cutAll_bio {vs : List BioVec} {g S total a r r' : ℕ} {ps : List Piece} (hg : 0 < g)
    (hseed : Seed g S total a r) (hfit : a + (vs.map BioVec.bvLen).sum ≤ total)
    (hlen : ∀ v ∈ vs, 0 < v.bvLen) (h : cutAll (bioSegment g) vs r = some (ps, r')) :
    ps.length ≤ vs.length + pageCuts vs + crossings g (S + a) (vs.map BioVec.bvLen).sum := by
  induction vs generalizing a r ps with
  | nil =>
      obtain ⟨rfl, -⟩ := Prod.mk.inj (Option.some.inj h)
      exact Nat.zero_le _
  | cons v vs ih =>
      simp only [cutAll] at h
      obtain ⟨⟨ps₁, r₁⟩, hv, h⟩ := Option.bind_eq_some_iff.1 h
      obtain ⟨⟨ps₂, r₂⟩, hvs, he⟩ := Option.map_eq_some_iff.1 h
      obtain ⟨rfl, rfl⟩ := Prod.mk.inj he
      rw [List.map_cons, List.sum_cons] at hfit
      have hv0 := hlen v (List.mem_cons_self ..)
      obtain ⟨qs, s, hqs, -, hseed₁⟩ :=
        cutPieces_bio v v.bvLen (o := 0) hg hseed (by omega) (Nat.zero_le _) (by omega)
      have hsame : ps₁ = qs ∧ r₁ = s := by
        rw [bioSegment, hqs] at hv
        simpa using hv.symm
      obtain ⟨rfl, rfl⟩ := hsame
      have hfirst := length_cutPieces_bio v hg hseed (by omega) hv0 hqs
      have hrest := ih hseed₁ (by omega) (fun w hw => hlen w (List.mem_cons_of_mem _ hw)) hvs
      simp only [Nat.add_zero, Nat.sub_zero] at hfirst
      rw [← Nat.add_assoc] at hrest
      have hjoin := crossings_append g (S + a) v.bvLen (vs.map BioVec.bvLen).sum
      simp only [pageCuts, List.map_cons, List.sum_cons, List.length_append, List.length_cons]
        at hrest ⊢
      omega

/-! ### The formula -/

/-- Segments that fill no page have at most one page boundary each, besides those that
the pages of the transfer account for. -/
theorem pageCuts_le (vs : List BioVec) :
    pageCuts vs ≤ (vs.map BioVec.bvLen).sum / pageSize + vs.length := by
  induction vs with
  | nil => exact Nat.zero_le _
  | cons v vs ih =>
      have hv : crossings pageSize v.bvOffset v.bvLen ≤ v.bvLen / pageSize + 1 :=
        crossings_le_div (by decide)
      have hdiv : v.bvLen / pageSize + (vs.map BioVec.bvLen).sum / pageSize
          ≤ (v.bvLen + (vs.map BioVec.bvLen).sum) / pageSize :=
        Nat.div_add_div_le_add_div
      simp only [pageCuts, List.map_cons, List.sum_cons, List.length_cons] at ih ⊢
      omega

/-- The segment has no page boundary inside. -/
def BioVec.InOnePage (v : BioVec) : Prop :=
  v.bvOffset / pageSize = (v.bvOffset + v.bvLen - 1) / pageSize

theorem pageCuts_eq_zero {vs : List BioVec} (h : ∀ v ∈ vs, v.InOnePage) : pageCuts vs = 0 := by
  induction vs with
  | nil => rfl
  | cons v vs ih =>
      have hv : crossings pageSize v.bvOffset v.bvLen = 0 := by
        rw [crossings, ← h v (List.mem_cons_self ..), Nat.sub_self]
      have hvs := ih fun w hw => h w (List.mem_cons_of_mem _ hw)
      simp only [pageCuts, List.map_cons, List.sum_cons] at hvs ⊢
      omega

/-- What is cut fits the formula. -/
theorem length_bioPieces_le {bio : Bio} {k r : ℕ} {ps : List Piece} (hk : k < 32)
    (hsize : ((bio.segs.map Prod.snd).map BioVec.bvLen).sum = bio.biSize)
    (hlen : ∀ v ∈ bio.segs.map Prod.snd, 0 < v.bvLen)
    (hpage : 2 ^ k ≤ pageSize ∨ ∀ v ∈ bio.segs.map Prod.snd, v.InOnePage)
    (hps : cutAll (bioSegment (2 ^ k)) (bio.segs.map Prod.snd)
      (seedRemained (firstSize bio.biSector bio.biSize (2 ^ k)) (2 ^ k)) = some (ps, r)) :
    ps.length ≤ 2 * ((bio.biSize + 2 ^ k - 1) / 2 ^ k + bio.segs.length) := by
  have hg : 0 < 2 ^ k := Nat.two_pow_pos k
  have hcount := length_cutAll_bio hg (seed_start hk bio.biSector bio.biSize)
    (by rw [Nat.zero_add, hsize]) hlen hps
  rw [hsize, List.length_map] at hcount
  have hblocks : crossings (2 ^ k) (bio.biSector * 512 + 0) bio.biSize
      ≤ (bio.biSize + 2 ^ k - 1) / 2 ^ k := crossings_le_ceil hg
  rcases hpage with hpage | hpage
  · -- a page is at least a block: the pages of the bio are no more than its blocks
    have hcuts := pageCuts_le (bio.segs.map Prod.snd)
    rw [hsize, List.length_map] at hcuts
    have hpages : bio.biSize / pageSize ≤ (bio.biSize + 2 ^ k - 1) / 2 ^ k :=
      calc bio.biSize / pageSize
        _ ≤ bio.biSize / 2 ^ k := Nat.div_le_div_left hpage hg
        _ ≤ (bio.biSize + 2 ^ k - 1) / 2 ^ k := Nat.div_le_div_right (by omega)
    omega
  · have hcuts := pageCuts_eq_zero hpage
    omega

/-- The loop over the segments, before the last entry is marked. -/
def oldFashionLoop (sbio : ShannonBio) (bio : Bio) (logicbSize : ℕ) : Except Oops ConvState :=
  forEachSegment (bioHole bio.biIdx sbio.segments)
    (fun v => mapLoop (bioCut v) (bioPlace v) logicbSize v.bvLen v.bvLen 0) bio.segs
    ⟨seedRemained sbio.firstSize logicbSize, sbio.needBounce, SgCursor.start (sbio.sg.getD [])⟩

/-- The direct path leaves `sg_count` alone. -/
theorem oldFashion_sgCount {sbio out : ShannonBio} {bio : Bio} {logicbSize : ℕ}
    (h : oldFashion sbio bio logicbSize = .ok out) : out.sgCount = sbio.sgCount := by
  obtain ⟨s, -, h⟩ := bind_eq_ok.1 h
  obtain ⟨t, -, rfl⟩ := map_eq_ok.1 h
  rfl

/-- **The table is large enough.**  For every start sector, every block size and every
list of segments, none empty, whose lengths sum to `bi_size`: if a page has room for a
block or no segment crosses a page, a table of the size the code allocates, computed
in 32 bits, is not run off the end of.  The loop ends within the table, and so does
the conversion unless there is nothing to convert. -/
theorem oldFashion_fits (sbio : ShannonBio) (bio : Bio) {k : ℕ}
    (hwrap : bio.biSize + 2 ^ k < 2 ^ 32)
    (hsize : ((bio.segs.map Prod.snd).map BioVec.bvLen).sum = bio.biSize)
    (hlen : ∀ v ∈ bio.segs.map Prod.snd, 0 < v.bvLen)
    (hpage : 2 ^ k ≤ pageSize ∨ ∀ v ∈ bio.segs.map Prod.snd, v.InOnePage) {t : SgTable}
    (ht : EndsLast t)
    (hcount : t.length = 2 * ((bio.biSize + 2 ^ k - 1) % 2 ^ 32 / 2 ^ k + bio.segs.length)) :
    (∃ s, oldFashionLoop (convertSetup sbio bio (2 ^ k) t) bio (2 ^ k) = .ok s ∧
      s.cursor.usedSgCount ≤ (convertSetup sbio bio (2 ^ k) t).sgCount) ∧
    (0 < bio.biSize →
      ∃ out, oldFashion (convertSetup sbio bio (2 ^ k) t) bio (2 ^ k) = .ok out ∧
        out.usedSgCount ≤ out.sgCount ∧
        out.sgCount = 2 * ((bio.biSize + 2 ^ k - 1) / 2 ^ k + bio.segs.length)) := by
  have hk : k < 32 := (Nat.pow_lt_pow_iff_right (by decide)).1 (by omega : 2 ^ k < 2 ^ 32)
  obtain ⟨ps, r, hps, hdel⟩ := exists_bioPieces bio hk hsize
  have hfits := length_bioPieces_le hk hsize hlen hpage hps
  rw [Nat.mod_eq_of_lt (by omega)] at hcount
  constructor
  · have hloop := oldFashion_loop (convertSetup sbio bio (2 ^ k) t) hps (SgCursor.start t)
    rcases SgCursor.putAll_eq (SgCursor.inv_start ht) ps with
      ⟨hover, -⟩ | ⟨-, c, hc, -, -, -, -⟩
    · simp only [SgCursor.start] at hover
      omega
    · obtain ⟨-, hused, -⟩ := SgCursor.start_putAll ht hc
      rw [hc] at hloop
      exact ⟨_, hloop, hused.trans_le hfits⟩
  · intro hpos
    have hroom := (oldFashion_eq (convertSetup sbio bio (2 ^ k) t) ht rfl hps
      (bioPieces_ne_nil hsize hpos hdel)).2
      (hfits.trans_eq hcount.symm)
    obtain ⟨out, hout, -, hused, -, -⟩ := hroom
    have hsg := oldFashion_sgCount hout
    exact ⟨out, hout, by rw [hused, hsg]; exact hfits, hsg⟩

/-- The hypotheses of `oldFashion_fits` are satisfiable: `unalignedBio` fits into the
table that is allocated for it. -/
theorem oldFashion_fits_unalignedBio :
    ∃ out, oldFashion (convertSetup (freshSbio .toDevice) unalignedBio (2 ^ 12)
        (shannonSgInitTable 12)) unalignedBio (2 ^ 12) = .ok out ∧ out.usedSgCount ≤ 12 := by
  obtain ⟨out, hout, hused, hsg⟩ := (oldFashion_fits (freshSbio .toDevice) unalignedBio
    (k := 12) (by decide) (by decide) (by decide) (.inl (by decide)) (endsLast_init 12)
    (by rw [length_init]; rfl)).2 (by decide)
  exact ⟨out, hout, hused.trans_eq hsg⟩

end Block
end Shannon
