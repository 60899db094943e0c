/-
# DMA alignment

`shannon_block.c`, `shannon_convert_bio`: the device addresses units of 8 bytes.  A bio
with a segment whose offset or length is not a multiple of 8 goes through bounce pages,
and where these cannot be had `has_hole` is set, which tells the core to copy.

The direct path cuts at three kinds of places, and from aligned segments all of them
are aligned (`aligned_cutPieces`), as `remained_size` is a multiple of 8 at every point
(`eight_dvd_firstSize`).  So is the layout of the bounce pages (`aligned_bouncePiece`).
`convertBio_aligned` is the sum over the ways a conversion can go.
-/

import Shannon.Block.BounceCopy
import Shannon.Block.Hole

namespace Shannon
namespace Block

open Lib

/-- Offset and length are multiples of 8. -/
def Piece.Aligned (p : Piece) : Prop := 8 ∣ p.offset ∧ 8 ∣ p.length

instance (p : Piece) : Decidable p.Aligned := inferInstanceAs (Decidable (_ ∧ _))

/-! ### The direct path -/

theorem misaligned_eq_false_iff {v : BioVec} :
    misaligned v = false ↔ 8 ∣ v.bvOffset ∧ 8 ∣ v.bvLen := by
  have hand (x : ℕ) : x &&& 7 = x % 8 := Nat.and_two_pow_sub_one_eq_mod x 3
  simp only [misaligned, hand, Bool.or_eq_false_iff, decide_eq_false_iff_not, not_not]
  omega

/-- **The cuts of an aligned segment are aligned**, and so is what `remained_size` is
left at. -/
theorem aligned_cutPieces {v : BioVec} (hv : misaligned v = false) {g fuel o r r' : ℕ}
    {ps : List Piece} (hg : 8 ∣ g) (ho : 8 ∣ o) (hr : 8 ∣ r)
    (h : cutPieces (bioCut v) (bioPlace v) g v.bvLen fuel o r = some (ps, r')) :
    (∀ p ∈ ps, p.Aligned) ∧ 8 ∣ r' := by
  obtain ⟨hoff, hlen⟩ := misaligned_eq_false_iff.1 hv
  induction fuel generalizing o r ps with
  | zero =>
      rw [cutPieces] at h
      split_ifs at h
      obtain ⟨rfl, rfl⟩ := Prod.mk.inj (Option.some.inj h)
      exact ⟨fun p hp => absurd hp List.not_mem_nil, hr⟩
  | succ fuel ih =>
      rw [cutPieces] at h
      split_ifs at h with hlt
      · obtain ⟨⟨qs, r₁⟩, hqs, he⟩ := Option.map_eq_some_iff.1 h
        obtain ⟨rfl, rfl⟩ := Prod.mk.inj he
        have hcut : 8 ∣ bioCut v o r := by
          rw [bioCut_eq, toBoundary, pageSize]
          omega
        have hnext : 8 ∣ nextRemained g r (bioCut v o r) := by
          unfold nextRemained
          split_ifs
          · exact hg
          · exact Nat.dvd_sub hr hcut
        obtain ⟨hrest, hr'⟩ := ih (Nat.dvd_add ho hcut) hnext hqs
        refine ⟨fun p hp => ?_, hr'⟩
        rcases List.mem_cons.1 hp with rfl | hp
        · refine ⟨?_, hcut⟩
          simp only [bioPlace, pageSize]
          omega
        · exact hrest p hp
      · obtain ⟨rfl, rfl⟩ := Prod.mk.inj (Option.some.inj h)
        exact ⟨fun p hp => absurd hp List.not_mem_nil, hr⟩

theorem aligned_cutAll {vs : List BioVec} (hvs : ∀ v ∈ vs, misaligned v = false) {g r r' : ℕ}
    {ps : List Piece} (hg : 8 ∣ g) (hr : 8 ∣ r)
    (h : cutAll (bioSegment g) vs r = some (ps, r')) : ∀ p ∈ ps, p.Aligned := by
  induction vs generalizing r ps with
  | nil =>
      obtain ⟨rfl, -⟩ := Prod.mk.inj (Option.some.inj h)
      exact fun p hp => absurd hp List.not_mem_nil
  | cons v vs ih =>
      simp only [cutAll] at h
      obtain ⟨⟨ps₁, r₁⟩, hv, h⟩ := Option.bind_eq_some_iff.1 h
      obtain ⟨⟨ps₂, r₂⟩, hps₂, he⟩ := Option.map_eq_some_iff.1 h
      obtain ⟨rfl, rfl⟩ := Prod.mk.inj he
      obtain ⟨hfirst, hr₁⟩ :=
        aligned_cutPieces (hvs v (List.mem_cons_self ..)) hg (Nat.dvd_zero 8) hr hv
      have hrest := ih (fun w hw => hvs w (List.mem_cons_of_mem _ hw)) hr₁ hps₂
      intro p hp
      rcases List.mem_append.1 hp with hp | hp
      · exact hfirst p hp
      · exact hrest p hp

/-- `first_size` is a multiple of 8, as the sizes it is made of are. -/
theorem eight_dvd_firstSize {k : ℕ} (hk9 : 9 ≤ k) (hk : k < 32) (startSector : ℕ) {size : ℕ}
    (hsize : 8 ∣ size) : 8 ∣ firstSize startSector size (2 ^ k) := by
  have hg : 8 ∣ 2 ^ k := Nat.pow_dvd_pow 2 (show 3 ≤ k by omega)
  have hx : 8 ∣ startSector * 512 := by omega
  have hboundary : 8 ∣ toBoundary (2 ^ k) (startSector * 512) % 2 ^ k :=
    (Nat.dvd_mod_iff hg).2 (Nat.dvd_sub hg ((Nat.dvd_mod_iff hg).2 hx))
  rw [firstSize_eq hk]
  rcases Nat.le_total size (toBoundary (2 ^ k) (startSector * 512) % 2 ^ k) with h | h
  · rwa [Nat.min_eq_left h]
  · rwa [Nat.min_eq_right h]

/-- **The direct path maps aligned segments to aligned entries.** -/
theorem aligned_oldFashion {sbio out : ShannonBio} {bio : Bio} {t : SgTable} {g : ℕ}
    (ht : EndsLast t) (hsg : sbio.sg = some t) (hg : 8 ∣ g) (hf : 8 ∣ sbio.firstSize)
    (hvs : ∀ v ∈ bio.segs.map Prod.snd, misaligned v = false)
    (h : oldFashion sbio bio g = .ok out) : ∀ e ∈ out.entries, e.Aligned := by
  obtain ⟨ps, r, hps⟩ := exists_cutAll_of_oldFashion h
  have hseed : 8 ∣ seedRemained sbio.firstSize g := by
    unfold seedRemained
    split_ifs
    · exact hf
    · exact hg
  rw [(entries_of_oldFashion ht hsg hps h).1]
  exact aligned_cutAll hvs hg hseed hps

/-! ### Bounce pages -/

theorem aligned_bouncePiece {f total : ℕ} (hf : f < pageSize) (hf8 : 8 ∣ f) (ht8 : 8 ∣ total)
    (i page : ℕ) : (bouncePiece f total i page).Aligned := by
  have hoff := firstPageOffset_ne_zero hf
  have hrest : 8 ∣ (total - f) % pageSize :=
    (Nat.dvd_mod_iff (by decide)).2 (Nat.dvd_sub ht8 hf8)
  unfold bouncePiece Piece.Aligned
  simp only [hoff]
  split_ifs with h h'
  · have hval : firstPageOffset f % 2 ^ 32 = pageSize - f := by
      unfold firstPageOffset pageSize at *
      rw [if_pos h.2]
      omega
    simp only [hval, pageSize] at *
    omega
  · exact ⟨Nat.dvd_zero 8, hrest⟩
  · exact ⟨Nat.dvd_zero 8, (by decide : 8 ∣ pageSize)⟩

/-! ### The whole conversion -/

/-- **Entries are aligned, or `has_hole` says that they are not.**  For every start sector,
every power of two of at least a sector and at most a page as block size, every bio with a
`bi_size` of whole sectors, whatever the offsets and lengths of its segments, and every
outcome of the allocations: when `shannon_convert_bio` returns 0, `has_hole` is set or the
offset and the length of every used entry are multiples of 8. -/
theorem convertBio_aligned {env : ConvertEnv} {mem : Mem} {sbio : ShannonBio} {bio : Bio} {k : ℕ}
    (hk9 : 9 ≤ k) (hk12 : k ≤ 12) (hsize : 512 ∣ bio.biSize) (hpos : 0 < bio.biSize)
    {c : Converted} (h : shannonConvertBio env mem sbio bio (2 ^ k) = .ok c) (hret : c.ret = 0) :
    c.sbio.hasHole = true ∨ ∀ e ∈ c.sbio.entries, 8 ∣ e.offset ∧ 8 ∣ e.length := by
  have hg : 8 ∣ 2 ^ k := Nat.pow_dvd_pow 2 (show 3 ≤ k by omega)
  have hsize8 : 8 ∣ bio.biSize := by omega
  have hf := eight_dvd_firstSize hk9 (by omega) bio.biSector hsize8
  rcases shannonConvertBio_cases h with
    ⟨hfailed, -⟩ | ⟨-, -, ⟨hbounce, h⟩ | ⟨hdirect, out, hout, rfl⟩⟩
  · rw [hret] at hfailed
    exact absurd hfailed (by decide)
  · obtain ⟨r, hr, ⟨-, out, hout, rfl⟩ | ⟨hpages, mem', rfl⟩⟩ := convertBounced_cases h
    · -- no pages: the direct path, which has noted that they were needed
      left
      rw [oldFashion_hasHole hout]
      simp only [hbounce, Bool.true_or]
    · right
      have hle : 2 ^ k ≤ pageSize := Nat.pow_le_pow_right (by decide) hk12
      have hlt := (firstSize_lt (show k < 32 by omega) bio.biSector bio.biSize).trans_le hle
      have hb := bounced_of_ret_pos (endsLast_init _)
        (by rw [length_init]; exact sgCount_pos env sbio (Nat.two_pow_pos k).ne' hpos.ne') hr hpages
      intro e he
      rw [ShannonBio.entries, Option.getD_some, hb.entries_eq] at he
      obtain ⟨i, hi, rfl⟩ := List.mem_mapIdx.1 he
      exact aligned_bouncePiece hlt hf hsize8 ..
  · right
    refine aligned_oldFashion (endsLast_init _) rfl hg hf (fun v hv => ?_) hout
    obtain ⟨x, hx, rfl⟩ := List.mem_map.1 hv
    simp only [convertStart, Bool.or_eq_false_iff, List.any_eq_false, Bool.not_eq_true] at hdirect
    exact hdirect.2 x hx

/-- The hypotheses of `convertBio_aligned` are satisfiable: a read through two bounce pages
has aligned entries, and `has_hole` is clear. -/
theorem convertBio_aligned_misalignedBio :
    ∃ c, shannonConvertBio ⟨true, true, fun i => some (100 + i)⟩ (fun _ => 0)
        (freshSbio .fromDevice) misalignedBio (2 ^ 12) = .ok c ∧ c.ret = 0 ∧
      c.sbio.hasHole = false ∧ c.sbio.entries = [⟨100, 3584, 512⟩, ⟨101, 0, 1024⟩] ∧
      ∀ e ∈ c.sbio.entries, 8 ∣ e.offset ∧ 8 ∣ e.length := by
  obtain ⟨c, hc, hret, hhole, hentries⟩ :
      ∃ c, shannonConvertBio ⟨true, true, fun i => some (100 + i)⟩ (fun _ => 0)
          (freshSbio .fromDevice) misalignedBio (2 ^ 12) = .ok c ∧ c.ret = 0 ∧
        c.sbio.hasHole = false ∧ c.sbio.entries = [⟨100, 3584, 512⟩, ⟨101, 0, 1024⟩] :=
    ⟨_, rfl, rfl, rfl, rfl⟩
  have h := convertBio_aligned (by decide) (by decide) (by decide) (by decide) hc hret
  refine ⟨c, hc, hret, hhole, hentries, h.resolve_left ?_⟩
  rw [hhole]
  exact Bool.false_ne_true

end Block
end Shannon
