/-
# What the translation keeps

`shannon_gfp_legacy.h`, `shannon_gfp_decode_legacy`: sixteen bits of the core are mapped
to the bits of the running kernel, some of them to composites that overlap, and a mask
that ends up without a reclaim bit gets `__GFP_KSWAPD_RECLAIM`.

`Flags.grants` is the mapping as a table.  What a decoded mask carries is read off it
(`decodeBits_carries`), and both `__GFP_RECLAIM` and `GFP_ATOMIC` have the bit of the last
step, so that the step is the same as always adding it (`decode_eq_or`).  On every kernel
that keeps its bits apart (`Flags.Modern`) `decode_intent` follows: a request that could
sleep still can and no other, and what is granted for two masks together is what is
granted for each of them.
-/

import Shannon.Kcore.Gfp
import Mathlib.Data.List.Nodup
import Mathlib.Data.List.Pairwise

namespace Shannon
namespace Kcore

/-! ### The table -/

/-- The bits of the core that are translated to one flag. -/
def Flags.simple (k : Flags) : List (Legacy × Gfp) :=
  [(.io, k.io), (.fs, k.fs), (.nowarn, k.nowarn), (.gfpRepeat, k.retryMayfail),
    (.nofail, k.nofail), (.noretry, k.noretry), (.comp, k.comp), (.zero, k.zero)]

/-- What `shannon_gfp_decode_legacy` grants for a bit of the core. -/
def Flags.grants (k : Flags) : List (Legacy × Gfp) :=
  (.wait, k.reclaim) :: (.high, k.gfpAtomic) :: k.simple

/-- The flags that say what a request may do and get, with the bit of the core for each. -/
def Flags.kept (k : Flags) : List (Legacy × Gfp) :=
  [(.wait, k.directReclaim), (.nofail, k.nofail), (.io, k.io), (.fs, k.fs), (.comp, k.comp),
    (.zero, k.zero)]

/-- The single flags. -/
def Flags.singles (k : Flags) : List Gfp :=
  k.directReclaim :: k.kswapdReclaim :: k.simple.map Prod.snd

/-- A kernel that keeps its bits apart: the single flags are not empty, share no bit with
each other or with the zones, and `GFP_ATOMIC` has the background reclaim and none of the
flags that are translated one by one. -/
structure Flags.Modern (k : Flags) : Prop where
  ne_zero : ∀ m ∈ k.singles, m ≠ 0
  disjoint : k.singles.Pairwise fun m m' => m &&& m' = 0
  zone_disjoint : ∀ m ∈ k.singles, m &&& legacyZoneMask = 0
  atomic_kswapd : k.gfpAtomic &&& k.kswapdReclaim = k.kswapdReclaim
  atomic_disjoint : ∀ p ∈ k.kept, k.gfpAtomic &&& p.2 = 0
  atomic_zone : k.gfpAtomic &&& legacyZoneMask = 0

/-- Everything the table grants, on top of `g`. -/
def grantAll (l : List (Legacy × Gfp)) (v g : Gfp) : Gfp :=
  l.foldl (fun g p => orIf g v p.1 p.2) g

theorem decodeBits_eq (k : Flags) (v : Gfp) :
    decodeBits k v = grantAll k.grants v (v &&& legacyZoneMask) := rfl

theorem or_and_ne_zero_iff {g h x : Gfp} : (g ||| h) &&& x ≠ 0 ↔ g &&& x ≠ 0 ∨ h &&& x ≠ 0 := by
  rw [BitVec.and_or_distrib_right]
  exact (not_congr BitVec.or_eq_zero_iff).trans not_and_or

/-- **What is carried was there or was granted.** -/
theorem grantAll_carries {l : List (Legacy × Gfp)} {v g x : Gfp} :
    grantAll l v g &&& x ≠ 0 ↔
      g &&& x ≠ 0 ∨ ∃ p ∈ l, v &&& p.1.mask ≠ 0 ∧ p.2 &&& x ≠ 0 := by
  induction l generalizing g with
  | nil => simp [grantAll]
  | cons p l ih =>
      have hstep : orIf g v p.1 p.2 &&& x ≠ 0 ↔
          g &&& x ≠ 0 ∨ (v &&& p.1.mask ≠ 0 ∧ p.2 &&& x ≠ 0) := by
        unfold orIf
        split_ifs with hbit
        · rw [or_and_ne_zero_iff, and_iff_right hbit]
        · exact (or_iff_left fun hp => hbit hp.1).symm
      rw [grantAll, List.foldl_cons, ← grantAll, ih, hstep, or_assoc]
      simp only [List.mem_cons, exists_eq_or_imp]

/-- What is granted is there. -/
theorem grantAll_or_of_mem {l : List (Legacy × Gfp)} {v g m : Gfp}
    (h : g ||| m = g ∨ ∃ p ∈ l, v &&& p.1.mask ≠ 0 ∧ p.2 ||| m = p.2) :
    grantAll l v g ||| m = grantAll l v g := by
  induction l generalizing g with
  | nil => simpa [grantAll] using h
  | cons p l ih =>
      rw [grantAll, List.foldl_cons, ← grantAll]
      apply ih
      simp only [List.mem_cons, exists_eq_or_imp, ← or_assoc] at h
      refine h.imp_left fun hfirst => ?_
      unfold orIf
      split_ifs with hbit
      · rcases hfirst with hg | ⟨-, hp⟩
        · rw [BitVec.or_assoc, BitVec.or_comm p.2, ← BitVec.or_assoc, hg]
        · rw [BitVec.or_assoc, hp]
      · exact hfirst.resolve_right fun hp => hbit hp.1

/-- What the table does not touch stays as it was. -/
theorem grantAll_and_of_disjoint {l : List (Legacy × Gfp)} {v x : Gfp}
    (h : ∀ p ∈ l, p.2 &&& x = 0) (g : Gfp) : grantAll l v g &&& x = g &&& x := by
  induction l generalizing g with
  | nil => rfl
  | cons p l ih =>
      rw [grantAll, List.foldl_cons, ← grantAll, ih fun q hq => h q (List.mem_cons_of_mem _ hq)]
      unfold orIf
      split_ifs
      · rw [BitVec.and_or_distrib_right, h p (List.mem_cons_self ..)]
        exact BitVec.or_zero
      · rfl

/-- **Two masks together are granted what each of them is.** -/
theorem grantAll_or (l : List (Legacy × Gfp)) (a b g h : Gfp) :
    grantAll l (a ||| b) (g ||| h) = grantAll l a g ||| grantAll l b h := by
  induction l generalizing g h with
  | nil => rfl
  | cons p l ih =>
      have hstep : orIf (g ||| h) (a ||| b) p.1 p.2 = orIf g a p.1 p.2 ||| orIf h b p.1 p.2 := by
        have hbit : (a ||| b) &&& p.1.mask ≠ 0 ↔ a &&& p.1.mask ≠ 0 ∨ b &&& p.1.mask ≠ 0 :=
          or_and_ne_zero_iff
        unfold orIf
        by_cases ha : a &&& p.1.mask ≠ 0 <;> by_cases hb : b &&& p.1.mask ≠ 0
        · rw [if_pos (hbit.2 (.inl ha)), if_pos ha, if_pos hb]
          ext i
          simp only [BitVec.getElem_or]
          cases g[i] <;> cases h[i] <;> cases p.2[i] <;> rfl
        · rw [if_pos (hbit.2 (.inl ha)), if_pos ha, if_neg hb, BitVec.or_assoc, BitVec.or_assoc,
            BitVec.or_comm h]
        · rw [if_pos (hbit.2 (.inr hb)), if_neg ha, if_pos hb, BitVec.or_assoc]
        · rw [if_neg fun h => (hbit.1 h).elim ha hb, if_neg ha, if_neg hb]
      simp only [grantAll, List.foldl_cons]
      rw [hstep]
      exact ih ..

/-! ### Kernels that keep their bits apart -/

section Modern

variable {k : Flags}

theorem directReclaim_mem_singles : k.directReclaim ∈ k.singles := List.mem_cons_self ..

theorem kswapdReclaim_mem_singles : k.kswapdReclaim ∈ k.singles :=
  List.mem_cons_of_mem _ (List.mem_cons_self ..)

theorem mem_singles {p : Legacy × Gfp} (hp : p ∈ k.simple) : p.2 ∈ k.singles :=
  List.mem_cons_of_mem _ (List.mem_cons_of_mem _ (List.mem_map_of_mem hp))

theorem ne_of_mem_simple {p : Legacy × Gfp} (hp : p ∈ k.simple) :
    .wait ≠ p.1 ∧ .high ≠ p.1 := by
  have hkeys : ∀ b ∈ k.simple.map Prod.fst, .wait ≠ b ∧ .high ≠ b := by
    show ∀ b ∈ [Legacy.io, .fs, .nowarn, .gfpRepeat, .nofail, .noretry, .comp, .zero], _
    decide
  exact hkeys _ (List.mem_map_of_mem hp)

/-- Of the flags that are kept only the direct reclaim is not translated one by one. -/
theorem mem_kept {p : Legacy × Gfp} (hp : p ∈ k.kept) :
    p = (.wait, k.directReclaim) ∨ p ∈ k.simple := by
  refine (List.mem_cons.1 hp).imp_right fun hp => ?_
  simp only [Flags.simple, List.mem_cons, List.not_mem_nil, or_false] at hp ⊢
  tauto

variable (hk : k.Modern)

include hk

theorem Flags.Modern.reclaim_and_zone : k.reclaim &&& legacyZoneMask = 0 := by
  rw [Flags.reclaim, BitVec.and_or_distrib_right, hk.zone_disjoint _ directReclaim_mem_singles,
    hk.zone_disjoint _ kswapdReclaim_mem_singles]
  rfl

theorem Flags.Modern.kswapdReclaim_and_directReclaim :
    k.kswapdReclaim &&& k.directReclaim = 0 := by
  rw [BitVec.and_comm]
  exact (List.pairwise_cons.1 hk.disjoint).1 _ (List.mem_cons_self ..)

/-- The flags translated one by one have no reclaim bit. -/
theorem Flags.Modern.simple_and_reclaim {p : Legacy × Gfp} (hp : p ∈ k.simple) :
    p.2 &&& k.directReclaim = 0 ∧ p.2 &&& k.kswapdReclaim = 0 := by
  have hmem : p.2 ∈ k.simple.map Prod.snd := List.mem_map_of_mem hp
  obtain ⟨hdirect, hrest⟩ := List.pairwise_cons.1 hk.disjoint
  obtain ⟨hkswapd, -⟩ := List.pairwise_cons.1 hrest
  rw [BitVec.and_comm, BitVec.and_comm p.2]
  exact ⟨hdirect _ (List.mem_cons_of_mem _ hmem), hkswapd _ hmem⟩

/-- Two of them share a bit only if they are the same. -/
theorem Flags.Modern.simple_and_ne_zero {p q : Legacy × Gfp} (hp : p ∈ k.simple)
    (hq : q ∈ k.simple) : p.2 &&& q.2 ≠ 0 ↔ p.1 = q.1 := by
  have hkeys : (k.simple.map Prod.fst).Nodup := by
    show [Legacy.io, .fs, .nowarn, .gfpRepeat, .nofail, .noretry, .comp, .zero].Nodup
    decide
  have hdisjoint := (List.pairwise_cons.1 (List.pairwise_cons.1 hk.disjoint).2).2
  rw [List.pairwise_map] at hdisjoint
  constructor
  · intro hmeet
    by_contra hne
    have : Std.Symm fun p q : Legacy × Gfp => p.2 &&& q.2 = 0 :=
      ⟨fun p q h => by rwa [BitVec.and_comm]⟩
    exact hmeet (hdisjoint.forall hp hq fun h => hne (congrArg Prod.fst h))
  · intro hkey
    obtain rfl := List.inj_on_of_nodup_map hkeys hp hq hkey
    rw [BitVec.and_self]
    exact hk.ne_zero _ (mem_singles hp)

/-- **The last step adds what is there already, or is missing**: a reclaim bit comes with
the background reclaim. -/
theorem decode_eq_or (v : Gfp) :
    shannonGfpDecodeLegacy k v = decodeBits k v ||| k.kswapdReclaim := by
  unfold shannonGfpDecodeLegacy
  dsimp only
  split_ifs with hnone
  · rfl
  symm
  rw [decodeBits_eq] at hnone ⊢
  apply grantAll_or_of_mem
  right
  obtain hzone | ⟨p, hp, hbit, hmeet⟩ := grantAll_carries.1 hnone
  · rw [BitVec.and_assoc, BitVec.and_comm legacyZoneMask, hk.reclaim_and_zone] at hzone
    exact absurd BitVec.and_zero hzone
  · refine ⟨p, hp, hbit, ?_⟩
    simp only [Flags.grants, List.mem_cons] at hp
    rcases hp with rfl | rfl | hp
    · rw [Flags.reclaim, BitVec.or_assoc, BitVec.or_self]
    · rw [← hk.atomic_kswapd]
      ext i
      simp only [BitVec.getElem_or, BitVec.getElem_and]
      cases k.gfpAtomic[i] <;> rfl
    · obtain ⟨hdirect, hkswapd⟩ := hk.simple_and_reclaim hp
      rw [Flags.reclaim, BitVec.and_or_distrib_left, hdirect, hkswapd] at hmeet
      exact absurd rfl hmeet

/-- The flags that are kept are granted for their own bit of the core, and for no other. -/
theorem Flags.Modern.kept_spec {p : Legacy × Gfp} (hp : p ∈ k.kept) :
    p.2 &&& legacyZoneMask = 0 ∧ k.kswapdReclaim &&& p.2 = 0 ∧
      (∃ m, (p.1, m) ∈ k.grants) ∧ ∀ q ∈ k.grants, q.2 &&& p.2 ≠ 0 ↔ q.1 = p.1 := by
  have hatomic : k.gfpAtomic &&& p.2 = 0 := hk.atomic_disjoint p hp
  rcases mem_kept hp with rfl | hsimple
  · have hdirect : k.reclaim &&& k.directReclaim ≠ 0 := by
      rw [Flags.reclaim, or_and_ne_zero_iff, BitVec.and_self]
      exact .inl (hk.ne_zero _ directReclaim_mem_singles)
    refine ⟨hk.zone_disjoint _ directReclaim_mem_singles, hk.kswapdReclaim_and_directReclaim,
      ⟨_, List.mem_cons_self ..⟩, fun q hq => ?_⟩
    simp only [Flags.grants, List.mem_cons] at hq
    rcases hq with rfl | rfl | hq
    · exact iff_of_true hdirect rfl
    · exact iff_of_false (not_not.2 hatomic) (show Legacy.high ≠ .wait by decide)
    · exact iff_of_false (not_not.2 (hk.simple_and_reclaim hq).1) (ne_of_mem_simple hq).1.symm
  · obtain ⟨hdirect, hkswapd⟩ := hk.simple_and_reclaim hsimple
    rw [BitVec.and_comm] at hdirect hkswapd
    have hreclaim : k.reclaim &&& p.2 = 0 := by
      rw [Flags.reclaim, BitVec.and_or_distrib_right, hdirect, hkswapd]
      rfl
    refine ⟨hk.zone_disjoint _ (mem_singles hsimple), hkswapd,
      ⟨p.2, List.mem_cons_of_mem _ (List.mem_cons_of_mem _ hsimple)⟩, fun q hq => ?_⟩
    simp only [Flags.grants, List.mem_cons] at hq
    rcases hq with rfl | rfl | hq
    · exact iff_of_false (not_not.2 hreclaim) (ne_of_mem_simple hsimple).1
    · exact iff_of_false (not_not.2 hatomic) (ne_of_mem_simple hsimple).2
    · exact hk.simple_and_ne_zero hq hsimple

/-- **A kept flag is carried exactly for its bit of the core.** -/
theorem decode_carries_iff {p : Legacy × Gfp} (hp : p ∈ k.kept) (v : Gfp) :
    shannonGfpDecodeLegacy k v &&& p.2 ≠ 0 ↔ v &&& p.1.mask ≠ 0 := by
  obtain ⟨hzone, hkswapd, ⟨m, hm⟩, hgrants⟩ := hk.kept_spec hp
  have hzone' : v &&& legacyZoneMask &&& p.2 = 0 := by
    rw [BitVec.and_assoc, BitVec.and_comm legacyZoneMask, hzone]
    exact BitVec.and_zero
  rw [decode_eq_or hk, or_and_ne_zero_iff, or_iff_left (not_not.2 hkswapd), decodeBits_eq,
    grantAll_carries, or_iff_right (not_not.2 hzone')]
  constructor
  · rintro ⟨q, hq, hbit, hmeet⟩
    rwa [(hgrants q hq).1 hmeet] at hbit
  · intro hbit
    exact ⟨(p.1, m), hm, hbit, (hgrants _ hm).2 rfl⟩

/-- The zones are kept as they are. -/
theorem decode_and_zone (v : Gfp) :
    shannonGfpDecodeLegacy k v &&& legacyZoneMask = v &&& legacyZoneMask := by
  have hgrants : ∀ q ∈ k.grants, q.2 &&& legacyZoneMask = 0 := by
    intro q hq
    simp only [Flags.grants, List.mem_cons] at hq
    rcases hq with rfl | rfl | hq
    · exact hk.reclaim_and_zone
    · exact hk.atomic_zone
    · exact hk.zone_disjoint _ (mem_singles hq)
  rw [decode_eq_or hk, BitVec.and_or_distrib_right,
    hk.zone_disjoint _ kswapdReclaim_mem_singles, decodeBits_eq,
    grantAll_and_of_disjoint hgrants, BitVec.and_assoc, BitVec.and_self]
  exact BitVec.or_zero

/-- **Decoding distributes over union.** -/
theorem decode_or (a b : Gfp) :
    shannonGfpDecodeLegacy k (a ||| b)
      = shannonGfpDecodeLegacy k a ||| shannonGfpDecodeLegacy k b := by
  rw [decode_eq_or hk, decode_eq_or hk, decode_eq_or hk, decodeBits_eq, decodeBits_eq,
    decodeBits_eq, BitVec.and_or_distrib_right, grantAll_or]
  generalize grantAll k.grants a (a &&& legacyZoneMask) = x
  generalize grantAll k.grants b (b &&& legacyZoneMask) = y
  ext i
  simp only [BitVec.getElem_or]
  cases x[i] <;> cases y[i] <;> cases k.kswapdReclaim[i] <;> rfl

end Modern

/-- **The translation preserves intent.**  On every kernel that keeps its bits apart, for
every value that is taken for one of the core: the translated mask carries
`__GFP_DIRECT_RECLAIM` exactly for `__GFP_WAIT`, and `__GFP_NOFAIL`, `__GFP_IO`, `__GFP_FS`,
`__GFP_COMP` and `__GFP_ZERO` exactly for the bit of that name; it carries a reclaim bit and
has the zones of the value; and decoding distributes over union. -/
theorem decode_intent {k : Flags} (hk : k.Modern) {v : Gfp}
    (hv : shannonGfpIsLegacy k v = true) :
    (∀ p ∈ k.kept, shannonGfpXlate k v &&& p.2 ≠ 0 ↔ v &&& p.1.mask ≠ 0) ∧
      shannonGfpXlate k v &&& k.reclaim ≠ 0 ∧
      shannonGfpXlate k v &&& legacyZoneMask = v &&& legacyZoneMask ∧
      ∀ a b, shannonGfpDecodeLegacy k (a ||| b)
        = shannonGfpDecodeLegacy k a ||| shannonGfpDecodeLegacy k b := by
  rw [shannonGfpXlate, if_pos hv]
  exact ⟨fun p hp => decode_carries_iff hk hp v,
    decode_reclaims (hk.ne_zero _ kswapdReclaim_mem_singles) v, decode_and_zone hk v, decode_or hk⟩

theorem modern_linux68 : (linux68 : Flags).Modern where
  ne_zero := by simp [Flags.singles, Flags.simple, linux68]
  disjoint := by decide
  zone_disjoint := by simp [Flags.singles, Flags.simple, linux68, legacyZoneMask, Legacy.mask]
  atomic_kswapd := by decide
  atomic_disjoint := by decide
  atomic_zone := by decide

/-- The hypotheses of `decode_intent` are satisfiable: on 6.8 the mask of the core for
`GFP_ATOMIC | __GFP_NOWARN` does not become one that can sleep. -/
theorem decode_intent_linux68 :
    shannonGfpIsLegacy linux68 0x220 = true ∧ (0x220 : Gfp) &&& Legacy.wait.mask = 0 ∧
      shannonGfpXlate linux68 0x220 &&& linux68.directReclaim = 0 := by
  have hwait : (0x220 : Gfp) &&& Legacy.wait.mask = 0 := by decide
  have h := (decode_intent modern_linux68 (v := 0x220) (by decide)).1 (.wait, linux68.directReclaim)
    (List.mem_cons_self ..)
  exact ⟨by decide, hwait, not_not.1 fun hne => h.1 hne hwait⟩

end Kcore
end Shannon
