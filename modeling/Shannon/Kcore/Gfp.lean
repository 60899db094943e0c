/-
# The allocation flags of the core

`shannon_gfp_legacy.h`: the core was compiled for a kernel on which the bits of a gfp
mask meant something else.  `shannon_gfp_xlate` tells such a value from one of the
running kernel and decodes it, and the wrappers of the allocators in
`shannon_kcore.c`, `shannon_dma.c` and `shannon_scatter.c` are to call it on every
mask they pass on.

A kernel from 4.4 on has its own bits, `Flags`.  Whatever these are, a decoded mask
carries a reclaim bit (`decode_reclaims`), and a legacy one carries none, so that the
translation of a translated mask is the mask itself (`xlate_idempotent`).  A wrapper
that passes on the mask it was given passes a wrong one exactly if the mask is legacy;
`shannon_sg_alloc` does (`translates_iff`).
-/

import Mathlib.Data.Nat.Notation
import Mathlib.Logic.Basic
import Mathlib.Tactic.SplitIfs

namespace Shannon
namespace Kcore

/-- A gfp mask. -/
abbrev Gfp := BitVec 32

/-! ### The two encodings -/

/-- The bits of the kernel the core was compiled for. -/
inductive Legacy where
  | dma | highmem | dma32 | movable
  | wait | high | io | fs
  | cold | nowarn | gfpRepeat | nofail
  | noretry | noGrow | comp | zero
deriving DecidableEq, Repr

/-- `SHANNON_LEGACY___GFP_...`. -/
def Legacy.mask : Legacy → Gfp
  | dma => 0x0001
  | highmem => 0x0002
  | dma32 => 0x0004
  | movable => 0x0008
  | wait => 0x0010
  | high => 0x0020
  | io => 0x0040
  | fs => 0x0080
  | cold => 0x0100
  | nowarn => 0x0200
  | gfpRepeat => 0x0400
  | nofail => 0x0800
  | noretry => 0x1000
  | noGrow => 0x2000
  | comp => 0x4000
  | zero => 0x8000

/-- `SHANNON_LEGACY_GFP_ZONE_MASK`. -/
def legacyZoneMask : Gfp :=
  Legacy.dma.mask ||| Legacy.highmem.mask ||| Legacy.dma32.mask ||| Legacy.movable.mask

/-- `SHANNON_LEGACY_GFP_ALL_MASK`. -/
def legacyAllMask : Gfp := 0xffff

/-- The bits of the running kernel, from 4.4 on: what the translation uses of them. -/
structure Flags where
  directReclaim : Gfp
  kswapdReclaim : Gfp
  gfpAtomic : Gfp
  io : Gfp
  fs : Gfp
  nowarn : Gfp
  /-- `__GFP_RETRY_MAYFAIL`, `__GFP_REPEAT` up to 4.12. -/
  retryMayfail : Gfp
  nofail : Gfp
  noretry : Gfp
  comp : Gfp
  zero : Gfp

/-- The bits of a kernel on which the two are told apart: `__GFP_KSWAPD_RECLAIM` is
there, and `__GFP_NOWARN` is a bit of its own. -/
structure Encoding extends Flags where
  kswapdReclaim_ne_zero : kswapdReclaim ≠ 0
  nowarn_disjoint : nowarn &&& (directReclaim ||| kswapdReclaim) = 0

instance : Coe Encoding Flags := ⟨Encoding.toFlags⟩

/-- `__GFP_RECLAIM`. -/
def Flags.reclaim (k : Flags) : Gfp := k.directReclaim ||| k.kswapdReclaim

/-! ### The translation -/

/-- `if (legacy & bit) g |= mask`. -/
def orIf (g legacy : Gfp) (bit : Legacy) (mask : Gfp) : Gfp :=
  if legacy &&& bit.mask ≠ 0 then g ||| mask else g

/-- The mask `shannon_gfp_decode_legacy` has before it looks for a reclaim bit. -/
def decodeBits (k : Flags) (legacy : Gfp) : Gfp :=
  let g := legacy &&& legacyZoneMask
  let g := orIf g legacy .wait k.reclaim
  let g := orIf g legacy .high k.gfpAtomic
  let g := orIf g legacy .io k.io
  let g := orIf g legacy .fs k.fs
  let g := orIf g legacy .nowarn k.nowarn
  let g := orIf g legacy .gfpRepeat k.retryMayfail
  let g := orIf g legacy .nofail k.nofail
  let g := orIf g legacy .noretry k.noretry
  let g := orIf g legacy .comp k.comp
  orIf g legacy .zero k.zero

/-- `shannon_gfp_decode_legacy`. -/
def shannonGfpDecodeLegacy (k : Flags) (legacy : Gfp) : Gfp :=
  let g := decodeBits k legacy
  if g &&& k.reclaim = 0 then g ||| k.kswapdReclaim else g

/-- `shannon_gfp_is_legacy`. -/
def shannonGfpIsLegacy (k : Flags) (v : Gfp) : Bool :=
  if v = 0 then false
  else if v &&& ~~~legacyAllMask ≠ 0 then false
  else if v &&& k.reclaim ≠ 0 then false
  else true

/-- `shannon_gfp_xlate`. -/
def shannonGfpXlate (k : Flags) (v : Gfp) : Gfp :=
  if shannonGfpIsLegacy k v then shannonGfpDecodeLegacy k v else v

/-! ### The wrappers -/

/-- The allocators of the kernel. -/
inductive Allocator where
  | kmalloc | kzalloc | vmalloc | kvasprintf | mempoolAlloc | getFreePage | dmaAllocCoherent
deriving DecidableEq, Repr

/-- A call of an allocator: which one, and with which mask. -/
structure Allocation where
  allocator : Allocator
  gfp : Gfp
deriving DecidableEq, Repr

/-- The wrappers that translate the mask and pass it on. -/
def passOn (k : Encoding) (allocator : Allocator) (gfp : Gfp) : Option Allocation :=
  some ⟨allocator, shannonGfpXlate k gfp⟩

/-- `shannon_kmalloc`. -/
def shannonKmalloc (k : Encoding) (gfp : Gfp) : Option Allocation := passOn k .kmalloc gfp

/-- `shannon_kzalloc`. -/
def shannonKzalloc (k : Encoding) (gfp : Gfp) : Option Allocation := passOn k .kzalloc gfp

/-- `__shannon_vmalloc`. -/
def shannonVmalloc (k : Encoding) (gfp : Gfp) : Option Allocation := passOn k .vmalloc gfp

/-- `shannon_kasprintf`. -/
def shannonKasprintf (k : Encoding) (gfp : Gfp) : Option Allocation := passOn k .kvasprintf gfp

/-- `shannon_mempool_alloc`. -/
def shannonMempoolAlloc (k : Encoding) (gfp : Gfp) : Option Allocation :=
  passOn k .mempoolAlloc gfp

/-- `__shannon_get_free_page`. -/
def shannonGetFreePage (k : Encoding) (gfp : Gfp) : Option Allocation := passOn k .getFreePage gfp

/-- `shannon_dma_alloc_coherent`. -/
def shannonDmaAllocCoherent (k : Encoding) (gfp : Gfp) : Option Allocation :=
  passOn k .dmaAllocCoherent gfp

/-- The sizes `shannon_sg_alloc` looks at. -/
structure Sizes where
  sizeMax : ℕ
  /-- `sizeof(struct scatterlist)`. -/
  sizeofSg : ℕ
  pageSize : ℕ

/-- `shannon_sg_alloc`, which does not translate; without an allocation if there are
too many entries. -/
def shannonSgAlloc (k : Encoding) (sizes : Sizes) (nents : ℕ) (gfp : Gfp) : Option Allocation :=
  if nents > sizes.sizeMax / sizes.sizeofSg then none
  else if sizes.sizeofSg * nents > sizes.pageSize then some ⟨.kzalloc, gfp ||| k.nowarn⟩
  else some ⟨.kzalloc, gfp⟩

/-- The wrappers the core can call. -/
inductive Wrapper where
  | kmalloc | kzalloc | vmalloc | kasprintf | mempoolAlloc | getFreePage | dmaAllocCoherent
  | sgAlloc (sizes : Sizes) (nents : ℕ)

/-- What a wrapper passes to the kernel. -/
def Wrapper.call (k : Encoding) (gfp : Gfp) : Wrapper → Option Allocation
  | kmalloc => shannonKmalloc k gfp
  | kzalloc => shannonKzalloc k gfp
  | vmalloc => shannonVmalloc k gfp
  | kasprintf => shannonKasprintf k gfp
  | mempoolAlloc => shannonMempoolAlloc k gfp
  | getFreePage => shannonGetFreePage k gfp
  | dmaAllocCoherent => shannonDmaAllocCoherent k gfp
  | sgAlloc sizes nents => shannonSgAlloc k sizes nents gfp

/-- The values in the code of the core. -/
def bakedGfps : List Gfp := [0x10, 0x220, 0x200]

/-- What reaches the kernel is the translated mask, perhaps with `__GFP_NOWARN`; and
for a value of the core it carries a reclaim bit. -/
def Wrapper.Translates (k : Encoding) (gfp : Gfp) (wrapper : Wrapper) : Prop :=
  ∀ a, wrapper.call k gfp = some a →
    (a.gfp = shannonGfpXlate k gfp ∨ a.gfp = shannonGfpXlate k gfp ||| k.nowarn) ∧
      (gfp ∈ bakedGfps → a.gfp &&& k.reclaim ≠ 0)

/-! ### Reclaim bits -/

section Reclaim

variable {k : Flags} {v : Gfp}

/-- A part that meets `m` is enough. -/
theorem and_or_ne_zero {g h m : Gfp} (hne : h &&& m ≠ 0) : (g ||| h) &&& m ≠ 0 := by
  rw [BitVec.and_or_distrib_right]
  exact fun hzero => hne (BitVec.or_eq_zero_iff.1 hzero).2

/-- The bit of the background reclaim is a reclaim bit. -/
theorem kswapdReclaim_and_reclaim (hk : k.kswapdReclaim ≠ 0) :
    k.kswapdReclaim &&& k.reclaim ≠ 0 := by
  rw [Flags.reclaim, BitVec.and_or_distrib_left, BitVec.and_self]
  exact fun hzero => hk (BitVec.or_eq_zero_iff.1 hzero).2

/-- **A decoded mask carries a reclaim bit.** -/
theorem decode_reclaims (hk : k.kswapdReclaim ≠ 0) (legacy : Gfp) :
    shannonGfpDecodeLegacy k legacy &&& k.reclaim ≠ 0 := by
  unfold shannonGfpDecodeLegacy
  dsimp only
  split_ifs with hnone
  · exact and_or_ne_zero (kswapdReclaim_and_reclaim hk)
  · exact hnone

/-- The legacy values: sixteen bits, not all clear, and no reclaim bit of the kernel. -/
theorem isLegacy_iff : shannonGfpIsLegacy k v = true ↔
    v ≠ 0 ∧ v &&& ~~~legacyAllMask = 0 ∧ v &&& k.reclaim = 0 := by
  unfold shannonGfpIsLegacy
  split_ifs with hzero hhigh hreclaim <;> simp_all

/-- What is no legacy value is not translated. -/
theorem xlate_of_not_legacy (h : ¬shannonGfpIsLegacy k v = true) : shannonGfpXlate k v = v := by
  rw [shannonGfpXlate, if_neg h]

/-- **The translation of a value of sixteen bits carries a reclaim bit.** -/
theorem xlate_reclaims (hk : k.kswapdReclaim ≠ 0) (hzero : v ≠ 0)
    (hlow : v &&& ~~~legacyAllMask = 0) : shannonGfpXlate k v &&& k.reclaim ≠ 0 := by
  unfold shannonGfpXlate
  split_ifs with hlegacy
  · exact decode_reclaims hk v
  · intro hreclaim
    exact hlegacy (isLegacy_iff.2 ⟨hzero, hlow, hreclaim⟩)

/-- A bit above the sixteen of the core is outside its mask. -/
theorem and_not_legacyAllMask_ne_zero {i : ℕ} (hi : 16 ≤ i) (hv : v.getLsbD i = true) :
    v &&& ~~~legacyAllMask ≠ 0 := by
  intro hzero
  have hbit : (v &&& ~~~legacyAllMask).getLsbD i = (0 : Gfp).getLsbD i := by rw [hzero]
  have hlt : i < 32 := BitVec.lt_of_getLsbD hv
  have hmask : ∀ j < 32, 16 ≤ j → legacyAllMask.getLsbD j = false := by decide
  rw [BitVec.getLsbD_and, BitVec.getLsbD_not, hv, hmask i hlt hi] at hbit
  simp [hlt] at hbit

/-- **Translating twice is translating once, and a native mask is left alone.**  For every
assignment of the bits in which `__GFP_KSWAPD_RECLAIM` is not empty, and so a part of
`__GFP_RECLAIM`, and for every value. -/
theorem xlate_idempotent (k : Flags) (hk : k.kswapdReclaim ≠ 0) (v : Gfp) :
    shannonGfpXlate k (shannonGfpXlate k v) = shannonGfpXlate k v ∧
      (v = 0 ∨ (∃ i, 16 ≤ i ∧ v.getLsbD i = true) ∨ v &&& k.reclaim ≠ 0 →
        shannonGfpXlate k v = v) := by
  constructor
  · apply xlate_of_not_legacy
    intro hagain
    by_cases hlegacy : shannonGfpIsLegacy k v = true
    · have hreclaims := decode_reclaims hk v
      rw [shannonGfpXlate, if_pos hlegacy] at hagain
      exact hreclaims (isLegacy_iff.1 hagain).2.2
    · rw [xlate_of_not_legacy hlegacy] at hagain
      exact hlegacy hagain
  · intro hnative
    apply xlate_of_not_legacy
    intro hlegacy
    obtain ⟨hzero, hlow, hnone⟩ := isLegacy_iff.1 hlegacy
    rcases hnative with hnative | ⟨i, hi, hbit⟩ | hreclaim
    · exact hzero hnative
    · exact and_not_legacyAllMask_ne_zero hi hbit hlow
    · exact hreclaim hnone

end Reclaim

variable {k : Encoding} {v : Gfp}

/-- `__GFP_NOWARN` adds no reclaim bit. -/
theorem or_nowarn_and_reclaim (h : v &&& k.reclaim = 0) : (v ||| k.nowarn) &&& k.reclaim = 0 := by
  rw [BitVec.and_or_distrib_right, h, Flags.reclaim, k.nowarn_disjoint]
  rfl

theorem bakedGfps_reclaim (h : v ∈ bakedGfps) : shannonGfpXlate k v &&& k.reclaim ≠ 0 := by
  simp only [bakedGfps, List.mem_cons, List.not_mem_nil, or_false] at h
  rcases h with rfl | rfl | rfl <;>
    exact xlate_reclaims k.kswapdReclaim_ne_zero (by decide) (by decide)

/-! ### Which wrappers translate -/

/-- The translated mask, also with `__GFP_NOWARN`, is what is asked for. -/
theorem translated {g : Gfp}
    (h : g = shannonGfpXlate k v ∨ g = shannonGfpXlate k v ||| k.nowarn) :
    v ∈ bakedGfps → g &&& k.reclaim ≠ 0 := by
  intro hbaked
  rcases h with rfl | rfl
  · exact bakedGfps_reclaim hbaked
  · rw [BitVec.or_comm]
    exact and_or_ne_zero (bakedGfps_reclaim hbaked)

/-- The wrappers that call `shannon_gfp_xlate` translate. -/
theorem translates_of_passOn {wrapper : Wrapper} {allocator : Allocator}
    (h : wrapper.call k v = passOn k allocator v) : wrapper.Translates k v := by
  intro a ha
  rw [h] at ha
  obtain rfl := Option.some.inj ha
  exact ⟨.inl rfl, translated (.inl rfl)⟩

/-- `shannon_sg_alloc` passes on the mask it was given, perhaps with
`__GFP_NOWARN`. -/
theorem shannonSgAlloc_eq_some {sizes : Sizes} {nents : ℕ} {a : Allocation}
    (h : shannonSgAlloc k sizes nents v = some a) : a.gfp = v ∨ a.gfp = v ||| k.nowarn := by
  unfold shannonSgAlloc at h
  split_ifs at h
  · obtain rfl := Option.some.inj h
    exact .inr rfl
  · obtain rfl := Option.some.inj h
    exact .inl rfl

/-- A legacy mask that is passed on as it is, is not translated. -/
theorem not_translated {g : Gfp} (hlegacy : shannonGfpIsLegacy k v = true)
    (hg : g = v ∨ g = v ||| k.nowarn) :
    ¬(g = shannonGfpXlate k v ∨ g = shannonGfpXlate k v ||| k.nowarn) := by
  have hnone : g &&& k.reclaim = 0 := by
    rcases hg with rfl | rfl
    · exact (isLegacy_iff.1 hlegacy).2.2
    · exact or_nowarn_and_reclaim ((isLegacy_iff.1 hlegacy).2.2)
  have hdecode : shannonGfpXlate k v &&& k.reclaim ≠ 0 := by
    rw [shannonGfpXlate, if_pos hlegacy]
    exact decode_reclaims k.kswapdReclaim_ne_zero v
  rintro (rfl | rfl)
  · exact hdecode hnone
  · rw [BitVec.or_comm] at hnone
    exact and_or_ne_zero hdecode hnone

/-- A condition on `shannon_sg_alloc` alone: the mask is not a legacy one, or there are
too many entries for any allocation. -/
def Wrapper.passesNoLegacy (k : Encoding) (gfp : Gfp) : Wrapper → Prop
  | sgAlloc sizes nents =>
      shannonGfpIsLegacy k gfp = false ∨ nents > sizes.sizeMax / sizes.sizeofSg
  | _ => True

/-- **Which masks reach the kernel translated**: all of them, but for a legacy mask
that `shannon_sg_alloc` allocates with. -/
theorem translates_iff (k : Encoding) (gfp : Gfp) (wrapper : Wrapper) :
    wrapper.Translates k gfp ↔ wrapper.passesNoLegacy k gfp := by
  cases wrapper with
  | kmalloc | kzalloc | vmalloc | kasprintf | mempoolAlloc | getFreePage | dmaAllocCoherent =>
      exact iff_of_true (translates_of_passOn rfl) trivial
  | sgAlloc sizes nents =>
      constructor
      · intro h
        by_cases hmany : nents > sizes.sizeMax / sizes.sizeofSg
        · exact .inr hmany
        left
        obtain ⟨a, ha⟩ : ∃ a, shannonSgAlloc k sizes nents gfp = some a := by
          unfold shannonSgAlloc
          rw [if_neg hmany]
          split_ifs <;> exact ⟨_, rfl⟩
        rw [← Bool.not_eq_true]
        intro hlegacy
        exact not_translated hlegacy (shannonSgAlloc_eq_some ha) (h a ha).1
      · rintro (hnative | hmany) a ha
        · have hxlate : shannonGfpXlate k gfp = gfp := by
            rw [shannonGfpXlate, hnative]
            rfl
          have hmask := shannonSgAlloc_eq_some ha
          rw [← hxlate] at hmask
          exact ⟨hmask, translated hmask⟩
        · rw [Wrapper.call, shannonSgAlloc, if_pos hmany] at ha
          cases ha

/-- The bits of 6.8. -/
def linux68 : Encoding where
  directReclaim := 0x400
  kswapdReclaim := 0x800
  gfpAtomic := 0x820
  io := 0x40
  fs := 0x80
  nowarn := 0x2000
  retryMayfail := 0x4000
  nofail := 0x8000
  noretry := 0x10000
  comp := 0x40000
  zero := 0x100
  kswapdReclaim_ne_zero := by decide
  nowarn_disjoint := by decide

example : bakedGfps.map (shannonGfpXlate linux68) = [0xc00, 0x2820, 0x2800] := by decide

/-- The hypothesis of `xlate_idempotent` is satisfiable: the mask of the core for
`GFP_ATOMIC | __GFP_NOWARN` is `0x2820` on 6.8, and stays so. -/
theorem xlate_idempotent_linux68 :
    shannonGfpXlate linux68 0x220 = 0x2820 ∧ shannonGfpXlate linux68 0x2820 = 0x2820 := by
  have hxlate : shannonGfpXlate linux68 0x220 = 0x2820 := by decide
  have h := (xlate_idempotent linux68 linux68.kswapdReclaim_ne_zero 0x220).1
  rw [hxlate] at h
  exact ⟨hxlate, h⟩

/-- The sizes on a machine of 64 bits. -/
def sizes64 : Sizes := ⟨0xffffffffffffffff, 32, 4096⟩

/-- A table of four entries on a machine of 64 bits, with the mask of the core for
`GFP_NOIO`: the kernel is passed `0x10`, which carries no reclaim bit, where the
translation is `0xc00`. -/
theorem sgAlloc_untranslated :
    shannonSgAlloc linux68 sizes64 4 0x10 = some ⟨.kzalloc, 0x10⟩ ∧
      shannonGfpXlate linux68 0x10 = 0xc00 ∧ (0x10 : Gfp) &&& linux68.reclaim = 0 ∧
      ¬(Wrapper.sgAlloc sizes64 4).Translates linux68 0x10 := by
  have hcall : shannonSgAlloc linux68 sizes64 4 0x10 = some ⟨.kzalloc, 0x10⟩ := by decide
  refine ⟨hcall, by decide, by decide, fun h => ?_⟩
  exact (h _ hcall).2 (by decide) (by decide)

end Kcore
end Shannon
