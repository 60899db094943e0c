/-
# The slab flags of the core

`shannon_gfp_legacy.h` and `shannon_kcore.c`: `shannon_kmem_cache_create` gets its flags from the
core, in the numbers of the kernel the core was compiled for.  As long as `SLAB_HWCACHE_ALIGN` has
its old number the flags are passed on as they are; otherwise each is replaced by the flag of the
running kernel that means the same, if it is configured, and bits that are no flag at all are
reported.

`slab_faithful_iff` says for which flags this does what the core asks for, on any kernel: each flag
has an equivalent there, and where nothing is translated each bit is a flag.  What goes wrong
otherwise goes wrong without a word: three flags of the core, and all that are not configured, are
known to `SHANNON_LEGACY_SLAB_KNOWN_MASK` and dropped, and a kernel with the old numbers is given
whatever bits there are.
-/

import Mathlib.Data.Nat.Notation
import Mathlib.Data.Option.Basic
import Mathlib.Logic.Basic
import Mathlib.Tactic.SplitIfs

namespace Shannon
namespace Kcore

/-- The flags of a slab cache, an `unsigned long`. -/
abbrev SlabFlags := BitVec 64

/-! ### The two encodings -/

/-- The flags of the kernel the core was compiled for. -/
inductive LegacySlab where
  | debugFree | debugInitial | redZone | poison
  | hwcacheAlign | cacheDma | mustHwcacheAlign | storeUser
  | reclaimAccount | panic | destroyByRcu | memSpread
deriving DecidableEq, Repr

namespace LegacySlab

/-- `SHANNON_LEGACY_SLAB_...`. -/
def mask : LegacySlab → SlabFlags
  | debugFree => 0x00000100
  | debugInitial => 0x00000200
  | redZone => 0x00000400
  | poison => 0x00000800
  | hwcacheAlign => 0x00002000
  | cacheDma => 0x00004000
  | mustHwcacheAlign => 0x00008000
  | storeUser => 0x00010000
  | reclaimAccount => 0x00020000
  | panic => 0x00040000
  | destroyByRcu => 0x00080000
  | memSpread => 0x00100000

end LegacySlab

/-- `SHANNON_LEGACY_SLAB_KNOWN_MASK`. -/
def legacySlabKnownMask : SlabFlags :=
  LegacySlab.debugFree.mask ||| LegacySlab.debugInitial.mask ||| LegacySlab.redZone.mask |||
    LegacySlab.poison.mask ||| LegacySlab.hwcacheAlign.mask ||| LegacySlab.cacheDma.mask |||
    LegacySlab.mustHwcacheAlign.mask ||| LegacySlab.storeUser.mask |||
    LegacySlab.reclaimAccount.mask ||| LegacySlab.panic.mask ||| LegacySlab.destroyByRcu.mask |||
    LegacySlab.memSpread.mask

/-- The flags of the running kernel; those in an `#ifdef` may be missing. -/
structure SlabMacros where
  hwcacheAlign : SlabFlags
  consistencyChecks : Option SlabFlags
  redZone : Option SlabFlags
  poison : Option SlabFlags
  cacheDma : Option SlabFlags
  storeUser : Option SlabFlags
  panic : Option SlabFlags
  typesafeByRcu : Option SlabFlags
  reclaimAccount : Option SlabFlags
deriving DecidableEq, Repr

/-! ### The code -/

/-- `if (legacy & bit) f |= flag`, in an `#ifdef`. -/
def orIfDefined (f legacy : SlabFlags) (bit : LegacySlab) : Option SlabFlags → SlabFlags
  | none => f
  | some flag => if legacy &&& bit.mask ≠ 0 then f ||| flag else f

/-- `shannon_slab_flags_native`. -/
def shannonSlabFlagsNative (k : SlabMacros) : Bool := k.hwcacheAlign = LegacySlab.hwcacheAlign.mask

/-- `shannon_slab_flags_xlate`. -/
def shannonSlabFlagsXlate (k : SlabMacros) (legacy : SlabFlags) : SlabFlags :=
  if shannonSlabFlagsNative k then legacy
  else
    let f := orIfDefined 0 legacy .hwcacheAlign (some k.hwcacheAlign)
    let f := orIfDefined f legacy .debugFree k.consistencyChecks
    let f := orIfDefined f legacy .redZone k.redZone
    let f := orIfDefined f legacy .poison k.poison
    let f := orIfDefined f legacy .cacheDma k.cacheDma
    let f := orIfDefined f legacy .storeUser k.storeUser
    let f := orIfDefined f legacy .panic k.panic
    let f := orIfDefined f legacy .destroyByRcu k.typesafeByRcu
    orIfDefined f legacy .reclaimAccount k.reclaimAccount

/-- `shannon_slab_flags_unknown`. -/
def shannonSlabFlagsUnknown (k : SlabMacros) (legacy : SlabFlags) : SlabFlags :=
  if shannonSlabFlagsNative k then 0 else legacy &&& ~~~legacySlabKnownMask

/-- What `shannon_kmem_cache_create` prints a warning about, if anything, and the flags it passes
on. -/
structure CacheCreation where
  warned : Option SlabFlags
  flags : SlabFlags
deriving DecidableEq, Repr

/-- `shannon_kmem_cache_create`. -/
def shannonKmemCacheCreate (k : SlabMacros) (flags : SlabFlags) : CacheCreation :=
  let unknown := shannonSlabFlagsUnknown k flags
  ⟨if unknown ≠ 0 then some unknown else none, shannonSlabFlagsXlate k flags⟩

/-! ### What it is for -/

/-- The flag of the running kernel that means the same. -/
def SlabMacros.meaning (k : SlabMacros) : LegacySlab → Option SlabFlags
  | .hwcacheAlign => some k.hwcacheAlign
  | .debugFree => k.consistencyChecks
  | .redZone => k.redZone
  | .poison => k.poison
  | .cacheDma => k.cacheDma
  | .storeUser => k.storeUser
  | .panic => k.panic
  | .destroyByRcu => k.typesafeByRcu
  | .reclaimAccount => k.reclaimAccount
  | .debugInitial | .mustHwcacheAlign | .memSpread => none

/-- A kernel: they were all renumbered at once. -/
structure SlabKernel extends SlabMacros where
  agrees : toSlabMacros.hwcacheAlign = LegacySlab.hwcacheAlign.mask →
    ∀ f m, toSlabMacros.meaning f = some m → m = f.mask

/-- The core asks for the flag `f`. -/
def Asks (flags : SlabFlags) (f : LegacySlab) : Prop := flags &&& f.mask ≠ 0

/-- **What the core can expect.**  Each flag it asks for is passed on under its number of today,
nothing else is, and bits that are no flag are reported. -/
structure Faithful (k : SlabMacros) (flags : SlabFlags) : Prop where
  passed : ∀ f, Asks flags f → ∃ m, k.meaning f = some m ∧
    (shannonKmemCacheCreate k flags).flags &&& m = m
  only : ∀ i, (shannonKmemCacheCreate k flags).flags.getLsbD i = true →
    ∃ f m, Asks flags f ∧ k.meaning f = some m ∧ m.getLsbD i = true
  reported : ∀ i, flags.getLsbD i = true → (∀ f : LegacySlab, f.mask.getLsbD i = false) →
    ∃ warned, (shannonKmemCacheCreate k flags).warned = some warned ∧ warned.getLsbD i = true

/-! ### The bits -/

/-- The bit of a flag. -/
def LegacySlab.bit : LegacySlab → ℕ
  | debugFree => 8
  | debugInitial => 9
  | redZone => 10
  | poison => 11
  | hwcacheAlign => 13
  | cacheDma => 14
  | mustHwcacheAlign => 15
  | storeUser => 16
  | reclaimAccount => 17
  | panic => 18
  | destroyByRcu => 19
  | memSpread => 20

theorem LegacySlab.mask_eq (f : LegacySlab) : f.mask = BitVec.twoPow 64 f.bit := by
  cases f <;> rfl

theorem LegacySlab.bit_lt (f : LegacySlab) : f.bit < 64 := by
  cases f <;> decide

theorem getLsbD_mask {f : LegacySlab} {i : ℕ} : f.mask.getLsbD i = true ↔ i = f.bit := by
  rw [f.mask_eq, BitVec.getLsbD_twoPow]
  simp [f.bit_lt, eq_comm]

theorem asks_iff {flags : SlabFlags} {f : LegacySlab} :
    Asks flags f ↔ flags.getLsbD f.bit = true := by
  rw [Asks, f.mask_eq, BitVec.and_twoPow]
  split_ifs with hbit
  · refine iff_of_true (fun hzero => ?_) hbit
    have hself : (BitVec.twoPow 64 f.bit).getLsbD f.bit = true := by
      simp [f.bit_lt]
    rw [hzero] at hself
    simp at hself
  · exact iff_of_false (not_not.2 rfl) hbit

theorem getLsbD_knownMask {i : ℕ} :
    legacySlabKnownMask.getLsbD i = true ↔ ∃ f : LegacySlab, f.mask.getLsbD i = true := by
  simp only [legacySlabKnownMask, BitVec.getLsbD_or, Bool.or_eq_true]
  constructor
  · rintro (((((((((((h | h) | h) | h) | h) | h) | h) | h) | h) | h) | h) | h) <;> exact ⟨_, h⟩
  · rintro ⟨f, h⟩
    cases f <;> simp [h]

theorem getLsbD_orIfDefined {f legacy : SlabFlags} {bit : LegacySlab} {flag : Option SlabFlags}
    {i : ℕ} : (orIfDefined f legacy bit flag).getLsbD i = true ↔
      f.getLsbD i = true ∨ ∃ m, Asks legacy bit ∧ flag = some m ∧ m.getLsbD i = true := by
  cases flag with
  | none => simp [orIfDefined]
  | some m =>
      rw [orIfDefined]
      split_ifs with hasks
      · have hasks' : Asks legacy bit := hasks
        simp [hasks']
      · have hasks' : ¬Asks legacy bit := hasks
        simp [hasks']

section

variable {k : SlabMacros} {flags : SlabFlags}

/-- **The translation is the union of the flags that are asked for.** -/
theorem getLsbD_xlate (hnew : shannonSlabFlagsNative k = false) {i : ℕ} :
    (shannonSlabFlagsXlate k flags).getLsbD i = true ↔
      ∃ f m, Asks flags f ∧ k.meaning f = some m ∧ m.getLsbD i = true := by
  simp only [shannonSlabFlagsXlate, hnew, Bool.false_eq_true, if_false, getLsbD_orIfDefined]
  constructor
  · rintro (((((((((h | ⟨m, h⟩) | ⟨m, h⟩) | ⟨m, h⟩) | ⟨m, h⟩) | ⟨m, h⟩) | ⟨m, h⟩) | ⟨m, h⟩) |
      ⟨m, h⟩) | ⟨m, h⟩)
    · simp at h
    all_goals exact ⟨_, m, h⟩
  · rintro ⟨f, m, h⟩
    cases f with
    | hwcacheAlign =>
        exact .inl (.inl (.inl (.inl (.inl (.inl (.inl (.inl (.inr ⟨m, h⟩))))))))
    | debugFree => exact .inl (.inl (.inl (.inl (.inl (.inl (.inl (.inr ⟨m, h⟩)))))))
    | redZone => exact .inl (.inl (.inl (.inl (.inl (.inl (.inr ⟨m, h⟩))))))
    | poison => exact .inl (.inl (.inl (.inl (.inl (.inr ⟨m, h⟩)))))
    | cacheDma => exact .inl (.inl (.inl (.inl (.inr ⟨m, h⟩))))
    | storeUser => exact .inl (.inl (.inl (.inr ⟨m, h⟩)))
    | panic => exact .inl (.inl (.inr ⟨m, h⟩))
    | destroyByRcu => exact .inl (.inr ⟨m, h⟩)
    | reclaimAccount => exact .inr ⟨m, h⟩
    | debugInitial => cases h.2.1
    | mustHwcacheAlign => cases h.2.1
    | memSpread => cases h.2.1

/-- Where there is a translation, what was asked for is passed on if it has a number. -/
theorem faithful_of_xlate (hnew : shannonSlabFlagsNative k = false)
    (hmeaning : ∀ f, Asks flags f → (k.meaning f).isSome) : Faithful k flags where
  passed := by
    intro f hasks
    obtain ⟨m, hm⟩ := Option.isSome_iff_exists.1 (hmeaning f hasks)
    refine ⟨m, hm, BitVec.eq_of_getLsbD_eq fun i _ => ?_⟩
    rw [BitVec.getLsbD_and, Bool.and_eq_right_iff_imp]
    exact fun hbit => (getLsbD_xlate hnew).2 ⟨f, m, hasks, hm, hbit⟩
  only := fun i hbit => (getLsbD_xlate hnew).1 hbit
  reported := by
    intro i hbit hno
    have hunknown : (shannonSlabFlagsUnknown k flags).getLsbD i = true := by
      have hknown : legacySlabKnownMask.getLsbD i = false := by
        rw [Bool.eq_false_iff, ne_eq, getLsbD_knownMask]
        rintro ⟨f, hf⟩
        rw [hno f] at hf
        cases hf
      rw [shannonSlabFlagsUnknown, hnew, if_neg Bool.false_ne_true, BitVec.getLsbD_and,
        BitVec.getLsbD_not, hbit, hknown]
      simp [BitVec.lt_of_getLsbD hbit]
    refine ⟨shannonSlabFlagsUnknown k flags, if_pos fun hzero => ?_, hunknown⟩
    rw [hzero] at hunknown
    simp at hunknown

/-- Where there is none, all bits have to be flags. -/
theorem faithful_of_native (hold : shannonSlabFlagsNative k = true)
    (hagrees : ∀ f m, k.meaning f = some m → m = f.mask)
    (hmeaning : ∀ f, Asks flags f → (k.meaning f).isSome)
    (hflags : ∀ i, flags.getLsbD i = true → ∃ f : LegacySlab, f.mask.getLsbD i = true) :
    Faithful k flags where
  passed := by
    intro f hasks
    obtain ⟨m, hm⟩ := Option.isSome_iff_exists.1 (hmeaning f hasks)
    obtain rfl := hagrees f m hm
    refine ⟨f.mask, hm, BitVec.eq_of_getLsbD_eq fun i _ => ?_⟩
    rw [BitVec.getLsbD_and, Bool.and_eq_right_iff_imp, getLsbD_mask]
    rintro rfl
    simpa [shannonKmemCacheCreate, shannonSlabFlagsXlate, hold] using asks_iff.1 hasks
  only := by
    intro i hbit
    have hbit' : flags.getLsbD i = true := by
      simpa [shannonKmemCacheCreate, shannonSlabFlagsXlate, hold] using hbit
    obtain ⟨f, hf⟩ := hflags i hbit'
    have hasks : Asks flags f := asks_iff.2 (getLsbD_mask.1 hf ▸ hbit')
    obtain ⟨m, hm⟩ := Option.isSome_iff_exists.1 (hmeaning f hasks)
    exact ⟨f, m, hasks, hm, by rwa [hagrees f m hm]⟩
  reported := by
    intro i hbit hno
    obtain ⟨f, hf⟩ := hflags i hbit
    rw [hno f] at hf
    cases hf

end

/-- **When the core gets what it asks for.**  On every kernel and for all flags: each flag the core
asks for is passed on under its number of today, nothing else is, and bits that are no flag are
reported, exactly if each of them has an equivalent on this kernel and, where the numbers are the
old ones, each bit is a flag. -/
theorem slab_faithful_iff (k : SlabKernel) (flags : SlabFlags) :
    Faithful k.toSlabMacros flags ↔
      (∀ f, Asks flags f → (k.meaning f).isSome) ∧
      (shannonSlabFlagsNative k.toSlabMacros = true →
        ∀ i, flags.getLsbD i = true → ∃ f : LegacySlab, f.mask.getLsbD i = true) := by
  constructor
  · intro h
    refine ⟨fun f hasks => ?_, fun hold i hbit => ?_⟩
    · obtain ⟨m, hm, -⟩ := h.passed f hasks
      exact Option.isSome_iff_exists.2 ⟨m, hm⟩
    · -- nothing is ever reported there
      by_contra hnone
      have hno (f : LegacySlab) : f.mask.getLsbD i = false :=
        Bool.eq_false_iff.2 fun hf => hnone ⟨f, hf⟩
      obtain ⟨warned, hwarned, -⟩ := h.reported i hbit hno
      simp [shannonKmemCacheCreate, shannonSlabFlagsUnknown, hold] at hwarned
  · rintro ⟨hmeaning, hflags⟩
    cases hnative : shannonSlabFlagsNative k.toSlabMacros with
    | false => exact faithful_of_xlate hnative hmeaning
    | true =>
        have heq : k.hwcacheAlign = LegacySlab.hwcacheAlign.mask := of_decide_eq_true hnative
        exact faithful_of_native hnative (k.agrees heq) hmeaning (hflags hnative)

/-- A kernel from 6.9 on, with only the flag that is there in every configuration. -/
def linux69 : SlabKernel where
  hwcacheAlign := 0x10
  consistencyChecks := none
  redZone := none
  poison := none
  cacheDma := none
  storeUser := none
  panic := none
  typesafeByRcu := none
  reclaimAccount := none
  agrees := fun h => absurd h (by decide)

/-- The core asks for this alone. -/
example : shannonKmemCacheCreate linux69.toSlabMacros 0x2000 = ⟨none, 0x10⟩ := by decide

/-- `SLAB_DEBUG_INITIAL` is dropped without a word. -/
example : shannonKmemCacheCreate linux69.toSlabMacros 0x2200 = ⟨none, 0x10⟩ := by decide

end Kcore
end Shannon
