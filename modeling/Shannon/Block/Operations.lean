/-
# The operations of a queue

`shannon_block.c`, `shannon_trim_setting` on kernels from 6.8 on: besides reads
and writes the queue takes discards and writes of zeroes, both of them without a
`bi_io_vec`.  Who looks at the operation, and what becomes of one that is not a
discard but has no segments, is decided in several places:

| operation | trimmed | vector | bio entries | request entry |
| --- | --- | --- | --- | --- |
| `READ`, `WRITE` | no | yes | converted | converted |
| `DISCARD` | yes | no | discarded | discarded |
| `WRITE_ZEROES` | no | no | `-EINVAL` | `rq_for_each_segment` of nothing |

`shannon_convert_bio` returns `-EINVAL` for a bio without a vector and so fails an
operation the queue has offered; `shannon_convert_lreq` has no such test and reads
the first segment through the `NULL` (`served_iff`).
-/

import Shannon.Block.Endio

namespace Shannon
namespace Block

/-! ### The queue -/

/-- The limits `shannon_trim_setting` sets. -/
structure QueueLimits where
  discardGranularity : ℕ
  maxDiscardSectors : ℕ
  maxWriteZeroesSectors : ℕ
deriving DecidableEq, Repr

/-- `shannon_trim_setting`; `(UINT_MAX >> 9) & ~7` sectors twice. -/
def shannonTrimSetting : QueueLimits where
  discardGranularity := pageSize
  maxDiscardSectors := ((2 ^ 32 - 1) >>> 9) / 8 * 8
  maxWriteZeroesSectors := ((2 ^ 32 - 1) >>> 9) / 8 * 8

/-- `enum req_op`, those of the block layer that carry or clear data. -/
inductive ReqOp where
  | read
  | write
  | discard
  | writeZeroes
deriving DecidableEq, Repr

namespace ReqOp

def value : ReqOp → ℕ
  | read => 0
  | write => 1
  | discard => 3
  | writeZeroes => 9

/-- The block layer lets the operation through. -/
def admitted (limits : QueueLimits) : ReqOp → Bool
  | read | write => true
  | discard => limits.maxDiscardSectors ≠ 0
  | writeZeroes => limits.maxWriteZeroesSectors ≠ 0

/-- The operation is carried out on memory. -/
def hasData : ReqOp → Bool
  | read | write => true
  | discard | writeZeroes => false

theorem hasData_eq_false_iff {op : ReqOp} :
    op.hasData = false ↔ op = discard ∨ op = writeZeroes := by
  cases op <;> decide

end ReqOp

/-- `bi_opf` and `cmd_flags`: the operation in the low byte, flags above it. -/
def opfOf (op : ReqOp) (flags : ℕ) : ℕ := flags * 256 + op.value

/-- `bio_op` and `req_op`. -/
def opOf (opf : ℕ) : ℕ := opf % 256

/-- `op_is_write`, for `bio_data_dir` and `rq_data_dir`. -/
def opIsWrite (op : ℕ) : Bool := op % 2 = 1

/-- `blk_op_is_passthrough`: `REQ_OP_DRV_IN` or `REQ_OP_DRV_OUT`. -/
def blkOpIsPassthrough (op : ℕ) : Bool := op = 34 ∨ op = 35

/-- `shannon_should_trim_bio`. -/
def shannonShouldTrimBio (opf : ℕ) : Bool :=
  decide (opf ≠ 0) && decide (opOf opf = ReqOp.discard.value)

@[simp] theorem opOf_opfOf (op : ReqOp) (flags : ℕ) : opOf (opfOf op flags) = op.value := by
  cases op <;> simp [opOf, opfOf, ReqOp.value, Nat.add_mod]

@[simp] theorem value_eq_discard (op : ReqOp) :
    op.value = ReqOp.discard.value ↔ op = .discard := by
  cases op <;> decide

@[simp] theorem blkOpIsPassthrough_value (op : ReqOp) : blkOpIsPassthrough op.value = false := by
  cases op <;> rfl

@[simp] theorem opIsWrite_value (op : ReqOp) : opIsWrite op.value = decide (op ≠ .read) := by
  cases op <;> rfl

@[simp] theorem shannonShouldTrimBio_opfOf (op : ReqOp) (flags : ℕ) :
    shannonShouldTrimBio (opfOf op flags) = decide (op = .discard) := by
  rw [shannonShouldTrimBio, opOf_opfOf]
  cases op <;> simp [opfOf, ReqOp.value]

/-! ### Bios and requests -/

/-- A bio with its operation: `bi_opf`, `bi_iter`, and the segments of `bi_io_vec`,
`none` when that is `NULL`. -/
structure IoBio where
  op : ReqOp
  flags : ℕ
  sector : ℕ
  size : ℕ
  idx : ℕ
  ioVec : Option (List (ℕ × BioVec))
deriving DecidableEq, Repr

namespace IoBio

def toBio (b : IoBio) : Bio := ⟨b.sector, b.size, b.idx, b.ioVec.isSome, b.ioVec.getD []⟩

/-- The call of a bio entry for `b`; all else is as in `c`. -/
def call (b : IoBio) (c : BioCall) : BioCall :=
  { c with
    bio := b.toBio
    write := opIsWrite (opOf (opfOf b.op b.flags))
    trim := shannonShouldTrimBio (opfOf b.op b.flags) }

/-- **What the block layer sends**: a read or write has segments that make up its
size, a discard or write of zeroes has none. -/
def Valid (b : IoBio) : Prop :=
  b.op.admitted shannonTrimSetting = true ∧ b.ioVec.isSome = b.op.hasData ∧
    (b.op.hasData = true → (((b.ioVec.getD []).map Prod.snd).map BioVec.bvLen).sum = b.size)

instance (b : IoBio) : Decidable b.Valid := inferInstanceAs (Decidable (_ ∧ _ ∧ _))

/-- The bios with a vector are those that are neither discards nor writes of zeroes. -/
theorem Valid.ioVec_isSome_iff {b : IoBio} (h : b.Valid) :
    b.ioVec.isSome = true ↔ ¬ (b.op = .discard ∨ b.op = .writeZeroes) := by
  rw [h.2.1, ← ReqOp.hasData_eq_false_iff, Bool.not_eq_false]

/-- `bio_for_each_segment`: the first segment is read once the bio has a size. -/
def forEachSegment (b : IoBio) : Except Oops (List BioVec) :=
  if b.size = 0 then .ok []
  else match b.ioVec with
    | none => .error .noIoVec
    | some segs => .ok (segs.map Prod.snd)

end IoBio

/-- A request: `cmd_flags`, and the bios that were merged into it. -/
structure IoRequest where
  op : ReqOp
  flags : ℕ
  bios : List IoBio
deriving DecidableEq, Repr

namespace IoRequest

/-- `blk_rq_pos`. -/
def pos (r : IoRequest) : ℕ := (r.bios.head?.map IoBio.sector).getD 0

/-- `blk_rq_bytes`. -/
def bytes (r : IoRequest) : ℕ := (r.bios.map IoBio.size).sum

/-- All segments there are. -/
def segs (r : IoRequest) : List BioVec := r.bios.flatMap fun b => (b.ioVec.getD []).map Prod.snd

def call (r : IoRequest) (c : LreqCall) : LreqCall :=
  { c with
    lreq := ⟨r.pos, r.bytes, r.segs⟩
    write := opIsWrite (opOf (opfOf r.op r.flags))
    discard := opOf (opfOf r.op r.flags) = ReqOp.discard.value
    passthrough := blkOpIsPassthrough (opOf (opfOf r.op r.flags)) }

/-- A request has bios of one operation, none of them empty. -/
def Valid (r : IoRequest) : Prop :=
  r.bios ≠ [] ∧ ∀ b ∈ r.bios, b.op = r.op ∧ b.Valid ∧ b.size ≠ 0

/-- `rq_for_each_segment`. -/
def forEachSegment : List IoBio → Except Oops (List BioVec)
  | [] => .ok []
  | b :: bs => b.forEachSegment.bind fun vs => (forEachSegment bs).map (vs ++ ·)

/-- `shannon_convert_lreq` of the request: the loop over the segments of its bios,
which it enters when it has a table. -/
def convertLreq (r : IoRequest) (sgAlloc : Bool) (sbio : ShannonBio) (rq : Lreq)
    (logicbSize : ℕ) : Except Oops (ℤ × ShannonBio) :=
  if sgAlloc then
    (forEachSegment r.bios).bind fun segs =>
      shannonConvertLreq true sbio { rq with segs := segs } logicbSize
  else shannonConvertLreq false sbio rq logicbSize

def converters (r : IoRequest) : Converters := ⟨shannonConvertBio, r.convertLreq⟩

end IoRequest

/-! ### The three entries -/

/-- A call of one of the three entries for a bio or request; `c` holds the outcomes of
everything else. -/
inductive OpCall where
  | makeRequest (b : IoBio) (c : BioCall)
  | makeRequestNs (b : IoBio) (c : BioCall)
  | xferRequest (r : IoRequest) (c : LreqCall)

namespace OpCall

/-- What the call does. -/
def script : OpCall → Except Oops Script
  | makeRequest b c => shannonMakeRequest driverConverters (b.call c)
  | makeRequestNs b c => shannonMakeRequestNs driverConverters (b.call c)
  | xferRequest r c => shannonDiskXferRequest r.converters (r.call c)

def op : OpCall → ReqOp
  | makeRequest b _ | makeRequestNs b _ => b.op
  | xferRequest r _ => r.op

/-- The bios of the call. -/
def bios : OpCall → List IoBio
  | makeRequest b _ | makeRequestNs b _ => [b]
  | xferRequest r _ => r.bios

/-- Something of non-zero size the block layer sends, and a device with blocks. -/
def Valid : OpCall → Prop
  | makeRequest b c | makeRequestNs b c => b.Valid ∧ b.size ≠ 0 ∧ c.logicbSize ≠ 0
  | xferRequest r c => r.Valid ∧ c.logicbSize ≠ 0

/-- The device is available and takes writes, every allocation succeeds and so does
every call of the core. -/
def Healthy : OpCall → Prop
  | makeRequest _ c =>
      c.available = true ∧ c.readonly = false ∧ c.sbio.isSome = true ∧ c.env.sgAlloc = true ∧
        (∀ i, (c.env.allocPage i).isSome = true) ∧ c.lpmtFails = false ∧ c.submitRet = 0
  | makeRequestNs _ c =>
      c.available = true ∧ MakeRequestNs.refused { c with write := true } = false ∧
        c.sbio.isSome = true ∧ c.env.sgAlloc = true ∧
        (∀ i, (c.env.allocPage i).isSome = true) ∧ c.lpmtFails = false ∧ c.submitRet = 0
  | xferRequest _ c =>
      c.available = true ∧ c.readonly = false ∧ c.sbio.isSome = true ∧ c.sgAlloc = true ∧
        c.lpmtFails = false ∧ c.submitRet = 0

end OpCall

/-- The bio or request is ended with an error. -/
def Event.fails : Event → Bool
  | .bioEndio error => error ≠ 0
  | .endRequest good => !good
  | _ => false

/-- What happens after an entry when nothing fails any more: the work item submits, and
the core completes with success. -/
def afterwards (mem : Mem) : Next → Except Oops (List Event)
  | .over | .requeue => .ok []
  | .queued ns sbio origin =>
      let task := if ns then submitSbioTaskNs sbio origin 0 else submitSbioTask sbio origin 0
      (coreCompletes mem sbio origin 0).map fun s => task.events ++ s.events
  | .core sbio origin => (coreCompletes mem sbio origin 0).map Script.events

namespace OpCall

/-- A segment of a bio that has none is not read. -/
def ReadsOnlySegments (call : OpCall) : Prop :=
  (∃ b ∈ call.bios, b.ioVec = none) → call.script ≠ .error .noIoVec

/-- Nothing that the entry does, or that happens afterwards, ends the bio or request
with an error. -/
def NeverFails (call : OpCall) : Prop :=
  ∀ s, call.script = .ok s → (∀ e ∈ s.events, e.fails = false) ∧
    ∀ mem es, afterwards mem s.next = .ok es → ∀ e ∈ es, e.fails = false

/-- **The operation is served.** -/
def Served (call : OpCall) : Prop :=
  call.ReadsOnlySegments ∧ (call.Healthy → call.NeverFails)

/-- The call comes to the place where it needs segments. -/
def NeedsSegments : OpCall → Prop
  | xferRequest _ c =>
      c.available = true ∧ c.readonly = false ∧ c.sbio.isSome = true ∧ c.sgAlloc = true
  | call => call.Healthy

end OpCall

/-! ### What is shown of a call that succeeds -/

theorem Event.visible_of_fails {e : Event} (h : e.fails = true) : e.visible = true := by
  cases e <;> simp_all [Event.fails, Event.visible]

theorem fails_eq_false_of_visible {es : List Event}
    (h : ∀ e ∈ visible es, e.fails = false) : ∀ e ∈ es, e.fails = false := by
  intro e he
  by_contra hfails
  rw [Bool.not_eq_false] at hfails
  have hmem : e ∈ visible es := List.mem_filter.2 ⟨he, e.visible_of_fails hfails⟩
  rw [h e hmem] at hfails
  cases hfails

theorem visible_coreCompletes {mem : Mem} {sbio : ShannonBio} {origin : Origin} {s : Script}
    (h : coreCompletes mem sbio origin 0 = .ok s) :
    ∀ e ∈ visible s.events, e.fails = false := by
  obtain ⟨es, hes, rfl⟩ := map_eq_ok.1 h
  cases origin with
  | bio bio =>
      simp [visible_completeFsIo hes, Event.visible, Event.fails]
  | lreq =>
      obtain rfl := Except.ok.inj hes
      simp [Event.visible, Event.fails]

/-- Completion by a core that reports success is not a failure. -/
theorem afterwards_succeeds {mem : Mem} {next : Next} {es : List Event}
    (h : afterwards mem next = .ok es) : ∀ e ∈ es, e.fails = false := by
  rcases next with _ | _ | ⟨ns, sbio, origin⟩ | ⟨sbio, origin⟩
  · obtain rfl := Except.ok.inj h
    simp
  · obtain rfl := Except.ok.inj h
    simp
  · obtain ⟨s, hs, rfl⟩ := map_eq_ok.1 h
    apply fails_eq_false_of_visible
    have hcore := visible_coreCompletes hs
    cases ns <;> simpa [submitSbioTask, submitSbioTaskNs, Event.visible, Event.fails] using hcore
  · obtain ⟨s, hs, rfl⟩ := map_eq_ok.1 h
    exact fails_eq_false_of_visible (visible_coreCompletes hs)

/-- It is enough to look at the visible events of the entry. -/
theorem OpCall.neverFails_iff (call : OpCall) :
    call.NeverFails ↔ ∀ s, call.script = .ok s → ∀ e ∈ visible s.events, e.fails = false := by
  constructor
  · intro h s hs e he
    exact (h s hs).1 e (List.mem_filter.1 he).1
  · intro h s hs
    exact ⟨fails_eq_false_of_visible (h s hs), fun _ _ => afterwards_succeeds⟩

/-! ### The bio entries -/

/-- With a vector and a table the conversion does not fail. -/
theorem shannonConvertBio_ret_zero {env : ConvertEnv} {mem : Mem} {sbio : ShannonBio} {bio : Bio}
    {logicbSize : ℕ} {c : Converted} (hlb : logicbSize ≠ 0) (hvec : bio.biIoVec = true)
    (halloc : ¬ (env.sgAlloc = false ∧ env.sgVzalloc = false))
    (h : shannonConvertBio env mem sbio bio logicbSize = .ok c) : c.ret = 0 := by
  have harg : ¬ (logicbSize = 0 ∨ bio.biIoVec = false) := by simp [hlb, hvec]
  rw [shannonConvertBio, if_neg harg, if_neg halloc] at h
  by_cases hbounce : (convertStart env sbio bio logicbSize).needBounce = true
  · rw [if_pos hbounce] at h
    exact convertBounced_ret h
  · rw [if_neg hbounce] at h
    obtain ⟨out, -, rfl⟩ := map_eq_ok.1 h
    rfl

/-- Without a vector it fails before it looks at a segment. -/
theorem shannonConvertBio_noIoVec (env : ConvertEnv) (mem : Mem) (sbio : ShannonBio) {bio : Bio}
    (logicbSize : ℕ) (hvec : bio.biIoVec = false) :
    shannonConvertBio env mem sbio bio logicbSize = .ok ⟨-einval, sbio, mem, none, [], []⟩ := by
  rw [shannonConvertBio, if_pos (.inr hvec)]

theorem MakeRequest.succeeds_submitConverted {c : BioCall} {converted : Converted} {s : Script}
    (h : submitConverted c [.allocSbio] converted = .ok s) (hret : converted.ret = 0)
    (hlpmt : c.lpmtFails = false) (hsubmit : c.submitRet = 0) :
    ∀ e ∈ visible s.events, e.fails = false := by
  simp only [submitConverted, hret, hlpmt, hsubmit, ne_eq, not_true_eq_false, if_false,
    Bool.false_eq_true, and_false] at h
  split_ifs at h
  · obtain rfl := Except.ok.inj h
    simp [Event.visible, Event.fails]
  · obtain rfl := Except.ok.inj h
    simp [Event.visible, Event.fails]

theorem MakeRequestNs.succeeds_submitConverted {c : BioCall} {converted : Converted}
    (hret : converted.ret = 0) (hlpmt : c.lpmtFails = false) (hrefused : refused c = false)
    (hsubmit : c.submitRet = 0) :
    ∀ e ∈ visible (submitConverted c [.incPending, .allocSbio] converted).events,
      e.fails = false := by
  simp only [submitConverted, hret, hlpmt, hrefused, hsubmit, ne_eq, not_true_eq_false, if_false,
    Bool.false_eq_true, and_false]
  split_ifs <;> simp [Event.visible, Event.fails]

namespace OpCall

theorem readsOnlySegments_makeRequest (b : IoBio) (c : BioCall) :
    (makeRequest b c).ReadsOnlySegments := by
  rintro ⟨b', hb', hvec⟩ hscript
  obtain rfl := List.mem_singleton.1 hb'
  have hio : (b'.call c).bio.biIoVec = false := by simp [IoBio.call, IoBio.toBio, hvec]
  simp only [script, shannonMakeRequest, driverConverters, shannonConvertBio_noIoVec _ _ _ _ hio,
    Except.bind, MakeRequest.submitConverted, if_pos (neg_ne_zero.2 einval_ne_zero)] at hscript
  split_ifs at hscript
  split at hscript <;> cases hscript

theorem readsOnlySegments_makeRequestNs (b : IoBio) (c : BioCall) :
    (makeRequestNs b c).ReadsOnlySegments := by
  rintro ⟨b', hb', hvec⟩ hscript
  obtain rfl := List.mem_singleton.1 hb'
  have hio : (b'.call c).bio.biIoVec = false := by simp [IoBio.call, IoBio.toBio, hvec]
  simp only [script, shannonMakeRequestNs, driverConverters, shannonConvertBio_noIoVec _ _ _ _ hio,
    Except.map] at hscript
  split_ifs at hscript
  split at hscript <;> cases hscript

theorem neverFails_makeRequest {b : IoBio} {c : BioCall} (hvalid : (makeRequest b c).Valid)
    (hhealthy : (makeRequest b c).Healthy) :
    (makeRequest b c).NeverFails ↔ b.op ≠ .writeZeroes := by
  obtain ⟨hbio, hsize, hlb⟩ := hvalid
  obtain ⟨hav, hro, hsbio, halloc, -, hlpmt, hsubmit⟩ := hhealthy
  obtain ⟨sbio, hsbio⟩ := Option.isSome_iff_exists.1 hsbio
  rw [neverFails_iff]
  simp only [script, shannonMakeRequest, IoBio.call, IoBio.toBio, shannonShouldTrimBio_opfOf, hav,
    hro, hsize, hsbio, driverConverters, Bool.not_true, Bool.false_eq_true, Bool.false_and,
    if_false]
  by_cases hdiscard : b.op = .discard
  · simp [hdiscard, Event.visible, Event.fails]
  by_cases hzeroes : b.op = .writeZeroes
  · have hio : b.ioVec.isSome = false := by
      rw [← Bool.not_eq_true, hbio.ioVec_isSome_iff, not_not]
      exact .inr hzeroes
    simp only [hzeroes, hio, shannonConvertBio_noIoVec, Except.bind, MakeRequest.submitConverted]
    simp [einval_ne_zero, MakeRequest.freeSbio, Event.visible, Event.fails]
  · have hio : b.ioVec.isSome = true :=
      hbio.ioVec_isSome_iff.2 fun h => h.elim hdiscard hzeroes
    simp only [hdiscard, hzeroes, ne_eq, not_false_eq_true, iff_true, decide_false,
      Bool.false_eq_true, if_false]
    intro s hs
    obtain ⟨converted, hconv, hs⟩ := bind_eq_ok.1 hs
    exact MakeRequest.succeeds_submitConverted hs
      (shannonConvertBio_ret_zero hlb hio (by simp [halloc]) hconv) hlpmt hsubmit

theorem neverFails_makeRequestNs {b : IoBio} {c : BioCall} (hvalid : (makeRequestNs b c).Valid)
    (hhealthy : (makeRequestNs b c).Healthy) :
    (makeRequestNs b c).NeverFails ↔ b.op ≠ .writeZeroes := by
  obtain ⟨hbio, hsize, hlb⟩ := hvalid
  obtain ⟨hav, hrefused, hsbio, halloc, -, hlpmt, hsubmit⟩ := hhealthy
  obtain ⟨sbio, hsbio⟩ := Option.isSome_iff_exists.1 hsbio
  rw [neverFails_iff]
  simp only [script, shannonMakeRequestNs, IoBio.call, IoBio.toBio, shannonShouldTrimBio_opfOf,
    hav, hsize, hsbio, driverConverters, Bool.not_true, Bool.false_eq_true, if_false]
  by_cases hdiscard : b.op = .discard
  · simp [hdiscard, Event.visible, Event.fails]
  by_cases hzeroes : b.op = .writeZeroes
  · have hio : b.ioVec.isSome = false := by
      rw [← Bool.not_eq_true, hbio.ioVec_isSome_iff, not_not]
      exact .inr hzeroes
    simp only [hzeroes, hio, shannonConvertBio_noIoVec, Except.map, MakeRequestNs.submitConverted]
    simp [einval_ne_zero, MakeRequestNs.freeSbio, Event.visible, Event.fails]
  · have hio : b.ioVec.isSome = true :=
      hbio.ioVec_isSome_iff.2 fun h => h.elim hdiscard hzeroes
    simp only [hdiscard, hzeroes, ne_eq, not_false_eq_true, iff_true, decide_false,
      Bool.false_eq_true, if_false]
    intro s hs
    obtain ⟨converted, hconv, rfl⟩ := map_eq_ok.1 hs
    refine MakeRequestNs.succeeds_submitConverted
      (shannonConvertBio_ret_zero hlb hio (by simp [halloc]) hconv) hlpmt ?_ hsubmit
    simp only [MakeRequestNs.refused, Bool.true_and] at hrefused ⊢
    rw [hrefused, Bool.and_false]

end OpCall

/-! ### The request entry -/

namespace IoRequest

theorem bytes_ne_zero {r : IoRequest} (h : r.Valid) : r.bytes ≠ 0 := by
  obtain ⟨hne, hbios⟩ := h
  obtain ⟨b, bs, hbs⟩ := List.exists_cons_of_ne_nil hne
  have hsize := (hbios b (by simp [hbs])).2.2
  rw [bytes, hbs, List.map_cons, List.sum_cons]
  omega

theorem noIoVec_of_writeZeroes {r : IoRequest} (h : r.Valid) (hop : r.op = .writeZeroes) :
    forEachSegment r.bios = .error .noIoVec := by
  obtain ⟨hne, hbios⟩ := h
  obtain ⟨b, bs, hbs⟩ := List.exists_cons_of_ne_nil hne
  obtain ⟨hb, ⟨-, hvec, -⟩, hsize⟩ := hbios b (by simp [hbs])
  rw [hb, hop] at hvec
  have hnone : b.ioVec = none := Option.not_isSome_iff_eq_none.1 (by simp [hvec, ReqOp.hasData])
  simp [hbs, forEachSegment, IoBio.forEachSegment, hsize, hnone, Except.bind]

theorem ioVec_isSome {r : IoRequest} (h : r.Valid) {b : IoBio} (hb : b ∈ r.bios) :
    b.ioVec.isSome = r.op.hasData := by
  obtain ⟨hop, ⟨-, hvec, -⟩, -⟩ := h.2 b hb
  rw [hvec, hop]

/-- With a table a conversion that returns has not failed. -/
theorem convertLreq_ret {r : IoRequest} {sbio : ShannonBio} {rq : Lreq} {logicbSize : ℕ} {ret : ℤ}
    {out : ShannonBio} (h : r.convertLreq true sbio rq logicbSize = .ok (ret, out)) :
    ret = 0 := by
  rw [convertLreq, if_pos rfl] at h
  obtain ⟨segs, -, h⟩ := bind_eq_ok.1 h
  rw [shannonConvertLreq, if_pos rfl] at h
  obtain ⟨st, -, h⟩ := bind_eq_ok.1 h
  obtain ⟨t, -, h⟩ := map_eq_ok.1 h
  exact (Prod.ext_iff.1 h).1.symm

end IoRequest

theorem XferRequest.succeeds_submitConverted {c : LreqCall} (sbio : ShannonBio)
    (hlpmt : c.lpmtFails = false) (hsubmit : c.submitRet = 0) :
    ∀ e ∈ visible (submitConverted c 0 sbio).events, e.fails = false := by
  simp [submitConverted, hlpmt, hsubmit, Event.visible, Event.fails]

namespace OpCall

/-- When the request entry reads through a `NULL`. -/
theorem readsOnlySegments_xferRequest {r : IoRequest} {c : LreqCall} (hvalid : r.Valid) :
    (xferRequest r c).ReadsOnlySegments ↔
      ¬ (r.op = .writeZeroes ∧ (xferRequest r c).NeedsSegments) := by
  obtain ⟨b, bs, hbs⟩ := List.exists_cons_of_ne_nil hvalid.1
  have hvec := IoRequest.ioVec_isSome hvalid (show b ∈ r.bios by simp [hbs])
  constructor
  · rintro hreads ⟨hop, hav, hro, hsbio, halloc⟩
    obtain ⟨sbio, hsbio⟩ := Option.isSome_iff_exists.1 hsbio
    have hnone : b.ioVec = none :=
      Option.not_isSome_iff_eq_none.1 (by simp [hvec, hop, ReqOp.hasData])
    apply hreads ⟨b, by simp [bios, hbs], hnone⟩
    simp [script, shannonDiskXferRequest, IoRequest.call, IoRequest.converters,
      IoRequest.convertLreq, IoRequest.noIoVec_of_writeZeroes hvalid hop,
      IoRequest.bytes_ne_zero hvalid, hop, hav, hro, hsbio, halloc, Except.bind, Except.map]
  · rintro hneeds ⟨b', hb', hnone⟩ hscript
    have hdata := IoRequest.ioVec_isSome hvalid hb'
    rw [hnone, Option.isSome_none] at hdata
    simp only [script, shannonDiskXferRequest, IoRequest.call, IoRequest.converters,
      opOf_opfOf, value_eq_discard, opIsWrite_value] at hscript
    split_ifs at hscript with hav hpass hdiscard hsize hro
    rw [decide_eq_true_eq] at hdiscard
    have hop := (ReqOp.hasData_eq_false_iff.1 hdata.symm).resolve_left hdiscard
    rw [Bool.not_eq_true', Bool.not_eq_false] at hav
    have hro : c.readonly = false := by simpa [hop] using hro
    split at hscript
    · cases hscript
    · next sbio hsbio =>
        have halloc : c.sgAlloc = false := by
          by_contra halloc
          exact hneeds ⟨hop, hav, hro, by simp [hsbio], by simpa using halloc⟩
        simp [IoRequest.convertLreq, halloc, shannonConvertLreq, Except.map] at hscript

theorem neverFails_xferRequest {r : IoRequest} {c : LreqCall} (hvalid : r.Valid)
    (hhealthy : (xferRequest r c).Healthy) : (xferRequest r c).NeverFails := by
  obtain ⟨hav, hro, hsbio, halloc, hlpmt, hsubmit⟩ := hhealthy
  obtain ⟨sbio, hsbio⟩ := Option.isSome_iff_exists.1 hsbio
  rw [neverFails_iff]
  simp only [script, shannonDiskXferRequest, IoRequest.call, IoRequest.converters, opOf_opfOf,
    value_eq_discard, blkOpIsPassthrough_value, hav, hro, hsbio, halloc,
    IoRequest.bytes_ne_zero hvalid, Bool.not_true, Bool.false_eq_true, Bool.false_and, if_false]
  by_cases hdiscard : r.op = .discard
  · simp [hdiscard, Event.visible, Event.fails]
  · simp only [hdiscard, decide_false, Bool.false_eq_true, if_false]
    intro s hs
    obtain ⟨⟨ret, out⟩, hconv, rfl⟩ := map_eq_ok.1 hs
    obtain rfl := IoRequest.convertLreq_ret hconv
    exact XferRequest.succeeds_submitConverted out hlpmt hsubmit

/-- **Which operations are served**: all of them but the write of zeroes, as soon as it
comes to where segments are needed. -/
theorem served_iff (call : OpCall) (hvalid : call.Valid) :
    call.Served ↔ ¬ (call.op = .writeZeroes ∧ call.NeedsSegments) := by
  cases call with
  | makeRequest b c =>
      have hreads := readsOnlySegments_makeRequest b c
      have hfails := @neverFails_makeRequest b c hvalid
      simp only [Served, hreads, true_and, NeedsSegments, op]
      exact ⟨fun h ⟨hop, hhealthy⟩ => (hfails hhealthy).1 (h hhealthy) hop,
        fun h hhealthy => (hfails hhealthy).2 fun hop => h ⟨hop, hhealthy⟩⟩
  | makeRequestNs b c =>
      have hreads := readsOnlySegments_makeRequestNs b c
      have hfails := @neverFails_makeRequestNs b c hvalid
      simp only [Served, hreads, true_and, NeedsSegments, op]
      exact ⟨fun h ⟨hop, hhealthy⟩ => (hfails hhealthy).1 (h hhealthy) hop,
        fun h hhealthy => (hfails hhealthy).2 fun hop => h ⟨hop, hhealthy⟩⟩
  | xferRequest r c =>
      have hreads := @readsOnlySegments_xferRequest r c hvalid.1
      have hfails := @neverFails_xferRequest r c hvalid.1
      simp only [Served, hreads, op]
      exact ⟨fun h => h.1, fun h => ⟨h, hfails⟩⟩

/-- A read of a page. -/
def pageRead : IoBio := ⟨.read, 0, 0, 4096, 0, some [(0, ⟨3, 0, 4096⟩)]⟩

/-- The hypothesis of `served_iff` is satisfiable: the entry returns for `pageRead`, and it
is served. -/
theorem served_iff_pageRead :
    (makeRequest pageRead (plainCall plainBio)).Valid ∧
      (∃ s, (makeRequest pageRead (plainCall plainBio)).script = .ok s) ∧
      (makeRequest pageRead (plainCall plainBio)).Served := by
  have hvalid : (makeRequest pageRead (plainCall plainBio)).Valid :=
    ⟨by decide, by decide, by decide⟩
  exact ⟨hvalid, ⟨_, rfl⟩, (served_iff _ hvalid).2 fun h => by cases h.1⟩

/-- **A write of zeroes** of 4096 bytes from sector 0 on. -/
def zeroesBio : IoBio := ⟨.writeZeroes, 0, 0, 4096, 0, none⟩

/-- The block layer sends it, the bio entries fail it with `-EINVAL`, and the request
entry reads through the `NULL`. -/
theorem zeroesBio_not_served :
    zeroesBio.Valid ∧
    (makeRequest zeroesBio (plainCall plainBio)).script
      = .ok ⟨[.allocSbio, .takePages [], .freePages [], .freeSbio, .bioEndio (-22)], .over⟩ ∧
    ¬ (makeRequest zeroesBio (plainCall plainBio)).Served ∧
    ¬ (makeRequestNs zeroesBio (plainCall plainBio)).Served ∧
    (xferRequest ⟨.writeZeroes, 0, [zeroesBio]⟩ (plainLreqCall ⟨0, 0, []⟩)).script
      = .error .noIoVec ∧
    ¬ (xferRequest ⟨.writeZeroes, 0, [zeroesBio]⟩ (plainLreqCall ⟨0, 0, []⟩)).Served := by
  have hhealthy : (makeRequest zeroesBio (plainCall plainBio)).Healthy :=
    ⟨rfl, rfl, rfl, rfl, fun _ => rfl, rfl, rfl⟩
  have hhealthyNs : (makeRequestNs zeroesBio (plainCall plainBio)).Healthy :=
    ⟨rfl, rfl, rfl, rfl, fun _ => rfl, rfl, rfl⟩
  have hread : (xferRequest ⟨.writeZeroes, 0, [zeroesBio]⟩ (plainLreqCall ⟨0, 0, []⟩)).script
      = .error .noIoVec := rfl
  refine ⟨by decide, rfl, fun h => ?_, fun h => ?_, hread, fun h => ?_⟩
  · exact (neverFails_makeRequest ⟨by decide, by decide, by decide⟩ hhealthy).1 (h.2 hhealthy) rfl
  · exact (neverFails_makeRequestNs ⟨by decide, by decide, by decide⟩ hhealthyNs).1
      (h.2 hhealthyNs) rfl
  · exact h.1 ⟨zeroesBio, by simp [bios], rfl⟩ hread

end OpCall

end Block
end Shannon
