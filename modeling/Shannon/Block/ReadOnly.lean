/-
# Writing to a read-only device

`shannon_block.c`: a device, or a namespace, that has become read-only is to be left
as it is.  The three entries ask for `shannon_disk_readonly` each at another place:

| entry | before the test | behind it |
| --- | --- | --- |
| `shannon_make_request` | discard, empty bio | sbio, conversion, map table |
| `shannon_make_request_ns` | discard, empty bio, sbio, conversion, map table | the rest |
| `shannon_disk_xfer_request` | discard, empty request | sbio, conversion, map table |

So a discard is carried out and ended with success by all three, and a write to a
namespace has blocks of the map table allocated before it is refused.  What is refused
without a trace at all three entries is told by `refused_iff`.
-/

import Shannon.Block.Operations
import Shannon.Block.Resources

namespace Shannon
namespace Block

/-! ### Refusing -/

/-- The event changes the device, or hands the bio or request on to where that is
done. -/
def Event.modifies : Event → Bool
  | .discard _ _ | .allocLpmt | .submit _ | .queueWork => true
  | _ => false

namespace OpCall

/-- `bi_size`, or `blk_rq_bytes`. -/
def size : OpCall → ℕ
  | makeRequest b _ | makeRequestNs b _ => b.size
  | xferRequest r _ => r.bytes

/-- **The entry refuses**: it ends the bio or request, with an error unless that is
empty, and has done nothing to the device. -/
def Refuses (call : OpCall) : Prop :=
  ∃ s, call.script = .ok s ∧ s.next = .over ∧ (∀ e ∈ s.events, e.modifies = false) ∧
    ∃ e ∈ s.events, e.fails = true ∨ call.size = 0 ∧ e.isEnd = true

end OpCall

/-- A write, write of zeroes or discard, as a bio and as a request, and a call of each
entry for it while the device and the namespace are read-only. -/
structure ReadOnlyArrival where
  bio : IoBio
  request : IoRequest
  dev : BioCall
  ns : BioCall
  lreq : LreqCall
  op_eq : request.op = bio.op
  op_ne_read : bio.op ≠ .read
  dev_readonly : dev.readonly = true
  ns_readonly : ns.readonly = true
  lreq_readonly : lreq.readonly = true

/-- All three entries refuse. -/
def ReadOnlyArrival.Refused (a : ReadOnlyArrival) : Prop :=
  (OpCall.makeRequest a.bio a.dev).Refuses ∧ (OpCall.makeRequestNs a.bio a.ns).Refuses ∧
    (OpCall.xferRequest a.request a.lreq).Refuses

/-! ### The two entries that ask early -/

namespace OpCall

theorem refuses_makeRequest_iff {b : IoBio} {c : BioCall} (hop : b.op ≠ .read)
    (hro : c.readonly = true) :
    (makeRequest b c).Refuses ↔ c.available = false ∨ b.op ≠ .discard := by
  simp only [Refuses, script, shannonMakeRequest, IoBio.call, IoBio.toBio, opOf_opfOf,
    opIsWrite_value, shannonShouldTrimBio_opfOf, hro, size]
  cases hav : c.available with
  | false => simp [Event.modifies, Event.fails, eio_ne_zero]
  | true =>
      by_cases hdiscard : b.op = .discard
      · simp [hdiscard, Event.modifies]
      · by_cases hsize : b.size = 0
        · simp [hdiscard, hsize, Event.modifies, Event.fails, Event.isEnd]
        · simp [hop, hdiscard, hsize, Event.modifies, Event.fails, eio_ne_zero]

theorem refuses_xferRequest_iff {r : IoRequest} {c : LreqCall} (hop : r.op ≠ .read)
    (hro : c.readonly = true) :
    (xferRequest r c).Refuses ↔ c.available = false ∨ r.op ≠ .discard := by
  simp only [Refuses, script, shannonDiskXferRequest, IoRequest.call, opOf_opfOf,
    opIsWrite_value, value_eq_discard, blkOpIsPassthrough_value, hro, size]
  cases hav : c.available with
  | false => simp [Event.modifies, Event.fails]
  | true =>
      by_cases hdiscard : r.op = .discard
      · simp [hdiscard, Event.modifies]
      · by_cases hsize : r.bytes = 0
        · simp [hdiscard, hsize, Event.modifies, Event.fails, Event.isEnd]
        · simp [hop, hdiscard, hsize, Event.modifies, Event.fails]

end OpCall

/-! ### The namespace entry -/

/-- A conversion that succeeds keeps the direction. -/
theorem shannonConvertBio_dmaDir {env : ConvertEnv} {mem : Mem} {sbio : ShannonBio} {bio : Bio}
    {logicbSize : ℕ} {c : Converted} (h : shannonConvertBio env mem sbio bio logicbSize = .ok c)
    (hret : c.ret = 0) : c.sbio.dmaDir = sbio.dmaDir := by
  rcases shannonConvertBio_cases h with ⟨hfail, -⟩ | ⟨-, -, ⟨-, h⟩ | ⟨-, out, hout, rfl⟩⟩
  · simp [hret, einval, enomem] at hfail
  · obtain ⟨r, -, ⟨-, out, hout, rfl⟩ | ⟨-, mem', rfl⟩⟩ := convertBounced_cases h
    · exact (fields_of_oldFashion hout).2.2.2.2
    · rfl
  · exact (fields_of_oldFashion hout).2.2.2.2

/-- The conversion of the bio fails: it has no vector, or there is no memory for a
table. -/
def IoBio.unconvertible (b : IoBio) (c : BioCall) : Bool :=
  decide (c.logicbSize = 0) || b.ioVec.isNone || (!c.env.sgAlloc && !c.env.sgVzalloc)

theorem shannonConvertBio_unconvertible {b : IoBio} {c : BioCall} (h : b.unconvertible c = true)
    (sbio : ShannonBio) :
    ∃ ret out, ret ≠ 0 ∧
      shannonConvertBio c.env c.mem sbio b.toBio c.logicbSize
        = .ok ⟨ret, out, c.mem, none, [], []⟩ := by
  rw [shannonConvertBio]
  by_cases harg : c.logicbSize = 0 ∨ b.toBio.biIoVec = false
  · rw [if_pos harg]
    exact ⟨_, _, neg_ne_zero.2 einval_ne_zero, rfl⟩
  · have halloc : c.env.sgAlloc = false ∧ c.env.sgVzalloc = false := by
      simp only [IoBio.toBio, not_or, Bool.not_eq_false] at harg
      simpa [IoBio.unconvertible, harg.1, Option.isNone_eq_false_iff.2 harg.2] using h
    rw [if_neg harg, if_pos halloc]
    exact ⟨_, _, by decide, rfl⟩

/-- From the conversion on: a write that was converted has had its blocks of the map
table allocated, whatever becomes of it. -/
theorem MakeRequestNs.allocLpmt_mem_submitConverted {c : BioCall} {done : List Event}
    {converted : Converted} (hret : converted.ret = 0) (hdir : converted.sbio.dmaDir = .toDevice)
    (hrefused : refused c = true) :
    .allocLpmt ∈ (submitConverted c done converted).events := by
  simp only [submitConverted, lpmtAllocated, hret, hdir, hrefused, ne_eq, not_true_eq_false,
    if_false, if_true]
  split_ifs <;> simp

namespace OpCall

section Converts

variable {b : IoBio} {c : BioCall} {sbio : ShannonBio} (hop : b.op ≠ .read)
  (hav : c.available = true) (hdiscard : b.op ≠ .discard) (hsize : b.size ≠ 0)
  (hsbio : c.sbio = some sbio)

include hop hav hdiscard hsize hsbio

/-- The namespace entry once it has an sbio for a write. -/
theorem script_makeRequestNs :
    (makeRequestNs b c).script
      = (shannonConvertBio c.env c.mem (withDir sbio true) b.toBio c.logicbSize).map
          (MakeRequestNs.submitConverted (b.call c) [.incPending, .allocSbio]) := by
  simp [script, shannonMakeRequestNs, IoBio.call, IoBio.toBio, hop, hav, hdiscard, hsize, hsbio,
    driverConverters]

theorem refuses_of_unconvertible (hconv : b.unconvertible c = true) :
    (makeRequestNs b c).Refuses := by
  have hscript := script_makeRequestNs hop hav hdiscard hsize hsbio
  obtain ⟨ret, out, hret, hconvert⟩ := shannonConvertBio_unconvertible hconv (withDir sbio true)
  simp only [hconvert, Except.map, MakeRequestNs.submitConverted, if_pos hret] at hscript
  refine ⟨_, hscript, rfl, ?_, .bioEndio ret, ?_, .inl (by simpa [Event.fails] using hret)⟩
  · simp [Converted.events, MakeRequestNs.freeSbio, Event.modifies]
  · simp [MakeRequestNs.freeSbio]

theorem not_refuses_of_convertible (hro : c.readonly = true) (hconv : b.unconvertible c = false) :
    ¬ (makeRequestNs b c).Refuses := by
  rintro ⟨s, hs, -, hkeeps, -⟩
  rw [script_makeRequestNs hop hav hdiscard hsize hsbio] at hs
  obtain ⟨converted, hconvert, rfl⟩ := map_eq_ok.1 hs
  simp only [IoBio.unconvertible, Bool.or_eq_false_iff, decide_eq_false_iff_not,
    Option.isNone_eq_false_iff] at hconv
  obtain ⟨⟨hlb, hvec⟩, halloc⟩ := hconv
  have hret := shannonConvertBio_ret_zero hlb (show b.toBio.biIoVec = true from hvec)
    (by simpa using halloc) hconvert
  have hdir : converted.sbio.dmaDir = .toDevice := shannonConvertBio_dmaDir hconvert hret
  have hrefused : MakeRequestNs.refused (b.call c) = true := by
    simp [MakeRequestNs.refused, IoBio.call, hop, hro]
  have hmem := @MakeRequestNs.allocLpmt_mem_submitConverted (b.call c) [.incPending, .allocSbio]
    converted hret hdir hrefused
  cases hkeeps _ hmem

end Converts

theorem refuses_makeRequestNs_iff {b : IoBio} {c : BioCall} (hop : b.op ≠ .read)
    (hro : c.readonly = true) :
    (makeRequestNs b c).Refuses ↔ c.available = false ∨ b.op ≠ .discard ∧
      (b.size = 0 ∨ c.sbio.isSome = true ∧ b.unconvertible c = true) := by
  by_cases hearly : c.available = false ∨ b.op = .discard ∨ b.size = 0 ∨ c.sbio = none
  · simp only [Refuses, script, shannonMakeRequestNs, IoBio.call, IoBio.toBio,
      shannonShouldTrimBio_opfOf, size]
    cases hav : c.available with
    | false => simp [Event.modifies, Event.fails, eio_ne_zero]
    | true =>
        by_cases hdiscard : b.op = .discard
        · simp [hdiscard, Event.modifies]
        by_cases hsize : b.size = 0
        · simp [hdiscard, hsize, Event.modifies, Event.fails, Event.isEnd]
        have hnull : c.sbio = none := by simpa [hav, hdiscard, hsize] using hearly
        simp [hdiscard, hsize, hnull]
  · simp only [not_or, Bool.not_eq_false] at hearly
    obtain ⟨hav, hdiscard, hsize, hsbio⟩ := hearly
    obtain ⟨sbio, hsbio⟩ := Option.ne_none_iff_exists'.1 hsbio
    simp only [hav, hdiscard, hsize, hsbio, Bool.true_eq_false, ne_eq, not_false_eq_true,
      Option.isSome_some, true_and, false_or]
    cases hconv : b.unconvertible c with
    | true =>
        exact iff_of_true (refuses_of_unconvertible hop hav hdiscard hsize hsbio hconv) rfl
    | false =>
        exact iff_of_false (not_refuses_of_convertible hop hav hdiscard hsize hsbio hro hconv)
          (by decide)

end OpCall

/-! ### All three -/

/-- The condition on the namespace entry. -/
def ReadOnlyArrival.NsSpared (a : ReadOnlyArrival) : Prop :=
  a.ns.available = false ∨ a.bio.op ≠ .discard ∧
    (a.bio.size = 0 ∨ a.ns.sbio.isSome = true ∧ a.bio.unconvertible a.ns = true)

/-- **When a read-only device is left as it is.**  All three entries refuse exactly if it
is not a discard, or the device is not available either; and if the namespace entry does
not get as far as to have converted the bio. -/
theorem ReadOnlyArrival.refused_iff (a : ReadOnlyArrival) :
    a.Refused ↔ (a.dev.available = false ∨ a.bio.op ≠ .discard) ∧ a.NsSpared ∧
      (a.lreq.available = false ∨ a.bio.op ≠ .discard) := by
  rw [Refused, OpCall.refuses_makeRequest_iff a.op_ne_read a.dev_readonly,
    OpCall.refuses_makeRequestNs_iff a.op_ne_read a.ns_readonly,
    OpCall.refuses_xferRequest_iff (a.op_eq ▸ a.op_ne_read) a.lreq_readonly, a.op_eq, NsSpared]

/-- `b` arrives, alone or as a request, at entries that all else would let pass. -/
def readOnlyArrival (b : IoBio) (hop : b.op ≠ .read) : ReadOnlyArrival where
  bio := b
  request := ⟨b.op, 0, [b]⟩
  dev := { plainCall plainBio with readonly := true }
  ns := { plainCall plainBio with readonly := true }
  lreq := { plainLreqCall ⟨0, 0, []⟩ with readonly := true }
  op_eq := rfl
  op_ne_read := hop
  dev_readonly := rfl
  ns_readonly := rfl
  lreq_readonly := rfl

/-- A discard of a page, and a write of one. -/
def pageDiscard : IoBio := ⟨.discard, 0, 0, 4096, 0, none⟩

def pageWrite : IoBio := ⟨.write, 0, 0, 4096, 0, some [(0, ⟨3, 0, 4096⟩)]⟩

/-- **The discard is carried out** and ends with success at all three entries; **the
write** has the map table of the namespace allocated for it before it is refused. -/
theorem readOnly_modified :
    (OpCall.makeRequest pageDiscard (readOnlyArrival pageDiscard (by decide)).dev).script
      = .ok ⟨[.discard 0 8, .bioEndio 0], .over⟩ ∧
    (OpCall.makeRequestNs pageDiscard (readOnlyArrival pageDiscard (by decide)).ns).script
      = .ok ⟨[.incPending, .discard 0 8, .bioEndio 0, .decPending], .over⟩ ∧
    (OpCall.xferRequest ⟨.discard, 0, [pageDiscard]⟩
        (readOnlyArrival pageDiscard (by decide)).lreq).script
      = .ok ⟨[.discard 0 8, .endRequest true], .over⟩ ∧
    ¬ (readOnlyArrival pageDiscard (by decide)).Refused ∧
    ((OpCall.makeRequestNs pageWrite (readOnlyArrival pageWrite (by decide)).ns).script.map
        Script.events)
      = .ok [.incPending, .allocSbio, .takeSg .sgAlloc, .takePages [], .freePages [], .allocLpmt,
          .freeSg .sgAlloc, .freeSbio, .bioEndio (-5), .decPending] ∧
    ¬ (readOnlyArrival pageWrite (by decide)).Refused := by
  refine ⟨rfl, rfl, rfl, fun h => ?_, by decide, fun h => ?_⟩
  · have hdev := (OpCall.refuses_makeRequest_iff (by decide) rfl).1 h.1
    revert hdev
    decide
  · have hns := (OpCall.refuses_makeRequestNs_iff (by decide) rfl).1 h.2.1
    revert hns
    decide

end Block
end Shannon
