/-
# How a bio ends

`shannon_block.c`, `shannon_bio_endio` on kernels from 4.13 on: the error goes into
`bi_status`, which is a `blk_status_t` of eight bits, by a plain assignment.

`EndsWith` says which errors a script can end its bio with: of the entry functions
and the work items these are errors of the driver's own and what the submission to
the core has returned (`EndioCall.endsWith`).  The former keep a bit in the low byte.
Of the latter the driver knows nothing, and a multiple of 256 reads as success:
`failureKept_iff`.
-/

import Shannon.Block.Ledger

namespace Shannon
namespace Block

/-! ### `bi_status` -/

/-- What `shannon_bio_endio` stores in `bi_status`. -/
def biStatus (error : ℤ) : BitVec 8 := BitVec.ofInt 8 error

/-- An error is stored as success when its low byte is zero. -/
theorem biStatus_eq_zero_iff {error : ℤ} : biStatus error = 0 ↔ 256 ∣ error := by
  rw [biStatus, ← BitVec.toNat_inj, BitVec.toNat_ofInt]
  show (error % 256).toNat = 0 ↔ 256 ∣ error
  omega

/-! ### The errors of a script -/

/-- The event neither ends a bio nor discards blocks. -/
@[simp]
def Event.quiet : Event → Bool
  | .bioEndio _ | .discard _ _ => false
  | _ => true

/-- The events end the bio with none but one of `errors`, and discard nothing. -/
def EndsWith (errors : List ℤ) (es : List Event) : Prop :=
  ∀ ev ∈ es, ev.quiet = true ∨ ∃ e ∈ errors, ev = .bioEndio e

namespace EndsWith

variable {errors : List ℤ} {es fs : List Event}

@[simp] theorem nil : EndsWith errors [] := fun _ h => absurd h List.not_mem_nil

@[simp] theorem cons_iff {ev : Event} :
    EndsWith errors (ev :: es) ↔
      (ev.quiet = true ∨ ∃ e ∈ errors, ev = .bioEndio e) ∧ EndsWith errors es :=
  List.forall_mem_cons

theorem append (h : EndsWith errors es) (h' : EndsWith errors fs) :
    EndsWith errors (es ++ fs) := by
  intro ev hev
  rcases List.mem_append.1 hev with hev | hev
  · exact h ev hev
  · exact h' ev hev

theorem mono {errors' : List ℤ} (h : EndsWith errors es) (hsub : errors ⊆ errors') :
    EndsWith errors' es := by
  intro ev hev
  rcases h ev hev with hquiet | ⟨e, he, rfl⟩
  · exact .inl hquiet
  · exact .inr ⟨e, hsub he, rfl⟩

theorem not_discard (h : EndsWith errors es) (first last : ℕ) : .discard first last ∉ es := by
  intro hmem
  simpa using h _ hmem

theorem error_mem (h : EndsWith errors es) {e : ℤ} (hmem : .bioEndio e ∈ es) : e ∈ errors := by
  simpa using h _ hmem

end EndsWith

variable {errors : List ℤ}

theorem endsWith_converted (c : Converted) : EndsWith errors c.events := by
  intro ev hev
  left
  rcases List.mem_append.1 hev with hev | hev
  · obtain ⟨a, -, rfl⟩ := Option.map_eq_some_iff.1 (Option.mem_toList.1 hev)
    rfl
  · simp only [List.mem_cons, List.not_mem_nil, or_false] at hev
    rcases hev with rfl | rfl <;> rfl

theorem endsWith_sgFreedIf (sbio : ShannonBio) : EndsWith errors (sgFreedIf sbio) := by
  rw [sgFreedIf]
  split_ifs <;> simp [sgFreed]

theorem endsWith_bouncePagesFreed {sbio : ShannonBio} {es : List Event}
    (h : bouncePagesFreed sbio = .ok es) : EndsWith errors es := by
  obtain ⟨ps, -, rfl⟩ := map_eq_ok.1 h
  simp

theorem endsWith_lpmtAllocated {errors : List ℤ} (sbio : ShannonBio) :
    EndsWith errors (lpmtAllocated sbio) := by
  unfold lpmtAllocated
  split_ifs <;> simp

/-! ### From the conversion on -/

theorem MakeRequest.endsWith_freeSgList {sbio : ShannonBio} {ret : ℤ} {es : List Event}
    (h : freeSgList sbio ret = .ok es) : EndsWith [ret] es := by
  obtain ⟨fs, hfs, rfl⟩ := map_eq_ok.1 h
  have hfs : EndsWith [ret] fs := by
    split_ifs at hfs
    · exact endsWith_bouncePagesFreed hfs
    · obtain rfl := Except.ok.inj hfs
      simp
  refine (hfs.append ?_).append ?_
  · split_ifs <;> simp [sgFreed]
  · simp [freeSbio]

theorem MakeRequest.endsWith_submitConverted {c : BioCall} {done : List Event}
    {converted : Converted} {s : Script} (h : submitConverted c done converted = .ok s)
    (hdone : EndsWith [converted.ret, -eio, c.submitRet] done) :
    EndsWith [converted.ret, -eio, c.submitRet] s.events := by
  have hbase := hdone.append (endsWith_converted converted)
  have hlooked := hbase.append (endsWith_lpmtAllocated converted.sbio)
  unfold submitConverted at h
  dsimp only at h
  split_ifs at h
  · obtain rfl := Except.ok.inj h
    exact hbase.append (by simp [freeSbio])
  · obtain ⟨es, hes, rfl⟩ := map_eq_ok.1 h
    exact hlooked.append ((endsWith_freeSgList hes).mono (by simp))
  · obtain rfl := Except.ok.inj h
    exact hlooked.append (by simp)
  · obtain ⟨es, hes, rfl⟩ := map_eq_ok.1 h
    obtain ⟨fs, hfs, rfl⟩ := map_eq_ok.1 hes
    refine (hlooked.append (by simp)).append ?_
    rw [EndsWith.cons_iff]
    exact ⟨.inl rfl, (endsWith_freeSgList hfs).mono (by simp)⟩
  · obtain rfl := Except.ok.inj h
    exact hlooked.append (by simp)

theorem MakeRequestNs.endsWith_submitConverted {c : BioCall} {done : List Event}
    {converted : Converted} (hdone : EndsWith [converted.ret, -eio, c.submitRet] done) :
    EndsWith [converted.ret, -eio, c.submitRet] (submitConverted c done converted).events := by
  have hbase := hdone.append (endsWith_converted converted)
  have hlooked := hbase.append (endsWith_lpmtAllocated converted.sbio)
  have hfree (ret : ℤ) : EndsWith [ret] (freeSgList converted.sbio ret) :=
    (endsWith_sgFreedIf _).append (by simp [freeSbio])
  unfold submitConverted
  dsimp only
  split_ifs
  · exact hbase.append (by simp [freeSbio])
  · exact hlooked.append ((hfree _).mono (by simp))
  · exact hlooked.append ((hfree _).mono (by simp))
  · exact hlooked.append (by simp)
  · refine (hlooked.append (by simp)).append ?_
    rw [endIoAcct, EndsWith.cons_iff]
    exact ⟨.inl rfl, (hfree _).mono (by simp)⟩
  · exact hlooked.append (by simp)

theorem endsWith_submitSbioTask (sbio : ShannonBio) (origin : Origin) (ret : ℤ) :
    EndsWith [ret] (submitSbioTask sbio origin ret).events := by
  unfold submitSbioTask
  split_ifs
  · exact (EndsWith.append (by simp) (endsWith_sgFreedIf _)).append
      (by simp)
  · simp

theorem endsWith_submitSbioTaskNs (sbio : ShannonBio) (origin : Origin) (ret : ℤ) :
    EndsWith [ret] (submitSbioTaskNs sbio origin ret).events := by
  unfold submitSbioTaskNs
  split_ifs
  · exact (EndsWith.append (by simp) (endsWith_sgFreedIf _)).append
      (by simp)
  · simp

/-- A request is never ended as a bio. -/
theorem XferRequest.endsWith_submitConverted (c : LreqCall) (ret : ℤ) (sbio : ShannonBio) :
    EndsWith [] (submitConverted c ret sbio).events := by
  have hfree (ret : ℤ) : EndsWith [] (freeSbio ret).events := by
    unfold freeSbio
    split_ifs <;> simp
  have hlooked : EndsWith [] ([.allocSbio, .takeSg .sgAlloc] ++ lpmtAllocated sbio) :=
    EndsWith.append (by simp) (endsWith_lpmtAllocated sbio)
  unfold submitConverted
  dsimp only
  split_ifs
  · exact EndsWith.append (by simp) (hfree _)
  · exact hlooked.append ((endsWith_sgFreedIf _).append (hfree _))
  · exact (hlooked.append (by simp)).append ((endsWith_sgFreedIf _).append (hfree _))
  · exact hlooked.append (by simp)

/-! ### The conversions of the driver -/

/-- With a table there is no failure: without bounce pages the direct path is taken. -/
theorem convertBounced_ret {env : ConvertEnv} {mem : Mem} {sbio : ShannonBio} {bio : Bio}
    {logicbSize : ℕ} {sgFrom : SgAllocator} {c : Converted}
    (h : convertBounced env mem sbio bio logicbSize sgFrom = .ok c) : c.ret = 0 := by
  obtain ⟨r, -, ⟨-, out, -, rfl⟩ | ⟨-, mem', rfl⟩⟩ := convertBounced_cases h
  · rfl
  · rfl

/-- `shannon_convert_bio` returns zero, `-ENOMEM` or `-EINVAL`. -/
theorem shannonConvertBio_ret {env : ConvertEnv} {mem : Mem} {sbio : ShannonBio} {bio : Bio}
    {logicbSize : ℕ} {c : Converted} (h : shannonConvertBio env mem sbio bio logicbSize = .ok c) :
    c.ret ∈ [0, -enomem, -einval] := by
  rcases shannonConvertBio_cases h with ⟨hret, -⟩ | ⟨-, -, ⟨-, h⟩ | ⟨-, out, -, rfl⟩⟩
  · rcases hret with hret | hret <;> simp [hret]
  · rw [convertBounced_ret h]
    simp
  · simp

/-! ### The four functions -/

/-- A call of one of the four functions that end a bio with an error of their own or
of the core's. -/
inductive EndioCall where
  | makeRequest (c : BioCall)
  | makeRequestNs (c : BioCall)
  | submitSbioTask (sbio : ShannonBio) (origin : Origin) (ret : ℤ)
  | submitSbioTaskNs (sbio : ShannonBio) (origin : Origin) (ret : ℤ)

namespace EndioCall

/-- What the call does. -/
def script : EndioCall → Except Oops Script
  | makeRequest c => shannonMakeRequest driverConverters c
  | makeRequestNs c => shannonMakeRequestNs driverConverters c
  | submitSbioTask sbio origin ret => .ok (Block.submitSbioTask sbio origin ret)
  | submitSbioTaskNs sbio origin ret => .ok (Block.submitSbioTaskNs sbio origin ret)

/-- What `shannon_submit_bio` or `shannon_submit_bio_throttling_ns` returns if it is
called. -/
def submitRet : EndioCall → ℤ
  | makeRequest c | makeRequestNs c => c.submitRet
  | submitSbioTask _ _ ret | submitSbioTaskNs _ _ ret => ret

/-- Whatever error the call ends its bio with, the stored `bi_status` is not zero. -/
def FailureKept (call : EndioCall) : Prop :=
  ∀ s, call.script = .ok s → ∀ error, .bioEndio error ∈ s.events → error ≠ 0 →
    biStatus error ≠ 0

/-- The errors a bio is ended with. -/
theorem error_cases {call : EndioCall} {s : Script} (h : call.script = .ok s) {error : ℤ}
    (hmem : .bioEndio error ∈ s.events) :
    error ∈ [0, -eio, -enomem, -einval, call.submitRet] := by
  cases call with
  | makeRequest c =>
      obtain ⟨e, he, rfl⟩ | ⟨-, -, first, last, -, rfl⟩ | ⟨-, sbio, converted, -, hconv, h⟩ :=
        shannonMakeRequest_cases h
      · obtain rfl : error = e := by simpa using hmem
        simp only [List.mem_cons, List.not_mem_nil, or_false] at he ⊢
        omega
      · obtain rfl : error = 0 := by simpa using hmem
        simp
      · have hret := shannonConvertBio_ret hconv
        have herror := (MakeRequest.endsWith_submitConverted h (by simp)).error_mem hmem
        simp only [List.mem_cons, List.not_mem_nil, or_false, submitRet] at herror hret ⊢
        omega
  | makeRequestNs c =>
      obtain ⟨e, he, rfl⟩ | ⟨-, -, first, last, -, rfl⟩ |
          ⟨-, -, -, sbio, converted, -, hconv, rfl⟩ := shannonMakeRequestNs_cases h
      · obtain rfl : error = e := by simpa using hmem
        simp only [List.mem_cons, List.not_mem_nil, or_false] at he ⊢
        omega
      · obtain rfl : error = 0 := by simpa using hmem
        simp
      · have hret := shannonConvertBio_ret hconv
        have herror := (MakeRequestNs.endsWith_submitConverted (by simp)).error_mem hmem
        simp only [List.mem_cons, List.not_mem_nil, or_false, submitRet] at herror hret ⊢
        omega
  | submitSbioTask sbio origin ret =>
      obtain rfl := Except.ok.inj h
      obtain rfl := List.mem_singleton.1 ((endsWith_submitSbioTask _ _ _).error_mem hmem)
      simp [submitRet]
  | submitSbioTaskNs sbio origin ret =>
      obtain rfl := Except.ok.inj h
      obtain rfl := List.mem_singleton.1 ((endsWith_submitSbioTaskNs _ _ _).error_mem hmem)
      simp [submitRet]

end EndioCall

/-- A failed submission by a work item ends the bio with the value returned. -/
theorem bioEndio_mem_submitSbioTask {sbio : ShannonBio} {origin : Origin} {ret : ℤ}
    (hret : ret ≠ 0) : .bioEndio ret ∈ (submitSbioTask sbio origin ret).events := by
  simp [submitSbioTask, hret]

end Block
end Shannon
