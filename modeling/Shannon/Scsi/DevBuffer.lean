/-
# Answering a SCSI command from a buffer

`shannon_scsi.c`, `shannon_fill_from_dev_buffer`: an answer that the driver has made up itself is
put into the data-in buffer of a command, and `resid` is set to what of the buffer was not filled.
The file has the function five times, for kernels from before 2.6.24 to those from 5.1 on.  The
first three go over the entries of the buffer by hand, with a flag that says whether there is
something left to copy; the others call `sg_copy_from_buffer`.

All of them store the same bytes and return the same value (`fill_exact`).  They do not agree on
`resid` where a command is filled more than once: the older ones take a `resid` that is not zero
for one they have set before, and go on subtracting.

The mapping of an entry may fail in the older versions; then nothing but the part of the buffer
before it is written (`fillEntries_frame`).  Lengths are `int` in the source and natural numbers
here.
-/

import Shannon.Block.Bounce

namespace Shannon
namespace Scsi

open Lib Block

/-! ### Commands -/

/-- `sc_data_direction`. -/
inductive Direction where
  | bidirectional
  | toDevice
  | fromDevice
  | none
deriving DecidableEq, Repr

/-- The buffer of a command: none, memory in one piece where `use_sg` is zero, or a list of
entries. -/
inductive Buffer where
  | null
  | linear (addr : ℕ)
  | sg (entries : List Piece)
deriving DecidableEq, Repr

/-- `struct scsi_cmnd`: the direction, `scsi_bidi_cmnd`, and of the data-in buffer its length, where
it is and `resid`. -/
structure ScsiCmnd where
  direction : Direction
  bidi : Bool
  length : ℕ
  buffer : Buffer
  resid : ℤ
deriving DecidableEq, Repr

/-- What a call did: the value returned, the memory, and `resid`. -/
structure Filled where
  ret : ℤ
  mem : Mem
  resid : ℤ

/-- `DID_ERROR << 16`. -/
def didError : ℤ := 0x07 * 2 ^ 16

/-- The address of the first byte of an entry. -/
def sgAddr (sg : Piece) : ℕ := sg.page * pageSize + sg.offset

/-- The loop over the entries.  `kmap k` says whether the entry number `k` can be mapped; if not,
the memory is what it is by then.  Otherwise there are the memory, `req_len` and `act_len`. -/
def fillLoop (kmap : ℕ → Bool) (arr arrLen : ℕ) :
    ℕ → List Piece → Mem → Bool → ℕ → ℕ → Except Mem (Mem × ℕ × ℕ)
  | _, [], mem, _, reqLen, actLen => .ok (mem, reqLen, actLen)
  | k, sg :: sgs, mem, true, reqLen, actLen =>
      if kmap k = false then .error mem
      else
        let last := reqLen + sg.length > arrLen
        let len := if last then arrLen - reqLen else sg.length
        fillLoop kmap arr arrLen (k + 1) sgs (copy mem (sgAddr sg) (arr + reqLen) len)
          (!decide last) (reqLen + sg.length) (actLen + len)
  | k, sg :: sgs, mem, false, reqLen, actLen =>
      fillLoop kmap arr arrLen (k + 1) sgs mem false (reqLen + sg.length) actLen

/-- `if (resid) resid -= act_len; else resid = req_len - act_len;` -/
def residLeft (resid : ℤ) (reqLen actLen : ℕ) : ℤ :=
  if resid ≠ 0 then resid - actLen else reqLen - actLen

variable (kmap : ℕ → Bool) (sgCopyFromBuffer : Mem → List Piece → ℕ → ℕ → Mem × ℕ)

/-- The loop and what follows it. -/
def fillEntries (mem : Mem) (scp : ScsiCmnd) (sgs : List Piece) (arr arrLen : ℕ) : Filled :=
  match fillLoop kmap arr arrLen 0 sgs mem true 0 0 with
  | .error mem => ⟨didError, mem, scp.resid⟩
  | .ok (mem, reqLen, actLen) => ⟨0, mem, residLeft scp.resid reqLen actLen⟩

/-- `shannon_fill_from_dev_buffer` before 2.6.25. -/
def fillBefore2625 (mem : Mem) (scp : ScsiCmnd) (arr arrLen : ℕ) : Filled :=
  if scp.length = 0 then ⟨0, mem, scp.resid⟩
  else match scp.buffer with
  | .null => ⟨didError, mem, scp.resid⟩
  | .linear addr =>
      if ¬(scp.direction = .bidirectional ∨ scp.direction = .fromDevice) then
        ⟨didError, mem, scp.resid⟩
      else
        let actLen := if scp.length < arrLen then scp.length else arrLen
        ⟨0, copy mem addr arr actLen, residLeft scp.resid scp.length actLen⟩
  | .sg sgs =>
      if ¬(scp.direction = .bidirectional ∨ scp.direction = .fromDevice) then
        ⟨didError, mem, scp.resid⟩
      else fillEntries kmap mem scp sgs arr arrLen

/-- `shannon_fill_from_dev_buffer` of 2.6.25. -/
def fill2625 (mem : Mem) (scp : ScsiCmnd) (arr arrLen : ℕ) : Filled :=
  if scp.length = 0 then ⟨0, mem, scp.resid⟩
  else match scp.buffer with
  | .sg sgs =>
      if ¬(scp.bidi = true ∨ scp.direction = .fromDevice) then ⟨didError, mem, scp.resid⟩
      else fillEntries kmap mem scp sgs arr arrLen
  | _ => ⟨didError, mem, scp.resid⟩

/-- The entries of a buffer. -/
def Buffer.entries : Buffer → List Piece
  | .sg sgs => sgs
  | _ => []

/-- `shannon_fill_from_dev_buffer` from 2.6.26 to 5.0; `resid` is set anew from 3.11 on. -/
def fillBefore51 (from311 : Bool) (mem : Mem) (scp : ScsiCmnd) (arr arrLen : ℕ) : Filled :=
  if scp.length = 0 then ⟨0, mem, scp.resid⟩
  else if ¬(scp.bidi = true ∨ scp.direction = .fromDevice) then ⟨didError, mem, scp.resid⟩
  else
    let (mem, actLen) := sgCopyFromBuffer mem scp.buffer.entries arr arrLen
    ⟨0, mem, if from311 then scp.length - actLen else residLeft scp.resid scp.length actLen⟩

/-- `shannon_fill_from_dev_buffer` from 5.1 on. -/
def fillFrom51 (mem : Mem) (scp : ScsiCmnd) (arr arrLen : ℕ) : Filled :=
  if scp.length = 0 then ⟨0, mem, scp.resid⟩
  else if scp.direction ≠ .fromDevice then ⟨didError, mem, scp.resid⟩
  else
    let (mem, actLen) := sgCopyFromBuffer mem scp.buffer.entries arr arrLen
    ⟨0, mem, scp.length - actLen⟩

/-- The kernels the file tells apart. -/
inductive Version where
  | before2624
  | v2624
  | v2625
  | before311
  | before51
  | from51
deriving DecidableEq, Repr

/-- `shannon_fill_from_dev_buffer`.  The versions before 2.6.24 and of 2.6.24 differ in the names
of what they read only. -/
def shannonFillFromDevBuffer : Version → Mem → ScsiCmnd → ℕ → ℕ → Filled
  | .before2624 => fillBefore2625 kmap
  | .v2624 => fillBefore2625 kmap
  | .v2625 => fill2625 kmap
  | .before311 => fillBefore51 sgCopyFromBuffer false
  | .before51 => fillBefore51 sgCopyFromBuffer true
  | .from51 => fillFrom51 sgCopyFromBuffer

/-! ### What is to be filled -/

/-- The bytes of a buffer of `length` bytes. -/
def Buffer.bytes (length : ℕ) : Buffer → List ℕ
  | .null => []
  | .linear addr => List.range' addr length
  | .sg sgs => sgs.flatMap Piece.bytes

/-- Memory in one piece is known to the versions before 2.6.25 only. -/
def Version.takesLinear : Version → Bool
  | .before2624 | .v2624 => true
  | _ => false

/-- The command has data to go in. -/
def Version.accepts (v : Version) (scp : ScsiCmnd) : Bool :=
  match v with
  | .before2624 | .v2624 => scp.direction = .bidirectional || scp.direction = .fromDevice
  | .v2625 | .before311 | .before51 => scp.bidi || scp.direction = .fromDevice
  | .from51 => scp.direction = .fromDevice

/-- The versions that go on subtracting from a `resid` that is not zero. -/
def Version.accumulates : Version → Bool
  | .before51 | .from51 => false
  | _ => true

/-- A command as the kernel hands it out: a buffer of the version, with as many bytes as it says. -/
structure Valid (v : Version) (scp : ScsiCmnd) : Prop where
  bytes : (scp.buffer.bytes scp.length).length = scp.length
  kind : scp.buffer ≠ .null ∧ ∀ addr, scp.buffer = .linear addr → v.takesLinear = true

/-- The first `n` bytes of the array go to the first `n` bytes of the buffer. -/
def stored (mem : Mem) (dests : List ℕ) (arr n : ℕ) : Mem :=
  storeAll mem (dests.take n) ((List.range' arr n).map mem)

/-- What `sg_copy_from_buffer` is documented to do: it copies as much as there is and returns how
much that was. -/
def SgCopies (sgCopyFromBuffer : Mem → List Piece → ℕ → ℕ → Mem × ℕ) : Prop :=
  ∀ mem sgs arr len, (∀ a ∈ List.range' arr len, a ∉ sgs.flatMap Piece.bytes) →
    sgCopyFromBuffer mem sgs arr len
      = (stored mem (sgs.flatMap Piece.bytes) arr (min len (totalLength sgs)),
          min len (totalLength sgs))

/-! ### The loop -/

variable {kmap : ℕ → Bool} {sgCopyFromBuffer : Mem → List Piece → ℕ → ℕ → Mem × ℕ}
variable {arr arrLen : ℕ}

/-- With the flag clear the loop only adds up. -/
theorem fillLoop_false (k : ℕ) (sgs : List Piece) (mem : Mem) (reqLen actLen : ℕ) :
    fillLoop kmap arr arrLen k sgs mem false reqLen actLen
      = .ok (mem, reqLen + totalLength sgs, actLen) := by
  induction sgs generalizing k reqLen with
  | nil => rfl
  | cons sg sgs ih => rw [fillLoop, ih, totalLength_cons, Nat.add_assoc]

/-- **The loop by hand copies what there is**, as long as the entries can be mapped. -/
theorem fillLoop_true (arr : ℕ) (hkmap : ∀ k, kmap k = true) (k : ℕ) (sgs : List Piece) (mem : Mem)
    {reqLen : ℕ} (actLen : ℕ) (hreq : reqLen ≤ arrLen) :
    ∃ cs, fillLoop kmap arr arrLen k sgs mem true reqLen actLen
        = .ok (copyAll mem cs, reqLen + totalLength sgs,
            actLen + min (arrLen - reqLen) (totalLength sgs)) ∧
      dsts cs = (sgs.flatMap Piece.bytes).take (arrLen - reqLen) ∧
      srcs cs = List.range' (arr + reqLen) (min (arrLen - reqLen) (totalLength sgs)) := by
  induction sgs generalizing k mem reqLen actLen with
  | nil => exact ⟨[], by simp [fillLoop, copyAll, totalLength], by simp [dsts], by
      simp [srcs, totalLength]⟩
  | cons sg sgs ih =>
      have hbytes : sg.bytes = List.range' (sgAddr sg) sg.length := rfl
      rw [List.flatMap_cons, totalLength_cons]
      by_cases hover : reqLen + sg.length > arrLen
      · -- the array ends in this entry
        have hstep : fillLoop kmap arr arrLen k (sg :: sgs) mem true reqLen actLen
            = fillLoop kmap arr arrLen (k + 1) sgs
              (copy mem (sgAddr sg) (arr + reqLen) (arrLen - reqLen)) false (reqLen + sg.length)
              (actLen + (arrLen - reqLen)) := by
          simp [fillLoop, hkmap, hover]
        have hmin : min (arrLen - reqLen) (sg.length + totalLength sgs) = arrLen - reqLen := by
          omega
        refine ⟨[⟨sgAddr sg, arr + reqLen, arrLen - reqLen⟩], ?_, ?_, ?_⟩
        · rw [hstep, fillLoop_false, hmin, Nat.add_assoc]
          rfl
        · rw [List.take_append_of_le_length (by rw [hbytes, List.length_range']; omega), hbytes,
            List.take_range'_of_length_ge (by omega)]
          simp [dsts]
        · rw [hmin]
          simp [srcs]
      · have hstep : fillLoop kmap arr arrLen k (sg :: sgs) mem true reqLen actLen
            = fillLoop kmap arr arrLen (k + 1) sgs
              (copy mem (sgAddr sg) (arr + reqLen) sg.length) true (reqLen + sg.length)
              (actLen + sg.length) := by
          simp [fillLoop, hkmap, hover]
        obtain ⟨cs, hcs, hd, hs⟩ := ih (k + 1) (copy mem (sgAddr sg) (arr + reqLen) sg.length)
          (actLen + sg.length) (show reqLen + sg.length ≤ arrLen by omega)
        have hmin : min (arrLen - reqLen) (sg.length + totalLength sgs)
            = sg.length + min (arrLen - (reqLen + sg.length)) (totalLength sgs) := by omega
        refine ⟨⟨sgAddr sg, arr + reqLen, sg.length⟩ :: cs, ?_, ?_, ?_⟩
        · rw [hstep, hcs, hmin, Nat.add_assoc, Nat.add_assoc]
          rfl
        · have hfit : sg.bytes.length ≤ arrLen - reqLen := by
            rw [hbytes, List.length_range']
            omega
          rw [dsts_cons, hd, List.take_append, List.take_of_length_le hfit, hbytes,
            List.length_range', Nat.sub_sub]
        · rw [srcs_cons, hs, hmin, ← Nat.add_assoc, List.range'_append_1]

/-- **The entries by hand.** -/
theorem fillEntries_eq (hkmap : ∀ k, kmap k = true) (mem : Mem) (scp : ScsiCmnd)
    {sgs : List Piece}
    (hdisj : ∀ a ∈ List.range' arr arrLen, a ∉ sgs.flatMap Piece.bytes) :
    fillEntries kmap mem scp sgs arr arrLen
      = ⟨0, stored mem (sgs.flatMap Piece.bytes) arr (min arrLen (totalLength sgs)),
          residLeft scp.resid (totalLength sgs) (min arrLen (totalLength sgs))⟩ := by
  obtain ⟨cs, hcs, hd, hs⟩ := fillLoop_true arr hkmap 0 sgs mem 0 (Nat.zero_le arrLen)
  simp only [Nat.zero_add, Nat.sub_zero, Nat.add_zero] at hcs hd hs
  have hapart : ∀ a ∈ srcs cs, a ∉ dsts cs := by
    intro a ha had
    rw [hs, List.mem_range'_1] at ha
    rw [hd] at had
    refine hdisj a ?_ (List.mem_of_mem_take had)
    rw [List.mem_range'_1]
    omega
  have htake : (sgs.flatMap Piece.bytes).take arrLen
      = (sgs.flatMap Piece.bytes).take (min arrLen (totalLength sgs)) := by
    rw [← length_flatMap_bytes, List.take_eq_take_min]
  rw [fillEntries, hcs]
  simp only [copyAll_eq hapart, hd, hs, htake, stored]

/-- **Whatever can be mapped, nothing but the buffer is written**, and a call that fails leaves
`resid` alone. -/
theorem fillEntries_frame (mem : Mem) (scp : ScsiCmnd) (sgs : List Piece) (arr arrLen : ℕ) :
    let r := fillEntries kmap mem scp sgs arr arrLen
    (∀ a, a ∉ sgs.flatMap Piece.bytes → r.mem a = mem a) ∧
      (r.ret = 0 ∨ r.ret = didError ∧ r.resid = scp.resid) := by
  have hloop (k : ℕ) (sgs : List Piece) (mem : Mem) (active : Bool) (reqLen actLen : ℕ) (a : ℕ)
      (ha : a ∉ sgs.flatMap Piece.bytes) :
      (∀ mem', fillLoop kmap arr arrLen k sgs mem active reqLen actLen = .error mem' →
        mem' a = mem a) ∧
      ∀ r, fillLoop kmap arr arrLen k sgs mem active reqLen actLen = .ok r → r.1 a = mem a := by
    induction sgs generalizing k mem active reqLen actLen with
    | nil =>
        refine ⟨fun _ h => by simp [fillLoop] at h, fun r h => ?_⟩
        rw [fillLoop] at h
        rw [← Except.ok.inj h]
    | cons sg sgs ih =>
        rw [List.flatMap_cons, List.mem_append, not_or] at ha
        cases active with
        | false =>
            rw [fillLoop]
            exact ih _ _ _ _ _ ha.2
        | true =>
            rw [fillLoop]
            split_ifs with hmap
            · exact ⟨fun mem' h => by rw [← Except.error.inj h], fun r h => by cases h⟩
            · dsimp only
              -- what is copied lies inside the entry
              have hcopy (n : ℕ) (hn : n ≤ sg.length) :
                  copy mem (sgAddr sg) (arr + reqLen) n a = mem a := by
                refine if_neg fun hin => ha.1 ?_
                rw [Piece.bytes, List.mem_range'_1]
                exact ⟨hin.1, by rw [sgAddr] at hin; omega⟩
              rw [← hcopy (if reqLen + sg.length > arrLen then arrLen - reqLen else sg.length)
                (by split_ifs <;> omega)]
              exact ih _ _ _ _ _ ha.2
  intro r
  cases h : fillLoop kmap arr arrLen 0 sgs mem true 0 0 with
  | error mem' =>
      have hr : r = ⟨didError, mem', scp.resid⟩ := by simp only [r, fillEntries, h]
      rw [hr]
      exact ⟨fun a ha => (hloop 0 sgs mem true 0 0 a ha).1 mem' h, .inr ⟨rfl, rfl⟩⟩
  | ok x =>
      obtain ⟨mem', reqLen, actLen⟩ := x
      have hr : r = ⟨0, mem', residLeft scp.resid reqLen actLen⟩ := by
        simp only [r, fillEntries, h]
      rw [hr]
      exact ⟨fun a ha => (hloop 0 sgs mem true 0 0 a ha).2 _ h, .inl rfl⟩

/-! ### All versions -/

/-- `resid` after a fill of `n` bytes. -/
def Version.residAfter (v : Version) (scp : ScsiCmnd) (n : ℕ) : ℤ :=
  if v.accumulates then residLeft scp.resid scp.length n else scp.length - n

/-- **The five functions are one function**, but for the direction they accept and for `resid`. -/
theorem shannonFillFromDevBuffer_eq (hsg : SgCopies sgCopyFromBuffer)
    (hkmap : ∀ k, kmap k = true) {v : Version} {scp : ScsiCmnd} (hvalid : Valid v scp)
    (hdisj : ∀ a ∈ List.range' arr arrLen, a ∉ scp.buffer.bytes scp.length) (mem : Mem) :
    shannonFillFromDevBuffer kmap sgCopyFromBuffer v mem scp arr arrLen
      = if scp.length = 0 then ⟨0, mem, scp.resid⟩
        else if v.accepts scp = false then ⟨didError, mem, scp.resid⟩
        else ⟨0, stored mem (scp.buffer.bytes scp.length) arr (min arrLen scp.length),
          v.residAfter scp (min arrLen scp.length)⟩ := by
  obtain ⟨hbytes, hnull, hlinear⟩ := hvalid
  by_cases hlen : scp.length = 0
  · cases v <;> simp [shannonFillFromDevBuffer, fillBefore2625, fill2625, fillBefore51,
      fillFrom51, hlen]
  rw [if_neg hlen]
  cases hbuf : scp.buffer with
  | null => exact absurd hbuf hnull
  | linear addr =>
      have hcopy : copy mem addr arr (min arrLen scp.length)
          = stored mem (List.range' addr scp.length) arr (min arrLen scp.length) := by
        rw [stored, List.take_range'_of_length_ge (by omega), copy_eq_storeAll]
      have hact : (if scp.length < arrLen then scp.length else arrLen)
          = min arrLen scp.length := by
        split_ifs <;> omega
      have hold := hlinear addr hbuf
      cases v <;> simp only [Version.takesLinear, Bool.false_eq_true] at hold <;>
        cases hdir : scp.direction <;>
          simp [shannonFillFromDevBuffer, fillBefore2625, hlen, hbuf, hdir, Version.accepts, hact,
            hcopy, Buffer.bytes, Version.residAfter, Version.accumulates]
  | sg sgs =>
      rw [hbuf] at hbytes hdisj
      have htotal : totalLength sgs = scp.length := by
        rw [← hbytes]
        exact (length_flatMap_bytes sgs).symm
      have hentries := fillEntries_eq hkmap mem scp hdisj
      have hcopies := hsg mem sgs arr arrLen hdisj
      rw [htotal] at hentries hcopies
      cases v <;> cases hdir : scp.direction <;> cases hbidi : scp.bidi <;>
        simp [shannonFillFromDevBuffer, fillBefore2625, fill2625, fillBefore51, fillFrom51, hlen,
          hbuf, hdir, hbidi, Version.accepts, hentries, hcopies, Buffer.bytes, Buffer.entries,
          Version.residAfter, Version.accumulates]

/-- `sg_copy_from_buffer` as it is documented. -/
def copyEntries (mem : Mem) (sgs : List Piece) (arr len : ℕ) : Mem × ℕ :=
  (stored mem (sgs.flatMap Piece.bytes) arr (min len (totalLength sgs)),
    min len (totalLength sgs))

end Scsi
end Shannon
