/-
# The life of a bio

`shannon_block.c`: the entry functions of the block layer
(`shannon_make_request`, its namespace version and `shannon_disk_xfer_request`),
the work items they queue (`submit_sbio_task`, `submit_sbio_task_ns`) and the
completion the core calls (`shannon_complete_fs_io`).

Each of them is a *script*: what it does to the world outside, event by event in
the order of the source, and who has the bio or request afterwards.  Every step
whose outcome is decided elsewhere (availability, the allocators, the lookup of
the map table, the submission to the core) is an input, and so are the two
conversions, which stand in `Converters`: `driverConverters` are those of the
source.  A label of the source that cleans up is a definition of its own, since
it is entered from several places.

`alloc_sbio` is not checked by the namespace and the request entry; there a
`NULL` is dereferenced at once.
-/

import Shannon.Block.BounceCopy

namespace Shannon
namespace Block

/-! ### Events -/

/-- What a script does to the world outside. -/
inductive Event where
  /-- `shannon_discard` or `shannon_discard_ns` of the blocks from `first` up to
  `last`. -/
  | discard (first last : ℕ)
  /-- `shannon_bio_endio`. -/
  | bioEndio (error : ℤ)
  /-- `shannon_end_request` with `LREQ_IO_GOOD` or `LREQ_IO_ERROR`. -/
  | endRequest (good : Bool)
  /-- `shannon_start_io_acct`. -/
  | startAcct
  /-- `shannon_end_io_acct`. -/
  | endAcct
  /-- `increase_ns_pending_bios`. -/
  | incPending
  /-- `decrease_ns_pending_bios`. -/
  | decPending
  /-- `alloc_sbio` has returned an sbio. -/
  | allocSbio
  /-- `free_sbio`. -/
  | freeSbio
  /-- A table was allocated. -/
  | takeSg (allocator : SgAllocator)
  /-- `shannon_sg_free` or `shannon_sg_vfree`. -/
  | freeSg (allocator : SgAllocator)
  /-- Pages were allocated. -/
  | takePages (pages : List ℕ)
  /-- Pages were freed. -/
  | freePages (pages : List ℕ)
  /-- The bytes read were copied from the bounce pages to the bio. -/
  | copyBack
  /-- `check_and_alloc_lpmt`. -/
  | allocLpmt
  /-- `shannon_queue_work`. -/
  | queueWork
  /-- `shannon_submit_bio` or `shannon_submit_bio_throttling_ns` has returned
  `ret`. -/
  | submit (ret : ℤ)
deriving DecidableEq, Repr

/-- What an sbio was made of, `sbio->bio` or `sbio->lreq`. -/
inductive Origin where
  | bio (bio : Bio)
  | lreq
deriving DecidableEq, Repr

/-- Who has the bio or request when a script is over. -/
inductive Next where
  /-- Nobody: it has been ended. -/
  | over
  /-- The caller: `-ENOMEM` was returned and the request is queued again. -/
  | requeue
  /-- The per-CPU work queue, for `submit_sbio_task` or, with `ns`,
  `submit_sbio_task_ns`. -/
  | queued (ns : Bool) (sbio : ShannonBio) (origin : Origin)
  /-- The core. -/
  | core (sbio : ShannonBio) (origin : Origin)
deriving DecidableEq, Repr

/-- What one piece of code does. -/
structure Script where
  events : List Event
  next : Next
deriving DecidableEq, Repr

/-! ### Discarding -/

/-- `(typeof(addr))(size) - 1` in 64 bits. -/
def alignMask (size : ℕ) : ℕ := (size + (2 ^ 64 - 1)) % 2 ^ 64

/-- `_ALIGN_UP` of an `u64`. -/
def alignUp (addr size : ℕ) : ℕ :=
  (addr + alignMask size) % 2 ^ 64 &&& (2 ^ 64 - 1 - alignMask size)

/-- `_ALIGN_DOWN` of an `u64`. -/
def alignDown (addr size : ℕ) : ℕ := addr &&& (2 ^ 64 - 1 - alignMask size)

/-- `trim_start` and `trim_end`, in logical blocks. -/
def trimRange (sector size logicbSize logicbShift : ℕ) : ℕ × ℕ :=
  (alignUp sector (logicbSize / 512) >>> (logicbShift - 9),
    alignDown ((sector + size >>> 9) % 2 ^ 64) (logicbSize / 512) >>> (logicbShift - 9))

/-! ### Freeing -/

/-- `if (sbio->is_valloc) shannon_sg_vfree(..) else shannon_sg_free(..)`. -/
def sgFreed (sbio : ShannonBio) : Event :=
  .freeSg (if sbio.isValloc then .sgVzalloc else .sgAlloc)

/-- The same under `if (sbio->sg)`. -/
def sgFreedIf (sbio : ShannonBio) : List Event := if sbio.sg.isSome then [sgFreed sbio] else []

/-- `shannon_free_bounce_pages(sbio->sg, sbio->used_sg_count)`. -/
def bouncePagesFreed (sbio : ShannonBio) : Except Oops (List Event) :=
  (shannonFreeBouncePages (sbio.sg.getD []) sbio.usedSgCount).map fun ps => [.freePages ps]

/-! ### Converting -/

/-- What a conversion has taken and given back. -/
def Converted.events (c : Converted) : List Event :=
  (c.sgFrom.map Event.takeSg).toList ++ [.takePages c.taken, .freePages c.freed]

/-- `if (sbio->dma_dir == SHANNON_DMA_TODEVICE) check_and_alloc_lpmt(..)`. -/
def lpmtAllocated (sbio : ShannonBio) : List Event :=
  if sbio.dmaDir = .toDevice then [.allocLpmt] else []

/-- The two conversions of the block layer. -/
structure Converters where
  convertBio : ConvertEnv → Mem → ShannonBio → Bio → ℕ → Except Oops Converted
  convertLreq : Bool → ShannonBio → Lreq → ℕ → Except Oops (ℤ × ShannonBio)

/-- Those of the source. -/
def driverConverters : Converters := ⟨shannonConvertBio, shannonConvertLreq⟩

/-- A call of one of the bio entries: the bio, what it asks for, the block size
of the device, and the outcomes of everything the entry asks for on the way. -/
structure BioCall where
  bio : Bio
  /-- `shannon_bio_data_dir`. -/
  write : Bool
  /-- `shannon_should_trim_bio`. -/
  trim : Bool
  logicbSize : ℕ
  logicbShift : ℕ
  available : Bool
  readonly : Bool
  /-- `pool_used_logicbs(pool) > pool_available_cap(pool) / 8`. -/
  poolTight : Bool
  /-- `check_sbio_is_overwrited`. -/
  overwrited : Bool
  /-- `alloc_sbio`. -/
  sbio : Option ShannonBio
  env : ConvertEnv
  mem : Mem
  /-- `check_and_alloc_lpmt` fails. -/
  lpmtFails : Bool
  /-- There is a `shannon_percpu_wq`. -/
  percpuWq : Bool
  /-- The value the submission returns. -/
  submitRet : ℤ

/-- A call of `shannon_disk_xfer_request`. -/
structure LreqCall where
  lreq : Lreq
  write : Bool
  discard : Bool
  passthrough : Bool
  logicbSize : ℕ
  logicbShift : ℕ
  available : Bool
  readonly : Bool
  sbio : Option ShannonBio
  sgAlloc : Bool
  lpmtFails : Bool
  submitRet : ℤ

/-- The direction both kinds of entry give a new sbio. -/
def withDir (sbio : ShannonBio) (write : Bool) : ShannonBio :=
  { sbio with dmaDir := if write then .toDevice else .fromDevice }

variable (conv : Converters)

/-! ### `shannon_make_request` -/

namespace MakeRequest

/-- The label `free_sbio`. -/
def freeSbio (ret : ℤ) : List Event := [.freeSbio, .bioEndio ret]

/-- The label `free_sg_list`. -/
def freeSgList (sbio : ShannonBio) (ret : ℤ) : Except Oops (List Event) :=
  (if sbio.needBounce then bouncePagesFreed sbio else .ok []).map fun es =>
    es ++ (if sbio.sgCount ≠ 0 then [sgFreed sbio] else []) ++ freeSbio ret

/-- The label `end_io_acct`. -/
def endIoAcct (sbio : ShannonBio) (ret : ℤ) : Except Oops (List Event) :=
  (freeSgList sbio ret).map (.endAcct :: ·)

/-- From the conversion on. -/
def submitConverted (c : BioCall) (done : List Event) (converted : Converted) :
    Except Oops Script :=
  let sbio := converted.sbio
  let done := done ++ converted.events
  let looked := done ++ lpmtAllocated sbio
  if converted.ret ≠ 0 then .ok ⟨done ++ freeSbio converted.ret, .over⟩
  else if sbio.dmaDir = .toDevice ∧ c.lpmtFails then
    (freeSgList sbio (-eio)).map fun es => ⟨looked ++ es, .over⟩
  else if c.percpuWq then
    .ok ⟨looked ++ [.startAcct, .queueWork], .queued false sbio (.bio c.bio)⟩
  else if c.submitRet ≠ 0 then
    (endIoAcct sbio c.submitRet).map fun es =>
      ⟨looked ++ [.startAcct, .submit c.submitRet] ++ es, .over⟩
  else .ok ⟨looked ++ [.startAcct, .submit 0], .core sbio (.bio c.bio)⟩

end MakeRequest

/-- `shannon_make_request`. -/
def shannonMakeRequest (c : BioCall) : Except Oops Script :=
  if !c.available then .ok ⟨[.bioEndio (-eio)], .over⟩
  else if c.trim then
    let (first, last) := trimRange c.bio.biSector c.bio.biSize c.logicbSize c.logicbShift
    .ok ⟨[.discard first last, .bioEndio 0], .over⟩
  else if c.bio.biSize = 0 then .ok ⟨[.bioEndio 0], .over⟩
  else if c.readonly && c.write then .ok ⟨[.bioEndio (-eio)], .over⟩
  else match c.sbio with
    | none => .ok ⟨[.bioEndio (-enomem)], .over⟩
    | some sbio =>
        (conv.convertBio c.env c.mem (withDir sbio c.write) c.bio c.logicbSize).bind
          (MakeRequest.submitConverted c [.allocSbio])

/-! ### `shannon_make_request_ns` -/

namespace MakeRequestNs

/-- The label `free_sbio`. -/
def freeSbio (ret : ℤ) : List Event := [.freeSbio, .bioEndio ret, .decPending]

/-- The label `free_sg_list`. -/
def freeSgList (sbio : ShannonBio) (ret : ℤ) : List Event := sgFreedIf sbio ++ freeSbio ret

/-- The label `end_io_acct`. -/
def endIoAcct (sbio : ShannonBio) (ret : ℤ) : List Event := .endAcct :: freeSgList sbio ret

/-- The write is refused: the namespace is read-only, or its pool is getting
full and the bio would take new blocks. -/
def refused (c : BioCall) : Bool := c.write && (c.readonly || (c.poolTight && !c.overwrited))

/-- From the conversion on. -/
def submitConverted (c : BioCall) (done : List Event) (converted : Converted) : Script :=
  let sbio := converted.sbio
  let done := done ++ converted.events
  let looked := done ++ lpmtAllocated sbio
  if converted.ret ≠ 0 then ⟨done ++ freeSbio converted.ret, .over⟩
  else if sbio.dmaDir = .toDevice ∧ c.lpmtFails then ⟨looked ++ freeSgList sbio (-eio), .over⟩
  else if refused c then ⟨looked ++ freeSgList sbio (-eio), .over⟩
  else if c.percpuWq then ⟨looked ++ [.startAcct, .queueWork], .queued true sbio (.bio c.bio)⟩
  else if c.submitRet ≠ 0 then
    ⟨looked ++ [.startAcct, .submit c.submitRet] ++ endIoAcct sbio c.submitRet, .over⟩
  else ⟨looked ++ [.startAcct, .submit 0], .core sbio (.bio c.bio)⟩

end MakeRequestNs

/-- `shannon_make_request_ns`. -/
def shannonMakeRequestNs (c : BioCall) : Except Oops Script :=
  if !c.available then .ok ⟨[.incPending, .bioEndio (-eio), .decPending], .over⟩
  else if c.trim then
    let (first, last) := trimRange c.bio.biSector c.bio.biSize c.logicbSize c.logicbShift
    .ok ⟨[.incPending, .discard first last, .bioEndio 0, .decPending], .over⟩
  else if c.bio.biSize = 0 then .ok ⟨[.incPending, .bioEndio 0, .decPending], .over⟩
  else match c.sbio with
    | none => .error .nullDeref
    | some sbio =>
        (conv.convertBio c.env c.mem (withDir sbio c.write) c.bio c.logicbSize).map
          (MakeRequestNs.submitConverted c [.incPending, .allocSbio])

/-! ### The work items -/

/-- `submit_sbio_task`; `ret` is what `shannon_submit_bio` returns. -/
def submitSbioTask (sbio : ShannonBio) (origin : Origin) (ret : ℤ) : Script :=
  if ret ≠ 0 then
    ⟨[.submit ret, .endAcct] ++ sgFreedIf sbio ++ [.bioEndio ret, .freeSbio], .over⟩
  else ⟨[.submit 0], .core sbio origin⟩

/-- `submit_sbio_task_ns`; `ret` is what `shannon_submit_bio_throttling_ns`
returns. -/
def submitSbioTaskNs (sbio : ShannonBio) (origin : Origin) (ret : ℤ) : Script :=
  if ret ≠ 0 then
    ⟨[.submit ret, .endAcct] ++ sgFreedIf sbio ++ [.bioEndio ret, .freeSbio, .decPending], .over⟩
  else ⟨[.submit 0], .core sbio origin⟩

/-! ### `shannon_disk_xfer_request` -/

namespace XferRequest

/-- The label `free_sbio`. -/
def freeSbio (ret : ℤ) : Script :=
  if ret = -enomem then ⟨[.freeSbio], .requeue⟩ else ⟨[.freeSbio, .endRequest false], .over⟩

/-- The label `free_sg_list`. -/
def freeSgList (sbio : ShannonBio) (ret : ℤ) : Script :=
  ⟨sgFreedIf sbio ++ (freeSbio ret).events, (freeSbio ret).next⟩

/-- From the conversion on, which has returned `ret` and `sbio`. -/
def submitConverted (c : LreqCall) (ret : ℤ) (sbio : ShannonBio) : Script :=
  let after (done : List Event) (s : Script) : Script := ⟨done ++ s.events, s.next⟩
  let looked := [.allocSbio, .takeSg .sgAlloc] ++ lpmtAllocated sbio
  if ret ≠ 0 then after [.allocSbio] (freeSbio ret)
  else if sbio.dmaDir = .toDevice ∧ c.lpmtFails then after looked (freeSgList sbio (-eio))
  else if c.submitRet ≠ 0 then
    after (looked ++ [.submit c.submitRet]) (freeSgList sbio c.submitRet)
  else ⟨looked ++ [.submit 0], .core sbio .lreq⟩

end XferRequest

/-- `shannon_disk_xfer_request`. -/
def shannonDiskXferRequest (c : LreqCall) : Except Oops Script :=
  if !c.available then .ok ⟨[.endRequest false], .over⟩
  else if c.passthrough then .ok ⟨[.endRequest false], .over⟩
  else if c.discard then
    let (first, last) := trimRange c.lreq.rqPos c.lreq.rqBytes c.logicbSize c.logicbShift
    .ok ⟨[.discard first last, .endRequest true], .over⟩
  else if c.lreq.rqBytes = 0 then .ok ⟨[.endRequest true], .over⟩
  else if c.readonly && c.write then .ok ⟨[.endRequest false], .over⟩
  else match c.sbio with
    | none => .error .nullDeref
    | some sbio =>
        (conv.convertLreq c.sgAlloc (withDir sbio c.write) c.lreq c.logicbSize).map
          fun (ret, sbio) => XferRequest.submitConverted c ret sbio

/-! ### What an entry has done -/

variable {conv}

/-- **The ways of `shannon_make_request`**: it has ended the bio at once, discarded, or
come to the conversion. -/
theorem shannonMakeRequest_cases {c : BioCall} {s : Script}
    (h : shannonMakeRequest conv c = .ok s) :
    (∃ error ∈ [0, -eio, -enomem], s = ⟨[.bioEndio error], .over⟩) ∨
    (c.available = true ∧ c.trim = true ∧ ∃ first last,
      (first, last) = trimRange c.bio.biSector c.bio.biSize c.logicbSize c.logicbShift ∧
        s = ⟨[.discard first last, .bioEndio 0], .over⟩) ∨
    (c.bio.biSize ≠ 0 ∧ ∃ sbio converted, c.sbio = some sbio ∧
      conv.convertBio c.env c.mem (withDir sbio c.write) c.bio c.logicbSize = .ok converted ∧
      MakeRequest.submitConverted c [.allocSbio] converted = .ok s) := by
  unfold shannonMakeRequest at h
  split_ifs at h with hav htrim hsize hro
  · exact .inl ⟨-eio, by simp, (Except.ok.inj h).symm⟩
  · rw [Bool.not_eq_true', Bool.not_eq_false] at hav
    exact .inr (.inl ⟨hav, htrim, _, _, rfl, (Except.ok.inj h).symm⟩)
  · exact .inl ⟨0, by simp, (Except.ok.inj h).symm⟩
  · exact .inl ⟨-eio, by simp, (Except.ok.inj h).symm⟩
  · split at h
    · exact .inl ⟨-enomem, by simp, (Except.ok.inj h).symm⟩
    · next sbio hsbio =>
        obtain ⟨converted, hconv, h⟩ := bind_eq_ok.1 h
        exact .inr (.inr ⟨hsize, sbio, converted, hsbio, hconv, h⟩)

/-- **The ways of `shannon_make_request_ns`.** -/
theorem shannonMakeRequestNs_cases {c : BioCall} {s : Script}
    (h : shannonMakeRequestNs conv c = .ok s) :
    (∃ error ∈ [0, -eio], s = ⟨[.incPending, .bioEndio error, .decPending], .over⟩) ∨
    (c.available = true ∧ c.trim = true ∧ ∃ first last,
      (first, last) = trimRange c.bio.biSector c.bio.biSize c.logicbSize c.logicbShift ∧
        s = ⟨[.incPending, .discard first last, .bioEndio 0, .decPending], .over⟩) ∨
    (c.available = true ∧ c.trim = false ∧ c.bio.biSize ≠ 0 ∧ ∃ sbio converted,
      c.sbio = some sbio ∧
      conv.convertBio c.env c.mem (withDir sbio c.write) c.bio c.logicbSize = .ok converted ∧
      s = MakeRequestNs.submitConverted c [.incPending, .allocSbio] converted) := by
  unfold shannonMakeRequestNs at h
  split_ifs at h with hav htrim hsize
  · exact .inl ⟨-eio, by simp, (Except.ok.inj h).symm⟩
  · rw [Bool.not_eq_true', Bool.not_eq_false] at hav
    exact .inr (.inl ⟨hav, htrim, _, _, rfl, (Except.ok.inj h).symm⟩)
  · exact .inl ⟨0, by simp, (Except.ok.inj h).symm⟩
  · rw [Bool.not_eq_true', Bool.not_eq_false] at hav
    rw [Bool.not_eq_true] at htrim
    split at h
    · cases h
    · next sbio hsbio =>
        obtain ⟨converted, hconv, rfl⟩ := map_eq_ok.1 h
        exact .inr (.inr ⟨hav, htrim, hsize, sbio, converted, hsbio, hconv, rfl⟩)

/-- **The ways of `shannon_disk_xfer_request`.** -/
theorem shannonDiskXferRequest_cases {c : LreqCall} {s : Script}
    (h : shannonDiskXferRequest conv c = .ok s) :
    (∃ good, s = ⟨[.endRequest good], .over⟩) ∨
    (c.available = true ∧ c.passthrough = false ∧ c.discard = true ∧ ∃ first last,
      (first, last) = trimRange c.lreq.rqPos c.lreq.rqBytes c.logicbSize c.logicbShift ∧
        s = ⟨[.discard first last, .endRequest true], .over⟩) ∨
    (c.available = true ∧ c.passthrough = false ∧ c.discard = false ∧ c.lreq.rqBytes ≠ 0 ∧
      ¬ (c.readonly = true ∧ c.write = true) ∧ ∃ sbio ret out, c.sbio = some sbio ∧
      conv.convertLreq c.sgAlloc (withDir sbio c.write) c.lreq c.logicbSize = .ok (ret, out) ∧
      s = XferRequest.submitConverted c ret out) := by
  unfold shannonDiskXferRequest at h
  split_ifs at h with hav hpass hdiscard hsize hro
  · exact .inl ⟨false, (Except.ok.inj h).symm⟩
  · exact .inl ⟨false, (Except.ok.inj h).symm⟩
  · rw [Bool.not_eq_true', Bool.not_eq_false] at hav
    rw [Bool.not_eq_true] at hpass
    exact .inr (.inl ⟨hav, hpass, hdiscard, _, _, rfl, (Except.ok.inj h).symm⟩)
  · exact .inl ⟨true, (Except.ok.inj h).symm⟩
  · exact .inl ⟨false, (Except.ok.inj h).symm⟩
  · rw [Bool.not_eq_true', Bool.not_eq_false] at hav
    rw [Bool.not_eq_true] at hpass hdiscard
    rw [Bool.and_eq_true] at hro
    split at h
    · cases h
    · next sbio hsbio =>
        obtain ⟨⟨ret, out⟩, hconv, rfl⟩ := map_eq_ok.1 h
        exact .inr (.inr ⟨hav, hpass, hdiscard, hsize, hro, sbio, ret, out, hsbio, hconv, rfl⟩)

/-! ### Completion -/

/-- `shannon_complete_fs_io`, with the memory it copies in and `sbio->status`. -/
def shannonCompleteFsIo (mem : Mem) (sbio : ShannonBio) (origin : Origin) (status : ℤ) :
    Except Oops (List Event) :=
  match origin with
  | .bio bio =>
      (if sbio.needBounce then
        (if sbio.dmaDir = .fromDevice then
          (shannonCopyBouncePages mem (bio.segs.map Prod.snd) (sbio.sg.getD []) false).map
            fun _ => [Event.copyBack]
        else .ok []).bind fun es => (bouncePagesFreed sbio).map (es ++ ·)
      else .ok []).map fun es =>
        es ++ [.endAcct, .bioEndio (if status = 0 then 0 else -eio)]
  | .lreq => .ok [.endRequest (status = 0)]

/-- What the core does with an sbio it has accepted: `shannon_complete_fs_io`,
and then it frees the table and the sbio. -/
def coreCompletes (mem : Mem) (sbio : ShannonBio) (origin : Origin) (status : ℤ) :
    Except Oops Script :=
  (shannonCompleteFsIo mem sbio origin status).map fun es =>
    ⟨es ++ sgFreedIf sbio ++ [.freeSbio], .over⟩

end Block
end Shannon
