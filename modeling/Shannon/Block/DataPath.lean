/-
# The way of the data

`shannon_block.c`, the way of the data: `shannon_convert_bio` describes a bio to the device,
through bounce pages where it must, the device moves the bytes between the entries of the table
and its sectors, and `shannon_complete_fs_io` copies what was read out of the bounce pages, frees
them and ends the bio.  Any number of bios are under way at a time, the device takes them in any
order, every allocation may fail, and the core may refuse a bio after its conversion.

`Ideal` is a disk without tables and without bounce pages: the bytes move between the pages of
the bio and the sectors in one step.  That the driver is such a disk is proved in `Block.Disk`; here
are the two machines, what every user of a disk keeps to (`Good`: a page is left alone while a bio
has it), and what one conversion does (`convertBio_accepts`).  The device itself is assumed: it
moves the used entries, in order, to or from the sectors that start at `start_sector`; after an
error any bytes may be there.
-/

import Shannon.Block.Fallback
import Shannon.Lib.Simulation

namespace Shannon
namespace Block
namespace DataPath

open Lib

/-! ### The driver -/

/-- The pages of a bio, byte by byte. -/
def bioBytes (bio : Bio) : List ℕ := (bio.segs.map Prod.snd).flatMap BioVec.bytes

/-- The bytes the device is told to use. -/
def entryBytes (sbio : ShannonBio) : List ℕ := sbio.entries.flatMap Piece.bytes

/-- The bytes of a disk from `sector` on. -/
def sectorBytes (sector size : ℕ) : List ℕ := List.range' (sector * 512) size

/-- A bio under way; `status` is `none` until the device has moved its bytes. -/
structure Flight where
  bio : Bio
  write : Bool
  sbio : ShannonBio
  status : Option ℤ

/-- The memory, the disk, the bios under way, the pages taken from the page allocator, and the
bios that were ended, with their errors. -/
structure State (ι : Type*) where
  mem : Mem
  disk : Mem
  flights : ι → Option Flight
  held : Finset ℕ
  ended : List (ι × ℤ)

/-- What happens. -/
inductive Act (ι : Type*) where
  /-- A bio is submitted. -/
  | submit (i : ι) (write : Bool) (bio : Bio) (env : ConvertEnv)
  /-- The core does not accept the bio, and `shannon_make_request` undoes the conversion. -/
  | refuse (i : ι) (ret : ℤ)
  /-- The device has moved the bytes of a bio; with an error there are any bytes instead. -/
  | transfer (i : ι) (status : ℤ) (noise : List UInt8)
  /-- `shannon_complete_fs_io`. -/
  | complete (i : ι)
  /-- A byte is written by somebody else. -/
  | poke (a : ℕ) (v : UInt8)

/-- `sbio->dma_dir`. -/
def dirOf (write : Bool) : DmaDir := if write then .toDevice else .fromDevice

/-- The bytes a transfer stores. -/
def moved (status : ℤ) (noise bytes : List UInt8) : List UInt8 :=
  if status = 0 then bytes else noise

/-- The memory after `shannon_complete_fs_io`. -/
def completedMem (mem : Mem) (fl : Flight) : Except Oops Mem :=
  if fl.sbio.needBounce = true ∧ fl.sbio.dmaDir = .fromDevice then
    (shannonCopyBouncePages mem (fl.bio.segs.map Prod.snd) (fl.sbio.sg.getD []) false).map
      CopyState.mem
  else .ok mem

/-- The pages that were freed. -/
def freedPages : List Event → List ℕ
  | [] => []
  | .freePages ps :: es => ps ++ freedPages es
  | _ :: es => freedPages es

/-- The errors with which the bio was ended. -/
def endios : List Event → List ℤ
  | [] => []
  | .bioEndio error :: es => error :: endios es
  | _ :: es => endios es

variable {ι : Type*} [DecidableEq ι]

/-- The device moves the bytes of a bio. -/
def State.transferred (s : State ι) (i : ι) (fl : Flight) (status : ℤ) (noise : List UInt8) :
    State ι :=
  let sectors := sectorBytes fl.sbio.startSector (totalLength fl.sbio.entries)
  let entries := entryBytes fl.sbio
  let flights := Function.update s.flights i (some { fl with status := some status })
  match fl.sbio.dmaDir with
  | .toDevice => { s with
      disk := storeAll s.disk sectors (moved status noise (entries.map s.mem))
      flights := flights }
  | .fromDevice => { s with
      mem := storeAll s.mem entries (moved status noise (sectors.map s.disk))
      flights := flights }

/-- One step of the driver, with blocks of `2 ^ k` bytes; `none` if there is no such bio, and on
an oops. -/
def step (k : ℕ) (s : State ι) : Act ι → Option (State ι)
  | .submit i write bio env =>
      match s.flights i, shannonConvertBio env s.mem (freshSbio (dirOf write)) bio (2 ^ k) with
      | none, .ok c =>
          if c.ret ≠ 0 then some { s with ended := s.ended ++ [(i, c.ret)] }
          else some { s with
            mem := c.mem
            flights := Function.update s.flights i (some ⟨bio, write, c.sbio, none⟩)
            held := (s.held ∪ c.taken.toFinset) \ c.freed.toFinset }
      | _, _ => none
  | .refuse i ret =>
      match s.flights i with
      | some fl =>
          match fl.status, MakeRequest.freeSgList fl.sbio ret with
          | none, .ok es => some { s with
              flights := Function.update s.flights i none
              held := s.held \ (freedPages es).toFinset
              ended := s.ended ++ (endios es).map fun error => (i, error) }
          | _, _ => none
      | none => none
  | .transfer i status noise =>
      match s.flights i with
      | some fl => if fl.status = none then some (s.transferred i fl status noise) else none
      | none => none
  | .complete i =>
      (s.flights i).bind fun fl => fl.status.bind fun status =>
        match shannonCompleteFsIo s.mem fl.sbio (.bio fl.bio) status, completedMem s.mem fl with
        | .ok es, .ok mem => some { s with
            mem := mem
            flights := Function.update s.flights i none
            held := s.held \ (freedPages es).toFinset
            ended := s.ended ++ (endios es).map fun error => (i, error) }
        | _, _ => none
  | .poke a v => some { s with mem := Function.update s.mem a v }

/-! ### The disk it should be -/

/-- A bio under way, of which nothing but its status matters. -/
structure Pending where
  bio : Bio
  write : Bool
  status : Option ℤ

/-- The memory, the disk, the bios under way and those that were ended. -/
structure Ideal (ι : Type*) where
  mem : Mem
  disk : Mem
  flights : ι → Option Pending
  ended : List (ι × ℤ)

/-- The bytes of a bio move to or from its sectors. -/
def Ideal.transferred (t : Ideal ι) (i : ι) (fl : Pending) (status : ℤ) (noise : List UInt8) :
    Ideal ι :=
  let sectors := sectorBytes fl.bio.biSector fl.bio.biSize
  let bytes := bioBytes fl.bio
  let flights := Function.update t.flights i (some { fl with status := some status })
  if fl.write then { t with
    disk := storeAll t.disk sectors (moved status noise (bytes.map t.mem))
    flights := flights }
  else { t with
    mem := storeAll t.mem bytes (moved status noise (sectors.map t.disk))
    flights := flights }

/-- One step of the disk.  A bio is refused when there is no memory for a table, and when it has
no pages. -/
def ideal (t : Ideal ι) : Act ι → Option (Ideal ι)
  | .submit i write bio env =>
      match t.flights i with
      | none =>
          if bio.biIoVec = false then some { t with ended := t.ended ++ [(i, -einval)] }
          else if env.sgAlloc = false ∧ env.sgVzalloc = false then
            some { t with ended := t.ended ++ [(i, -enomem)] }
          else some { t with
            flights := Function.update t.flights i (some ⟨bio, write, none⟩) }
      | some _ => none
  | .refuse i ret =>
      match t.flights i with
      | some fl =>
          if fl.status = none then some { t with
            flights := Function.update t.flights i none
            ended := t.ended ++ [(i, ret)] }
          else none
      | none => none
  | .transfer i status noise =>
      match t.flights i with
      | some fl => if fl.status = none then some (t.transferred i fl status noise) else none
      | none => none
  | .complete i =>
      (t.flights i).bind fun fl => fl.status.map fun status : ℤ =>
        { t with
          flights := Function.update t.flights i none
          ended := t.ended ++ [(i, if status = 0 then 0 else -eio)] }
  | .poke a v => some { t with mem := Function.update t.mem a v }

/-! ### What is asked of the others -/

/-- A bio as the block layer submits it: its segments are those `bio_for_each_segment` yields. -/
structure WellFormed (bio : Bio) : Prop where
  segs : ∀ v ∈ bio.segs.map Prod.snd, 0 < v.bvLen ∧ v.bvOffset + v.bvLen ≤ pageSize
  size : ((bio.segs.map Prod.snd).map BioVec.bvLen).sum = bio.biSize
  pos : 0 < bio.biSize

/-- The steps that may be taken.  `user` are the pages that have an owner. -/
def Good (user : ℕ → Prop) (s : State ι) : Act ι → Prop
  | .submit i write bio env =>
      s.flights i = none ∧ WellFormed bio ∧ (∀ a ∈ bioBytes bio, user (a / pageSize)) ∧
      -- two bios that are under way share a byte only if both are writes
      (∀ j fl, s.flights j = some fl →
        (write = true ∧ fl.write = true) ∨ (bioBytes bio).Disjoint (bioBytes fl.bio)) ∧
      -- the page allocator hands out pages nobody has
      (∀ n p, env.allocPage n = some p → ¬user p ∧ p ∉ s.held) ∧
      ∀ n n' p, env.allocPage n = some p → env.allocPage n' = some p → n = n'
  | .refuse i _ => ∃ fl, s.flights i = some fl ∧ fl.status = none
  | .transfer i _ noise =>
      ∃ fl, s.flights i = some fl ∧ fl.status = none ∧ noise.length = fl.bio.biSize
  | .complete i => ∃ fl status, s.flights i = some fl ∧ fl.status = some status
  | .poke a _ =>
      user (a / pageSize) ∧ ∀ j fl, s.flights j = some fl → a ∉ bioBytes fl.bio

/-! ### One conversion -/

theorem length_bioBytes {bio : Bio} (h : WellFormed bio) :
    (bioBytes bio).length = bio.biSize := by
  rw [bioBytes, length_flatMap_bioBytes, h.size]

/-- An sbio whose entries are bounce pages. -/
structure Bounces (sbio : ShannonBio) (size : ℕ) : Prop where
  table : BounceTable (sbio.sg.getD []) sbio.entries
  inPage : ∀ p ∈ sbio.entries, p.InPage
  nodup : (sbio.entries.map Piece.page).Nodup
  total : totalLength sbio.entries = size
  frees : shannonFreeBouncePages (sbio.sg.getD []) sbio.usedSgCount
    = .ok (sbio.entries.map Piece.page)

/-- The direct path, on any table of the size the code computes. -/
theorem oldFashion_entries {k : ℕ} (hk : k ≤ 12) {bio : Bio} (hwf : WellFormed bio)
    (sbio : ShannonBio) {t : SgTable} (ht : EndsLast t) (hsg : sbio.sg = some t)
    (hf : sbio.firstSize = firstSize bio.biSector bio.biSize (2 ^ k))
    (hlen : t.length = 2 * ((bio.biSize + 2 ^ k - 1) / 2 ^ k + bio.segs.length)) :
    ∃ out, oldFashion sbio bio (2 ^ k) = .ok out ∧ out.needBounce = false ∧
      out.dmaDir = sbio.dmaDir ∧ out.startSector = sbio.startSector ∧
      entryBytes out = bioBytes bio := by
  have hlb : 2 ^ k ≤ pageSize := (Nat.pow_le_pow_right (by decide) hk).trans (by decide)
  obtain ⟨ps, r, hps, hdel⟩ := exists_bioPieces bio (show k < 32 by omega) hwf.size
  have hfits := length_bioPieces_le (show k < 32 by omega) hwf.size
    (fun v hv => (hwf.segs v hv).1) (.inl hlb) hps
  rw [← hf] at hps
  obtain ⟨u, -, -, hpieces, hout⟩ := oldFashion_ok sbio ht hsg hps
    (bioPieces_ne_nil hwf.size hwf.pos hdel) (hfits.trans_eq hlen.symm)
  refine ⟨_, hout, rfl, rfl, rfl, ?_⟩
  rw [entryBytes, ShannonBio.entries, Option.getD_some, List.map_take, map_piece_markEnd,
    ← List.map_take, hpieces, hdel.bytes_eq, bioBytes]

/-- **What an accepted conversion leaves behind**: the bytes of the bio are the bytes of the
entries, or the entries are bounce pages, which have them already if they go out. -/
structure Accepted (env : ConvertEnv) (mem : Mem) (dir : DmaDir) (bio : Bio) (c : Converted) :
    Prop where
  ret : c.ret = 0
  dmaDir : c.sbio.dmaDir = dir
  start : c.sbio.startSector = bio.biSector
  taken : ∀ p ∈ c.taken, ∃ n, env.allocPage n = some p
  path : (c.sbio.needBounce = false ∧ entryBytes c.sbio = bioBytes bio ∧ c.mem = mem ∧
      c.freed = c.taken) ∨
    (c.sbio.needBounce = true ∧ Bounces c.sbio bio.biSize ∧
      c.taken = c.sbio.entries.map Piece.page ∧ c.freed = [] ∧
      c.mem = if dir = .toDevice then storeAll mem (entryBytes c.sbio) ((bioBytes bio).map mem)
        else mem)

/-- The copies between a bio and its bounce pages, as one store each. -/
theorem copyBounce_eq {bio : Bio} (hwf : WellFormed bio) {t : SgTable} {es : List Piece}
    (ht : BounceTable t es) (htot : totalLength es = bio.biSize)
    (hdisj : ∀ a ∈ es.flatMap Piece.bytes, a ∉ bioBytes bio) (mem : Mem) (toSg : Bool) :
    ∃ st, shannonCopyBouncePages mem (bio.segs.map Prod.snd) t toSg = .ok st ∧
      st.mem = if toSg then storeAll mem (es.flatMap Piece.bytes) ((bioBytes bio).map mem)
        else storeAll mem (bioBytes bio) ((es.flatMap Piece.bytes).map mem) := by
  have hne : es ≠ [] := by
    rintro rfl
    rw [totalLength_nil] at htot
    exact hwf.pos.ne htot
  obtain ⟨st, cs, hst, -, hmem, hbv, hsg⟩ := shannonCopyBouncePages_ok ht toSg
    (fun v hv => (hwf.segs v hv).1) (hwf.size.trans htot.symm) hne mem
  rw [← bioBytes] at hbv
  refine ⟨st, hst, ?_⟩
  cases toSg with
  | true =>
      change srcs cs = _ at hbv
      change dsts cs = _ at hsg
      rw [hmem, copyAll_eq (by rw [hbv, hsg]; exact fun a ha hd => hdisj a hd ha), hbv, hsg,
        if_pos rfl]
  | false =>
      change dsts cs = _ at hbv
      change srcs cs = _ at hsg
      rw [hmem, copyAll_eq (by rw [hbv, hsg]; exact hdisj), hbv, hsg, if_neg Bool.false_ne_true]

/-- Pages that were handed out have no owner. -/
theorem freshPages_of_user {user : ℕ → Prop} {bio : Bio} {allocPage : ℕ → Option ℕ}
    (hwf : WellFormed bio) (huser : ∀ a ∈ bioBytes bio, user (a / pageSize))
    (hfree : ∀ n p, allocPage n = some p → ¬user p)
    (hinj : ∀ n n' p, allocPage n = some p → allocPage n' = some p → n = n') :
    FreshPages allocPage (bio.segs.map Prod.snd) where
  distinct := hinj
  unused := by
    rintro n _ hp v hv rfl
    obtain ⟨hlen, hend⟩ := hwf.segs v hv
    have hmem : v.bvPage * pageSize + v.bvOffset ∈ v.bytes := by
      rw [BioVec.bytes, List.mem_range'_1]
      omega
    have hpage := div_eq_of_mem_bytes hend hmem
    exact hfree n _ hp (hpage ▸ huser _ (List.mem_flatMap_of_mem hv hmem))

/-- The bounce branch, with its fall-back. -/
theorem convertBounced_accepts {k : ℕ} (hk : k ≤ 12) {bio : Bio} (hwf : WellFormed bio)
    {env : ConvertEnv} (hfresh : FreshPages env.allocPage (bio.segs.map Prod.snd)) (mem : Mem)
    (sbio : ShannonBio) (sgFrom : SgAllocator)
    (hsg : sbio.sg = some (shannonSgInitTable
      (2 * ((bio.biSize + 2 ^ k - 1) / 2 ^ k + bio.segs.length))))
    (hf : sbio.firstSize = firstSize bio.biSector bio.biSize (2 ^ k))
    (hsize : sbio.bioSize = bio.biSize) (hsector : sbio.startSector = bio.biSector)
    (hneed : sbio.needBounce = true) :
    ∃ c, convertBounced env mem sbio bio (2 ^ k) sgFrom = .ok c ∧
      Accepted env mem sbio.dmaDir bio c := by
  have hlb : 2 ^ k ≤ pageSize := (Nat.pow_le_pow_right (by decide) hk).trans (by decide)
  have hfirst : sbio.firstSize < pageSize := by
    rw [hf]
    exact (firstSize_lt (show k < 32 by omega) _ _).trans_le hlb
  have hle : sbio.firstSize ≤ bio.biSize := hf ▸ Nat.min_le_left ..
  obtain ⟨r, hr, hrlen, hres⟩ := shannonAllocBouncePages_spec env.allocPage (endsLast_init _)
    (show bouncePageCnt sbio.firstSize bio.biSize < _ by
      rw [length_init]; exact bouncePageCnt_lt_table _ hwf.size hwf.pos (.inl hlb))
  rw [length_init] at hrlen
  have htaken (h : ∀ j p, r.taken[j]? = some p → env.allocPage j = some p) (p : ℕ)
      (hp : p ∈ r.taken) : ∃ n, env.allocPage n = some p := by
    obtain ⟨j, hj⟩ := List.mem_iff_getElem?.1 hp
    exact ⟨j, h j p hj⟩
  have hr' : shannonAllocBouncePages env.allocPage (sbio.sg.getD []) sbio.firstSize sbio.bioSize
      = .ok r := by
    rw [hsg, hsize]
    exact hr
  rw [convertBounced, hr']
  simp only [Except.bind]
  rcases hres with hb | hfail
  · -- all pages are had
    have hes := hb.entries_eq
    have hpages := map_page_mapIdx sbio.firstSize bio.biSize r.taken
    obtain ⟨hnodup, hdisj⟩ := hb.bytes hfirst hfresh fun v hv => (hwf.segs v hv).2
    have htab := hb.table hfirst
    have htot := totalLength_bounce hle hb.length_taken
    have hret : ¬r.ret ≤ 0 := by
      intro hneg
      have hcnt := hb.ret_eq
      have hzero : r.taken = [] := List.eq_nil_of_length_eq_zero (by rw [hb.length_taken]; omega)
      rw [hzero, List.mapIdx_nil, totalLength_nil] at htot
      exact hwf.pos.ne htot
    rw [if_neg hret]
    set out : ShannonBio := { sbio with sg := some r.table, usedSgCount := r.ret.toNat } with hout
    have hentries : out.entries = r.taken.mapIdx (bouncePiece sbio.firstSize bio.biSize) := hes
    have hbounces : Bounces out bio.biSize := by
      refine ⟨by rw [hentries]; exact htab, ?_, ?_, by rw [hentries]; exact htot, ?_⟩
      · rw [hentries]
        intro p hp
        obtain ⟨i, hi, rfl⟩ := List.mem_mapIdx.1 hp
        exact inPage_bouncePiece hfirst bio.biSize i _
      · rw [hentries, hpages]
        exact hb.nodup_pages hfresh
      · rw [hentries, hpages]
        have hfrees := hb.freeBouncePages
        rwa [← Int.toNat_natCast (bouncePageCnt _ _), ← hb.ret_eq] at hfrees
    obtain ⟨st, hst, hmem⟩ := copyBounce_eq hwf htab htot hdisj mem true
    have hcases : ∃ mem', (if out.dmaDir = .toDevice then
          (shannonCopyBouncePages mem (bio.segs.map Prod.snd) r.table true).map fun st =>
            (⟨0, out, st.mem, some sgFrom, r.taken, r.freed⟩ : Converted)
        else .ok ⟨0, out, mem, some sgFrom, r.taken, r.freed⟩)
          = .ok ⟨0, out, mem', some sgFrom, r.taken, r.freed⟩ ∧
        mem' = if sbio.dmaDir = .toDevice then
            storeAll mem (entryBytes out) ((bioBytes bio).map mem) else mem := by
      by_cases hdir : sbio.dmaDir = .toDevice
      · refine ⟨st.mem, ?_, ?_⟩
        · rw [if_pos hdir, hst]
          rfl
        · rw [hmem, if_pos rfl, if_pos hdir, entryBytes, hentries]
      · exact ⟨mem, if_neg hdir, (if_neg hdir).symm⟩
    obtain ⟨mem', hconv, hmem'⟩ := hcases
    exact ⟨_, hconv, rfl, rfl, hsector, htaken hb.taken_eq,
      .inr ⟨hneed, hbounces, by rw [hentries, hpages], hb.freed_eq, hmem'⟩⟩
  · -- a page is missing, and the direct path goes over the table
    obtain ⟨out, hout, hno, hdir, hstart, hbytes⟩ := oldFashion_entries hk hwf
      { sbio with sg := some r.table } hfail.endsLast rfl hf hrlen
    have hret : r.ret ≤ 0 := by rw [hfail.ret_eq]; decide
    rw [if_pos hret, hout]
    exact ⟨_, rfl, rfl, hdir, hstart.trans hsector, htaken hfail.taken_eq,
      .inl ⟨hno, hbytes, rfl, hfail.freed_eq⟩⟩

/-- **A bio that can have a table is accepted**, whether the bounce pages it needs can be had or
not. -/
theorem convertBio_accepts {k : ℕ} (hk : k ≤ 12) {bio : Bio} (hwf : WellFormed bio)
    {env : ConvertEnv} (hfresh : FreshPages env.allocPage (bio.segs.map Prod.snd))
    (hio : bio.biIoVec = true) (henv : ¬(env.sgAlloc = false ∧ env.sgVzalloc = false))
    (mem : Mem) (dir : DmaDir) :
    ∃ c, shannonConvertBio env mem (freshSbio dir) bio (2 ^ k) = .ok c ∧
      Accepted env mem dir bio c := by
  rw [shannonConvertBio, if_neg (by simp [hio]), if_neg henv]
  dsimp only
  by_cases hbounce : (convertStart env (freshSbio dir) bio (2 ^ k)).needBounce = true
  · rw [if_pos hbounce]
    exact convertBounced_accepts hk hwf hfresh mem
      { convertStart env (freshSbio dir) bio (2 ^ k) with hasHole := false } _ rfl rfl rfl rfl
      hbounce
  · obtain ⟨out, hout, hno, hdir, hsector, hbytes⟩ := oldFashion_entries hk hwf
      (convertStart env (freshSbio dir) bio (2 ^ k)) (endsLast_init _) rfl rfl (length_init _)
    rw [if_neg hbounce, hout]
    exact ⟨_, rfl, rfl, hdir, hsector, fun p hp => absurd hp List.not_mem_nil,
      .inl ⟨hno, hbytes, rfl, rfl⟩⟩

end DataPath
end Block
end Shannon
