/-
# The resource ledger

What the code takes for a bio (bounce pages, the table, the sbio) against what
it gives back, in the system of `Shannon.Block.Ledger` with the conversions of
the source.

The cleanup is written four times.  `shannon_make_request` frees the bounce
pages of an sbio it cannot submit, and so does `shannon_complete_fs_io`;
`shannon_make_request_ns` and both work items do not, so a bio that was bounced
and then fails there keeps its pages for ever (`bounce_pages_leak`).
`resources_released` is what holds of every other run.
-/

import Shannon.Block.Ledger

namespace Shannon
namespace Block

open Lib

/-! ### What was taken and given back -/

/-- The pages an event takes. -/
def Event.pagesTaken : Event → List ℕ
  | .takePages ps => ps
  | _ => []

/-- The pages an event frees. -/
def Event.pagesFreed : Event → List ℕ
  | .freePages ps => ps
  | _ => []

/-- The table an event takes. -/
def Event.tableTaken : Event → Option SgAllocator
  | .takeSg a => some a
  | _ => none

/-- The table an event frees. -/
def Event.tableFreed : Event → Option SgAllocator
  | .freeSg a => some a
  | _ => none

/-- What a list of events has taken and given back. -/
structure Account where
  pagesTaken : List ℕ
  pagesFreed : List ℕ
  tablesTaken : List SgAllocator
  tablesFreed : List SgAllocator
  sbiosTaken : ℕ
  sbiosFreed : ℕ
deriving DecidableEq, Repr

/-- The account of a list of events. -/
def account (es : List Event) : Account where
  pagesTaken := es.flatMap Event.pagesTaken
  pagesFreed := es.flatMap Event.pagesFreed
  tablesTaken := es.filterMap Event.tableTaken
  tablesFreed := es.filterMap Event.tableFreed
  sbiosTaken := es.count .allocSbio
  sbiosFreed := es.count .freeSbio

/-- One account after the other. -/
def Account.append (a b : Account) : Account where
  pagesTaken := a.pagesTaken ++ b.pagesTaken
  pagesFreed := a.pagesFreed ++ b.pagesFreed
  tablesTaken := a.tablesTaken ++ b.tablesTaken
  tablesFreed := a.tablesFreed ++ b.tablesFreed
  sbiosTaken := a.sbiosTaken + b.sbiosTaken
  sbiosFreed := a.sbiosFreed + b.sbiosFreed

theorem account_append (es fs : List Event) :
    account (es ++ fs) = (account es).append (account fs) := by
  simp [account, Account.append]

/-- Everything taken was given back, the same thing, once, and to the allocator
it came from. -/
structure Released (es : List Event) : Prop where
  pages_eq : (account es).pagesFreed = (account es).pagesTaken
  tables_eq : (account es).tablesFreed = (account es).tablesTaken
  sbios_eq : (account es).sbiosFreed = (account es).sbiosTaken

/-- The allocator the table of an sbio is freed to. -/
def sgAllocator (sbio : ShannonBio) : SgAllocator :=
  if sbio.isValloc then .sgVzalloc else .sgAlloc

/-- The bounce pages of an sbio, which `shannon_free_bounce_pages` finds in its
table. -/
def bouncePages (sbio : ShannonBio) : Except Oops (List ℕ) :=
  if sbio.needBounce then shannonFreeBouncePages (sbio.sg.getD []) sbio.usedSgCount else .ok []

/-- What is open is the sbio, its table and its bounce pages. -/
structure Holding (sbio : ShannonBio) (es : List Event) : Prop where
  sg_some : sbio.sg.isSome
  tables_taken : (account es).tablesTaken = [sgAllocator sbio]
  tables_freed : (account es).tablesFreed = []
  sbios_taken : (account es).sbiosTaken = 1
  sbios_freed : (account es).sbiosFreed = 0
  pages_eq : ∃ ps, bouncePages sbio = .ok ps ∧
    (account es).pagesTaken = (account es).pagesFreed ++ ps

/-- The events give back the sbio, its table and its bounce pages, and take
nothing. -/
def Frees (sbio : ShannonBio) (es : List Event) : Prop :=
  ∃ ps, bouncePages sbio = .ok ps ∧ account es = ⟨[], ps, [], [sgAllocator sbio], 0, 1⟩

/-- The events take nothing and give nothing back. -/
def Idle (es : List Event) : Prop := account es = ⟨[], [], [], [], 0, 0⟩

theorem Holding.idle {sbio : ShannonBio} {es : List Event} (h : Holding sbio es) (fs : List Event)
    (hfs : Idle fs) : Holding sbio (es ++ fs) := by
  have happ := account_append es fs
  rw [hfs] at happ
  obtain ⟨ps, hps, hpages⟩ := h.pages_eq
  refine ⟨h.sg_some, ?_, ?_, ?_, ?_, ps, hps, ?_⟩ <;>
    simp [happ, Account.append, h.tables_taken, h.tables_freed, h.sbios_taken, h.sbios_freed,
      hpages]

theorem Holding.released {sbio : ShannonBio} {es fs : List Event} (h : Holding sbio es)
    (hfs : Frees sbio fs) : Released (es ++ fs) := by
  obtain ⟨ps, hps, hfs⟩ := hfs
  obtain ⟨qs, hqs, hpages⟩ := h.pages_eq
  obtain rfl : ps = qs := Except.ok.inj (hps.symm.trans hqs)
  have happ := account_append es fs
  rw [hfs] at happ
  constructor <;>
    simp [happ, Account.append, h.tables_taken, h.tables_freed, h.sbios_taken, h.sbios_freed,
      hpages]

/-! ### The conversion -/

/-- The bio goes through bounce pages: it can be converted, a segment is
misaligned, and the table and all the pages can be had. -/
def Bounces (env : ConvertEnv) (bio : Bio) (logicbSize : ℕ) : Prop :=
  (logicbSize ≠ 0 ∧ bio.biIoVec = true) ∧ (env.sgAlloc = true ∨ env.sgVzalloc = true) ∧
    (bio.segs.any fun x => misaligned x.2) = true ∧
    ∀ i < bouncePageCnt (firstSize bio.biSector bio.biSize logicbSize) bio.biSize,
      (env.allocPage i).isSome

/-- What a conversion that has returned 0 leaves open. -/
structure Opened (c : Converted) : Prop where
  sgFrom_eq : c.sgFrom = some (sgAllocator c.sbio)
  sg_some : c.sbio.sg.isSome
  sgCount_ne : c.sbio.sgCount ≠ 0
  pages_eq : ∃ ps, bouncePages c.sbio = .ok ps ∧ c.taken = c.freed ++ ps

/-- The direct path does not touch what the cleanup reads, and it ends without
bounce pages. -/
theorem fields_of_oldFashion {sbio out : ShannonBio} {bio : Bio} {logicbSize : ℕ}
    (h : oldFashion sbio bio logicbSize = .ok out) :
    out.needBounce = false ∧ out.sg.isSome ∧ out.sgCount = sbio.sgCount ∧
      out.isValloc = sbio.isValloc ∧ out.dmaDir = sbio.dmaDir := by
  obtain ⟨st, -, h⟩ := bind_eq_ok.1 h
  obtain ⟨t, -, rfl⟩ := map_eq_ok.1 h
  exact ⟨rfl, rfl, rfl, rfl, rfl⟩

/-- The direct path, after bounce pages that were all freed again or none. -/
theorem opened_oldFashion {sbio out : ShannonBio} {bio : Bio} {logicbSize : ℕ} (mem : Mem)
    (pages : List ℕ) (h : oldFashion sbio bio logicbSize = .ok out) {a : SgAllocator}
    (ha : a = sgAllocator sbio) (hcount : sbio.sgCount ≠ 0) :
    Opened ⟨0, out, mem, some a, pages, pages⟩ := by
  obtain ⟨hbounce, hsg, hcnt, hvalloc, -⟩ := fields_of_oldFashion h
  refine ⟨by simp [ha, sgAllocator, hvalloc], hsg, hcnt ▸ hcount, [], ?_, (List.append_nil _).symm⟩
  simp [bouncePages, hbounce]

/-- All bounce pages were had. -/
theorem opened_bounced {allocPage : ℕ → Option ℕ} {sbio : ShannonBio} {r : BounceAlloc}
    (mem : Mem) (hb : Bounced allocPage sbio.firstSize sbio.bioSize r)
    (hbounce : sbio.needBounce = true) (hcount : sbio.sgCount ≠ 0) :
    Opened ⟨0, { sbio with sg := some r.table, usedSgCount := r.ret.toNat }, mem,
      some (sgAllocator sbio), r.taken, r.freed⟩ := by
  refine ⟨rfl, rfl, hcount, r.taken, ?_, by rw [hb.freed_eq, List.nil_append]⟩
  simp [bouncePages, hbounce, hb.ret_eq, hb.freeBouncePages]

theorem Bounced.allocPage_isSome {allocPage : ℕ → Option ℕ} {f total : ℕ} {r : BounceAlloc}
    (hb : Bounced allocPage f total r) {i : ℕ} (hi : i < bouncePageCnt f total) :
    (allocPage i).isSome := by
  rw [← hb.length_taken] at hi
  rw [hb.taken_eq i _ (List.getElem?_eq_getElem hi)]
  rfl

/-- The bounce branch keeps all the pages or none, and the first only if all
could be had. -/
theorem convertBounced_opened (sbio : ShannonBio) {env : ConvertEnv} {mem : Mem} {bio : Bio}
    {logicbSize : ℕ} {t : SgTable} {c : Converted} (ht : EndsLast t) (hpos : 0 < t.length)
    (hsg : sbio.sg = some t) (hbounce : sbio.needBounce = true) (hcount : sbio.sgCount ≠ 0)
    (h : convertBounced env mem sbio bio logicbSize (sgAllocator sbio) = .ok c) :
    c.ret = 0 ∧ Opened c ∧ c.sbio.dmaDir = sbio.dmaDir ∧
      (c.sbio.needBounce → ∀ i < bouncePageCnt sbio.firstSize sbio.bioSize,
        (env.allocPage i).isSome) := by
  obtain ⟨r, hr, hcases⟩ := convertBounced_cases h
  rw [hsg, Option.getD_some] at hr
  have hres := shannonAllocBouncePages_ok ht hpos hr
  rcases hcases with ⟨hret, out, hout, rfl⟩ | ⟨hret, mem', rfl⟩
  · -- no page was kept, and the direct path has run
    have hfreed : r.freed = r.taken := by
      rcases hres with hb | hfail
      · have hlen := hb.length_taken
        rw [← Int.natCast_inj, ← hb.ret_eq] at hlen
        rw [hb.freed_eq, List.eq_nil_of_length_eq_zero (l := r.taken) (by omega)]
      · exact hfail.freed_eq
    obtain ⟨hno, -, -, -, hdma⟩ := fields_of_oldFashion hout
    simp only [hfreed]
    exact ⟨trivial, opened_oldFashion mem r.taken hout rfl hcount, hdma,
      fun hb => by simp [hno] at hb⟩
  · have hb := bounced_of_ret_pos ht hpos hr hret
    exact ⟨rfl, opened_bounced mem' hb hbounce hcount, rfl, fun _ i => hb.allocPage_isSome⟩

/-- **What `shannon_convert_bio` takes and keeps.**  For every bio: a conversion
that fails has taken nothing, and one that succeeds has taken the table and
keeps bounce pages only if the bio goes through them. -/
theorem shannonConvertBio_resources {env : ConvertEnv} {mem : Mem} {sbio : ShannonBio} {bio : Bio}
    {logicbSize : ℕ} {c : Converted} (hclean : sbio.needBounce = false ∧ sbio.isValloc = false)
    (hsize : bio.biSize ≠ 0) (h : shannonConvertBio env mem sbio bio logicbSize = .ok c) :
    (c.ret ≠ 0 ∧ c.sgFrom = none ∧ c.taken = [] ∧ c.freed = []) ∨
      (c.ret = 0 ∧ Opened c ∧ c.sbio.dmaDir = sbio.dmaDir ∧
        (c.sbio.needBounce → Bounces env bio logicbSize)) := by
  have hfrom : (if env.sgAlloc then SgAllocator.sgAlloc else .sgVzalloc)
      = sgAllocator (convertStart env sbio bio logicbSize) := by
    simp only [sgAllocator, convertStart, hclean.2]
    cases env.sgAlloc <;> rfl
  rcases shannonConvertBio_cases h with
    ⟨hret, hfailed⟩ | ⟨harg, halloc, ⟨hbounce, h⟩ | ⟨-, out, hout, rfl⟩⟩
  · left
    refine ⟨?_, hfailed⟩
    rcases hret with hret | hret <;> simp [hret, einval, enomem]
  · have hpos := sgCount_pos env sbio (not_or.1 harg).1 hsize
    rw [hfrom] at h
    obtain ⟨hret, hopened, hdma, hpages⟩ := convertBounced_opened
      { convertStart env sbio bio logicbSize with hasHole := false } (endsLast_init _)
      (by rw [length_init]; exact hpos) rfl hbounce hpos.ne' h
    refine .inr ⟨hret, hopened, hdma, fun hb => ⟨by simpa using harg, ?_, ?_, hpages hb⟩⟩
    · simpa [or_iff_not_imp_left] using halloc
    · simpa [convertStart, hclean.1] using hbounce
  · have hpos := sgCount_pos env sbio (not_or.1 harg).1 hsize
    obtain ⟨hno, -, -, -, hdma⟩ := fields_of_oldFashion hout
    rw [hfrom]
    exact .inr ⟨rfl, opened_oldFashion mem [] hout rfl hpos.ne', hdma,
      fun hb => by simp [hno] at hb⟩

/-! ### The scripts -/

@[simp] theorem account_convertedEvents (c : Converted) :
    account c.events = ⟨c.taken, c.freed, c.sgFrom.toList, [], 0, 0⟩ := by
  rw [Converted.events]
  cases c.sgFrom <;>
    simp [account, Event.pagesTaken, Event.pagesFreed, Event.tableTaken, Event.tableFreed]

theorem idle_lpmtAllocated (sbio : ShannonBio) : Idle (lpmtAllocated sbio) := by
  rw [lpmtAllocated]
  split_ifs <;> rfl

/-- After a conversion that returned 0, the sbio is open. -/
theorem Opened.holding {c : Converted} (h : Opened c) (es : List Event)
    (hes : account es = ⟨[], [], [], [], 1, 0⟩) : Holding c.sbio (es ++ c.events) := by
  obtain ⟨ps, hps, hpages⟩ := h.pages_eq
  have happ := account_append es c.events
  rw [hes, account_convertedEvents] at happ
  refine ⟨h.sg_some, ?_, ?_, ?_, ?_, ps, hps, ?_⟩ <;>
    simp [happ, Account.append, h.sgFrom_eq, hpages]

/-- After a conversion that failed, only the sbio was taken. -/
theorem released_of_failed {c : Converted} (h : c.sgFrom = none ∧ c.taken = [] ∧ c.freed = [])
    {es fs : List Event} (hes : account es = ⟨[], [], [], [], 1, 0⟩)
    (hfs : account fs = ⟨[], [], [], [], 0, 1⟩) : Released (es ++ c.events ++ fs) := by
  obtain ⟨hsg, htaken, hfreed⟩ := h
  have happ := account_append (es ++ c.events) fs
  rw [account_append es, hes, hfs, account_convertedEvents, hsg, htaken, hfreed] at happ
  constructor <;> rw [happ] <;> rfl

/-- An event that takes nothing and gives nothing back may come first. -/
theorem Frees.cons {sbio : ShannonBio} {e : Event} {es : List Event} (h : Frees sbio es)
    (he : Idle [e]) : Frees sbio (e :: es) := by
  obtain ⟨ps, hps, hes⟩ := h
  refine ⟨ps, hps, ?_⟩
  rw [← List.singleton_append, account_append, he, hes]
  simp [Account.append]

/-- Without bounce pages it is enough to free the table and the sbio, wherever
that is done among the other events. -/
theorem frees_of_not_bounced {sbio : ShannonBio} (hsg : sbio.sg.isSome)
    (hbounce : sbio.needBounce = false) (es fs : List Event) (hes : Idle es)
    (hfs : account fs = ⟨[], [], [], [], 0, 1⟩) : Frees sbio (es ++ sgFreedIf sbio ++ fs) := by
  refine ⟨[], by simp [bouncePages, hbounce], ?_⟩
  rw [account_append, account_append, hes, hfs, sgFreedIf, if_pos hsg]
  simp [account, Account.append, sgFreed, sgAllocator, Event.pagesTaken, Event.pagesFreed,
    Event.tableTaken, Event.tableFreed]

/-- **The cleanup of `shannon_make_request` frees everything.** -/
theorem frees_devFreeSgList {sbio : ShannonBio} {ret : ℤ} {es : List Event}
    (hcount : sbio.sgCount ≠ 0) (h : MakeRequest.freeSgList sbio ret = .ok es) :
    Frees sbio es := by
  obtain ⟨fs, hfs, rfl⟩ := map_eq_ok.1 h
  rw [if_pos hcount]
  by_cases hbounce : sbio.needBounce = true
  · rw [if_pos hbounce] at hfs
    obtain ⟨ps, hps, rfl⟩ := map_eq_ok.1 hfs
    refine ⟨ps, by rw [bouncePages, if_pos hbounce, hps], ?_⟩
    simp [account, sgFreed, sgAllocator, MakeRequest.freeSbio, Event.pagesTaken, Event.pagesFreed,
      Event.tableTaken, Event.tableFreed, List.filterMap_cons]
  · rw [if_neg hbounce] at hfs
    obtain rfl := Except.ok.inj hfs
    refine ⟨[], by rw [bouncePages, if_neg hbounce], ?_⟩
    simp [account, sgFreed, sgAllocator, MakeRequest.freeSbio, Event.pagesTaken, Event.pagesFreed,
      Event.tableTaken, Event.tableFreed, List.filterMap_cons]

/-- **The completion frees everything**, with what the core frees after it. -/
theorem frees_coreCompletes {sbio : ShannonBio} {mem : Mem} {bio : Bio} {status : ℤ}
    {script : Script} (hsg : sbio.sg.isSome)
    (h : coreCompletes mem sbio (.bio bio) status = .ok script) :
    Frees sbio script.events ∧ script.next = .over := by
  obtain ⟨es, hes, rfl⟩ := map_eq_ok.1 h
  obtain ⟨fs, hfs, rfl⟩ := map_eq_ok.1 hes
  refine ⟨?_, rfl⟩
  suffices ∃ ps, bouncePages sbio = .ok ps ∧ account fs = ⟨[], ps, [], [], 0, 0⟩ by
    obtain ⟨ps, hps, hacc⟩ := this
    refine ⟨ps, hps, ?_⟩
    rw [account_append, account_append, account_append, hacc, sgFreedIf, if_pos hsg]
    simp [account, Account.append, sgFreed, sgAllocator, Event.pagesTaken, Event.pagesFreed,
      Event.tableTaken, Event.tableFreed, List.filterMap_cons]
  by_cases hbounce : sbio.needBounce = true
  · rw [if_pos hbounce] at hfs
    obtain ⟨gs, hgs, hfs⟩ := bind_eq_ok.1 hfs
    obtain ⟨qs, hqs, rfl⟩ := map_eq_ok.1 hfs
    obtain ⟨ps, hps, rfl⟩ := map_eq_ok.1 hqs
    refine ⟨ps, by rw [bouncePages, if_pos hbounce, hps], ?_⟩
    have hidle : Idle gs := by
      split_ifs at hgs with hdir
      · obtain ⟨_, -, rfl⟩ := map_eq_ok.1 hgs
        rfl
      · obtain rfl := Except.ok.inj hgs
        rfl
    rw [account_append, hidle]
    simp [account, Account.append, Event.pagesTaken, Event.pagesFreed, Event.tableTaken,
      Event.tableFreed]
  · rw [if_neg hbounce] at hfs
    obtain rfl := Except.ok.inj hfs
    exact ⟨[], by rw [bouncePages, if_neg hbounce], rfl⟩

/-! ### Every interleaving -/

/-- What a bio has open, by the one who has it. -/
def Accounted (kind : Kind) (es : List Event) (next : Next) : Prop :=
  kind ≠ .lreq → match next with
    | .over => Released es
    | .requeue => True
    | .queued _ sbio origin => Holding sbio es ∧ ∃ bio, origin = .bio bio
    | .core sbio origin => Holding sbio es ∧ ∃ bio, origin = .bio bio

/-- `alloc_sbio` returns an sbio that is clean. -/
def BioCall.Clean (c : BioCall) : Prop :=
  ∀ sbio, c.sbio = some sbio → sbio.needBounce = false ∧ sbio.isValloc = false

theorem BioCall.Clean.withDir {c : BioCall} (h : c.Clean) {sbio : ShannonBio}
    (hsbio : c.sbio = some sbio) :
    (withDir sbio c.write).needBounce = false ∧ (withDir sbio c.write).isValloc = false :=
  h sbio hsbio

/-- `shannon_make_request_ns` comes to the conversion. -/
def MakeRequestNs.converts (c : BioCall) : Bool :=
  c.available && !c.trim && decide (c.bio.biSize ≠ 0)

/-- `shannon_make_request_ns` fails after the conversion. -/
def MakeRequestNs.fails (c : BioCall) : Bool :=
  (c.write && c.lpmtFails) || MakeRequestNs.refused c || (!c.percpuWq && decide (c.submitRet ≠ 0))

theorem accounted_over {kind : Kind} {es : List Event} (h : Released es) :
    Accounted kind es .over := fun _ => h

theorem released_of_idle {es : List Event} (h : Idle es) : Released es := by
  rw [Idle] at h
  constructor <;> rw [h]

theorem accounted_submitConverted {c : BioCall} {converted : Converted} {script : Script}
    (h : MakeRequest.submitConverted c [.allocSbio] converted = .ok script)
    (hconv : (converted.ret ≠ 0 ∧ converted.sgFrom = none ∧ converted.taken = [] ∧
      converted.freed = []) ∨ (converted.ret = 0 ∧ Opened converted)) :
    Accounted .dev script.events script.next := by
  simp only [MakeRequest.submitConverted] at h
  rcases hconv with ⟨hret, hfail⟩ | ⟨hret, hopened⟩
  · rw [if_pos hret] at h
    obtain rfl := Except.ok.inj h
    exact accounted_over (released_of_failed hfail rfl rfl)
  · have hholding := (hopened.holding [.allocSbio] rfl).idle _ (idle_lpmtAllocated converted.sbio)
    rw [if_neg (not_not.2 hret)] at h
    split_ifs at h with hlpmt hwq hsub
    · obtain ⟨es, hes, rfl⟩ := map_eq_ok.1 h
      exact accounted_over (hholding.released (frees_devFreeSgList hopened.sgCount_ne hes))
    · obtain rfl := Except.ok.inj h
      exact fun _ => ⟨hholding.idle _ rfl, _, rfl⟩
    · obtain ⟨es, hes, rfl⟩ := map_eq_ok.1 h
      obtain ⟨fs, hfs, rfl⟩ := map_eq_ok.1 hes
      exact accounted_over ((hholding.idle [.startAcct, .submit c.submitRet] rfl).released
        ((frees_devFreeSgList hopened.sgCount_ne hfs).cons rfl))
    · obtain rfl := Except.ok.inj h
      exact fun _ => ⟨hholding.idle _ rfl, _, rfl⟩

theorem accounted_makeRequest {c : BioCall} {script : Script} (hclean : c.Clean)
    (h : shannonMakeRequest driverConverters c = .ok script) :
    Accounted .dev script.events script.next := by
  obtain ⟨error, -, rfl⟩ | ⟨-, -, first, last, -, rfl⟩ |
      ⟨hsize, sbio, converted, hsbio, hconv, h⟩ := shannonMakeRequest_cases h
  · exact accounted_over (released_of_idle rfl)
  · exact accounted_over (released_of_idle rfl)
  · refine accounted_submitConverted h ?_
    rcases shannonConvertBio_resources (hclean.withDir hsbio) hsize hconv with
      hfail | ⟨hret, ho, -, -⟩
    · exact .inl hfail
    · exact .inr ⟨hret, ho⟩

theorem accounted_submitConvertedNs {c : BioCall} {converted : Converted}
    (hconv : (converted.ret ≠ 0 ∧ converted.sgFrom = none ∧ converted.taken = [] ∧
      converted.freed = []) ∨ (converted.ret = 0 ∧ Opened converted ∧
        (converted.sbio.dmaDir = .toDevice → c.write = true) ∧
        (converted.sbio.needBounce → MakeRequestNs.fails c = false))) :
    Accounted .ns (MakeRequestNs.submitConverted c [.incPending, .allocSbio] converted).events
      (MakeRequestNs.submitConverted c [.incPending, .allocSbio] converted).next := by
  simp only [MakeRequestNs.submitConverted]
  rcases hconv with ⟨hret, hfail⟩ | ⟨hret, hopened, hdma, hleak⟩
  · rw [if_pos hret]
    exact accounted_over (released_of_failed hfail rfl rfl)
  · have hholding := (hopened.holding [.incPending, .allocSbio] rfl).idle _
      (idle_lpmtAllocated converted.sbio)
    rw [if_neg (not_not.2 hret)]
    -- a failing exit comes without bounce pages, and then the cleanup is enough
    have hfrees : MakeRequestNs.fails c = true →
        ∀ ret, Frees converted.sbio (MakeRequestNs.freeSgList converted.sbio ret) := by
      intro hfails ret
      have hbounce : converted.sbio.needBounce = false := by
        by_contra hb
        simp [hleak (by simpa using hb)] at hfails
      exact frees_of_not_bounced hopened.sg_some hbounce [] _ rfl rfl
    split_ifs with hlpmt hrefused hwq hsub
    · refine accounted_over (hholding.released (hfrees ?_ _))
      simp [MakeRequestNs.fails, hdma hlpmt.1, hlpmt.2]
    · refine accounted_over (hholding.released (hfrees ?_ _))
      simp [MakeRequestNs.fails, hrefused]
    · exact fun _ => ⟨hholding.idle _ rfl, _, rfl⟩
    · refine accounted_over ((hholding.idle [.startAcct, .submit c.submitRet] rfl).released
        ((hfrees ?_ _).cons rfl))
      simp [MakeRequestNs.fails, hwq, hsub]
    · exact fun _ => ⟨hholding.idle _ rfl, _, rfl⟩

theorem accounted_makeRequestNs {c : BioCall} {script : Script} (hclean : c.Clean)
    (hleak : MakeRequestNs.converts c = true → Bounces c.env c.bio c.logicbSize →
      MakeRequestNs.fails c = false)
    (h : shannonMakeRequestNs driverConverters c = .ok script) :
    Accounted .ns script.events script.next := by
  obtain ⟨error, -, rfl⟩ | ⟨-, -, first, last, -, rfl⟩ |
      ⟨hav, htrim, hsize, sbio, converted, hsbio, hconv, rfl⟩ := shannonMakeRequestNs_cases h
  · exact accounted_over (released_of_idle rfl)
  · exact accounted_over (released_of_idle rfl)
  · refine accounted_submitConvertedNs ?_
    rcases shannonConvertBio_resources (hclean.withDir hsbio) hsize hconv with
      hfail | ⟨hret, ho, hdma, hb⟩
    · exact .inl hfail
    · have hconverts : MakeRequestNs.converts c = true := by
        simp [MakeRequestNs.converts, hav, htrim, hsize]
      refine .inr ⟨hret, ho, fun hdir => ?_, fun hn => hleak hconverts (hb hn)⟩
      rw [hdma, Block.withDir] at hdir
      by_contra hw
      simp [hw] at hdir

/-- The sbio of the call is clean. -/
def Act.Clean : Act → Prop
  | .makeRequest c => c.Clean
  | .makeRequestNs c => c.Clean
  | _ => True

/-- **The condition.**  A bio that is converted through bounce pages does not fail
in `shannon_make_request_ns` after its conversion, and an sbio that has bounce pages
does not fail in a work item. -/
def NoFailureAfterBounce (s : State) (l : ℕ × Act) : Prop :=
  match l.2 with
  | .makeRequestNs c => MakeRequestNs.converts c = true → Bounces c.env c.bio c.logicbSize →
      MakeRequestNs.fails c = false
  | .work ret => ∀ ns sbio origin, (s.jobs l.1).stage = .resting (.queued ns sbio origin) →
      sbio.needBounce = true → ret = 0
  | _ => True

/-- A work item, on an sbio without bounce pages or with a submission that is
accepted. -/
theorem accounted_work {kind : Kind} {es : List Event} {ns : Bool} {sbio : ShannonBio}
    {origin : Origin} {ret : ℤ} (h : Accounted kind es (.queued ns sbio origin))
    (hleak : sbio.needBounce = true → ret = 0) :
    Accounted kind (es ++ (if ns then submitSbioTaskNs sbio origin ret
      else submitSbioTask sbio origin ret).events)
      (if ns then submitSbioTaskNs sbio origin ret else submitSbioTask sbio origin ret).next := by
  intro hkind
  obtain ⟨hholding, bio, rfl⟩ := h hkind
  by_cases hret : ret = 0
  · subst hret
    cases ns <;> exact ⟨hholding.idle _ rfl, bio, rfl⟩
  · have hbounce : sbio.needBounce = false := by
      by_contra hb
      exact hret (hleak (by simpa using hb))
    have hfrees := fun fs : List Event =>
      frees_of_not_bounced hholding.sg_some hbounce [.submit ret, .endAcct] fs rfl
    cases ns
    · simp only [submitSbioTask, if_pos hret]
      exact hholding.released (hfrees _ rfl)
    · simp only [submitSbioTaskNs, if_pos hret]
      exact hholding.released (hfrees _ rfl)

theorem accounted_of_codeFor {s : State} {b : ℕ} {a : Act} (hj : (s.jobs b).Keeps Accounted)
    (hclean : a.Clean) (hleak : NoFailureAfterBounce s (b, a)) {kind : Kind} {script : Script}
    (h : codeFor driverConverters (s.jobs b).stage (s.jobs b).kind a = some (kind, .ok script)) :
    Accounted kind ((s.jobs b).done ++ script.events) script.next := by
  rcases codeFor_cases h with ⟨hstage, hentry⟩ | ⟨ns, sbio, origin, ret, hstage, rfl, rfl, rfl⟩ |
    ⟨sbio, origin, mem, status, hstage, rfl, rfl, hscript⟩ <;> rw [Job.Keeps, hstage] at hj
  · rw [hj.1, List.nil_append]
    rcases hentry with ⟨c, rfl, rfl, hc⟩ | ⟨c, rfl, rfl, hc⟩ | ⟨c, rfl, rfl, hc⟩
    · exact accounted_makeRequest hclean hc
    · exact accounted_makeRequestNs hclean hleak hc
    · exact fun hkind => absurd rfl hkind
  · exact accounted_work hj.2 (hleak ns sbio origin hstage)
  · intro hkind
    obtain ⟨hholding, bio, rfl⟩ := hj.2 hkind
    obtain ⟨hfrees, hover⟩ := frees_coreCompletes hholding.sg_some hscript
    rw [hover]
    exact hholding.released hfrees

/-- **The resource ledger.**  For the conversions of the source and any bios: in
every run in which no bio fails in the namespace entry after it was converted
through bounce pages, and no work item fails to submit an sbio that has bounce
pages, every bio that has been ended, and that no script runs for, has given
back exactly what was taken for it: every bounce page, the table, to the
allocator it came from, and the sbio. -/
theorem resources_released {labels : List (ℕ × Act)} {s : State}
    (hclean : ∀ l ∈ labels, l.2.Clean)
    (hleak : Along (step driverConverters) NoFailureAfterBounce State.init labels)
    (hrun : run (step driverConverters) State.init labels = some s) :
    ∀ b next, (s.jobs b).kind ≠ .lreq → (s.jobs b).stage = .resting next →
      0 < ends (s.jobs b).done → Released (s.jobs b).done := by
  have hcourse : Inv s := run_invariant (fun _ _ _ hs h => inv_step hs h) inv_init hrun
  have hkeeps : ∀ b, (s.jobs b).Keeps Accounted := by
    refine run_invariant_along ?_ (I := fun s => ∀ b, (s.jobs b).Keeps Accounted)
      (fun _ => ⟨rfl, rfl⟩) (hleak.and_forall hclean) hrun
    rintro s ⟨b, a⟩ t hs ⟨hgood, hcl⟩ hstep
    obtain ⟨j', e, hj, rfl⟩ := step_eq_some hstep
    exact forall_update hs
      ((hs b).jobStep hj fun _ _ hc => accounted_of_codeFor (hs b) hcl hgood hc)
  intro b next hkind hstage hend
  have hover : next = .over := by
    by_contra hne
    rw [((hcourse.keeps b).rest hstage).1, if_neg hne] at hend
    exact absurd hend (lt_irrefl 0)
  have hb := hkeeps b
  rw [Job.Keeps, hstage, hover] at hb
  exact hb.2 hkind

/-- A read of one sector into memory that is not aligned. -/
def bouncedBio : Bio := { plainBio with segs := [(0, ⟨9, 4, 512⟩)] }

/-- The bio comes in through a namespace, a work item submits it, and the core
completes it. -/
def completedBounce : List (ℕ × Act) :=
  (7, .makeRequestNs (plainCall bouncedBio)) :: List.replicate 8 (7, .tick) ++
    (7, .work 0) :: List.replicate 2 (7, .tick) ++
    (7, .complete (fun _ => 0) 0) :: List.replicate 7 (7, .tick)

/-- The hypotheses of `resources_released` are satisfiable: the bio takes the
page 100 as bounce page, it is completed, and the page has been freed. -/
theorem resources_released_completedBounce :
    ∃ s, run (step driverConverters) State.init completedBounce = some s ∧
      (account (s.jobs 7).done).pagesTaken = [100] ∧
      (account (s.jobs 7).done).pagesFreed = [100] := by
  obtain ⟨s, hs⟩ : ∃ s, run (step driverConverters) State.init completedBounce = some s :=
    Option.isSome_iff_exists.1 rfl
  have hjob : (run (step driverConverters) State.init completedBounce).map
      (fun s => ((s.jobs 7).kind, (s.jobs 7).stage, ends (s.jobs 7).done,
        (account (s.jobs 7).done).pagesTaken)) = some (.ns, .resting .over, 1, [100]) := rfl
  rw [hs, Option.map_some, Option.some.injEq, Prod.mk.injEq, Prod.mk.injEq, Prod.mk.injEq] at hjob
  obtain ⟨hkind, hstage, hend, htaken⟩ := hjob
  have hclean : ∀ l ∈ completedBounce, l.2.Clean := by
    simp [completedBounce, Act.Clean, BioCall.Clean, plainCall, freshSbio]
  have hleak : Along (step driverConverters) NoFailureAfterBounce State.init completedBounce := by
    refine along_of_forall (fun l hl s => ?_) _
    simp only [completedBounce, List.mem_append, List.mem_cons, List.mem_replicate] at hl
    rcases hl with ((rfl | ⟨-, rfl⟩) | rfl | ⟨-, rfl⟩) | rfl | ⟨-, rfl⟩
    · exact fun _ _ => rfl
    · trivial
    · exact fun _ _ _ _ _ => rfl
    · trivial
    · trivial
    · trivial
  have h := resources_released hclean hleak hs 7 .over (by simp [hkind]) hstage (by omega)
  exact ⟨s, hs, htaken, by rw [h.pages_eq, htaken]⟩

/-- **Bounce pages leak.**  The bio is misaligned and comes in through a
namespace; it is bounced through the page 100, the submission by the work item
fails, the bio is ended, and nobody has freed the page. -/
theorem bounce_pages_leak :
    (∀ l ∈ failedWork bouncedBio, l.2.Clean) ∧
    ∃ s, run (step driverConverters) State.init (failedWork bouncedBio) = some s ∧
      (s.jobs 7).kind = .ns ∧ (s.jobs 7).stage = .resting .over ∧ ends (s.jobs 7).done = 1 ∧
      (account (s.jobs 7).done).pagesTaken = [100] ∧
      (account (s.jobs 7).done).pagesFreed = [] ∧ ¬ Released (s.jobs 7).done := by
  refine ⟨by simp [failedWork, Act.Clean, BioCall.Clean, plainCall, freshSbio], ?_⟩
  obtain ⟨s, hs⟩ : ∃ s, run (step driverConverters) State.init (failedWork bouncedBio) = some s :=
    Option.isSome_iff_exists.1 rfl
  have hjob : (run (step driverConverters) State.init (failedWork bouncedBio)).map
      (fun s => ((s.jobs 7).kind, (s.jobs 7).stage, ends (s.jobs 7).done,
        (account (s.jobs 7).done).pagesTaken, (account (s.jobs 7).done).pagesFreed))
      = some (.ns, .resting .over, 1, [100], []) := rfl
  rw [hs, Option.map_some, Option.some.injEq] at hjob
  simp only [Prod.mk.injEq] at hjob
  obtain ⟨hkind, hstage, hend, htaken, hfreed⟩ := hjob
  refine ⟨s, hs, hkind, hstage, hend, htaken, hfreed, fun h => ?_⟩
  have := h.pages_eq
  simp [htaken, hfreed] at this

end Block
end Shannon
