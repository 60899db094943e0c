/-
# A disk under any interleaving

`shannon_block.c`: the conversions, the device and the completions of `Block.DataPath` are a disk
(`dataPath_refines`), whatever the order in which they are taken.  There is one lemma for each
step; a read into the pages of the bio and a read into bounce pages differ, and so do the two ways
in which a bio is accepted.
-/

import Shannon.Block.Flights

namespace Shannon
namespace Block
namespace DataPath

open Lib

variable {ι : Type*} [DecidableEq ι]
variable {user : ℕ → Prop} {s : State ι} {t : Ideal ι} {mem tmem : Mem} {fl : Flight}

/-! ### The steps -/

omit [DecidableEq ι] in
/-- The same flight with another status. -/
theorem Refines.changes_status (h : Refines user s t) {i : ι} (hi : s.flights i = some fl)
    {status : Option ℤ}
    (hother : ∀ j fl', j ≠ i → s.flights j = some fl' → FlightOk user mem tmem fl')
    (hok : FlightOk user mem tmem { fl with status := status })
    (hagree : ∀ a, user (a / pageSize) →
      (∀ j fl', j ≠ i → s.flights j = some fl' → fl'.Hidden → a ∉ bioBytes fl'.bio) →
      (({ fl with status := status } : Flight).Hidden → a ∉ bioBytes fl.bio) →
      mem a = tmem a) :
    Changes user s i (some { fl with status := status }) mem tmem s.held where
  other := hother
  ok := by
    rintro _ ⟨⟩
    exact hok
  apart := by
    rintro _ ⟨⟩ j fl' hne hj
    exact h.apart i j fl fl' hne.symm hi hj
  pages := by
    rintro _ ⟨⟩ j fl' hne hj
    exact h.pages i j fl fl' hne.symm hi hj
  held := by
    intro p
    rw [h.held_iff i]
    refine or_congr_right ⟨?_, ?_⟩
    · rintro ⟨fl', hfl', hp⟩
      obtain rfl := Option.some.inj (hi.symm.trans hfl')
      exact ⟨_, rfl, hp⟩
    · rintro ⟨_, ⟨⟩, hp⟩
      exact ⟨fl, hi, hp⟩
  foreign := by
    rintro _ ⟨⟩ p hp
    exact h.foreign p ((h.held p).2 ⟨i, fl, hi, hp⟩)
  agree := by
    intro a ha hothers hnext
    exact hagree a ha hothers (hnext _ rfl)

omit [DecidableEq ι] in
/-- The flight ends, and its pages are freed. -/
theorem Refines.changes_end (h : Refines user s t) {i : ι} (hi : s.flights i = some fl)
    (hother : ∀ j fl', j ≠ i → s.flights j = some fl' → FlightOk user mem t.mem fl')
    (hagree : ∀ a, user (a / pageSize) →
      (∀ j fl', j ≠ i → s.flights j = some fl' → fl'.Hidden → a ∉ bioBytes fl'.bio) →
      mem a = t.mem a) :
    Changes user s i none mem t.mem (s.held \ fl.pages.toFinset) where
  other := hother
  ok := by
    rintro _ ⟨⟩
  apart := by
    rintro _ ⟨⟩
  pages := by
    rintro _ ⟨⟩
  held := by
    intro p
    rw [Finset.mem_sdiff, List.mem_toFinset, h.held_iff i]
    constructor
    · rintro ⟨hj | ⟨fl', hfl', hp⟩, hnot⟩
      · exact .inl hj
      · obtain rfl := Option.some.inj (hi.symm.trans hfl')
        exact absurd hp hnot
    · rintro (⟨j, fl', hne, hj, hp⟩ | ⟨_, ⟨⟩, -⟩)
      refine ⟨.inl ⟨j, fl', hne, hj, hp⟩, fun hmem => ?_⟩
      exact h.pages i j fl fl' hne.symm hi hj hmem hp
  foreign := by
    rintro _ ⟨⟩
  agree := by
    intro a ha hothers _
    exact hagree a ha hothers

omit [DecidableEq ι] in
/-- A flight that hides nothing keeps its bytes in agreement. -/
theorem Refines.agree_of_shown (h : Refines user s t) {i : ι} (hi : s.flights i = some fl)
    (hshown : ¬fl.Hidden) {a : ℕ} (ha : user (a / pageSize))
    (hothers : ∀ j fl', j ≠ i → s.flights j = some fl' → fl'.Hidden → a ∉ bioBytes fl'.bio) :
    s.mem a = t.mem a := by
  refine h.agree a ha fun j fl' hj hhidden => ?_
  rcases eq_or_ne j i with rfl | hne
  · obtain rfl := Option.some.inj (hi.symm.trans hj)
    exact absurd hhidden hshown
  · exact hothers j fl' hne hj hhidden

omit [DecidableEq ι] in
/-- What goes out is what the owner wrote. -/
theorem Refines.outgoing_eq (h : Refines user s t) {i : ι} (hi : s.flights i = some fl)
    (hwrite : fl.write = true) (hnone : fl.status = none) :
    (entryBytes fl.sbio).map s.mem = (bioBytes fl.bio).map t.mem := by
  have hok := h.ok i fl hi
  cases hb : fl.sbio.needBounce with
  | true => exact hok.outgoing hb hwrite hnone
  | false =>
      rw [hok.direct hb]
      refine List.map_congr_left fun a ha => ?_
      refine h.agree_of_shown hi (Flight.shown_of_none hnone) (hok.user a ha) ?_
      intro j fl' hne hj hh hmem
      exact h.disjoint_of_read hne.symm hj hi hh.2.1 ha hmem

omit [DecidableEq ι] in
/-- A read into the pages of the bio. -/
theorem Refines.changes_direct (h : Refines user s t) {i : ι} {status : ℤ} {data : List UInt8}
    (hi : s.flights i = some fl) (hnone : fl.status = none) (hread : fl.write = false)
    (hb : fl.sbio.needBounce = false) (hlen : (bioBytes fl.bio).length = data.length) :
    Changes user s i (some { fl with status := some status })
      (storeAll s.mem (bioBytes fl.bio) data) (storeAll t.mem (bioBytes fl.bio) data)
      s.held := by
  have hok := h.ok i fl hi
  refine h.changes_status hi (fun j fl' hne hj => (h.ok j fl' hj).frame ?_ ?_) ?_ ?_
  · intro hb' a ha
    exact storeAll_of_notMem (h.entry_notMem hj hb' ha hok.user) ..
  · intro a ha
    exact storeAll_of_notMem (h.disjoint_of_read hne hi hj hread ha) ..
  · refine ⟨hok.dmaDir, hok.start, hok.wf, hok.user, hok.direct, hok.bounced, ?_, ?_⟩
    · intro hb'
      exact absurd (hb.symm.trans hb') Bool.false_ne_true
    · intro hh
      exact absurd (hb.symm.trans hh.1) Bool.false_ne_true
  · intro a ha hothers _
    by_cases hmem : a ∈ bioBytes fl.bio
    · exact storeAll_congr hlen hmem ..
    · rw [storeAll_of_notMem hmem, storeAll_of_notMem hmem]
      exact h.agree_of_shown hi (Flight.shown_of_none hnone) ha hothers

omit [DecidableEq ι] in
/-- A read into bounce pages. -/
theorem Refines.changes_bounced (h : Refines user s t) {i : ι} {status : ℤ} {data : List UInt8}
    (hi : s.flights i = some fl) (hnone : fl.status = none) (hread : fl.write = false)
    (hb : fl.sbio.needBounce = true) (hlen : (bioBytes fl.bio).length = data.length) :
    Changes user s i (some { fl with status := some status })
      (storeAll s.mem (entryBytes fl.sbio) data) (storeAll t.mem (bioBytes fl.bio) data)
      s.held := by
  have hok := h.ok i fl hi
  have hbounces := hok.bounced hb
  have hnodup : (entryBytes fl.sbio).Nodup := nodup_flatMap_bytes hbounces.inPage hbounces.nodup
  have hlen' : (entryBytes fl.sbio).length = data.length := by
    rw [hok.length_entryBytes, ← hlen, length_bioBytes hok.wf]
  refine h.changes_status hi (fun j fl' hne hj => (h.ok j fl' hj).frame ?_ ?_) ?_ ?_
  · intro hb' a ha
    refine storeAll_of_notMem (fun hmem => ?_) ..
    exact h.pages j i fl' fl hne hj hi ((h.ok j fl' hj).page_mem hb' ha) (hok.page_mem hb hmem)
  · intro a ha
    exact storeAll_of_notMem (h.disjoint_of_read hne hi hj hread ha) ..
  · refine ⟨hok.dmaDir, hok.start, hok.wf, hok.user, hok.direct, hok.bounced, ?_, ?_⟩
    · intro _ hwrite
      exact absurd (hread.symm.trans hwrite) Bool.false_ne_true
    · intro _ a ha
      show _ = storeAll _ _ ((entryBytes fl.sbio).map _) a
      rw [map_storeAll hnodup hlen']
      exact storeAll_congr hlen ha ..
  · intro a ha hothers hnext
    have hmem : a ∉ bioBytes fl.bio := hnext ⟨hb, hread, rfl⟩
    have hentry : a ∉ entryBytes fl.sbio := fun hmem => h.not_user hi hb hmem ha
    rw [storeAll_of_notMem hmem, storeAll_of_notMem hentry]
    exact h.agree_of_shown hi (Flight.shown_of_none hnone) ha hothers

/-- **The device moves the bytes of a bio.** -/
theorem transfer_refines (h : Refines user s t) {i : ι} (status : ℤ) {noise : List UInt8}
    (hi : s.flights i = some fl) (hnone : fl.status = none)
    (hnoise : noise.length = fl.bio.biSize) :
    Refines user (s.transferred i fl status noise)
      (t.transferred i fl.pending status noise) := by
  have hok := h.ok i fl hi
  have hsectors : sectorBytes fl.sbio.startSector (totalLength fl.sbio.entries)
      = sectorBytes fl.bio.biSector fl.bio.biSize := by
    rw [hok.start, hok.totalLength_entries]
  cases hw : fl.write with
  | true =>
      have hdir : fl.sbio.dmaDir = .toDevice := by rw [hok.dmaDir, hw]; rfl
      have hchanges : Changes user s i (some { fl with status := some status }) s.mem t.mem
          s.held := by
        refine h.changes_status hi (fun j fl' _ hj => h.ok j fl' hj) ?_ ?_
        · refine ⟨hok.dmaDir, hok.start, hok.wf, hok.user, hok.direct, hok.bounced, ?_, ?_⟩
          · rintro - - ⟨⟩
          · intro hh
            exact absurd (hh.2.1.symm.trans hw) Bool.false_ne_true
        · intro a ha hothers _
          exact h.agree_of_shown hi (Flight.shown_of_none hnone) ha hothers
      have hr := h.update hchanges (storeAll t.disk (sectorBytes fl.bio.biSector fl.bio.biSize)
        (moved status noise ((bioBytes fl.bio).map t.mem))) t.ended
      simp only [State.transferred, Ideal.transferred, hdir, Flight.pending, hw, hsectors,
        h.outgoing_eq hi hw hnone, h.disk, h.ended, if_true]
      simpa only [Option.map_some, Flight.pending, hw] using hr
  | false =>
      have hdir : fl.sbio.dmaDir = .fromDevice := by rw [hok.dmaDir, hw]; rfl
      have hlen : (bioBytes fl.bio).length = (moved status noise
          ((sectorBytes fl.bio.biSector fl.bio.biSize).map t.disk)).length := by
        rw [length_bioBytes hok.wf, moved]
        split_ifs
        · simp [sectorBytes]
        · exact hnoise.symm
      have hchanges : Changes user s i (some { fl with status := some status })
          (storeAll s.mem (entryBytes fl.sbio) (moved status noise
            ((sectorBytes fl.bio.biSector fl.bio.biSize).map t.disk)))
          (storeAll t.mem (bioBytes fl.bio) (moved status noise
            ((sectorBytes fl.bio.biSector fl.bio.biSize).map t.disk))) s.held := by
        cases hb : fl.sbio.needBounce with
        | true => exact h.changes_bounced hi hnone hw hb hlen
        | false =>
            rw [hok.direct hb]
            exact h.changes_direct hi hnone hw hb hlen
      have hr := h.update hchanges t.disk t.ended
      simp only [State.transferred, Ideal.transferred, hdir, Flight.pending, hw, hsectors, h.disk,
        h.ended, Bool.false_eq_true, if_false]
      simpa only [Option.map_some, Flight.pending, hw] using hr

/-- What the completion of a flight does. -/
theorem complete_ok (hok : FlightOk user mem tmem fl)
    (hdisj : fl.sbio.needBounce = true → ∀ a ∈ entryBytes fl.sbio, a ∉ bioBytes fl.bio)
    (status : ℤ) :
    ∃ es, shannonCompleteFsIo mem fl.sbio (.bio fl.bio) status = .ok es ∧
      freedPages es = fl.pages ∧ endios es = [if status = 0 then 0 else -eio] ∧
      completedMem mem fl = .ok (if fl.sbio.needBounce = true ∧ fl.write = false then
        storeAll mem (bioBytes fl.bio) ((entryBytes fl.sbio).map mem) else mem) := by
  have hdir : fl.sbio.dmaDir = .fromDevice ↔ fl.write = false := by
    rw [hok.dmaDir, dirOf]
    cases fl.write <;> simp
  cases hb : fl.sbio.needBounce with
  | false =>
      refine ⟨[.endAcct, .bioEndio (if status = 0 then 0 else -eio)], ?_, ?_, ?_, ?_⟩
      · simp [shannonCompleteFsIo, hb, Except.map]
      · simp [freedPages, Flight.pages, hb]
      · simp [endios]
      · simp [completedMem, hb]
  | true =>
      have hbounces := hok.bounced hb
      obtain ⟨st, hst, hmem⟩ := copyBounce_eq hok.wf hbounces.table hbounces.total (hdisj hb) mem
        false
      rw [if_neg Bool.false_ne_true] at hmem
      have hpages : fl.pages = fl.sbio.entries.map Piece.page := by rw [Flight.pages, if_pos hb]
      cases hw : fl.write with
      | true =>
          have hto : ¬fl.sbio.dmaDir = .fromDevice := by rw [hdir, hw]; exact Bool.noConfusion
          refine ⟨[.freePages (fl.sbio.entries.map Piece.page), .endAcct,
            .bioEndio (if status = 0 then 0 else -eio)], ?_, ?_, ?_, ?_⟩
          · simp [shannonCompleteFsIo, hb, hto, Except.bind, Except.map, bouncePagesFreed,
              hbounces.frees]
          · simp [freedPages, hpages]
          · simp [endios]
          · simp [completedMem, hto]
      | false =>
          have hfrom : fl.sbio.dmaDir = .fromDevice := hdir.2 hw
          refine ⟨[.copyBack, .freePages (fl.sbio.entries.map Piece.page), .endAcct,
            .bioEndio (if status = 0 then 0 else -eio)], ?_, ?_, ?_, ?_⟩
          · simp [shannonCompleteFsIo, hb, hfrom, hst, Except.bind, Except.map, bouncePagesFreed,
              hbounces.frees]
          · simp [freedPages, hpages]
          · simp [endios]
          · simp [completedMem, hb, hfrom, hst, Except.map, hmem, entryBytes]

/-- **The completion.** -/
theorem complete_refines (k : ℕ) (h : Refines user s t) {i : ι} {status : ℤ}
    (hi : s.flights i = some fl) (hstatus : fl.status = some status) :
    ∃ s' t', step k s (.complete i) = some s' ∧ ideal t (.complete i) = some t' ∧
      Refines user s' t' := by
  have hok := h.ok i fl hi
  obtain ⟨es, hes, hfreed, hended, hmem⟩ := complete_ok hok
    (fun hb a ha => h.entry_notMem hi hb ha hok.user) status
  have hti : t.flights i = some fl.pending := by rw [h.flights, hi, Option.map_some]
  have hchanges : Changes user s i none (if fl.sbio.needBounce = true ∧ fl.write = false then
      storeAll s.mem (bioBytes fl.bio) ((entryBytes fl.sbio).map s.mem) else s.mem) t.mem
      (s.held \ fl.pages.toFinset) := by
    split_ifs with hread
    · have hhidden : fl.Hidden := ⟨hread.1, hread.2, by rw [hstatus]; rfl⟩
      refine h.changes_end hi (fun j fl' hne hj => (h.ok j fl' hj).frame ?_ fun _ _ => rfl) ?_
      · intro hb' a ha
        exact storeAll_of_notMem (h.entry_notMem hj hb' ha hok.user) ..
      · intro a ha hothers
        by_cases hmem : a ∈ bioBytes fl.bio
        · exact (hok.incoming hhidden a hmem).symm
        · rw [storeAll_of_notMem hmem]
          refine h.agree a ha fun j fl' hj hh => ?_
          rcases eq_or_ne j i with rfl | hne
          · obtain rfl := Option.some.inj (hi.symm.trans hj)
            exact hmem
          · exact hothers j fl' hne hj hh
    · have hshown : ¬fl.Hidden := fun hh => hread ⟨hh.1, hh.2.1⟩
      exact h.changes_end hi (fun j fl' _ hj => h.ok j fl' hj) fun a ha hothers =>
        h.agree_of_shown hi hshown ha hothers
  have hr := h.update hchanges t.disk (t.ended ++ [(i, if status = 0 then 0 else -eio)])
  refine ⟨_, _, ?_, ?_, hr⟩
  · simp only [step, hi, hstatus, Option.bind_some, hes, hmem, hfreed, hended, h.disk, h.ended,
      List.map_cons, List.map_nil]
  · simp only [ideal, hti, Option.bind_some, Flight.pending, hstatus, Option.map_some,
      Option.map_none]

/-- **The core refuses a bio.** -/
theorem refuse_refines (k : ℕ) (h : Refines user s t) {i : ι} (ret : ℤ)
    (hi : s.flights i = some fl) (hnone : fl.status = none) :
    ∃ s' t', step k s (.refuse i ret) = some s' ∧ ideal t (.refuse i ret) = some t' ∧
      Refines user s' t' := by
  have hok := h.ok i fl hi
  have hti : t.flights i = some fl.pending := by rw [h.flights, hi, Option.map_some]
  obtain ⟨es, hes, hfreed, hended⟩ : ∃ es, MakeRequest.freeSgList fl.sbio ret = .ok es ∧
      freedPages es = fl.pages ∧ endios es = [ret] := by
    cases hb : fl.sbio.needBounce with
    | false =>
        have hes : MakeRequest.freeSgList fl.sbio ret
            = .ok ([] ++ (if fl.sbio.sgCount ≠ 0 then [sgFreed fl.sbio] else []) ++
              MakeRequest.freeSbio ret) := by
          simp [MakeRequest.freeSgList, hb, Except.map]
        refine ⟨_, hes, ?_, ?_⟩
        · simp only [Flight.pages, hb, Bool.false_eq_true, if_false]
          split_ifs <;> rfl
        · split_ifs <;> rfl
    | true =>
        have hes : MakeRequest.freeSgList fl.sbio ret
            = .ok ([.freePages (fl.sbio.entries.map Piece.page)] ++
              (if fl.sbio.sgCount ≠ 0 then [sgFreed fl.sbio] else []) ++
              MakeRequest.freeSbio ret) := by
          simp [MakeRequest.freeSgList, hb, bouncePagesFreed, (hok.bounced hb).frees, Except.map]
        refine ⟨_, hes, ?_, ?_⟩
        · rw [Flight.pages, if_pos hb]
          split_ifs <;> simp [freedPages, MakeRequest.freeSbio, sgFreed]
        · split_ifs <;> rfl
  have hchanges := h.changes_end hi (fun j fl' _ hj => h.ok j fl' hj) fun a ha hothers =>
    h.agree_of_shown hi (Flight.shown_of_none hnone) ha hothers
  have hr := h.update hchanges t.disk (t.ended ++ [(i, ret)])
  refine ⟨_, _, ?_, ?_, hr⟩
  · simp only [step, hi, hnone, hes, hfreed, hended, h.disk, h.ended, List.map_cons, List.map_nil]
  · simp only [ideal, hti, Flight.pending, hnone, if_true, Option.map_none]

omit [DecidableEq ι] in
/-- **Somebody else writes a byte.** -/
theorem poke_refines (h : Refines user s t) {a : ℕ} (v : UInt8) (ha : user (a / pageSize))
    (hnot : ∀ j fl, s.flights j = some fl → a ∉ bioBytes fl.bio) :
    Refines user { s with mem := Function.update s.mem a v }
      { t with mem := Function.update t.mem a v } where
  disk := h.disk
  ended := h.ended
  flights := h.flights
  ok := by
    intro i fl hi
    refine (h.ok i fl hi).frame (fun hb b hmem => ?_) fun b hmem => ?_
    · refine Function.update_of_ne ?_ ..
      rintro rfl
      exact h.not_user hi hb hmem ha
    · refine Function.update_of_ne ?_ ..
      rintro rfl
      exact hnot i fl hi hmem
  apart := h.apart
  pages := h.pages
  held := h.held
  foreign := h.foreign
  agree := by
    intro b hb hhidden
    show Function.update s.mem a v b = Function.update t.mem a v b
    rcases eq_or_ne b a with rfl | hne
    · rw [Function.update_self, Function.update_self]
    · rw [Function.update_of_ne hne, Function.update_of_ne hne]
      exact h.agree b hb hhidden

omit [DecidableEq ι] in
/-- An accepted bio whose pages the device uses itself. -/
theorem Refines.changes_accept_direct (h : Refines user s t) {i : ι} {write : Bool} {bio : Bio}
    {env : ConvertEnv} {c : Converted} (hgood : Good user s (.submit i write bio env))
    (hc : Accepted env s.mem (dirOf write) bio c) (hno : c.sbio.needBounce = false)
    (hbytes : entryBytes c.sbio = bioBytes bio) (hfreed : c.freed = c.taken) :
    Changes user s i (some ⟨bio, write, c.sbio, none⟩) s.mem t.mem
      ((s.held ∪ c.taken.toFinset) \ c.freed.toFinset) where
  other := fun j fl _ hj => h.ok j fl hj
  ok := by
    obtain ⟨-, hwf, huser, -⟩ := hgood
    rintro _ ⟨⟩
    refine ⟨hc.dmaDir, hc.start, hwf, huser, fun _ => hbytes, ?_, ?_, ?_⟩
    · exact fun hb => absurd (hno.symm.trans hb) Bool.false_ne_true
    · exact fun hb => absurd (hno.symm.trans hb) Bool.false_ne_true
    · exact fun hh => absurd hh (Flight.shown_of_none rfl)
  apart := by
    rintro _ ⟨⟩ j fl' - hj
    exact hgood.2.2.2.1 j fl' hj
  pages := by
    rintro _ ⟨⟩ j fl' - hj
    rw [Flight.pages, if_neg (by rw [hno]; exact Bool.false_ne_true)]
    exact List.disjoint_nil_left _
  held := by
    intro p
    have hfresh : p ∈ c.taken → p ∉ s.held := fun hp => by
      obtain ⟨n, hn⟩ := hc.taken p hp
      exact (hgood.2.2.2.2.1 n p hn).2
    rw [hfreed, Finset.mem_sdiff, Finset.mem_union, List.mem_toFinset, h.held_iff i]
    constructor
    · rintro ⟨(hj | ⟨fl, hfl, -⟩) | htaken, hnot⟩
      · exact .inl hj
      · cases hgood.1.symm.trans hfl
      · exact absurd htaken hnot
    · rintro (hj | ⟨_, ⟨⟩, hp⟩)
      · refine ⟨.inl (.inl hj), fun htaken => hfresh htaken ?_⟩
        exact (h.held_iff i p).2 (.inl hj)
      · rw [Flight.pages, if_neg (by rw [hno]; exact Bool.false_ne_true)] at hp
        cases hp
  foreign := by
    rintro _ ⟨⟩ p hp
    rw [Flight.pages, if_neg (by rw [hno]; exact Bool.false_ne_true)] at hp
    cases hp
  agree := by
    intro a ha hothers _
    refine h.agree a ha fun j fl hj => hothers j fl ?_ hj
    rintro rfl
    cases hgood.1.symm.trans hj

omit [DecidableEq ι] in
/-- An accepted bio with bounce pages. -/
theorem Refines.changes_accept_bounced (h : Refines user s t) {i : ι} {write : Bool} {bio : Bio}
    {env : ConvertEnv} {c : Converted} (hgood : Good user s (.submit i write bio env))
    (hc : Accepted env s.mem (dirOf write) bio c) (hb : c.sbio.needBounce = true)
    (hbounces : Bounces c.sbio bio.biSize) (htaken : c.taken = c.sbio.entries.map Piece.page)
    (hfreed : c.freed = [])
    (hmem : c.mem = if dirOf write = .toDevice then
      storeAll s.mem (entryBytes c.sbio) ((bioBytes bio).map s.mem) else s.mem) :
    Changes user s i (some ⟨bio, write, c.sbio, none⟩) c.mem t.mem
      ((s.held ∪ c.taken.toFinset) \ c.freed.toFinset) := by
  obtain ⟨hnone, hwf, huser, hapart, halloc, -⟩ := hgood
  have hpages : (⟨bio, write, c.sbio, none⟩ : Flight).pages = c.taken := by
    rw [Flight.pages, if_pos hb, htaken]
  have hnew : ∀ p ∈ c.taken, ¬user p ∧ p ∉ s.held := fun p hp => by
    obtain ⟨n, hn⟩ := hc.taken p hp
    exact halloc n p hn
  have hentry : ∀ a ∈ entryBytes c.sbio, a / pageSize ∈ c.taken := by
    intro a ha
    obtain ⟨p, hp, hap⟩ := List.mem_flatMap.1 ha
    rw [htaken, (hbounces.inPage p hp).div_eq hap]
    exact List.mem_map_of_mem hp
  have hframe : ∀ a, a / pageSize ∉ c.taken → c.mem a = s.mem a := by
    intro a ha
    rw [hmem]
    split_ifs
    · exact storeAll_of_notMem (fun hmem => ha (hentry a hmem)) ..
    · rfl
  have hshown (a : ℕ) (ha : user (a / pageSize))
      (hothers : ∀ j fl, j ≠ i → s.flights j = some fl → fl.Hidden → a ∉ bioBytes fl.bio) :
      s.mem a = t.mem a := by
    refine h.agree a ha fun j fl hj => hothers j fl ?_ hj
    rintro rfl
    cases hnone.symm.trans hj
  refine ⟨fun j fl _ hj => (h.ok j fl hj).frame ?_ fun _ _ => rfl, ?_, ?_, ?_, ?_, ?_, ?_⟩
  · intro hb' a ha
    refine hframe a fun hmem => (hnew _ hmem).2 ((h.held _).2 ⟨j, fl, hj, ?_⟩)
    exact (h.ok j fl hj).page_mem hb' ha
  · rintro _ ⟨⟩
    refine ⟨hc.dmaDir, hc.start, hwf, huser, ?_, fun _ => hbounces, ?_, ?_⟩
    · exact fun hno => absurd (hno.symm.trans hb) Bool.false_ne_true
    · rintro - (hwrite : write = true) -
      have hnodup : (entryBytes c.sbio).Nodup :=
        nodup_flatMap_bytes hbounces.inPage hbounces.nodup
      have hlen : (entryBytes c.sbio).length = ((bioBytes bio).map s.mem).length := by
        rw [List.length_map, length_bioBytes hwf, entryBytes, length_flatMap_bytes,
          hbounces.total]
      rw [hmem, if_pos (by rw [hwrite]; rfl), map_storeAll hnodup hlen]
      refine List.map_congr_left fun a ha => ?_
      refine hshown a (huser a ha) fun j fl _ hj hh => ?_
      rcases hapart j fl hj with ⟨-, hw⟩ | hd
      · exact absurd (hh.2.1.symm.trans hw) Bool.false_ne_true
      · exact fun hmem => hd ha hmem
    · exact fun hh => absurd hh (Flight.shown_of_none rfl)
  · rintro _ ⟨⟩ j fl' - hj
    exact hapart j fl' hj
  · rintro _ ⟨⟩ j fl' - hj
    rw [hpages]
    exact fun p hp hp' => (hnew p hp).2 ((h.held p).2 ⟨j, fl', hj, hp'⟩)
  · intro p
    rw [hfreed, List.toFinset_nil, Finset.sdiff_empty, Finset.mem_union, List.mem_toFinset,
      h.held_iff i]
    constructor
    · rintro ((hj | ⟨fl, hfl, -⟩) | hp)
      · exact .inl hj
      · cases hnone.symm.trans hfl
      · exact .inr ⟨_, rfl, by rwa [hpages]⟩
    · rintro (hj | ⟨_, ⟨⟩, hp⟩)
      · exact .inl (.inl hj)
      · exact .inr (by rwa [hpages] at hp)
  · rintro _ ⟨⟩ p hp
    rw [hpages] at hp
    exact (hnew p hp).1
  · intro a ha hothers _
    rw [hframe a fun hmem => (hnew _ hmem).1 ha]
    exact hshown a ha hothers

/-- **A bio is submitted.** -/
theorem submit_refines {k : ℕ} (hk : k ≤ 12) (h : Refines user s t) {i : ι} {write : Bool}
    {bio : Bio} {env : ConvertEnv} (hgood : Good user s (.submit i write bio env)) :
    ∃ s' t', step k s (.submit i write bio env) = some s' ∧
      ideal t (.submit i write bio env) = some t' ∧ Refines user s' t' := by
  have hti : t.flights i = none := by rw [h.flights, hgood.1, Option.map_none]
  have hends (ret : ℤ) : Refines user { s with ended := s.ended ++ [(i, ret)] }
      { t with ended := t.ended ++ [(i, ret)] } :=
    ⟨h.disk, by rw [h.ended], h.flights, h.ok, h.apart, h.pages, h.held, h.foreign, h.agree⟩
  by_cases hio : bio.biIoVec = false
  · refine ⟨_, _, ?_, ?_, hends (-einval)⟩
    · simp only [step, hgood.1, shannonConvertBio, hio, or_true, if_true]
      rfl
    · simp only [ideal, hti, hio, if_true]
  by_cases henv : env.sgAlloc = false ∧ env.sgVzalloc = false
  · refine ⟨_, _, ?_, ?_, hends (-enomem)⟩
    · have harg : ¬(2 ^ k = 0 ∨ bio.biIoVec = false) := by
        rw [not_or]
        exact ⟨(Nat.two_pow_pos k).ne', hio⟩
      simp only [step, hgood.1, shannonConvertBio, if_neg harg, if_pos henv]
      rfl
    · simp only [ideal, hti, if_neg hio, if_pos henv]
  obtain ⟨-, hwf, huser, -, halloc, hinj⟩ := id hgood
  have hfresh := freshPages_of_user hwf huser (fun n p hn => (halloc n p hn).1) hinj
  obtain ⟨c, hconv, hc⟩ := convertBio_accepts hk hwf hfresh (by simpa using hio) henv s.mem
    (dirOf write)
  have hchanges : Changes user s i (some ⟨bio, write, c.sbio, none⟩) c.mem t.mem
      ((s.held ∪ c.taken.toFinset) \ c.freed.toFinset) := by
    rcases hc.path with ⟨hno, hbytes, hmem, hfreed⟩ | ⟨hb, hbounces, htaken, hfreed, hmem⟩
    · rw [hmem]
      exact h.changes_accept_direct hgood hc hno hbytes hfreed
    · exact h.changes_accept_bounced hgood hc hb hbounces htaken hfreed hmem
  refine ⟨_, _, ?_, ?_, h.update hchanges t.disk t.ended⟩
  · simp only [step, hgood.1, hconv, hc.ret, h.disk, h.ended, ne_eq, not_true, if_false]
  · simp only [ideal, hti, if_neg hio, if_neg henv, Option.map_some, Flight.pending]

/-- **Every step that may be taken is a step of the disk.** -/
theorem step_refines {k : ℕ} (hk : k ≤ 12) (h : Refines user s t) {a : Act ι}
    (hgood : Good user s a) :
    ∃ s' t', step k s a = some s' ∧ ideal t a = some t' ∧ Refines user s' t' := by
  cases a with
  | submit i write bio env => exact submit_refines hk h hgood
  | refuse i ret =>
      obtain ⟨fl, hi, hnone⟩ := hgood
      exact refuse_refines k h ret hi hnone
  | transfer i status noise =>
      obtain ⟨fl, hi, hnone, hnoise⟩ := hgood
      have hti : t.flights i = some fl.pending := by rw [h.flights, hi, Option.map_some]
      refine ⟨_, _, ?_, ?_, transfer_refines h status hi hnone hnoise⟩
      · simp only [step, hi, hnone, if_true]
      · simp only [ideal, hti, Flight.pending, hnone, if_true]
  | complete i =>
      obtain ⟨fl, status, hi, hstatus⟩ := hgood
      exact complete_refines k h hi hstatus
  | poke a v => exact ⟨_, _, rfl, rfl, poke_refines h v hgood.1 hgood.2⟩

/-! ### Runs -/

/-- Nothing is under way. -/
def State.init (mem disk : Mem) : State ι := ⟨mem, disk, fun _ => none, ∅, []⟩

/-- The same for the disk. -/
def Ideal.init (mem disk : Mem) : Ideal ι := ⟨mem, disk, fun _ => none, []⟩

omit [DecidableEq ι] in
theorem refines_init (mem disk : Mem) :
    Refines user (State.init mem disk : State ι) (Ideal.init mem disk) where
  disk := rfl
  ended := rfl
  flights := fun _ => rfl
  ok := by
    rintro _ _ ⟨⟩
  apart := by
    rintro _ _ _ _ - ⟨⟩
  pages := by
    rintro _ _ _ _ - ⟨⟩
  held := by
    intro p
    refine ⟨fun hp => absurd hp (Finset.notMem_empty p), ?_⟩
    rintro ⟨_, _, ⟨⟩, -⟩
  foreign := fun p hp => absurd hp (Finset.notMem_empty p)
  agree := fun _ _ _ => rfl

/-- A byte of the page 9. -/
def byteOut : Bio := ⟨0, 1, 0, true, [(0, ⟨9, 1, 1⟩)]⟩

/-- A byte of the page 10. -/
def byteIn : Bio := ⟨0, 1, 0, true, [(0, ⟨10, 3, 1⟩)]⟩

/-- Both are under way at a time: the byte is written to the disk and read back into the other
page, through a bounce page each. -/
def thereAndBack : List (Act Bool) :=
  [.submit true true byteOut ⟨true, true, fun n => some (100 + n)⟩,
    .submit false false byteIn ⟨true, true, fun n => some (200 + n)⟩,
    .transfer true 0 [0], .transfer false 0 [0], .complete false, .complete true]

omit [DecidableEq ι] in
/-- A submission with the pages from `b` on free. -/
theorem good_submit {i : ι} {write : Bool} {bio : Bio} {b : ℕ} (hb : 100 ≤ b)
    (hi : s.flights i = none) (hwf : WellFormed bio)
    (huser : ∀ a ∈ bioBytes bio, a / pageSize < 100)
    (hapart : ∀ j fl, s.flights j = some fl →
      (write = true ∧ fl.write = true) ∨ (bioBytes bio).Disjoint (bioBytes fl.bio))
    (hheld : ∀ p ∈ s.held, p < b) :
    Good (fun p => p < 100) s (.submit i write bio ⟨true, true, fun n => some (b + n)⟩) := by
  refine ⟨hi, hwf, huser, hapart, ?_, ?_⟩
  · rintro n _ ⟨⟩
    exact ⟨by omega, fun hp => absurd (hheld _ hp) (by omega)⟩
  · rintro n n' _ ⟨⟩ h
    have := Option.some.inj h
    omega

theorem thereAndBack_good (mem disk : Mem) :
    Along (step 12) (Good fun p => p < 100) (State.init mem disk) thereAndBack := by
  have hout : WellFormed byteOut := ⟨by decide, by decide, by decide⟩
  have hin : WellFormed byteIn := ⟨by decide, by decide, by decide⟩
  have hdisj : (bioBytes byteIn).Disjoint (bioBytes byteOut) := List.disjoint_left.2 (by decide)
  refine ⟨good_submit le_rfl rfl hout (by decide) (by rintro _ _ ⟨⟩)
    (fun p hp => absurd hp (Finset.notMem_empty p)), fun s₁ h₁ => ?_⟩
  obtain rfl := Option.some.inj (show some _ = some s₁ from h₁)
  refine ⟨good_submit (by decide) rfl hin (by decide) ?_ ?_, fun s₂ h₂ => ?_⟩
  · rintro (_ | _) fl hj
    · cases hj
    · obtain rfl := Option.some.inj hj
      exact .inr hdisj
  · show ∀ p ∈ (∅ ∪ [100].toFinset) \ ([] : List ℕ).toFinset, p < 200
    decide
  obtain rfl := Option.some.inj (show some _ = some s₂ from h₂)
  refine ⟨⟨_, rfl, rfl, rfl⟩, fun s₃ h₃ => ?_⟩
  obtain rfl := Option.some.inj (show some _ = some s₃ from h₃)
  refine ⟨⟨_, rfl, rfl, rfl⟩, fun s₄ h₄ => ?_⟩
  obtain rfl := Option.some.inj (show some _ = some s₄ from h₄)
  refine ⟨⟨_, _, rfl, rfl⟩, fun s₅ h₅ => ?_⟩
  obtain rfl := Option.some.inj (show some _ = some s₅ from h₅)
  exact ⟨⟨_, _, rfl, rfl⟩, fun _ _ => trivial⟩

end DataPath
end Block
end Shannon
