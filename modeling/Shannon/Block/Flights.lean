/-
# Bios under way

How the driver and the disk it should be stand to each other (`Refines`).  They agree on the
sectors, and on every byte of memory that has an owner, except that what was read into bounce
pages is not in the bio yet (`Flight.Hidden`); it is in the bounce pages then, as the bytes of a
write are until the device has taken them (`FlightOk`).  The flights share no bounce page, and no
byte unless both are writes.

A step changes one flight.  `Changes` lists what it has to show for that, and `Refines.update` is
the rest.
-/

import Shannon.Block.DataPath

namespace Shannon
namespace Block
namespace DataPath

open Lib

variable {ι : Type*} [DecidableEq ι]

/-! ### The two machines side by side -/

/-- What was read is in the bounce pages, and not in the bio yet. -/
def Flight.Hidden (fl : Flight) : Prop :=
  fl.sbio.needBounce = true ∧ fl.write = false ∧ fl.status.isSome = true

theorem Flight.shown_of_none {fl : Flight} (h : fl.status = none) : ¬fl.Hidden := by
  rintro ⟨-, -, hsome⟩
  rw [h] at hsome
  cases hsome

/-- The flight without what the driver keeps of it. -/
def Flight.pending (fl : Flight) : Pending := ⟨fl.bio, fl.write, fl.status⟩

/-- The bounce pages of a flight. -/
def Flight.pages (fl : Flight) : List ℕ :=
  if fl.sbio.needBounce then fl.sbio.entries.map Piece.page else []

/-- A flight, with the memory of the driver and that of the disk it should be. -/
structure FlightOk (user : ℕ → Prop) (mem tmem : Mem) (fl : Flight) : Prop where
  dmaDir : fl.sbio.dmaDir = dirOf fl.write
  start : fl.sbio.startSector = fl.bio.biSector
  wf : WellFormed fl.bio
  user : ∀ a ∈ bioBytes fl.bio, user (a / pageSize)
  direct : fl.sbio.needBounce = false → entryBytes fl.sbio = bioBytes fl.bio
  bounced : fl.sbio.needBounce = true → Bounces fl.sbio fl.bio.biSize
  outgoing : fl.sbio.needBounce = true → fl.write = true → fl.status = none →
    (entryBytes fl.sbio).map mem = (bioBytes fl.bio).map tmem
  incoming : fl.Hidden → ∀ a ∈ bioBytes fl.bio,
    tmem a = storeAll mem (bioBytes fl.bio) ((entryBytes fl.sbio).map mem) a

/-- **The driver and the disk it should be.** -/
structure Refines (user : ℕ → Prop) (s : State ι) (t : Ideal ι) : Prop where
  disk : s.disk = t.disk
  ended : s.ended = t.ended
  flights : ∀ i, t.flights i = (s.flights i).map Flight.pending
  ok : ∀ i fl, s.flights i = some fl → FlightOk user s.mem t.mem fl
  apart : ∀ i j fl fl', i ≠ j → s.flights i = some fl → s.flights j = some fl' →
    (fl.write = true ∧ fl'.write = true) ∨ (bioBytes fl.bio).Disjoint (bioBytes fl'.bio)
  pages : ∀ i j fl fl', i ≠ j → s.flights i = some fl → s.flights j = some fl' →
    fl.pages.Disjoint fl'.pages
  held : ∀ p, p ∈ s.held ↔ ∃ i fl, s.flights i = some fl ∧ p ∈ fl.pages
  foreign : ∀ p ∈ s.held, ¬user p
  agree : ∀ a, user (a / pageSize) →
    (∀ i fl, s.flights i = some fl → fl.Hidden → a ∉ bioBytes fl.bio) → s.mem a = t.mem a

variable {user : ℕ → Prop} {s : State ι} {t : Ideal ι} {mem mem' tmem tmem' : Mem} {fl : Flight}

theorem FlightOk.length_entryBytes (h : FlightOk user mem tmem fl) :
    (entryBytes fl.sbio).length = fl.bio.biSize := by
  cases hb : fl.sbio.needBounce with
  | false => rw [h.direct hb, length_bioBytes h.wf]
  | true => rw [entryBytes, length_flatMap_bytes, (h.bounced hb).total]

theorem FlightOk.totalLength_entries (h : FlightOk user mem tmem fl) :
    totalLength fl.sbio.entries = fl.bio.biSize := by
  rw [← length_flatMap_bytes]
  exact h.length_entryBytes

/-- The bytes of the bounce pages are in these pages. -/
theorem FlightOk.page_mem (h : FlightOk user mem tmem fl) (hb : fl.sbio.needBounce = true) {a : ℕ}
    (ha : a ∈ entryBytes fl.sbio) : a / pageSize ∈ fl.pages := by
  obtain ⟨p, hp, hap⟩ := List.mem_flatMap.1 ha
  rw [Flight.pages, if_pos hb, ((h.bounced hb).inPage p hp).div_eq hap]
  exact List.mem_map_of_mem hp

/-- A flight stays right if nobody touches its bounce pages and the bytes of its bio. -/
theorem FlightOk.frame (h : FlightOk user mem tmem fl)
    (hmem : fl.sbio.needBounce = true → ∀ a ∈ entryBytes fl.sbio, mem' a = mem a)
    (htmem : ∀ a ∈ bioBytes fl.bio, tmem' a = tmem a) : FlightOk user mem' tmem' fl where
  dmaDir := h.dmaDir
  start := h.start
  wf := h.wf
  user := h.user
  direct := h.direct
  bounced := h.bounced
  outgoing := by
    intro hb hw hnone
    rw [List.map_congr_left (hmem hb), List.map_congr_left htmem]
    exact h.outgoing hb hw hnone
  incoming := by
    intro hh a ha
    have hlen : (bioBytes fl.bio).length = ((entryBytes fl.sbio).map mem).length := by
      rw [List.length_map, length_bioBytes h.wf, h.length_entryBytes]
    rw [htmem a ha, List.map_congr_left (hmem hh.1), h.incoming hh a ha]
    exact storeAll_congr hlen ha mem mem'

/-! ### One flight changes -/

theorem update_eq_some {f : ι → Option Flight} {i j : ι} {next : Option Flight} {fl : Flight}
    (h : Function.update f i next j = some fl) :
    (j = i ∧ next = some fl) ∨ (j ≠ i ∧ f j = some fl) := by
  rcases eq_or_ne j i with rfl | hj
  · exact .inl ⟨rfl, by rwa [Function.update_self] at h⟩
  · exact .inr ⟨hj, by rwa [Function.update_of_ne hj] at h⟩

omit [DecidableEq ι] in
/-- The pages held, those of the flight `i` apart. -/
theorem Refines.held_iff (h : Refines user s t) (i : ι) (p : ℕ) :
    p ∈ s.held ↔ (∃ j fl, j ≠ i ∧ s.flights j = some fl ∧ p ∈ fl.pages) ∨
      ∃ fl, s.flights i = some fl ∧ p ∈ fl.pages := by
  rw [h.held]
  constructor
  · rintro ⟨j, fl, hj, hp⟩
    rcases eq_or_ne j i with rfl | hne
    · exact .inr ⟨fl, hj, hp⟩
    · exact .inl ⟨j, fl, hne, hj, hp⟩
  · rintro (⟨j, fl, -, hj, hp⟩ | ⟨fl, hi, hp⟩)
    · exact ⟨j, fl, hj, hp⟩
    · exact ⟨i, fl, hi, hp⟩

/-- What a step has to show that changes the flight `i`. -/
structure Changes (user : ℕ → Prop) (s : State ι) (i : ι) (next : Option Flight) (mem tmem : Mem)
    (held : Finset ℕ) : Prop where
  other : ∀ j fl, j ≠ i → s.flights j = some fl → FlightOk user mem tmem fl
  ok : ∀ fl, next = some fl → FlightOk user mem tmem fl
  apart : ∀ fl, next = some fl → ∀ j fl', j ≠ i → s.flights j = some fl' →
    (fl.write = true ∧ fl'.write = true) ∨ (bioBytes fl.bio).Disjoint (bioBytes fl'.bio)
  pages : ∀ fl, next = some fl → ∀ j fl', j ≠ i → s.flights j = some fl' →
    fl.pages.Disjoint fl'.pages
  held : ∀ p, p ∈ held ↔ (∃ j fl, j ≠ i ∧ s.flights j = some fl ∧ p ∈ fl.pages) ∨
    ∃ fl, next = some fl ∧ p ∈ fl.pages
  foreign : ∀ fl, next = some fl → ∀ p ∈ fl.pages, ¬user p
  agree : ∀ a, user (a / pageSize) →
    (∀ j fl, j ≠ i → s.flights j = some fl → fl.Hidden → a ∉ bioBytes fl.bio) →
    (∀ fl, next = some fl → fl.Hidden → a ∉ bioBytes fl.bio) → mem a = tmem a

theorem Refines.update (h : Refines user s t) {i : ι} {next : Option Flight} {held : Finset ℕ}
    (hc : Changes user s i next mem tmem held) (disk : Mem) (ended : List (ι × ℤ)) :
    Refines user ⟨mem, disk, Function.update s.flights i next, held, ended⟩
      ⟨tmem, disk, Function.update t.flights i (next.map Flight.pending), ended⟩ where
  disk := rfl
  ended := rfl
  flights := by
    intro j
    rcases eq_or_ne j i with rfl | hj
    · simp only [Function.update_self]
    · simp only [Function.update_of_ne hj, h.flights]
  ok := by
    intro j fl hj
    rcases update_eq_some hj with ⟨-, hnext⟩ | ⟨hne, hj⟩
    · exact hc.ok fl hnext
    · exact hc.other j fl hne hj
  apart := by
    intro j j' fl fl' hne hj hj'
    rcases update_eq_some hj with ⟨rfl, hnext⟩ | ⟨hji, hold⟩ <;>
      rcases update_eq_some hj' with ⟨rfl, hnext'⟩ | ⟨hji', hold'⟩
    · exact absurd rfl hne
    · exact hc.apart fl hnext j' fl' hji' hold'
    · exact (hc.apart fl' hnext' j fl hji hold).imp And.symm List.Disjoint.symm
    · exact h.apart j j' fl fl' hne hold hold'
  pages := by
    intro j j' fl fl' hne hj hj'
    rcases update_eq_some hj with ⟨rfl, hnext⟩ | ⟨hji, hold⟩ <;>
      rcases update_eq_some hj' with ⟨rfl, hnext'⟩ | ⟨hji', hold'⟩
    · exact absurd rfl hne
    · exact hc.pages fl hnext j' fl' hji' hold'
    · exact (hc.pages fl' hnext' j fl hji hold).symm
    · exact h.pages j j' fl fl' hne hold hold'
  held := by
    intro p
    rw [hc.held]
    constructor
    · rintro (⟨j, fl, hne, hj, hp⟩ | ⟨fl, hnext, hp⟩)
      · exact ⟨j, fl, (Function.update_of_ne hne ..).trans hj, hp⟩
      · exact ⟨i, fl, (Function.update_self ..).trans hnext, hp⟩
    · rintro ⟨j, fl, hj, hp⟩
      rcases update_eq_some hj with ⟨-, hnext⟩ | ⟨hne, hj⟩
      · exact .inr ⟨fl, hnext, hp⟩
      · exact .inl ⟨j, fl, hne, hj, hp⟩
  foreign := by
    intro p hp
    rcases (hc.held p).1 hp with ⟨j, fl, -, hj, hp⟩ | ⟨fl, hnext, hp⟩
    · exact h.foreign p ((h.held p).2 ⟨j, fl, hj, hp⟩)
    · exact hc.foreign fl hnext p hp
  agree := by
    intro a ha hhidden
    refine hc.agree a ha (fun j fl hne hj => hhidden j fl ?_) fun fl hnext => hhidden i fl ?_
    · exact (Function.update_of_ne hne ..).trans hj
    · exact (Function.update_self ..).trans hnext

omit [DecidableEq ι] in
/-- The pages of a flight have no owner. -/
theorem Refines.not_user (h : Refines user s t) {i : ι} (hi : s.flights i = some fl) {a : ℕ}
    (hb : fl.sbio.needBounce = true) (ha : a ∈ entryBytes fl.sbio) : ¬user (a / pageSize) :=
  h.foreign _ ((h.held _).2 ⟨i, fl, hi, (h.ok i fl hi).page_mem hb ha⟩)

omit [DecidableEq ι] in
/-- The bounce pages are not the pages of a bio. -/
theorem Refines.entry_notMem (h : Refines user s t) {i : ι} (hi : s.flights i = some fl) {a : ℕ}
    (hb : fl.sbio.needBounce = true) (ha : a ∈ entryBytes fl.sbio) {bytes : List ℕ}
    (huser : ∀ b ∈ bytes, user (b / pageSize)) : a ∉ bytes :=
  fun hmem => h.not_user hi hb ha (huser a hmem)

omit [DecidableEq ι] in
/-- A flight that shares no byte with another one, because one of them reads. -/
theorem Refines.disjoint_of_read (h : Refines user s t) {i j : ι} {fl' : Flight} (hne : j ≠ i)
    (hi : s.flights i = some fl) (hj : s.flights j = some fl') (hread : fl.write = false) {a : ℕ}
    (ha : a ∈ bioBytes fl'.bio) : a ∉ bioBytes fl.bio := by
  rcases h.apart j i fl' fl hne hj hi with ⟨-, hw⟩ | hd
  · rw [hread] at hw
    cases hw
  · exact fun hmem => hd ha hmem

end DataPath
end Block
end Shannon
