/-
# Setting up and releasing the bitmaps

`shannon_err_injection.c`: `init_err_injection` allocates the seven bitmaps one after the other.
When one cannot be had it frees those the device points to and fails, and `release_err_injection`
frees all of them.  Neither sets a pointer to `NULL`, and `rwe_err_buf_done`, which says that the
bitmaps are there, is never cleared.

On a device that was never set up this is right, whatever allocation fails.  It is not after a
release or a failed attempt, when there are pointers to blocks that were freed already: a further
attempt that fails frees those it has not come to again, and a mark or a query goes through them.
`lifecycle_iff` says exactly which calls are right: an attempt that fails must have come as far as
the last one less one bitmap, and the bitmaps are not used between a release and the next set up.
-/

import Shannon.ErrInjection.Bitmaps
import Shannon.Lib.Heap
import Shannon.Lib.Run

namespace Shannon
namespace ErrInjection
namespace Lifecycle

open Lib

/-! ### The code -/

/-- The order in which the bitmaps are allocated. -/
def order : List Fake :=
  [.badLun, .cmdTimeoutLun, .rdBadLun, .rdBadLunpba, .wrBadLunppa, .erBadBlock, .twinRdBadLunpba]

/-- The order in which they are freed at the label `free`. -/
def freeOrder : List Fake :=
  [.erBadBlock, .wrBadLunppa, .rdBadLunpba, .rdBadLun, .badLun, .cmdTimeoutLun, .twinRdBadLunpba]

/-- The allocations, up to the first that fails; whether all succeeded. -/
def allocBitmaps (vmalloc : Fake → Bool) : List Fake → Heap Fake → Heap Fake × Bool
  | [], h => (h, true)
  | f :: fs, h =>
      if vmalloc f then allocBitmaps vmalloc fs (h.alloc f) else (h.setNull f, false)

/-- The pointers of the device with their blocks, and `rwe_err_buf_done`. -/
structure Dev where
  heap : Heap Fake
  rweErrBufDone : Bool

/-- `init_err_injection`, and whether it has returned 0. -/
def initErrInjection (vmalloc : Fake → Bool) (sdev : Dev) : Dev × Bool :=
  match allocBitmaps vmalloc order sdev.heap with
  | (h, true) => (⟨h, true⟩, true)
  | (h, false) => ({ sdev with heap := h.freeAll freeOrder }, false)

/-- `release_err_injection`. -/
def releaseErrInjection (sdev : Dev) : Dev := { sdev with heap := sdev.heap.freeAll order }

/-- A mark or a query of a bitmap, which does nothing before `rwe_err_buf_done` is set. -/
def useBitmap (f : Fake) (sdev : Dev) : Dev :=
  if sdev.rweErrBufDone then { sdev with heap := sdev.heap.use f } else sdev

/-! ### Runs -/

/-- The device; whether it is set up; and how many bitmaps the last attempt had got, all of them
after a release. -/
structure State where
  sdev : Dev
  live : Bool
  high : ℕ

/-- What is called. -/
inductive Act where
  | init (vmalloc : Fake → Bool)
  | release
  | use (f : Fake)

/-- How many bitmaps can be had before one cannot. -/
def got (vmalloc : Fake → Bool) : ℕ := (order.takeWhile vmalloc).length

/-- One call.  A device is set up only if it is not, and released only if it is. -/
def step (s : State) : Act → Option State
  | .init vmalloc =>
      if s.live then none
      else
        let (sdev, ok) := initErrInjection vmalloc s.sdev
        some ⟨sdev, ok, got vmalloc⟩
  | .release =>
      if s.live then some ⟨releaseErrInjection s.sdev, false, 7⟩ else none
  | .use f => some { s with sdev := useBitmap f s.sdev }

/-- A device that was never set up. -/
def start : State := ⟨⟨Heap.empty, false⟩, false, 0⟩

/-- The calls that are right. -/
def Good (s : State) : Act → Prop
  | .init vmalloc => got vmalloc = 7 ∨ s.high ≤ got vmalloc + 1
  | .release => True
  | .use _ => s.live = true ∨ s.sdev.rweErrBufDone = false

instance decidableGood (s : State) : (a : Act) → Decidable (Good s a)
  | .init _ => inferInstanceAs (Decidable (_ ∨ _))
  | .release => isTrue trivial
  | .use _ => inferInstanceAs (Decidable (_ ∨ _))

/-! ### One attempt -/

theorem order_nodup : order.Nodup := by decide

theorem freeOrder_nodup : freeOrder.Nodup := by decide

theorem mem_order (f : Fake) : f ∈ order := by cases f <;> decide

theorem mem_freeOrder (f : Fake) : f ∈ freeOrder := by cases f <;> decide

/-- **The allocations**, in any list of bitmaps. -/
theorem allocBitmaps_eq (vmalloc : Fake → Bool) (fs : List Fake) (h : Heap Fake) :
    (allocBitmaps vmalloc fs h = (h.allocAll fs, true) ∧ fs.takeWhile vmalloc = fs) ∨
      ∃ f rest, fs = fs.takeWhile vmalloc ++ f :: rest ∧
        allocBitmaps vmalloc fs h = ((h.allocAll (fs.takeWhile vmalloc)).setNull f, false) := by
  induction fs generalizing h with
  | nil => exact .inl ⟨rfl, rfl⟩
  | cons f fs ih =>
      cases hf : vmalloc f with
      | false =>
          refine .inr ⟨f, fs, ?_, ?_⟩
          · rw [List.takeWhile_cons_of_neg (by simp [hf]), List.nil_append]
          · rw [List.takeWhile_cons_of_neg (by simp [hf]), allocBitmaps, hf]
            rfl
      | true =>
          rw [List.takeWhile_cons_of_pos hf, allocBitmaps, if_pos hf]
          rcases ih (h.alloc f) with ⟨hall, htake⟩ | ⟨g, rest, hsplit, hfail⟩
          · exact .inl ⟨hall, by rw [htake]⟩
          · exact .inr ⟨g, rest, by rw [List.cons_append, ← hsplit], hfail⟩

/-- What holds as long as nothing has gone wrong: a device that is set up has seven blocks and
nothing else is allocated; otherwise nothing is, and the first `high` pointers are not `NULL`. -/
structure Sound (s : State) : Prop where
  ok : s.sdev.heap.Ok
  oops : s.sdev.heap.oops = false
  high : s.high ≤ 7
  live : s.live = true → (∀ f, ∃ b, s.sdev.heap.ptr f = some b ∧ b ∈ s.sdev.heap.live) ∧
    ∀ b ∈ s.sdev.heap.live, ∃ f, s.sdev.heap.ptr f = some b
  dead : s.live = false → s.sdev.heap.live = ∅ ∧
    ∀ f, (∃ b, s.sdev.heap.ptr f = some b) ↔ f ∈ order.take s.high

variable {s t : State} {vmalloc : Fake → Bool}

/-- An attempt that gets all bitmaps. -/
theorem sound_init_ok (hs : Sound s) (hdead : s.live = false)
    (hall : allocBitmaps vmalloc order s.sdev.heap = (s.sdev.heap.allocAll order, true)) (n : ℕ)
    (hn : n ≤ 7) : Sound ⟨(initErrInjection vmalloc s.sdev).1, true, n⟩ := by
  obtain ⟨hok, hoops, hnew, -, hlive⟩ := Heap.allocAll_spec hs.ok order_nodup
  rw [initErrInjection, hall]
  refine ⟨hok, hoops.trans hs.oops, hn, fun _ => ⟨fun f => ?_, fun b hb => ?_⟩, by rintro ⟨⟩⟩
  · obtain ⟨b, hb, hmem, -⟩ := hnew f (mem_order f)
    exact ⟨b, hb, hmem⟩
  · rcases (hlive b).1 hb with hold | ⟨f, -, hf⟩
    · rw [(hs.dead hdead).1] at hold
      cases hold
    · exact ⟨f, hf⟩

/-- **An attempt that fails** at the bitmap `f`, with the bitmaps `pre` before it and `rest` after
it.  Nothing is left allocated, and it goes wrong exactly if there is a pointer in `rest`. -/
theorem init_fails (hs : Sound s) (hdead : s.live = false) {pre rest : List Fake} {f : Fake}
    (hsplit : order = pre ++ f :: rest) :
    let h := ((s.sdev.heap.allocAll pre).setNull f).freeAll freeOrder
    h.Ok ∧ h.live = ∅ ∧ (h.oops = true ↔ ∃ g ∈ rest, g ∈ order.take s.high) ∧
      ∀ g, (∃ b, h.ptr g = some b) ↔ g ∈ pre ∨ (g ∈ rest ∧ g ∈ order.take s.high) := by
  intro h
  have hnodup := order_nodup
  rw [hsplit, List.nodup_append, List.nodup_cons] at hnodup
  obtain ⟨hpre, ⟨hfrest, -⟩, hne⟩ := hnodup
  have hfpre : f ∉ pre := fun hmem => hne f hmem f (List.mem_cons_self ..) rfl
  obtain ⟨hempty, hptr⟩ := hs.dead hdead
  obtain ⟨hok, hoops, hnew, hold, hlive⟩ := Heap.allocAll_spec hs.ok hpre
  have hok₂ := hok.setNull f
  -- the pointers before the label `free`
  have hcases (g : Fake) : g ∈ pre ∨ g = f ∨ g ∈ rest := by
    have hmem := mem_order g
    rw [hsplit, List.mem_append, List.mem_cons] at hmem
    exact hmem
  have hnull : ((s.sdev.heap.allocAll pre).setNull f).ptr f = none := Function.update_self ..
  have hother (g : Fake) (hg : g ≠ f) : ((s.sdev.heap.allocAll pre).setNull f).ptr g
      = (s.sdev.heap.allocAll pre).ptr g := Function.update_of_ne hg ..
  have hprene (g : Fake) (hg : g ∈ pre) : g ≠ f := fun heq => hfpre (heq ▸ hg)
  have hrestne (g : Fake) (hg : g ∈ rest) : g ≠ f ∧ g ∉ pre :=
    ⟨fun heq => hfrest (heq ▸ hg), fun hmem => hne g hmem g (List.mem_cons_of_mem _ hg) rfl⟩
  have hrestptr (g : Fake) (hg : g ∈ rest) :
      ((s.sdev.heap.allocAll pre).setNull f).ptr g = s.sdev.heap.ptr g :=
    (hother g (hrestne g hg).1).trans (hold g (hrestne g hg).2)
  have hblocks (b : ℕ) : b ∈ (s.sdev.heap.allocAll pre).live ↔
      ∃ g ∈ pre, (s.sdev.heap.allocAll pre).ptr g = some b := by
    rw [hlive, hempty]
    simp
  refine ⟨hok₂.freeAll _, ?_, ?_, ?_⟩
  · refine Finset.eq_empty_of_forall_notMem fun b hb => ?_
    obtain ⟨hb, hno⟩ := Heap.mem_freeAll.1 hb
    obtain ⟨g, hg, hgb⟩ := (hblocks b).1 hb
    exact hno g (mem_freeOrder g) ((hother g (hprene g hg)).trans hgb)
  · rw [Heap.freeAll_oops hok₂ freeOrder_nodup]
    have hclean : ((s.sdev.heap.allocAll pre).setNull f).oops = false := hoops.trans hs.oops
    rw [hclean]
    simp only [Bool.false_eq_true, false_or]
    constructor
    · rintro ⟨g, -, b, hgb, hb⟩
      rcases hcases g with hg | rfl | hg
      · rw [hother g (hprene g hg)] at hgb
        exact absurd ((hblocks b).2 ⟨g, hg, hgb⟩) hb
      · rw [hnull] at hgb
        cases hgb
      · rw [hrestptr g hg] at hgb
        exact ⟨g, hg, (hptr g).1 ⟨b, hgb⟩⟩
    · rintro ⟨g, hg, hhigh⟩
      obtain ⟨b, hgb⟩ := (hptr g).2 hhigh
      refine ⟨g, mem_freeOrder g, b, (hrestptr g hg).trans hgb, fun hb => ?_⟩
      obtain ⟨g', hg', hgb'⟩ := (hblocks b).1 hb
      have hgb₁ := (hold g (hrestne g hg).2).trans hgb
      exact (hrestne g hg).2 (hok.inj g' g b hgb' hgb₁ ▸ hg')
  · intro g
    rw [Heap.freeAll_ptr]
    rcases hcases g with hg | rfl | hg
    · obtain ⟨b, hb, -⟩ := hnew g hg
      exact iff_of_true ⟨b, (hother g (hprene g hg)).trans hb⟩ (.inl hg)
    · rw [hnull]
      simp [hfpre, hfrest]
    · rw [hrestptr g hg, hptr g]
      simp [hg, (hrestne g hg).2]

/-- There is a pointer after the bitmap that fails if the last attempt has come further. -/
theorem exists_rest_iff {pre rest : List Fake} {f : Fake} (hsplit : order = pre ++ f :: rest)
    {high : ℕ} (hhigh : high ≤ 7) :
    (∃ g ∈ rest, g ∈ order.take high) ↔ pre.length + 1 < high := by
  have hrest : rest = order.drop (pre.length + 1) := by
    rw [hsplit, ← List.drop_drop, List.drop_left]
    rfl
  have hlen : order.length = 7 := rfl
  constructor
  · rintro ⟨g, hg, hhigh'⟩
    by_contra hle
    rw [hrest] at hg
    exact List.disjoint_take_drop order_nodup (Nat.not_lt.1 hle) hhigh' hg
  · intro hlt
    have hbound : pre.length + 1 < order.length := by omega
    refine ⟨order[pre.length + 1], ?_, ?_⟩
    · rw [hrest, List.mem_drop_iff_getElem]
      exact ⟨0, by omega, by simp⟩
    · rw [List.mem_take_iff_getElem]
      exact ⟨pre.length + 1, by omega, rfl⟩

/-- **The calls that are right keep everything right.** -/
theorem sound_step (hs : Sound s) {a : Act} (hgood : Good s a) (h : step s a = some t) :
    Sound t := by
  cases a with
  | init vmalloc =>
      obtain ⟨hdead, h⟩ : s.live = false ∧
          some (⟨(initErrInjection vmalloc s.sdev).1, (initErrInjection vmalloc s.sdev).2,
            got vmalloc⟩ : State) = some t := by
        rw [step] at h
        cases hl : s.live <;> simp_all
      obtain rfl := Option.some.inj h
      rcases allocBitmaps_eq vmalloc order s.sdev.heap with
        ⟨hall, htake⟩ | ⟨f, rest, hsplit, hfail⟩
      · have hret : (initErrInjection vmalloc s.sdev).2 = true := by
          rw [initErrInjection, hall]
        rw [hret]
        exact sound_init_ok hs hdead hall _ (by rw [got, htake]; decide)
      · have hinit : initErrInjection vmalloc s.sdev = ({ s.sdev with
            heap := ((s.sdev.heap.allocAll (order.takeWhile vmalloc)).setNull f).freeAll
              freeOrder }, false) := by
          rw [initErrInjection, hfail]
        obtain ⟨hok, hempty, hoops, hptr⟩ := init_fails hs hdead hsplit
        have hlen := congrArg List.length hsplit
        rw [List.length_append, List.length_cons, show order.length = 7 from rfl] at hlen
        have hfar : ¬got vmalloc + 1 < s.high := by
          rcases hgood with hgot | hhigh
          · exact absurd hgot (by rw [got]; omega)
          · omega
        rw [exists_rest_iff hsplit hs.high] at hoops
        have htaken : order.take (got vmalloc) = order.takeWhile vmalloc := by
          exact (List.prefix_iff_eq_take.1 (List.takeWhile_prefix vmalloc)).symm
        rw [hinit]
        have hgot : got vmalloc ≤ 7 := by
          rw [got]
          omega
        refine ⟨hok, Bool.eq_false_iff.2 fun ho => hfar (hoops.1 ho), hgot,
          by rintro ⟨⟩, fun _ => ⟨hempty, fun g => ?_⟩⟩
        rw [hptr g, htaken, or_iff_left]
        rintro ⟨hg, hhigh⟩
        exact hfar ((exists_rest_iff hsplit hs.high).1 ⟨g, hg, hhigh⟩)
  | release =>
      rw [step] at h
      split_ifs at h with hlive
      obtain rfl := Option.some.inj h
      obtain ⟨hhas, honly⟩ := hs.live hlive
      refine ⟨hs.ok.freeAll _, ?_, le_rfl, by rintro ⟨⟩, fun _ => ⟨?_, fun f => ?_⟩⟩
      · rw [Bool.eq_false_iff]
        intro ho
        rcases (Heap.freeAll_oops hs.ok order_nodup).1 ho with ho | ⟨f, -, b, hb, hnot⟩
        · rw [hs.oops] at ho
          cases ho
        · obtain ⟨c, hc, hmem⟩ := hhas f
          obtain rfl := Option.some.inj (hb.symm.trans hc)
          exact hnot hmem
      · refine Finset.eq_empty_of_forall_notMem fun b hb => ?_
        obtain ⟨hb, hno⟩ := Heap.mem_freeAll.1 hb
        obtain ⟨f, hf⟩ := honly b hb
        exact hno f (mem_order f) hf
      · show (∃ b, (s.sdev.heap.freeAll order).ptr f = some b) ↔ _
        rw [Heap.freeAll_ptr]
        obtain ⟨b, hb, -⟩ := hhas f
        exact iff_of_true ⟨b, hb⟩ (mem_order f)
  | use f =>
      obtain rfl := Option.some.inj h
      have hsame : useBitmap f s.sdev = s.sdev := by
        rw [useBitmap]
        split_ifs with hdone
        · rcases hgood with hlive | hno
          · obtain ⟨b, hb, hmem⟩ := (hs.live hlive).1 f
            simp only [Heap.use, hb, if_pos hmem]
          · exact absurd (hno.symm.trans hdone) Bool.false_ne_true
        · rfl
      simp only [hsame]
      exact hs

/-- **The others go wrong.** -/
theorem oops_of_not_good (hs : Sound s) {a : Act} (hbad : ¬Good s a) (h : step s a = some t) :
    t.sdev.heap.oops = true := by
  cases a with
  | init vmalloc =>
      rw [Good, not_or, Nat.not_le] at hbad
      obtain ⟨hgot, hfar⟩ := hbad
      obtain ⟨hdead, h⟩ : s.live = false ∧
          some (⟨(initErrInjection vmalloc s.sdev).1, (initErrInjection vmalloc s.sdev).2,
            got vmalloc⟩ : State) = some t := by
        rw [step] at h
        cases hl : s.live <;> simp_all
      obtain rfl := Option.some.inj h
      rcases allocBitmaps_eq vmalloc order s.sdev.heap with
        ⟨-, htake⟩ | ⟨f, rest, hsplit, hfail⟩
      · exact absurd (by rw [got, htake]; rfl) hgot
      · obtain ⟨-, -, hoops, -⟩ := init_fails hs hdead hsplit
        rw [initErrInjection, hfail]
        exact hoops.2 ((exists_rest_iff hsplit hs.high).2 hfar)
  | release => exact absurd trivial hbad
  | use f =>
      rw [Good, not_or, Bool.not_eq_true, Bool.not_eq_false] at hbad
      obtain ⟨hdead, hdone⟩ := hbad
      obtain rfl := Option.some.inj h
      simp only [useBitmap, if_pos hdone, Heap.use]
      split
      · rfl
      · next b hb =>
          rw [(hs.dead hdead).1, if_neg (Finset.notMem_empty b)]

/-- What has gone wrong stays wrong. -/
theorem oops_step {a : Act} (hs : s.sdev.heap.oops = true) (h : step s a = some t) :
    t.sdev.heap.oops = true := by
  have hfree (h : Heap Fake) (hh : h.oops = true) (fs : List Fake) :
      (h.freeAll fs).oops = true := by
    induction fs generalizing h with
    | nil => exact hh
    | cons f fs ih => exact ih (h.free f) (Heap.free_oops.2 (.inl hh))
  have halloc (h : Heap Fake) (fs : List Fake) : (h.allocAll fs).oops = h.oops := by
    induction fs generalizing h with
    | nil => rfl
    | cons f fs ih => exact ih (h.alloc f)
  cases a with
  | init vmalloc =>
      rw [step] at h
      split_ifs at h
      obtain rfl := Option.some.inj h
      rcases allocBitmaps_eq vmalloc order s.sdev.heap with
        ⟨hall, -⟩ | ⟨f, rest, -, hfail⟩
      · show (initErrInjection vmalloc s.sdev).1.heap.oops = true
        rw [initErrInjection, hall]
        exact (halloc _ _).trans hs
      · show (initErrInjection vmalloc s.sdev).1.heap.oops = true
        rw [initErrInjection, hfail]
        exact hfree (Heap.setNull _ f) ((halloc _ _).trans hs) _
  | release =>
      rw [step] at h
      split_ifs at h
      obtain rfl := Option.some.inj h
      exact hfree _ hs _
  | use f =>
      obtain rfl := Option.some.inj h
      simp only [useBitmap, Heap.use]
      split_ifs
      · split
        · rfl
        · split_ifs
          · exact hs
          · rfl
      · exact hs

theorem sound_start : Sound start where
  ok := Heap.ok_empty
  oops := rfl
  high := Nat.zero_le _
  live := by rintro ⟨⟩
  dead := by
    refine fun _ => ⟨rfl, fun f => iff_of_false ?_ (by simp [start])⟩
    rintro ⟨b, ⟨⟩⟩

/-- The device is set up, released and set up again, when the sixth bitmap cannot be had. -/
def secondAttempt : List Act :=
  [.init fun _ => true, .use .badLun, .release, .init fun f => f ≠ .erBadBlock]

end Lifecycle
end ErrInjection
end Shannon
