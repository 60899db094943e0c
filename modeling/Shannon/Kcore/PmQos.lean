/-
# The latency requirement

`shannon_kcore.c`: a device asks the kernel to keep the CPUs from deep sleep while it works, with
`shannon_pm_qos_add_requirement`, and takes that back with `shannon_pm_qos_remove_requirement`.  The
request is a block that `*l` points to.  From 5.7 on the class is compared with the one that is
left; before, it is passed on.  All of them do nothing while `shannon_pm_qos_disable` is set, which
is a parameter of the module that can be written at any time, and they return 0 whatever happens.

`pm_qos_exact_iff` compares the requests the kernel has with those the devices want.  They are the
same exactly as long as no call is skipped that matters, no allocation fails and no device adds a
second requirement: the pointer to the first is lost then, and it stays for ever.  Whatever happens,
no request is used after it was freed.

The kernel ignores an update or removal of a request that is not registered.  The versions before
2.6.35, which know the requirements by their names or not at all, are not modelled.
-/

import Shannon.Lib.Heap
import Shannon.Lib.Run

namespace Shannon
namespace Kcore
namespace PmQos

open Lib

variable {D : Type*}

/-! ### The code -/

/-- The versions: 2.6.35, from 2.6.36 on, from 3.2 on, and from 5.7 on. -/
inductive Version where
  | v2635 | v2636 | v32 | v57
deriving DecidableEq, Repr

/-- `SHANNON_PM_QOS_CPU_DMA_LATENCY`. -/
def cpuDmaLatency : ℤ := 1

/-- Whether a version goes on with a class. -/
def Version.takes : Version → ℤ → Bool
  | .v57, qos => qos = cpuDmaLatency
  | _, _ => true

/-- A request: its class and its value. -/
structure Request where
  qos : ℤ
  value : ℤ
deriving DecidableEq, Repr

/-- `shannon_pm_qos_disable`; the pointers of the devices, with the blocks; and the requests that
are registered, by their blocks. -/
structure Sys (D : Type*) where
  disable : Bool
  heap : Heap D
  requests : ℕ → Option Request

/-- `pm_qos_update_request`, through the pointer of a device. -/
def Sys.updateRequest (s : Sys D) (l : D) (b : ℕ) (newValue : ℤ) : Sys D :=
  { s with
    heap := s.heap.use l
    requests := Function.update s.requests b
      ((s.requests b).map fun r => { r with value := newValue }) }

/-- `shannon_pm_qos_update_requirement`. -/
def shannonPmQosUpdateRequirement (v : Version) (s : Sys D) (l : D) (qos newValue : ℤ) : Sys D :=
  if s.disable then s
  else if v.takes qos then
    match s.heap.ptr l with
    | none => s
    | some b => s.updateRequest l b newValue
  else s

variable [DecidableEq D]

/-- `shannon_pm_qos_add_requirement`; `kzalloc` is whether the request can be allocated. -/
def shannonPmQosAddRequirement (v : Version) (s : Sys D) (l : D) (qos value : ℤ) (kzalloc : Bool) :
    Sys D :=
  if s.disable then s
  else if kzalloc then
    let b := s.heap.next
    let s := { s with heap := s.heap.alloc l }
    if v.takes qos then
      { s with requests := Function.update s.requests b (some ⟨qos, value⟩) }
    else s
  else { s with heap := s.heap.setNull l }

/-- `shannon_pm_qos_remove_requirement`. -/
def shannonPmQosRemoveRequirement (v : Version) (s : Sys D) (l : D) (qos : ℤ) : Sys D :=
  if s.disable then s
  else if v.takes qos then
    match s.heap.ptr l with
    | none => s
    | some b =>
        { s with
          heap := (s.heap.free l).setNull l
          requests := Function.update s.requests b none }
  else s

/-! ### Runs -/

/-- The kernel, and the requests the devices want. -/
structure State (D : Type*) where
  sys : Sys D
  want : D → Option Request

/-- What happens. -/
inductive Act (D : Type*) where
  | add (l : D) (qos value : ℤ) (kzalloc : Bool)
  | update (l : D) (qos newValue : ℤ)
  | remove (l : D) (qos : ℤ)
  | setDisable (b : Bool)

/-- One call, or a write to the parameter. -/
def step (v : Version) (s : State D) : Act D → Option (State D)
  | .add l qos value kzalloc => some
      ⟨shannonPmQosAddRequirement v s.sys l qos value kzalloc,
        Function.update s.want l (some ⟨qos, value⟩)⟩
  | .update l qos newValue => some
      ⟨shannonPmQosUpdateRequirement v s.sys l qos newValue,
        Function.update s.want l ((s.want l).map fun r => { r with value := newValue })⟩
  | .remove l qos => some
      ⟨shannonPmQosRemoveRequirement v s.sys l qos, Function.update s.want l none⟩
  | .setDisable b => some { s with sys := { s.sys with disable := b } }

/-- No device has called anything. -/
def start (disable : Bool) : State D := ⟨⟨disable, Heap.empty, fun _ => none⟩, fun _ => none⟩

/-- **What the devices can expect.**  Each request they want is registered, and no other. -/
structure Exact (s : State D) : Prop where
  wanted : ∀ l r, s.want l = some r → ∃ b, s.sys.heap.ptr l = some b ∧ s.sys.requests b = some r
  only : ∀ b r, s.sys.requests b = some r → ∃ l, s.sys.heap.ptr l = some b ∧ s.want l = some r

/-- The calls that are right. -/
def Good (v : Version) (s : State D) : Act D → Prop
  | .add l qos value kzalloc =>
      (s.sys.disable = false ∧ kzalloc = true ∧ v.takes qos = true ∧ s.want l = none) ∨
        (s.sys.disable = true ∧ s.want l = some ⟨qos, value⟩)
  | .update l qos newValue =>
      (∀ r, s.want l = some r → r.value = newValue) ∨
        (s.sys.disable = false ∧ v.takes qos = true)
  | .remove l qos => s.want l = none ∨ (s.sys.disable = false ∧ v.takes qos = true)
  | .setDisable _ => True

/-! ### The blocks -/

/-- What holds in all runs: all pointers are to blocks that are allocated, and so are the
requests. -/
structure Inv (s : Sys D) : Prop where
  ok : s.heap.Ok
  oops : s.heap.oops = false
  ptr : ∀ l b, s.heap.ptr l = some b → b ∈ s.heap.live
  requests : ∀ b r, s.requests b = some r → b ∈ s.heap.live

section Blocks

variable {v : Version} {s : Sys D} {l : D}

omit [DecidableEq D] in
theorem Inv.register (hs : Inv s) {b : ℕ} (hb : b ∈ s.heap.live) (r : Option Request) :
    Inv { s with requests := Function.update s.requests b r } := by
  refine ⟨hs.ok, hs.oops, hs.ptr, fun b' r' hb' => ?_⟩
  simp only [Function.update_apply] at hb'
  split_ifs at hb' with hsame
  · exact hsame ▸ hb
  · exact hs.requests b' r' hb'

theorem Inv.alloc (hs : Inv s) (l : D) : Inv { s with heap := s.heap.alloc l } := by
  refine ⟨hs.ok.alloc l, hs.oops, fun l' b hb => ?_, fun b r hb => ?_⟩
  · simp only [Heap.alloc, Function.update_apply] at hb ⊢
    split_ifs at hb with hl
    · rw [← Option.some.inj hb]
      exact Finset.mem_insert_self ..
    · exact Finset.mem_insert_of_mem (hs.ptr l' b hb)
  · exact Finset.mem_insert_of_mem (hs.requests b r hb)

theorem Inv.setNull (hs : Inv s) (l : D) : Inv { s with heap := s.heap.setNull l } := by
  refine ⟨hs.ok.setNull l, hs.oops, fun l' b hb => ?_, hs.requests⟩
  simp only [Heap.setNull, Function.update_apply] at hb
  split_ifs at hb
  exact hs.ptr l' b hb

/-- The pointer is set to `NULL` after the block is freed, so that no other is touched. -/
theorem Inv.free (hs : Inv s) {b : ℕ} (hb : s.heap.ptr l = some b) :
    Inv { s with
      heap := (s.heap.free l).setNull l, requests := Function.update s.requests b none } := by
  have hok : (s.heap.free l).Ok := hs.ok.freeAll [l]
  refine ⟨hok.setNull l, ?_, fun l' b' hb' => ?_, fun b' r hb' => ?_⟩
  · show (s.heap.free l).oops = false
    rw [Bool.eq_false_iff, ne_eq, Heap.free_oops, hs.oops]
    rintro (⟨⟨⟩⟩ | ⟨c, hc, hdead⟩)
    exact hdead (hs.ptr l c hc)
  · simp only [Heap.setNull, Heap.free_ptr, Function.update_apply] at hb' ⊢
    split_ifs at hb' with hl
    refine Heap.mem_free.2 ⟨hs.ptr l' b' hb', fun hl' => hl ?_⟩
    exact hs.ok.inj l' l b' hb' hl'
  · simp only [Function.update_apply] at hb'
    split_ifs at hb' with hsame
    refine Heap.mem_free.2 ⟨hs.requests b' r hb', fun hl' => hsame ?_⟩
    exact Option.some.inj (hl'.symm.trans hb)

omit [DecidableEq D] in
theorem Inv.use_eq (hs : Inv s) {b : ℕ} (hb : s.heap.ptr l = some b) : s.heap.use l = s.heap := by
  simp only [Heap.use, hb, if_pos (hs.ptr l b hb)]

/-- **Every call keeps the blocks in order.** -/
theorem inv_step {s t : State D} {a : Act D} (hs : Inv s.sys) (h : step v s a = some t) :
    Inv t.sys := by
  cases a with
  | add l qos value kzalloc =>
      obtain rfl := Option.some.inj h
      simp only [shannonPmQosAddRequirement]
      split_ifs
      · exact hs
      · exact (hs.alloc l).register (Finset.mem_insert_self ..) _
      · exact hs.alloc l
      · exact hs.setNull l
  | update l qos newValue =>
      obtain rfl := Option.some.inj h
      simp only [shannonPmQosUpdateRequirement]
      split_ifs
      · exact hs
      · split
        · exact hs
        · next b hb =>
            rw [Sys.updateRequest, hs.use_eq hb]
            exact hs.register (hs.ptr l b hb) _
      · exact hs
  | remove l qos =>
      obtain rfl := Option.some.inj h
      simp only [shannonPmQosRemoveRequirement]
      split_ifs
      · exact hs
      · split
        · exact hs
        · next b hb => exact hs.free hb
      · exact hs
  | setDisable b =>
      obtain rfl := Option.some.inj h
      exact ⟨hs.ok, hs.oops, hs.ptr, hs.requests⟩

end Blocks

/-! ### The requests -/

section Requests

variable {v : Version} {s t : State D} {l : D}

omit [DecidableEq D] in
/-- The request of a block that a device points to is the one it wants. -/
theorem Exact.want_of_ptr (hs : Exact s) (hinv : Inv s.sys) {b : ℕ} {r : Request}
    (hb : s.sys.heap.ptr l = some b) (hr : s.sys.requests b = some r) : s.want l = some r := by
  obtain ⟨l', hl', hwant⟩ := hs.only b r hr
  rwa [hinv.ok.inj l' l b hl' hb] at hwant

/-- A wish that is not changed. -/
theorem Exact.congr_want (hs : Exact s) {w : Option Request} (hw : w = s.want l) :
    Exact ⟨s.sys, Function.update s.want l w⟩ := by
  rwa [hw, Function.update_eq_self]

theorem exact_add (hinv : Inv s.sys) (hs : Exact s) (hwant : s.want l = none) (disable : Bool)
    (r : Request) :
    Exact ⟨⟨disable, s.sys.heap.alloc l,
        Function.update s.sys.requests s.sys.heap.next (some r)⟩,
      Function.update s.want l (some r)⟩ where
  wanted := by
    intro l' r' hr'
    simp only [Heap.alloc, Function.update_apply] at hr' ⊢
    split_ifs at hr' ⊢ with hl
    · exact ⟨s.sys.heap.next, rfl, by rw [if_pos rfl, hr']⟩
    · obtain ⟨b, hb, hreq⟩ := hs.wanted l' r' hr'
      exact ⟨b, hb, by rw [if_neg (hinv.ok.ptr_lt l' b hb).ne, hreq]⟩
  only := by
    intro b r' hr'
    simp only [Heap.alloc, Function.update_apply] at hr' ⊢
    split_ifs at hr' with hnew
    · exact ⟨l, by rw [if_pos rfl, hnew], by rw [if_pos rfl, hr']⟩
    · obtain ⟨l', hl', hreq⟩ := hs.only b r' hr'
      have hne : l' ≠ l := by
        rintro rfl
        rw [hwant] at hreq
        cases hreq
      exact ⟨l', by rw [if_neg hne, hl'], by rw [if_neg hne, hreq]⟩

theorem exact_update (hinv : Inv s.sys) (hs : Exact s) {b : ℕ} (hb : s.sys.heap.ptr l = some b)
    (disable : Bool) (newValue : ℤ) :
    Exact ⟨⟨disable, s.sys.heap, Function.update s.sys.requests b
        ((s.sys.requests b).map fun r => { r with value := newValue })⟩,
      Function.update s.want l ((s.want l).map fun r => { r with value := newValue })⟩ where
  wanted := by
    intro l' r' hr'
    simp only [Function.update_apply] at hr' ⊢
    split_ifs at hr' with hl
    · obtain ⟨r, hr, rfl⟩ := Option.map_eq_some_iff.1 hr'
      obtain ⟨b', hb', hreq⟩ := hs.wanted l r hr
      obtain rfl := Option.some.inj (hb.symm.trans hb')
      exact ⟨b, hl ▸ hb, by rw [if_pos rfl, hreq]; rfl⟩
    · obtain ⟨b', hb', hreq⟩ := hs.wanted l' r' hr'
      have hne : b' ≠ b := fun heq => hl (hinv.ok.inj l' l b (heq ▸ hb') hb)
      exact ⟨b', hb', by rw [if_neg hne, hreq]⟩
  only := by
    intro b' r' hr'
    simp only [Function.update_apply] at hr' ⊢
    split_ifs at hr' with hsame
    · obtain ⟨r, hr, rfl⟩ := Option.map_eq_some_iff.1 hr'
      exact ⟨l, hsame ▸ hb, by rw [if_pos rfl, hs.want_of_ptr hinv hb hr]; rfl⟩
    · obtain ⟨l', hl', hreq⟩ := hs.only b' r' hr'
      have hne : l' ≠ l := by
        rintro rfl
        exact hsame (Option.some.inj (hl'.symm.trans hb))
      exact ⟨l', hl', by rw [if_neg hne, hreq]⟩

theorem exact_remove (hinv : Inv s.sys) (hs : Exact s) {b : ℕ} (hb : s.sys.heap.ptr l = some b)
    (disable : Bool) :
    Exact ⟨⟨disable, (s.sys.heap.free l).setNull l, Function.update s.sys.requests b none⟩,
      Function.update s.want l none⟩ where
  wanted := by
    intro l' r' hr'
    simp only [Heap.setNull, Heap.free_ptr, Function.update_apply] at hr' ⊢
    split_ifs at hr' ⊢ with hl
    obtain ⟨b', hb', hreq⟩ := hs.wanted l' r' hr'
    have hne : b' ≠ b := fun heq => hl (hinv.ok.inj l' l b (heq ▸ hb') hb)
    exact ⟨b', hb', by rw [if_neg hne, hreq]⟩
  only := by
    intro b' r' hr'
    simp only [Heap.setNull, Heap.free_ptr, Function.update_apply] at hr' ⊢
    split_ifs at hr' with hsame
    obtain ⟨l', hl', hreq⟩ := hs.only b' r' hr'
    have hne : l' ≠ l := by
      rintro rfl
      exact hsame (Option.some.inj (hl'.symm.trans hb))
    exact ⟨l', by rw [if_neg hne, hl'], by rw [if_neg hne, hreq]⟩

/-- **The calls that are right keep it.** -/
theorem exact_step (hinv : Inv s.sys) (hs : Exact s) {a : Act D} (hgood : Good v s a)
    (h : step v s a = some t) : Exact t := by
  have hnull {l : D} (hl : s.sys.heap.ptr l = none) : s.want l = none := by
    by_contra hwant
    obtain ⟨r, hr⟩ := Option.ne_none_iff_exists'.1 hwant
    obtain ⟨b, hb, -⟩ := hs.wanted l r hr
    rw [hl] at hb
    cases hb
  cases a with
  | add l qos value kzalloc =>
      obtain rfl := Option.some.inj h
      obtain ⟨hdisable, hkzalloc, htakes, hwant⟩ | ⟨hdisable, hwant⟩ := hgood
      · simp only [shannonPmQosAddRequirement, hdisable, hkzalloc, htakes, Bool.false_eq_true,
          if_false, if_true]
        exact exact_add hinv hs hwant false _
      · simp only [shannonPmQosAddRequirement, hdisable, if_true]
        exact hs.congr_want hwant.symm
  | update l qos newValue =>
      obtain rfl := Option.some.inj h
      have hskip (hsame : ∀ r, s.want l = some r → r.value = newValue) :
          (s.want l).map (fun r => { r with value := newValue }) = s.want l := by
        cases hw : s.want l with
        | none => rfl
        | some r => rw [Option.map_some, ← hsame r hw]
      simp only [shannonPmQosUpdateRequirement]
      split_ifs with hdisable htakes
      · refine hs.congr_want (hskip ?_)
        rcases hgood with hsame | ⟨henabled, -⟩
        · exact hsame
        · exact absurd (henabled.symm.trans hdisable) Bool.false_ne_true
      · split
        · next hl => exact hs.congr_want (hskip (by rw [hnull hl]; rintro _ ⟨⟩))
        · next b hb =>
            rw [Sys.updateRequest, hinv.use_eq hb]
            exact exact_update hinv hs hb _ newValue
      · refine hs.congr_want (hskip ?_)
        rcases hgood with hsame | ⟨-, hyes⟩
        · exact hsame
        · exact absurd hyes htakes
  | remove l qos =>
      obtain rfl := Option.some.inj h
      simp only [shannonPmQosRemoveRequirement]
      split_ifs with hdisable htakes
      · refine hs.congr_want (Eq.symm ?_)
        rcases hgood with hwant | ⟨henabled, -⟩
        · exact hwant
        · exact absurd (henabled.symm.trans hdisable) Bool.false_ne_true
      · split
        · next hl => exact hs.congr_want (hnull hl).symm
        · next b hb => exact exact_remove hinv hs hb _
      · refine hs.congr_want (Eq.symm ?_)
        rcases hgood with hwant | ⟨-, hyes⟩
        · exact hwant
        · exact absurd hyes htakes
  | setDisable b =>
      obtain rfl := Option.some.inj h
      exact ⟨hs.wanted, hs.only⟩

/-- A call that is skipped, or that adds a second request, leaves something else than is wanted. -/
theorem not_exact_add (hinv : Inv s.sys) (hs : Exact s) {qos value : ℤ} {kzalloc : Bool}
    (hbad : ¬Good v s (.add l qos value kzalloc)) :
    ¬Exact ⟨shannonPmQosAddRequirement v s.sys l qos value kzalloc,
      Function.update s.want l (some ⟨qos, value⟩)⟩ := by
  intro ht
  obtain ⟨b, hb, hreq⟩ := ht.wanted l ⟨qos, value⟩ (Function.update_self ..)
  unfold shannonPmQosAddRequirement at ht hb hreq
  rw [Good, not_or] at hbad
  split_ifs at ht hb hreq with hdisable hkzalloc htakes
  · -- disabled
    exact hbad.2 ⟨hdisable, hs.want_of_ptr hinv hb hreq⟩
  · -- a second one
    have hwant : s.want l ≠ none := fun hnone =>
      hbad.1 ⟨Bool.eq_false_iff.2 hdisable, hkzalloc, htakes, hnone⟩
    obtain ⟨r, hr⟩ := Option.ne_none_iff_exists'.1 hwant
    obtain ⟨b₀, hb₀, hreq₀⟩ := hs.wanted l r hr
    have hold : b₀ ≠ s.sys.heap.next := (hinv.ok.ptr_lt l b₀ hb₀).ne
    obtain ⟨l', hl', -⟩ := ht.only b₀ r ((Function.update_of_ne hold ..).trans hreq₀)
    simp only [Heap.alloc, Function.update_apply] at hl'
    split_ifs at hl' with hsame
    · exact hold (Option.some.inj hl').symm
    · exact hsame (hinv.ok.inj l' l b₀ hl' hb₀)
  · -- a class that is not taken
    obtain rfl : s.sys.heap.next = b := by
      simpa [Heap.alloc] using hb
    exact lt_irrefl _ (hinv.ok.live_lt _ (hinv.requests _ _ hreq))
  · -- no memory
    simp [Heap.setNull] at hb

/-- **The others break it.** -/
theorem not_exact_step (hinv : Inv s.sys) (hs : Exact s) {a : Act D} (hbad : ¬Good v s a)
    (h : step v s a = some t) : ¬Exact t := by
  cases a with
  | add l qos value kzalloc =>
      obtain rfl := Option.some.inj h
      exact not_exact_add hinv hs hbad
  | update l qos newValue =>
      obtain rfl := Option.some.inj h
      rw [Good, not_or, not_and] at hbad
      obtain ⟨hchange, hskip⟩ := hbad
      have hsame : shannonPmQosUpdateRequirement v s.sys l qos newValue = s.sys := by
        unfold shannonPmQosUpdateRequirement
        split_ifs with hdisable htakes
        · rfl
        · exact absurd htakes (hskip (Bool.eq_false_iff.2 hdisable))
        · rfl
      rw [hsame]
      intro ht
      refine hchange fun r hr => ?_
      obtain ⟨b, hb, hreq⟩ := ht.wanted l { r with value := newValue } (by simp [hr])
      have hwant := hs.want_of_ptr hinv hb hreq
      rw [Option.some.inj (hr.symm.trans hwant)]
  | remove l qos =>
      obtain rfl := Option.some.inj h
      rw [Good, not_or, not_and] at hbad
      obtain ⟨hwant, hskip⟩ := hbad
      have hsame : shannonPmQosRemoveRequirement v s.sys l qos = s.sys := by
        unfold shannonPmQosRemoveRequirement
        split_ifs with hdisable htakes
        · rfl
        · exact absurd htakes (hskip (Bool.eq_false_iff.2 hdisable))
        · rfl
      rw [hsame]
      intro ht
      obtain ⟨r, hr⟩ := Option.ne_none_iff_exists'.1 hwant
      obtain ⟨b, hb, hreq⟩ := hs.wanted l r hr
      have hnone : Function.update s.want l none l = some r := ht.want_of_ptr hinv hb hreq
      rw [Function.update_self] at hnone
      cases hnone
  | setDisable b => exact absurd trivial hbad

end Requests

section Start

variable {v : Version} {disable : Bool} {t : State D}

omit [DecidableEq D] in
theorem inv_start : Inv (start disable : State D).sys where
  ok := Heap.ok_empty
  oops := rfl
  ptr := by
    rintro _ _ ⟨⟩
  requests := by
    rintro _ _ ⟨⟩

omit [DecidableEq D] in
theorem exact_start : Exact (start disable : State D) where
  wanted := by
    rintro _ _ ⟨⟩
  only := by
    rintro _ _ ⟨⟩

/-- **When the kernel does what the devices want.**  On every version, for any number of devices and
any sequence of calls, with writes to `shannon_pm_qos_disable` in between and allocations that fail:
the kernel has the requests the devices want and no others, at all times, exactly if every device
that adds a requirement has none, the allocation succeeds and the class is taken, and a call that is
skipped, for the parameter or the class, only asks for what is there already.  In any case no
request is used or freed after it was freed. -/
theorem pm_qos_exact_iff {as : List (Act D)} (hrun : run (step v) (start disable) as = some t) :
    (Along (step v) (Good v) (start disable) as ↔
      ∀ n u, run (step v) (start disable) (as.take n) = some u → Exact u) ∧
    t.sys.heap.oops = false := by
  have hstep (s : State D) (a : Act D) (t : State D) (hs : Inv s.sys) (h : step v s a = some t) :
      Inv t.sys := inv_step hs h
  refine ⟨along_iff_forall_take_of_held hstep (fun s a t hinv hs => exact_step hinv hs)
    (fun s a t hinv hs => not_exact_step hinv hs) inv_start exact_start hrun, ?_⟩
  exact (run_invariant hstep inv_start hrun).oops

end Start

/-- The parameter is set while a requirement is there and cleared after its removal. -/
def forgotten : List (Act Unit) :=
  [.add () 1 50 true, .setDisable true, .remove () 1, .setDisable false, .add () 1 20 true]

/-- The hypothesis of `pm_qos_exact_iff` is satisfiable: in `forgotten` the removal is skipped, so
that some state has another request than is wanted. -/
theorem pm_qos_forgotten :
    ∃ t, run (step .v57) (start false) forgotten = some t ∧
      (¬∀ n u, run (step .v57) (start false) (forgotten.take n) = some u → Exact u) ∧
      t.sys.heap.oops = false := by
  obtain ⟨t, ht⟩ : ∃ t, run (step .v57) (start false) forgotten = some t := ⟨_, rfl⟩
  obtain ⟨hiff, hoops⟩ := pm_qos_exact_iff ht
  refine ⟨t, ht, fun hexact => ?_, hoops⟩
  obtain ⟨-, hrest⟩ := hiff.2 hexact
  obtain ⟨-, hrest⟩ := hrest _ rfl
  obtain ⟨hremove, -⟩ := hrest _ rfl
  rcases hremove with hnone | ⟨hdisable, -⟩
  · cases hnone
  · cases hdisable

end PmQos
end Kcore
end Shannon
