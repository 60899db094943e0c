/-
# The list of the RT work queue

`shannon_list.h` and the lock-protected sections of `shannon_workqueue.c`: a work
is linked into the circular list of its queue by `shannon_rt_queue_work`, unless
its PENDING bit says that it is linked already, and `rt_thread_fn` takes the first
one out again and clears the bit.

`Holds` is what the list and the bits are for: they hold a sequence of distinct
works.  On it the two sections are a first-in first-out queue that does not take
a work twice (`shannonRtQueueWork_spec`, `takeFirst_spec`).
-/

import Shannon.Lib.Ring

namespace Shannon
namespace Workqueue

open Lib

/-! ### `shannon_list.h` -/

section List

variable {ν : Type*} [DecidableEq ν]

/-- `shannon_list_empty`. -/
def shannonListEmpty (h : Links ν) (head : ν) : Bool := h.next head = head

/-- `shannon_list_add_tail`. -/
def shannonListAddTail (h : Links ν) (new head : ν) : Links ν :=
  h.insertBetween new (h.prev head) head

/-- `shannon_list_del_init`. -/
def shannonListDelInit (h : Links ν) (entry : ν) : Links ν :=
  (h.unlink (h.prev entry) (h.next entry)).selfLink entry

end List

/-! ### The sections under the lock -/

variable {W : Type*} [DecidableEq W]

/-- The list heads of the queue, `none`, and of the works; the PENDING bits; and
whether `SHN_BUG_ON` has fired. -/
structure RtQueue (W : Type*) where
  links : Links (Option W)
  pending : W → Bool
  bug : Bool

/-- After `shannon_create_singlethread_rt_workqueue`, and `shannon_init_rt_work`
on works whose flags were zero. -/
def RtQueue.init : RtQueue W := ⟨⟨id, id⟩, fun _ => false, false⟩

/-- The section of `shannon_rt_queue_work`, and the value it returns. -/
def shannonRtQueueWork (q : RtQueue W) (work : W) : RtQueue W × ℤ :=
  if q.pending work then (q, -1)
  else (⟨shannonListAddTail q.links (some work) none, Function.update q.pending work true,
    q.bug || !shannonListEmpty q.links (some work)⟩, 0)

/-- The section of `rt_thread_fn` that takes a work: the entry after the head is
taken for one, so `none` is a list that is empty. -/
def takeFirst (q : RtQueue W) : Option (W × RtQueue W) :=
  match q.links.next none with
  | none => none
  | some rtw => some (rtw, ⟨shannonListDelInit q.links (some rtw),
      Function.update q.pending rtw false, q.bug⟩)

/-! ### The sequence it holds -/

/-- The list and the bits hold the works `xs`, in this order. -/
structure Holds (q : RtQueue W) (xs : List W) : Prop where
  ring : Ring q.links none (xs.map some)
  alone : ∀ w, w ∉ xs → Ring q.links (some w) []
  pending_iff : ∀ w, q.pending w = true ↔ w ∈ xs
  bug_eq : q.bug = false

omit [DecidableEq W] in
theorem holds_init : Holds (RtQueue.init : RtQueue W) [] where
  ring := ring_nil_iff.2 ⟨rfl, rfl⟩
  alone := fun _ _ => ring_nil_iff.2 ⟨rfl, rfl⟩
  pending_iff := by simp [RtQueue.init]
  bug_eq := rfl

omit [DecidableEq W] in
/-- A work is linked once. -/
theorem Holds.nodup {q : RtQueue W} {xs : List W} (h : Holds q xs) : xs.Nodup :=
  List.Nodup.of_map _ (List.nodup_cons.1 h.ring.nodup).2

theorem Holds.empty_iff {q : RtQueue W} {xs : List W} (h : Holds q xs) :
    shannonListEmpty q.links none = true ↔ xs = [] := by
  rw [shannonListEmpty, decide_eq_true_iff, h.ring.next_head_eq_iff, List.map_eq_nil_iff]

/-- The list head of a work that is not linked points to itself. -/
theorem Holds.empty_of_notMem {q : RtQueue W} {xs : List W} (h : Holds q xs) {w : W}
    (hw : w ∉ xs) : shannonListEmpty q.links (some w) = true := by
  rw [shannonListEmpty, decide_eq_true_iff, (h.alone w hw).next_head_eq_iff]

omit [DecidableEq W] in
theorem Holds.oneList {q : RtQueue W} {xs : List W} (h : Holds q xs) : OneList q.links xs :=
  ⟨h.ring, h.alone⟩

theorem Holds.addTail {q : RtQueue W} {xs : List W} (h : Holds q xs) {w : W} (hw : w ∉ xs) :
    Holds ⟨shannonListAddTail q.links (some w) none, Function.update q.pending w true, q.bug⟩
      (xs ++ [w]) := by
  have hlist : OneList q.links (xs ++ []) := by
    rw [List.append_nil]
    exact h.oneList
  have hadded := hlist.insertBetween (by simpa using hw) h.ring.prev_head rfl
  refine ⟨hadded.ring, hadded.alone, fun v => ?_, h.bug_eq⟩
  rcases eq_or_ne v w with rfl | hvw
  · simp
  · simp [hvw, h.pending_iff v]

/-- **Queueing.**  A work that is linked is refused and nothing changes; any
other one comes last. -/
theorem shannonRtQueueWork_spec {q : RtQueue W} {xs : List W} (h : Holds q xs) (w : W) :
    (w ∈ xs ∧ shannonRtQueueWork q w = (q, -1)) ∨
      (w ∉ xs ∧ ∃ q', shannonRtQueueWork q w = (q', 0) ∧ Holds q' (xs ++ [w])) := by
  rw [shannonRtQueueWork]
  split_ifs with hpending
  · exact .inl ⟨(h.pending_iff w).1 hpending, rfl⟩
  · have hw : w ∉ xs := fun hmem => hpending ((h.pending_iff w).2 hmem)
    refine .inr ⟨hw, _, rfl, ?_⟩
    rw [h.empty_of_notMem hw, Bool.not_true, Bool.or_false]
    exact h.addTail hw

/-- **Taking.**  The first work comes out. -/
theorem takeFirst_spec {q : RtQueue W} {w : W} {xs : List W} (h : Holds q (w :: xs)) :
    ∃ q', takeFirst q = some (w, q') ∧ Holds q' xs := by
  have hnodup := List.nodup_cons.1 h.nodup
  have hlist : OneList q.links ([] ++ w :: xs) := h.oneList
  have hrest := hlist.remove
  refine ⟨⟨shannonListDelInit q.links (some w), Function.update q.pending w false, q.bug⟩,
    ?_, hrest.ring, hrest.alone, fun v => ?_, h.bug_eq⟩
  · rw [takeFirst, h.oneList.next_none]
    rfl
  · rcases eq_or_ne v w with rfl | hvw
    · simpa using hnodup.1
    · simp [hvw, h.pending_iff v]

end Workqueue
end Shannon
