/-
# Pointers in the fields of a structure

A structure has pointers in fields of a type `φ`, each `NULL` or to a block of the heap.  A block
is one allocation: the number of a block that was freed is not used again, so that a pointer to it
stays wrong for ever.  `oops` is set when a block is freed that is not allocated, and when a field
is used that does not point to an allocated block.

No two fields point to the same block unless a pointer is copied, and there is no such operation
here (`Ok`).  So a list of fields can be freed in any order: what is left and whether something
went wrong is said by the heap before (`freeAll_spec`); and a list of fields that was allocated has
blocks of its own (`allocAll_spec`).
-/

import Mathlib.Data.Finset.Basic
import Mathlib.Logic.Function.Basic

namespace Shannon
namespace Lib

/-- The fields, the blocks that are allocated, the number of the next one, and whether something
went wrong. -/
structure Heap (φ : Type*) where
  ptr : φ → Option ℕ
  live : Finset ℕ
  next : ℕ
  oops : Bool

namespace Heap

variable {φ : Type*}

/-- All fields are `NULL`. -/
def empty : Heap φ := ⟨fun _ => none, ∅, 0, false⟩

/-- The block of a field is freed; nothing happens to `NULL`. -/
def free (h : Heap φ) (f : φ) : Heap φ :=
  match h.ptr f with
  | none => h
  | some b => if b ∈ h.live then { h with live := h.live.erase b } else { h with oops := true }

/-- The block of a field is read or written. -/
def use (h : Heap φ) (f : φ) : Heap φ :=
  match h.ptr f with
  | none => { h with oops := true }
  | some b => if b ∈ h.live then h else { h with oops := true }

/-- The blocks of the fields are freed one after the other. -/
def freeAll (h : Heap φ) (fs : List φ) : Heap φ := fs.foldl free h

section

variable [DecidableEq φ]

/-- A field gets a new block. -/
def alloc (h : Heap φ) (f : φ) : Heap φ :=
  ⟨Function.update h.ptr f (some h.next), insert h.next h.live, h.next + 1, h.oops⟩

/-- A field is set to `NULL`. -/
def setNull (h : Heap φ) (f : φ) : Heap φ := { h with ptr := Function.update h.ptr f none }

/-- The fields get new blocks, one after the other. -/
def allocAll (h : Heap φ) (fs : List φ) : Heap φ := fs.foldl alloc h

end

/-- No two fields share a block, and the next block is a new one. -/
structure Ok (h : Heap φ) : Prop where
  inj : ∀ f g b, h.ptr f = some b → h.ptr g = some b → f = g
  ptr_lt : ∀ f b, h.ptr f = some b → b < h.next
  live_lt : ∀ b ∈ h.live, b < h.next

theorem ok_empty : Ok (empty : Heap φ) where
  inj := by
    rintro _ _ _ ⟨⟩
  ptr_lt := by
    rintro _ _ ⟨⟩
  live_lt := fun b hb => absurd hb (Finset.notMem_empty b)

/-! ### Freeing -/

@[simp] theorem free_ptr (h : Heap φ) (f : φ) : (h.free f).ptr = h.ptr := by
  unfold free
  split
  · rfl
  · split_ifs <;> rfl

@[simp] theorem free_next (h : Heap φ) (f : φ) : (h.free f).next = h.next := by
  unfold free
  split
  · rfl
  · split_ifs <;> rfl

theorem mem_free {h : Heap φ} {f : φ} {b : ℕ} :
    b ∈ (h.free f).live ↔ b ∈ h.live ∧ h.ptr f ≠ some b := by
  unfold free
  split
  · next hnull => simp [hnull]
  · next c hc =>
      rw [hc]
      split_ifs with hmem
      · rw [Finset.mem_erase, and_comm, ne_eq, ne_eq, Option.some.injEq, eq_comm]
      · refine ⟨fun hb => ⟨hb, ?_⟩, And.left⟩
        rintro ⟨⟩
        exact hmem hb

theorem free_oops {h : Heap φ} {f : φ} :
    (h.free f).oops = true ↔ h.oops = true ∨ ∃ b, h.ptr f = some b ∧ b ∉ h.live := by
  unfold free
  split
  · next hnull => simp [hnull]
  · next c hc =>
      rw [hc]
      split_ifs with hmem <;> simp [hmem]

@[simp] theorem freeAll_ptr (h : Heap φ) (fs : List φ) : (h.freeAll fs).ptr = h.ptr := by
  induction fs generalizing h with
  | nil => rfl
  | cons f fs ih => rw [freeAll, List.foldl_cons, ← freeAll, ih, free_ptr]

@[simp] theorem freeAll_next (h : Heap φ) (fs : List φ) : (h.freeAll fs).next = h.next := by
  induction fs generalizing h with
  | nil => rfl
  | cons f fs ih => rw [freeAll, List.foldl_cons, ← freeAll, ih, free_next]

theorem mem_freeAll {h : Heap φ} {fs : List φ} {b : ℕ} :
    b ∈ (h.freeAll fs).live ↔ b ∈ h.live ∧ ∀ f ∈ fs, h.ptr f ≠ some b := by
  induction fs generalizing h with
  | nil => simp [freeAll]
  | cons f fs ih =>
      rw [freeAll, List.foldl_cons, ← freeAll, ih, mem_free, free_ptr, List.forall_mem_cons,
        and_assoc]

/-- **Freeing goes wrong exactly if a field has no block any more**, in whatever order. -/
theorem freeAll_oops {h : Heap φ} (hok : h.Ok) {fs : List φ} (hfs : fs.Nodup) :
    (h.freeAll fs).oops = true ↔
      h.oops = true ∨ ∃ f ∈ fs, ∃ b, h.ptr f = some b ∧ b ∉ h.live := by
  induction fs generalizing h with
  | nil => simp [freeAll]
  | cons f fs ih =>
      obtain ⟨hf, hfs⟩ := List.nodup_cons.1 hfs
      have hok' : (h.free f).Ok := by
        refine ⟨by simpa using hok.inj, by simpa using hok.ptr_lt, fun b hb => ?_⟩
        rw [free_next]
        exact hok.live_lt b (mem_free.1 hb).1
      rw [freeAll, List.foldl_cons, ← freeAll, ih hok' hfs, free_oops, or_assoc]
      refine or_congr_right ?_
      simp only [free_ptr, mem_free, List.exists_mem_cons_iff]
      refine or_congr_right (exists_congr fun g => and_congr_right fun hg => ?_)
      refine exists_congr fun b => and_congr_right fun hb => ?_
      refine ⟨fun hnot hmem => hnot ⟨hmem, fun hfb => ?_⟩, fun hnot hmem => hnot hmem.1⟩
      exact hf (hok.inj f g b hfb hb ▸ hg)

theorem Ok.freeAll {h : Heap φ} (hok : h.Ok) (fs : List φ) : (h.freeAll fs).Ok where
  inj := by
    rw [freeAll_ptr]
    exact hok.inj
  ptr_lt := by
    rw [freeAll_ptr, freeAll_next]
    exact hok.ptr_lt
  live_lt := by
    intro b hb
    rw [freeAll_next]
    exact hok.live_lt b (mem_freeAll.1 hb).1

/-! ### Allocating -/

variable [DecidableEq φ]

theorem Ok.alloc {h : Heap φ} (hok : h.Ok) (f : φ) : (h.alloc f).Ok where
  inj := by
    intro g g' b hg hg'
    simp only [Heap.alloc, Function.update_apply] at hg hg'
    split_ifs at hg hg' with hgf hgf' hgf'
    · rw [hgf, hgf']
    · obtain rfl := Option.some.inj hg
      exact absurd (hok.ptr_lt g' _ hg') (lt_irrefl _)
    · obtain rfl := Option.some.inj hg'
      exact absurd (hok.ptr_lt g _ hg) (lt_irrefl _)
    · exact hok.inj g g' b hg hg'
  ptr_lt := by
    intro g b hg
    simp only [Heap.alloc, Function.update_apply] at hg ⊢
    split_ifs at hg
    · obtain rfl := Option.some.inj hg
      exact Nat.lt_succ_self _
    · exact Nat.lt_succ_of_lt (hok.ptr_lt g b hg)
  live_lt := by
    intro b hb
    rcases Finset.mem_insert.1 hb with rfl | hb
    · exact Nat.lt_succ_self _
    · exact Nat.lt_succ_of_lt (hok.live_lt b hb)

theorem Ok.setNull {h : Heap φ} (hok : h.Ok) (f : φ) : (h.setNull f).Ok where
  inj := by
    intro g g' b hg hg'
    simp only [Heap.setNull, Function.update_apply] at hg hg'
    split_ifs at hg hg'
    exact hok.inj g g' b hg hg'
  ptr_lt := by
    intro g b hg
    simp only [Heap.setNull, Function.update_apply] at hg ⊢
    split_ifs at hg
    exact hok.ptr_lt g b hg
  live_lt := hok.live_lt

/-- **Fields that are allocated have blocks of their own**, and the others keep what they had. -/
theorem allocAll_spec {h : Heap φ} (hok : h.Ok) {fs : List φ} (hfs : fs.Nodup) :
    (h.allocAll fs).Ok ∧ (h.allocAll fs).oops = h.oops ∧
      (∀ f ∈ fs, ∃ b, (h.allocAll fs).ptr f = some b ∧ b ∈ (h.allocAll fs).live ∧
        h.next ≤ b) ∧
      (∀ f, f ∉ fs → (h.allocAll fs).ptr f = h.ptr f) ∧
      ∀ b, b ∈ (h.allocAll fs).live ↔ b ∈ h.live ∨ ∃ f ∈ fs, (h.allocAll fs).ptr f = some b := by
  induction fs generalizing h with
  | nil => exact ⟨hok, rfl, by simp, fun _ _ => rfl, by simp [allocAll]⟩
  | cons f fs ih =>
      obtain ⟨hf, hfs⟩ := List.nodup_cons.1 hfs
      obtain ⟨hok', hoops, hnew, hold, hlive⟩ := ih (hok.alloc f) hfs
      rw [allocAll, List.foldl_cons, ← allocAll]
      have hptr : ((h.alloc f).allocAll fs).ptr f = some h.next := by
        rw [hold f hf]
        exact Function.update_self ..
      refine ⟨hok', hoops, ?_, ?_, ?_⟩
      · intro g hg
        rcases List.mem_cons.1 hg with rfl | hg
        · refine ⟨h.next, hptr, ?_, le_rfl⟩
          exact (hlive h.next).2 (.inl (Finset.mem_insert_self ..))
        · obtain ⟨b, hb, hmem, hle⟩ := hnew g hg
          exact ⟨b, hb, hmem, (Nat.le_succ _).trans hle⟩
      · intro g hg
        rw [List.mem_cons, not_or] at hg
        rw [hold g hg.2]
        exact Function.update_of_ne hg.1 ..
      · intro b
        rw [hlive, List.exists_mem_cons_iff, hptr, ← or_assoc]
        refine or_congr_left ?_
        rw [alloc, Finset.mem_insert, or_comm, Option.some.injEq, eq_comm]

end Heap
end Lib
end Shannon
