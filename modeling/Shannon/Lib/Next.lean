/-
# The next index with a property

`next P size offset` is the first index from `offset` on at which `P` holds, or `size` if there
is none below it: what a search in a bitmap is meant to return.  A search that works piece by
piece moves `offset` over a piece without a hit (`next_skip`) and stops in a piece with one
(`next_eq`).  A loop that goes from one hit to the one after it finds them all, in order
(`next_filter`).
-/

import Mathlib.Data.List.Basic
import Mathlib.Data.List.Range

namespace Shannon
namespace Lib

/-- The first index from `offset` on, and below `size`, at which `P` holds. -/
def next (P : ℕ → Bool) (size offset : ℕ) : ℕ :=
  ((List.range' offset (size - offset)).find? P).getD size

variable {P : ℕ → Bool} {size offset i : ℕ}

/-- What `next` returns if there is a hit. -/
theorem next_eq (hle : offset ≤ i) (hlt : i < size) (hi : P i = true)
    (hbefore : ∀ j, offset ≤ j → j < i → P j = false) : next P size offset = i := by
  have hfind : (List.range' offset (size - offset)).find? P = some i := by
    refine List.find?_range'_eq_some.2 ⟨hi, ?_, fun j hj hji => by simp [hbefore j hj hji]⟩
    rw [List.mem_range'_1]
    omega
  rw [next, hfind]
  rfl

theorem range'_split {mid : ℕ} (hle : offset ≤ mid) (hmid : mid ≤ size) :
    List.range' offset (size - offset)
      = List.range' offset (mid - offset) ++ List.range' mid (size - mid) := by
  obtain ⟨m, rfl⟩ := Nat.exists_eq_add_of_le hle
  obtain ⟨n, rfl⟩ := Nat.exists_eq_add_of_le hmid
  rw [Nat.add_sub_cancel_left, Nat.add_sub_cancel_left, List.range'_append_1]
  congr 1
  omega

/-- A piece without a hit. -/
theorem next_skip {mid : ℕ} (hle : offset ≤ mid) (hmid : mid ≤ size)
    (hnone : ∀ j, offset ≤ j → j < mid → P j = false) :
    next P size offset = next P size mid := by
  have hpiece : (List.range' offset (mid - offset)).find? P = none := by
    refine List.find?_range'_eq_none.2 fun j hj hlt => ?_
    simp [hnone j hj (by omega)]
  rw [next, range'_split hle hmid, List.find?_append, hpiece, Option.none_or]
  rfl

theorem next_of_le (h : size ≤ offset) : next P size offset = size := by
  rw [next, Nat.sub_eq_zero_of_le h]
  rfl

/-- What `next` returns in general. -/
theorem next_cases (P : ℕ → Bool) {size offset : ℕ} (hle : offset ≤ size) :
    (next P size offset = size ∧ ∀ j, offset ≤ j → j < size → P j = false) ∨
      (offset ≤ next P size offset ∧ next P size offset < size ∧
        P (next P size offset) = true ∧
        ∀ j, offset ≤ j → j < next P size offset → P j = false) := by
  cases hfind : (List.range' offset (size - offset)).find? P with
  | none =>
      refine .inl ⟨by rw [next, hfind]; rfl, fun j hj hlt => ?_⟩
      simpa using List.find?_range'_eq_none.1 hfind j hj (by omega)
  | some i =>
      have heq : next P size offset = i := by rw [next, hfind]; rfl
      obtain ⟨hi, hmem, hbefore⟩ := List.find?_range'_eq_some.1 hfind
      rw [List.mem_range'_1] at hmem
      rw [heq]
      refine .inr ⟨hmem.1, by omega, hi, fun j hj hlt => by simpa using hbefore j hj hlt⟩

theorem le_next (P : ℕ → Bool) (hle : offset ≤ size) : offset ≤ next P size offset := by
  rcases next_cases P hle with ⟨heq, -⟩ | ⟨hnext, -⟩
  · rwa [heq]
  · exact hnext

/-- **From hit to hit.**  The hits from `offset` on are the next one and the hits after it. -/
theorem next_filter (P : ℕ → Bool) (hle : offset ≤ size) :
    (List.range' offset (size - offset)).filter P =
      if next P size offset < size then
        next P size offset :: (List.range' (next P size offset + 1)
          (size - (next P size offset + 1))).filter P
      else [] := by
  rcases next_cases P hle with ⟨heq, hnone⟩ | ⟨hnext, hlt, hhit, hbefore⟩
  · rw [heq, if_neg (Nat.lt_irrefl _), List.filter_eq_nil_iff]
    intro j hj
    rw [List.mem_range'_1] at hj
    simp [hnone j hj.1 (by omega)]
  · rw [if_pos hlt]
    generalize next P size offset = i at *
    have hcons : List.range' i (size - i) = i :: List.range' (i + 1) (size - (i + 1)) := by
      rw [show size - i = size - (i + 1) + 1 by omega, List.range'_succ]
    have hpiece : (List.range' offset (i - offset)).filter P = [] := by
      rw [List.filter_eq_nil_iff]
      intro j hj
      rw [List.mem_range'_1] at hj
      simp [hbefore j hj.1 (by omega)]
    rw [range'_split hnext hlt.le, hcons, List.filter_append, hpiece, List.nil_append,
      List.filter_cons_of_pos hhit]

end Lib
end Shannon
