/-
# A flat file over equal cells

Cells of bytes, of which each has a window of `g` bytes at the offset `base`.
`concat g base b m` is the windows of the first `m` cells in a row, and
`flat g base b q` is byte `q` of it.

`overwrite g base b p d n` replaces the bytes `[p, p + n)` of that file by the
first `n` bytes of `d`.  A range that stays inside one window is a store into one
cell (`overwrite_window`), ranges in a row compose (`overwrite_append`), and the
file reads back what was written (`flat_overwrite`).
-/

import Shannon.Lib.Boundary
import Mathlib.Data.List.Range
import Mathlib.Logic.Function.Basic

namespace Shannon
namespace Lib

variable {β : Type*} {g : ℕ}

/-- Copy `n` bytes of `src` from `o` on to the offset `at_` of `dst`. -/
def blit (dst : ℕ → β) (at_ : ℕ) (src : ℕ → β) (o n : ℕ) : ℕ → β := fun a =>
  if at_ ≤ a ∧ a < at_ + n then src (o + (a - at_)) else dst a

theorem blit_append (dst : ℕ → β) (at_ : ℕ) (src : ℕ → β) (o m n : ℕ) :
    blit (blit dst at_ src o m) (at_ + m) src (o + m) n = blit dst at_ src o (m + n) := by
  funext a
  simp only [blit]
  split_ifs with h1 h2 h3 h4
  · rw [show o + m + (a - (at_ + m)) = o + (a - at_) by omega]
  · omega
  · rfl
  · omega
  · omega
  · rfl

@[simp] theorem blit_zero (dst : ℕ → β) (at_ : ℕ) (src : ℕ → β) (o : ℕ) :
    blit dst at_ src o 0 = dst := by
  funext a
  exact if_neg (by omega)

theorem blit_congr {src src' : ℕ → β} {o o' n : ℕ} (dst : ℕ → β) (at_ : ℕ)
    (h : ∀ k, k < n → src (o + k) = src' (o' + k)) :
    blit dst at_ src o n = blit dst at_ src' o' n := by
  funext a
  simp only [blit]
  split_ifs with ha
  · exact h _ (by omega)
  · rfl

/-! ### The file -/

/-- Byte `q` of the file. -/
def flat (g base : ℕ) (b : ℕ → ℕ → β) (q : ℕ) : β := b (q / g) (base + q % g)

/-- The windows of the first `m` cells, one after the other. -/
def concat (g base : ℕ) (b : ℕ → ℕ → β) (m : ℕ) : List β :=
  (List.range m).flatMap fun i => (List.range' base g).map (b i)

/-- The cells, with the bytes `[p, p + n)` of the file replaced by those of `d`. -/
def overwrite (g base : ℕ) (b : ℕ → ℕ → β) (p : ℕ) (d : ℕ → β) (n : ℕ) : ℕ → ℕ → β := fun i j =>
  if base ≤ j ∧ j < base + g ∧ p ≤ i * g + (j - base) ∧ i * g + (j - base) < p + n then
    d (i * g + (j - base) - p)
  else b i j

/-- Byte `r` of cell `i`. -/
theorem cell_div_mod {r : ℕ} (i : ℕ) (hr : r < g) :
    (i * g + r) / g = i ∧ (i * g + r) % g = r := by
  rw [Nat.add_comm, Nat.add_mul_div_right _ _ (by omega), Nat.div_eq_of_lt hr, Nat.zero_add,
    Nat.add_mul_mod_self_right, Nat.mod_eq_of_lt hr]
  exact ⟨rfl, rfl⟩

theorem concat_eq_map (base : ℕ) (b : ℕ → ℕ → β) (m : ℕ) :
    concat g base b m = (List.range (m * g)).map (flat g base b) := by
  induction m with
  | zero => rw [Nat.zero_mul]; rfl
  | succ m ih =>
      have hlast : (List.range' base g).map (b m)
          = (List.range g).map fun r => flat g base b (m * g + r) := by
        rw [List.range'_eq_map_range, List.map_map]
        refine List.map_congr_left fun r hr => ?_
        obtain ⟨hdiv, hmod⟩ := cell_div_mod m (List.mem_range.1 hr)
        rw [flat, hdiv, hmod]
        rfl
      rw [concat, List.range_succ, List.flatMap_append, ← concat, ih, List.flatMap_singleton,
        hlast, Nat.succ_mul, List.range_add, List.map_append, List.map_map]
      rfl

/-- The file depends on the windows only. -/
theorem concat_congr {base : ℕ} {b b' : ℕ → ℕ → β}
    (h : ∀ i j, base ≤ j → j < base + g → b' i j = b i j) (m : ℕ) :
    concat g base b' m = concat g base b m := by
  have hwindow (i : ℕ) : (List.range' base g).map (b' i) = (List.range' base g).map (b i) := by
    refine List.map_congr_left fun j hj => ?_
    rw [List.mem_range'_1] at hj
    exact h i j hj.1 hj.2
  rw [concat, concat, funext hwindow]

/-- A slice of the file. -/
theorem take_drop_concat {base p n m : ℕ} (b : ℕ → ℕ → β) (h : p + n ≤ m * g) :
    ((concat g base b m).drop p).take n = (List.range n).map fun k => flat g base b (p + k) := by
  have hrange : ((List.range (m * g)).drop p).take n = (List.range n).map (p + ·) := by
    rw [List.range_eq_range', List.drop_range', List.take_range'_of_length_ge (by omega),
      ← List.range'_eq_map_range, Nat.zero_add, Nat.mul_one]
  rw [concat_eq_map, ← List.map_drop, ← List.map_take, hrange, List.map_map]
  rfl

/-- Inside the window of `p`, the file is that window. -/
theorem flat_add (hg : 0 < g) {base p k : ℕ} (b : ℕ → ℕ → β) (hk : k < toBoundary g p) :
    flat g base b (p + k) = b (p / g) (base + p % g + k) := by
  have hcell := mod_add_toBoundary hg p
  have hp : p + k = p / g * g + (p % g + k) := by
    rw [← Nat.add_assoc, Nat.div_add_mod']
  obtain ⟨hdiv, hmod⟩ := cell_div_mod (p / g) (show p % g + k < g by omega)
  rw [flat, hp, hdiv, hmod, Nat.add_assoc]

/-- **The file reads back what was written, and the rest of it is unchanged.** -/
theorem flat_overwrite (hg : 0 < g) (base : ℕ) (b : ℕ → ℕ → β) (p : ℕ) (d : ℕ → β) (n q : ℕ) :
    flat g base (overwrite g base b p d n) q
      = if p ≤ q ∧ q < p + n then d (q - p) else flat g base b q := by
  have hr := Nat.mod_lt q hg
  have hq : q / g * g + (base + q % g - base) = q := by
    rw [Nat.add_sub_cancel_left, Nat.div_add_mod']
  simp only [flat, overwrite, hq]
  simp [hr]

@[simp] theorem overwrite_zero (base : ℕ) (b : ℕ → ℕ → β) (p : ℕ) (d : ℕ → β) :
    overwrite g base b p d 0 = b := by
  funext i j
  exact if_neg (by omega)

theorem overwrite_append (base : ℕ) (b : ℕ → ℕ → β) (p : ℕ) (d : ℕ → β) (m n : ℕ) :
    overwrite g base (overwrite g base b p d m) (p + m) (fun k => d (m + k)) n
      = overwrite g base b p d (m + n) := by
  funext i j
  simp only [overwrite]
  generalize i * g + (j - base) = q
  split_ifs with h1 h2 h3 h4
  · rw [show m + (q - (p + m)) = q - p by omega]
  · omega
  · rfl
  · omega
  · omega
  · rfl

/-- A range inside one window is one store into one cell. -/
theorem overwrite_window (hg : 0 < g) {base p n : ℕ} (b : ℕ → ℕ → β) (d : ℕ → β) (o : ℕ)
    (hn : n ≤ toBoundary g p) :
    Function.update b (p / g) (blit (b (p / g)) (base + p % g) d o n)
      = overwrite g base b p (fun k => d (o + k)) n := by
  have hp := Nat.div_add_mod' p g
  have hcell := mod_add_toBoundary hg p
  funext i j
  by_cases hi : i = p / g
  · subst hi
    rw [Function.update_self]
    simp only [blit, overwrite]
    generalize p / g * g = q at *
    split_ifs with h1 h2 h3
    · rw [show q + (j - base) - p = j - (base + p % g) by omega]
    · omega
    · omega
    · rfl
  · rw [Function.update_of_ne hi]
    refine (if_neg ?_).symm
    rintro ⟨hbase, hj, hle, hlt⟩
    -- the position would lie in the cell of `p`
    have hsame : i * g + (j - base) = p / g * g + (p % g + (i * g + (j - base) - p)) := by omega
    have hdiv := (cell_div_mod (p / g)
      (show p % g + (i * g + (j - base) - p) < g by omega)).1
    rw [← hsame, (cell_div_mod i (show j - base < g by omega)).1] at hdiv
    exact hi hdiv

end Lib
end Shannon
