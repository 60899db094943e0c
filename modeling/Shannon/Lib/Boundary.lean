/-
# Distance to the next boundary

A grid of cells of `g` bytes is laid over the addresses.  `toBoundary g x` is
the number of bytes from `x` to the end of the cell `x` lies in.  A range that
starts at `x` and is no longer than that stays inside one cell
(`div_eq_of_le_toBoundary`), and the distance shrinks as one walks towards the
boundary (`toBoundary_add`) and is a whole cell again on it
(`toBoundary_add_self`).

`crossings g x n` counts the boundaries inside a range.  Cutting the range at one of
them leaves one less (`crossings_add_toBoundary`), two ranges in a row have no more
than the whole (`crossings_append`), and there are no more than the cells that the
length rounds up to (`crossings_le_ceil`).  `Enters g x n` are the places where a
walk over the range enters a cell.
-/

import Mathlib.Algebra.Order.Group.Nat

namespace Shannon
namespace Lib

/-- Bytes from `x` to the end of its cell of the grid of size `g`. -/
def toBoundary (g x : ℕ) : ℕ := g - x % g

theorem toBoundary_pos {g : ℕ} (hg : 0 < g) (x : ℕ) : 0 < toBoundary g x := by
  have := Nat.mod_lt x hg
  unfold toBoundary
  omega

theorem toBoundary_le (g x : ℕ) : toBoundary g x ≤ g := Nat.sub_le _ _

theorem mod_add_toBoundary {g : ℕ} (hg : 0 < g) (x : ℕ) : x % g + toBoundary g x = g := by
  have := Nat.mod_lt x hg
  unfold toBoundary
  omega

/-- Short of the boundary, `m` bytes bring it `m` bytes closer. -/
theorem toBoundary_add {g x m : ℕ} (hm : m < toBoundary g x) :
    toBoundary g (x + m) = toBoundary g x - m := by
  unfold toBoundary at *
  have hlt : x % g + m < g := by omega
  have h : (x + m) % g = x % g + m := by
    rw [Nat.add_mod, Nat.mod_eq_of_lt (by omega : m < g), Nat.mod_eq_of_lt hlt]
  omega

theorem add_toBoundary_eq {g : ℕ} (hg : 0 < g) (x : ℕ) :
    x + toBoundary g x = g * (x / g + 1) := by
  have hx := Nat.div_add_mod x g
  have hcell := mod_add_toBoundary hg x
  rw [Nat.mul_add]
  omega

/-- On the boundary, the next one is a whole cell away. -/
theorem toBoundary_add_self {g : ℕ} (hg : 0 < g) (x : ℕ) :
    toBoundary g (x + toBoundary g x) = g := by
  rw [add_toBoundary_eq hg, toBoundary, Nat.mul_mod_right, Nat.sub_zero]

/-- A non-empty range that ends at or before the boundary lies in one cell. -/
theorem div_eq_of_le_toBoundary {g x m : ℕ} (hg : 0 < g) (hm0 : 0 < m)
    (hm : m ≤ toBoundary g x) : x / g = (x + m - 1) / g := by
  have hx := Nat.div_add_mod x g
  have := mod_add_toBoundary hg x
  symm
  rw [Nat.div_eq_iff hg, Nat.mul_comm]
  constructor <;> omega

/-! ### Boundaries inside a range -/

/-- The boundaries inside the range of `n` bytes from `x` on. -/
def crossings (g x n : ℕ) : ℕ := (x + n - 1) / g - x / g

/-- Walking on meets no more of them. -/
theorem crossings_add_le {g x m n : ℕ} (hm : m ≤ n) :
    crossings g (x + m) (n - m) ≤ crossings g x n := by
  have hend : x + m + (n - m) - 1 = x + n - 1 := by omega
  have hstart : x / g ≤ (x + m) / g := Nat.div_le_div_right (Nat.le_add_right x m)
  rw [crossings, crossings, hend]
  omega

/-- Walking to the first of them leaves one less. -/
theorem crossings_add_toBoundary {g x n : ℕ} (hg : 0 < g) (hn : toBoundary g x < n) :
    crossings g (x + toBoundary g x) (n - toBoundary g x) + 1 = crossings g x n := by
  have hstart : (x + toBoundary g x) / g = x / g + 1 := by
    rw [add_toBoundary_eq hg, Nat.mul_div_cancel_left _ hg]
  have hend : x / g + 1 ≤ (x + n - 1) / g := by
    rw [← hstart]
    exact Nat.div_le_div_right (by omega)
  have hsame : x + toBoundary g x + (n - toBoundary g x) - 1 = x + n - 1 := by omega
  rw [crossings, crossings, hstart, hsame]
  omega

/-- There is none before the end of the cell. -/
theorem crossings_eq_zero {g x n : ℕ} (hg : 0 < g) (hn : n ≤ toBoundary g x) :
    crossings g x n = 0 := by
  have hx := Nat.div_add_mod x g
  have hcell := mod_add_toBoundary hg x
  have hend : (x + n - 1) / g < x / g + 1 := by
    rw [Nat.div_lt_iff_lt_mul hg, Nat.mul_comm, Nat.mul_add]
    omega
  rw [crossings]
  omega

theorem crossings_append (g x m n : ℕ) :
    crossings g x m + crossings g (x + m) n ≤ crossings g x (m + n) := by
  have hmid : (x + m - 1) / g ≤ (x + m) / g := Nat.div_le_div_right (by omega)
  have hstart : x / g ≤ (x + m) / g := Nat.div_le_div_right (by omega)
  rcases Nat.eq_zero_or_pos n with rfl | hn
  · rw [crossings, crossings, crossings, Nat.add_zero, Nat.add_zero]
    omega
  · have hend : (x + m) / g ≤ (x + m + n - 1) / g := Nat.div_le_div_right (by omega)
    rw [crossings, crossings, crossings, ← Nat.add_assoc]
    omega

theorem crossings_le_div {g x n : ℕ} (hg : 0 < g) : crossings g x n ≤ n / g + 1 := by
  have hx := Nat.div_add_mod x g
  have hcell := Nat.mod_lt x hg
  have hn := Nat.div_add_mod n g
  have hrest := Nat.mod_lt n hg
  have hend : (x + n - 1) / g < x / g + n / g + 2 := by
    rw [Nat.div_lt_iff_lt_mul hg, Nat.mul_comm, Nat.mul_add, Nat.mul_add]
    omega
  rw [crossings, Nat.sub_le_iff_le_add]
  omega

theorem crossings_le_ceil {g x n : ℕ} (hg : 0 < g) : crossings g x n ≤ (n + g - 1) / g := by
  have hx := Nat.div_add_mod x g
  have hcell := Nat.mod_lt x hg
  rw [crossings, Nat.sub_le_iff_le_add, ← Nat.add_mul_div_left _ _ hg]
  exact Nat.div_le_div_right (by omega)

/-! ### Walking over a range cell by cell -/

/-- Where a walk over the `n` bytes from `x` on enters a cell: at its start, and at
each boundary inside the range. -/
def Enters (g x n q : ℕ) : Prop := x ≤ q ∧ q < x + n ∧ (q = x ∨ g ∣ q)

/-- The first step of the walk ends at the boundary or at the end of the range. -/
theorem enters_iff {g n : ℕ} (hg : 0 < g) (hn : 0 < n) (x q : ℕ) :
    Enters g x n q ↔
      q = x ∨ Enters g (x + min n (toBoundary g x)) (n - min n (toBoundary g x)) q := by
  have hpos := toBoundary_pos hg x
  constructor
  · rintro ⟨hle, hlt, rfl | hdvd⟩
    · exact .inl rfl
    by_cases hq : q = x
    · exact .inl hq
    -- a boundary past `x` is no nearer than the next one
    have hnext : x + toBoundary g x ≤ q := by
      obtain ⟨c, rfl⟩ := hdvd
      rw [add_toBoundary_eq hg]
      refine Nat.mul_le_mul_left g ?_
      rw [Nat.succ_le_iff, Nat.div_lt_iff_lt_mul hg, Nat.mul_comm]
      omega
    exact .inr ⟨by omega, by omega, .inr hdvd⟩
  · rintro (rfl | ⟨hle, hlt, hq⟩)
    · exact ⟨le_rfl, by omega, .inl rfl⟩
    refine ⟨by omega, by omega, .inr ?_⟩
    rcases hq with rfl | hdvd
    · rw [Nat.min_eq_right (by omega), add_toBoundary_eq hg]
      exact Nat.dvd_mul_right _ _
    · exact hdvd

/-- The walk enters cells near the start of the grid only, when it starts there and
does not leave the first cell. -/
theorem enters_lt_iff {g c : ℕ} (hc : 0 < c) (hcg : c ≤ g) (x n : ℕ) :
    (∀ q, Enters g x n q → q < c) ↔ n = 0 ∨ x < c ∧ x + n ≤ g := by
  constructor
  · intro h
    rcases Nat.eq_zero_or_pos n with hn | hn
    · exact .inl hn
    have hx := h x ⟨le_rfl, by omega, .inl rfl⟩
    refine .inr ⟨hx, Nat.le_of_not_lt fun hlt => ?_⟩
    have := h g ⟨by omega, hlt, .inr (Nat.dvd_refl g)⟩
    omega
  · rintro h q ⟨hle, hlt, rfl | hdvd⟩
    · omega
    · rw [Nat.eq_zero_of_dvd_of_lt hdvd (by omega)]
      exact hc

end Lib
end Shannon
