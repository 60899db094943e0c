/-
# Probing round a circle

A search over `n` candidates that starts anywhere, goes on to the next one, from the last to
the first, and gives up when as many have failed as there are.  A test may change the state
when it succeeds, as a test-and-set does; one that fails leaves it alone.

The search finds a candidate exactly if there is one (`probe_eq_none_iff`), it returns one
that passed its test (`probe_eq_some`), and any candidate that passes is found by starting
there (`probe_of_test`).
-/

import Mathlib.Data.Nat.Notation
import Mathlib.Data.Option.Basic

namespace Shannon
namespace Lib

variable {σ : Type*}

/-- Test `i` and, while the tests fail, the ones after it; `left` may fail and be followed by
another one.  A test returns whether the candidate is to be passed over. -/
def probe (test : σ → ℕ → Bool × σ) (n : ℕ) : ℕ → ℕ → σ → Option (ℕ × σ)
  | 0, i, s =>
      let (bad, s) := test s i
      if bad then none else some (i, s)
  | left + 1, i, s =>
      let (bad, s) := test s i
      if bad then probe test n left ((i + 1) % n) s else some (i, s)

variable {test : σ → ℕ → Bool × σ} {n left i : ℕ} {s : σ}

/-- A candidate that passes at once. -/
theorem probe_of_test {s' : σ} (h : test s i = (false, s')) :
    probe test n left i s = some (i, s') := by
  cases left <;> simp [probe, h]

section

variable (hkeep : ∀ s i, (test s i).1 = true → (test s i).2 = s)

include hkeep

/-- One turn past a candidate that fails. -/
theorem probe_succ (h : (test s i).1 = true) :
    probe test n (left + 1) i s = probe test n left ((i + 1) % n) s := by
  simp [probe, h, hkeep s i h]

/-- The search gives up exactly if all the candidates it gets to fail. -/
theorem probe_eq_none (hi : i < n) : probe test n left i s = none ↔
    ∀ k ≤ left, (test s ((i + k) % n)).1 = true := by
  induction left generalizing i with
  | zero =>
      have hzero : (∀ k ≤ 0, (test s ((i + k) % n)).1 = true) ↔ (test s i).1 = true := by
        simp [Nat.mod_eq_of_lt hi]
      rw [hzero]
      cases htest : (test s i).1 <;> simp [probe, htest]
  | succ left ih =>
      have hnext : (i + 1) % n < n := Nat.mod_lt _ (by omega)
      have hsplit : (∀ k ≤ left + 1, (test s ((i + k) % n)).1 = true) ↔
          (test s i).1 = true ∧ ∀ k ≤ left, (test s (((i + 1) % n + k) % n)).1 = true := by
        simp only [Nat.mod_add_mod, Nat.add_assoc, Nat.add_comm 1]
        constructor
        · intro h
          refine ⟨?_, fun k hk => h (k + 1) (by omega)⟩
          simpa [Nat.mod_eq_of_lt hi] using h 0 (by omega)
        · rintro ⟨hfirst, hrest⟩ k hk
          cases k with
          | zero => rwa [Nat.add_zero, Nat.mod_eq_of_lt hi]
          | succ k => exact hrest k (by omega)
      rw [hsplit]
      cases htest : (test s i).1 with
      | false => simp [probe, htest]
      | true => rw [probe_succ hkeep htest, ih hnext, eq_self_iff_true, true_and]

/-- **With as many turns as candidates it gives up exactly if they all fail.** -/
theorem probe_eq_none_iff (hi : i < n) : probe test n (n - 1) i s = none ↔
    ∀ j < n, (test s j).1 = true := by
  rw [probe_eq_none hkeep hi]
  constructor
  · intro h j hj
    -- `j` is reached after `j - i` turns, or after `n - i` turns and then `j` more.
    rcases Nat.lt_or_ge j i with hlt | hge
    · have hreach := h (n - i + j) (by omega)
      rwa [show i + (n - i + j) = n + j by omega, Nat.add_mod_left, Nat.mod_eq_of_lt hj] at hreach
    · have hreach := h (j - i) (by omega)
      rwa [show i + (j - i) = j by omega, Nat.mod_eq_of_lt hj] at hreach
  · intro h k _
    exact h _ (Nat.mod_lt _ (by omega))

/-- **What it returns has passed its test.** -/
theorem probe_eq_some {j : ℕ} {s' : σ} (hi : i < n) (h : probe test n left i s = some (j, s')) :
    j < n ∧ test s j = (false, s') := by
  induction left generalizing i with
  | zero =>
      cases htest : test s i with
      | mk bad t =>
          cases bad with
          | true => simp [probe, htest] at h
          | false =>
              simp only [probe, htest, Bool.false_eq_true, if_false, Option.some.injEq,
                Prod.mk.injEq] at h
              obtain ⟨rfl, rfl⟩ := h
              exact ⟨hi, htest⟩
  | succ left ih =>
      cases htest : test s i with
      | mk bad t =>
          cases bad with
          | true =>
              rw [probe_succ hkeep (by rw [htest])] at h
              exact ih (Nat.mod_lt _ (by omega)) h
          | false =>
              rw [probe_of_test htest, Option.some.injEq, Prod.mk.injEq] at h
              obtain ⟨rfl, rfl⟩ := h
              exact ⟨hi, htest⟩

end

end Lib
end Shannon
