/-
# Machines with outputs

A machine takes a request, answers it and goes on in another state.  One machine
implements another if nobody who talks to it can tell them apart: they give the same
answers to every list of requests (`answers_eq`).  It is enough that related states give
the same answer to one request and stay related.

For the runs of `Lib.Run`, where a step may be refused, the same argument goes along the
run: if a good step of the first machine can be taken in both, and leaves them related, then
the whole run can (`run_refines`).
-/

import Shannon.Lib.Run

namespace Shannon
namespace Lib

variable {σ τ α ω : Type*}

/-- The answers to a list of requests. -/
def answers (step : σ → α → ω × σ) : σ → List α → List ω
  | _, [] => []
  | s, a :: as => (step s a).1 :: answers step (step s a).2 as

/-- **Related machines give the same answers.** -/
theorem answers_eq {f : σ → α → ω × σ} {g : τ → α → ω × τ} {R : σ → τ → Prop}
    (hstep : ∀ s t a, R s t → (f s a).1 = (g t a).1 ∧ R (f s a).2 (g t a).2) {s : σ} {t : τ}
    (hst : R s t) (as : List α) : answers f s as = answers g t as := by
  induction as generalizing s t with
  | nil => rfl
  | cons a as ih =>
      obtain ⟨hanswer, hnext⟩ := hstep s t a hst
      rw [answers, answers, hanswer, ih hnext]

/-- **A run of good steps is a run of the other machine.** -/
theorem run_refines {f : σ → α → Option σ} {g : τ → α → Option τ} {R : σ → τ → Prop}
    {good : σ → α → Prop}
    (hstep : ∀ s t a, R s t → good s a → ∃ s' t', f s a = some s' ∧ g t a = some t' ∧ R s' t')
    {as : List α} {s : σ} {t : τ} (hst : R s t) (hgood : Along f good s as) :
    ∃ s' t', run f s as = some s' ∧ run g t as = some t' ∧ R s' t' := by
  induction as generalizing s t with
  | nil => exact ⟨s, t, rfl, rfl, hst⟩
  | cons a as ih =>
      obtain ⟨s₁, t₁, hs, ht, hst₁⟩ := hstep s t a hst hgood.1
      obtain ⟨s', t', hs', ht', hst'⟩ := ih hst₁ (hgood.2 s₁ hs)
      exact ⟨s', t', run_cons_eq_some.2 ⟨s₁, hs, hs'⟩, run_cons_eq_some.2 ⟨t₁, ht, ht'⟩, hst'⟩

end Lib
end Shannon
