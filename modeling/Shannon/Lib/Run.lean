/-
# Runs of a labelled transition function

A system is a partial function `step : σ → α → Option σ`: the label `α` says
which actor moves and how every choice outside the system falls, and `none`
says that the move is not enabled.  A run is a list of labels.  Everything a
development needs of runs is here: an invariant kept by one step is kept by a
run (`run_invariant`), also when the steps of the run are known to meet a
condition on the state they start from (`run_invariant_along`).  Where the other
steps break what is kept, the condition is exact (`along_iff_forall_take`).

Where the state has a part for each actor, a step changes the part of one:
`forall_update` and `sum_update` say what that does to a property of all parts
and to a sum over them.
-/

import Mathlib.Algebra.BigOperators.Group.Finset.Basic
import Mathlib.Data.Option.Basic
import Mathlib.Logic.Function.Basic

namespace Shannon
namespace Lib

variable {σ α : Type*}

/-- Follow the labels from `s`; `none` as soon as one is not enabled. -/
def run (step : σ → α → Option σ) : σ → List α → Option σ
  | s, [] => some s
  | s, a :: as => (step s a).bind fun t => run step t as

/-- Every step of the run from `s` meets `good` in the state it is taken in. -/
def Along (step : σ → α → Option σ) (good : σ → α → Prop) : σ → List α → Prop
  | _, [] => True
  | s, a :: as => good s a ∧ ∀ t, step s a = some t → Along step good t as

variable {step : σ → α → Option σ}

theorem run_cons_eq_some {s t : σ} {a : α} {as : List α} :
    run step s (a :: as) = some t ↔ ∃ u, step s a = some u ∧ run step u as = some t :=
  Option.bind_eq_some_iff

theorem run_append_eq_some {s u : σ} {as bs : List α} :
    run step s (as ++ bs) = some u ↔ ∃ t, run step s as = some t ∧ run step t bs = some u := by
  induction as generalizing s with
  | nil => simp [run]
  | cons a as ih =>
      simp only [List.cons_append, run_cons_eq_some, ih]
      constructor
      · rintro ⟨v, hv, t, has, hbs⟩
        exact ⟨t, ⟨v, hv, has⟩, hbs⟩
      · rintro ⟨t, ⟨v, hv, has⟩, hbs⟩
        exact ⟨v, hv, t, has, hbs⟩

theorem along_of_forall {good : σ → α → Prop} {as : List α} (h : ∀ a ∈ as, ∀ s, good s a) (s : σ) :
    Along step good s as := by
  induction as generalizing s with
  | nil => trivial
  | cons a as ih =>
      refine ⟨h a (List.mem_cons_self ..) s, fun t _ => ?_⟩
      exact ih (fun b hb => h b (List.mem_cons_of_mem _ hb)) t

instance decidableAlong (good : σ → α → Prop) [∀ s a, Decidable (good s a)] :
    ∀ (s : σ) (as : List α), Decidable (Along step good s as)
  | _, [] => isTrue trivial
  | s, a :: as =>
      match h : step s a with
      | none => decidable_of_iff (good s a) (by simp [Along, h])
      | some t =>
          have := decidableAlong good t as
          decidable_of_iff (good s a ∧ Along step good t as) (by simp [Along, h])

/-- What is known of all labels is known along the run. -/
theorem Along.and_forall {good : σ → α → Prop} {P : α → Prop} {s : σ} {as : List α}
    (h : Along step good s as) (hP : ∀ a ∈ as, P a) :
    Along step (fun s a => good s a ∧ P a) s as := by
  induction as generalizing s with
  | nil => trivial
  | cons a as ih =>
      refine ⟨⟨h.1, hP a (List.mem_cons_self ..)⟩, fun t ht => ?_⟩
      exact ih (h.2 t ht) fun b hb => hP b (List.mem_cons_of_mem _ hb)

/-- **A run keeps what every good step keeps.** -/
theorem run_invariant_along {good : σ → α → Prop} {I : σ → Prop}
    (hstep : ∀ s a t, I s → good s a → step s a = some t → I t) {as : List α} {s t : σ}
    (hs : I s) (hgood : Along step good s as) (hrun : run step s as = some t) : I t := by
  induction as generalizing s with
  | nil => exact Option.some.inj hrun ▸ hs
  | cons a as ih =>
      obtain ⟨u, hu, hrun⟩ := run_cons_eq_some.1 hrun
      exact ih (hstep s a u hs hgood.1 hu) (hgood.2 u hu) hrun

/-- **A run keeps what every step keeps.** -/
theorem run_invariant {I : σ → Prop} (hstep : ∀ s a t, I s → step s a = some t → I t)
    {as : List α} {s t : σ} (hs : I s) (hrun : run step s as = some t) : I t := by
  induction as generalizing s with
  | nil => exact Option.some.inj hrun ▸ hs
  | cons a as ih =>
      obtain ⟨u, hu, hrun⟩ := run_cons_eq_some.1 hrun
      exact ih (hstep s a u hs hu) hrun

/-- **A condition that is exact.**  Let the good steps keep `Q` and the other ones
break it where it held, in states that meet the invariant `I`.  Then all steps of a
run are good exactly when all its states meet `Q`. -/
theorem along_iff_forall_take_of_held {good : σ → α → Prop} {I Q : σ → Prop}
    (hI : ∀ s a t, I s → step s a = some t → I t)
    (hkeep : ∀ s a t, I s → Q s → good s a → step s a = some t → Q t)
    (hbreak : ∀ s a t, I s → Q s → ¬good s a → step s a = some t → ¬Q t)
    {as : List α} {s t : σ} (hs : I s) (hQ : Q s) (hrun : run step s as = some t) :
    Along step good s as ↔ ∀ n u, run step s (as.take n) = some u → Q u := by
  induction as generalizing s with
  | nil =>
      refine ⟨fun _ n u hu => ?_, fun _ => trivial⟩
      rw [List.take_nil] at hu
      exact Option.some.inj hu ▸ hQ
  | cons a as ih =>
      obtain ⟨v, hv, hrun⟩ := run_cons_eq_some.1 hrun
      constructor
      · intro hgood n u hu
        cases n with
        | zero => exact Option.some.inj hu ▸ hQ
        | succ n =>
            rw [List.take_succ_cons] at hu
            obtain ⟨w, hw, hu⟩ := run_cons_eq_some.1 hu
            obtain rfl := Option.some.inj (hv.symm.trans hw)
            have hQv := hkeep s a v hs hQ hgood.1 hv
            exact (ih (hI s a v hs hv) hQv hrun).1 (hgood.2 v hv) n u hu
      · intro hall
        have hafter (n : ℕ) (u : σ) (hu : run step v (as.take n) = some u) : Q u := by
          refine hall (n + 1) u ?_
          rw [List.take_succ_cons]
          exact run_cons_eq_some.2 ⟨v, hv, hu⟩
        have hQv : Q v := hafter 0 v rfl
        refine ⟨not_not.1 fun hbad => hbreak s a v hs hQ hbad hv hQv, fun w hw => ?_⟩
        obtain rfl := Option.some.inj (hv.symm.trans hw)
        exact (ih (hI s a v hs hv) hQv hrun).2 hafter

/-- Where the other steps break `Q` in any case. -/
theorem along_iff_forall_take {good : σ → α → Prop} {I Q : σ → Prop}
    (hI : ∀ s a t, I s → step s a = some t → I t)
    (hkeep : ∀ s a t, I s → Q s → good s a → step s a = some t → Q t)
    (hbreak : ∀ s a t, I s → ¬good s a → step s a = some t → ¬Q t)
    {as : List α} {s t : σ} (hs : I s) (hQ : Q s) (hrun : run step s as = some t) :
    Along step good s as ↔ ∀ n u, run step s (as.take n) = some u → Q u :=
  along_iff_forall_take_of_held hI hkeep (fun s a t hs _ => hbreak s a t hs) hs hQ hrun

/-! ### One part changes -/

variable {ι : Type*} [DecidableEq ι]

theorem forall_update {P : σ → Prop} {f : ι → σ} {i : ι} {v : σ} (hf : ∀ j, P (f j)) (hv : P v) :
    ∀ j, P (Function.update f i v j) := by
  intro j
  rcases eq_or_ne j i with rfl | hj
  · rwa [Function.update_self]
  · rw [Function.update_of_ne hj]
    exact hf j

theorem sum_update {s : Finset ι} {i : ι} (hi : i ∈ s) (g : σ → ℤ) (f : ι → σ) (v : σ) :
    ∑ j ∈ s, g (Function.update f i v j) = ∑ j ∈ s, g (f j) + (g v - g (f i)) := by
  have hrest : ∑ j ∈ s.erase i, g (Function.update f i v j) = ∑ j ∈ s.erase i, g (f j) :=
    Finset.sum_congr rfl fun j hj => by rw [Function.update_of_ne (Finset.ne_of_mem_erase hj)]
  rw [← Finset.add_sum_erase _ _ hi, hrest, Function.update_self, ← Finset.add_sum_erase _ _ hi]
  omega

end Lib
end Shannon
