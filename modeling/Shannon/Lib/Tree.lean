/-
# Trees of named entries

A tree gives each path at most one entry, of some kind, and the entry above an entry is a
directory.  A path is the list of its names with the last one first, so that `a :: p` is
the entry `a` of the directory `p`, and `p <:+ q` says that `q` is `p` or below it.

`add` puts an entry into a directory, a directory with entries of its own if need be, and
fails when the name is taken; `remove` takes an entry out with everything below it.  Because
nothing is below an entry that is not there, `remove` undoes `add` exactly (`remove_add`),
and does nothing to a name that is not there (`remove_eq_self_iff`); removals commute.
-/

import Mathlib.Data.List.Infix
import Mathlib.Data.Option.Basic

namespace Shannon
namespace Lib

/-- Entries of kinds `κ` under paths of names `α`, where `dir` is the kind of directories. -/
@[ext]
structure Tree (α κ : Type*) (dir : κ) where
  entry : List α → Option κ
  closed : ∀ a p, entry (a :: p) ≠ none → entry p = some dir

namespace Tree

variable {α κ : Type*} {dir : κ} {t t' : Tree α κ dir} {p q : List α}

/-- Nothing is below an entry that is not there. -/
theorem entry_eq_none (h : t.entry p = none) (hq : p <:+ q) : t.entry q = none := by
  obtain ⟨l, rfl⟩ := hq
  induction l with
  | nil => exact h
  | cons a l ih =>
      by_contra hne
      exact absurd (t.closed a (l ++ p) hne) (by simp [ih])

variable [DecidableEq α]

/-- An entry is removed with everything below it. -/
def remove (t : Tree α κ dir) (p : List α) : Tree α κ dir where
  entry := fun q => if p <:+ q then none else t.entry q
  closed := by
    intro a q h
    split_ifs at h with ha
    · exact absurd rfl h
    · rw [if_neg fun hq => ha (hq.trans (List.suffix_cons a q))]
      exact t.closed a q h

theorem entry_remove (t : Tree α κ dir) (p q : List α) :
    (t.remove p).entry q = if p <:+ q then none else t.entry q := rfl

theorem remove_comm (t : Tree α κ dir) (p q : List α) :
    (t.remove p).remove q = (t.remove q).remove p := by
  ext1
  funext r
  simp only [entry_remove]
  split_ifs <;> rfl

/-- **Removing is harmless exactly for names that are not there.** -/
theorem remove_eq_self_iff : t.remove p = t ↔ t.entry p = none := by
  constructor
  · intro h
    rw [← h, entry_remove, if_pos (List.suffix_refl p)]
  · intro h
    ext1
    funext q
    rw [entry_remove]
    split_ifs with hq
    · exact (entry_eq_none h hq).symm
    · rfl

/-- The entries after `a` is put into `p`, with the leaves given below it. -/
def addEntry (t : Tree α κ dir) (p : List α) (a : α) (k : κ) (leaves : List α) (leaf : κ)
    (q : List α) : Option κ :=
  if q = a :: p then some k
  else if q.tail = a :: p ∧ q.head? ∈ leaves.map some then some leaf
  else t.entry q

/-- What was there stays. -/
theorem addEntry_of_some {a : α} {k leaf k' : κ} {leaves : List α} (hfree : t.entry (a :: p) = none)
    (hq : t.entry q = some k') : t.addEntry p a k leaves leaf q = some k' := by
  have hne : q ≠ a :: p := by
    rintro rfl
    simp [hfree] at hq
  have htail : q.tail ≠ a :: p := by
    intro htail
    have hnone := entry_eq_none hfree (htail ▸ List.tail_suffix q)
    simp [hnone] at hq
  rw [addEntry, if_neg hne, if_neg fun h => htail h.1]
  exact hq

variable [DecidableEq κ]

/-- An entry is added to a directory, if the name is free. -/
def add (t : Tree α κ dir) (p : List α) (a : α) (k : κ) (leaves : List α) (leaf : κ) :
    Option (Tree α κ dir) :=
  if h : t.entry p = some dir ∧ t.entry (a :: p) = none ∧ (k = dir ∨ leaves = []) then
    some {
      entry := t.addEntry p a k leaves leaf
      closed := by
        obtain ⟨hp, hfree, hk⟩ := h
        intro b q h
        unfold addEntry at h
        split_ifs at h with hnew hleaf
        · obtain ⟨rfl, rfl⟩ := List.cons.inj hnew
          exact addEntry_of_some hfree hp
        · obtain rfl : q = a :: p := hleaf.1
          have hdir : k = dir := hk.resolve_right fun hnil => by simp [hnil] at hleaf
          rw [addEntry, if_pos rfl, hdir]
        · exact addEntry_of_some hfree (t.closed b q h) }
  else none

theorem add_eq_some_iff {a : α} {k leaf : κ} {leaves : List α} :
    t.add p a k leaves leaf = some t' ↔
      (t.entry p = some dir ∧ t.entry (a :: p) = none ∧ (k = dir ∨ leaves = [])) ∧
        t'.entry = t.addEntry p a k leaves leaf := by
  unfold add
  split_ifs with h
  · simp only [h, true_and, Option.some.injEq, Tree.ext_iff]
    exact eq_comm
  · simp [h]

/-- **Removing what was added restores the tree.** -/
theorem remove_add {a : α} {k leaf : κ} {leaves : List α}
    (h : t.add p a k leaves leaf = some t') : t'.remove (a :: p) = t := by
  obtain ⟨⟨-, hfree, -⟩, hentry⟩ := add_eq_some_iff.1 h
  ext1
  funext q
  rw [entry_remove]
  split_ifs with hq
  · exact (entry_eq_none hfree hq).symm
  · have hne : q ≠ a :: p := by
      rintro rfl
      exact hq (List.suffix_refl _)
    have htail : q.tail ≠ a :: p := by
      intro htail
      exact hq (htail ▸ List.tail_suffix q)
    rw [hentry, addEntry, if_neg hne, if_neg fun h => htail h.1]

/-- Directories that were there stay. -/
theorem entry_add_of_some {a : α} {k leaf k' : κ} {leaves : List α}
    (h : t.add p a k leaves leaf = some t') (hq : t.entry q = some k') : t'.entry q = some k' := by
  obtain ⟨⟨-, hfree, -⟩, hentry⟩ := add_eq_some_iff.1 h
  rw [hentry]
  exact addEntry_of_some hfree hq

/-- The other names in a directory that was there stay as they were. -/
theorem entry_add_of_ne {a b : α} {k leaf : κ} {leaves : List α}
    (h : t.add p a k leaves leaf = some t') (hq : t.entry q = some dir) (hne : b :: q ≠ a :: p) :
    t'.entry (b :: q) = t.entry (b :: q) := by
  obtain ⟨⟨-, hfree, -⟩, hentry⟩ := add_eq_some_iff.1 h
  have htail : (b :: q).tail ≠ a :: p := by
    rintro rfl
    simp [hfree] at hq
  rw [hentry, addEntry, if_neg hne, if_neg fun h => htail h.1]

end Tree

end Lib
end Shannon
