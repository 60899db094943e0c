/-
# Scanning and squeezing texts

Over any alphabet `α`.  `scan` looks for a pattern from left to right, as the regular
expression functions of scripting languages do: a match is used up as a whole and the search
goes on behind it.  A pattern is told the letter before the place as well, for word
boundaries.  `sub` replaces the matches, `findAll` collects them.

`words` cuts a text at the letters of a class and drops what is empty, and `squeeze` puts the
words together with one letter between them.
-/

import Mathlib.Data.List.Basic
import Mathlib.Data.List.DropRight

namespace Shannon
namespace Lib

variable {α β : Type*}

/-! ### Patterns -/

/-- The matches of a pattern in a text, and the letters between them.  The pattern gives the
length of its match, which is not zero, and what it stands for; `skip` letters are still to be
passed over, and `before` is the last letter. -/
def scan (pattern : Option α → List α → Option (ℕ × β)) : Option α → ℕ → List α → List (α ⊕ β)
  | _, _, [] => []
  | _, skip + 1, c :: text => scan pattern (some c) skip text
  | before, 0, c :: text =>
      match pattern before (c :: text) with
      | some (n, b) => .inr b :: scan pattern (some c) (n - 1) text
      | none => .inl c :: scan pattern (some c) 0 text

/-- The text with its matches replaced. -/
def sub (pattern : Option α → List α → Option (ℕ × List α)) (before : Option α)
    (text : List α) : List α :=
  (scan pattern before 0 text).flatMap (Sum.elim (fun c => [c]) id)

/-- The matches alone. -/
def findAll (pattern : Option α → List α → Option (ℕ × β)) (text : List α) : List β :=
  (scan pattern none 0 text).filterMap Sum.getRight?

/-- No match begins in `u`, when `v` comes behind it. -/
def Passes (pattern : Option α → List α → Option (ℕ × β)) : Option α → List α → List α → Prop
  | _, [], _ => True
  | before, c :: u, v => pattern before (c :: (u ++ v)) = none ∧ Passes pattern (some c) u v

variable {pattern : Option α → List α → Option (ℕ × β)}

theorem scan_skip (before : Option α) (u v : List α) :
    scan pattern before u.length (u ++ v) = scan pattern (u.getLast?.or before) 0 v := by
  induction u generalizing before with
  | nil => rfl
  | cons c u ih =>
      rw [List.length_cons, List.cons_append, scan, ih, List.getLast?_cons]
      cases u.getLast? <;> rfl

theorem scan_match {before : Option α} {c : α} {u v : List α} {b : β}
    (h : pattern before (c :: (u ++ v)) = some (u.length + 1, b)) :
    scan pattern before 0 (c :: (u ++ v))
      = .inr b :: scan pattern (u.getLast?.or (some c)) 0 v := by
  rw [scan, h]
  dsimp only
  rw [Nat.add_sub_cancel, scan_skip]

theorem scan_pass {before : Option α} {u v : List α} (h : Passes pattern before u v) :
    scan pattern before 0 (u ++ v) = u.map .inl ++ scan pattern (u.getLast?.or before) 0 v := by
  induction u generalizing before with
  | nil => rfl
  | cons c u ih =>
      obtain ⟨hc, hu⟩ := h
      rw [List.cons_append, scan, hc]
      dsimp only
      rw [ih hu, List.getLast?_cons]
      cases u.getLast? <;> rfl

theorem passes_iff {before : Option α} {u v : List α} :
    Passes pattern before u v ↔ ∀ pre c post, u = pre ++ c :: post →
      pattern (pre.getLast?.or before) (c :: (post ++ v)) = none := by
  induction u generalizing before with
  | nil =>
      refine ⟨fun _ pre c post h => ?_, fun _ => trivial⟩
      cases pre <;> cases h
  | cons d u ih =>
      rw [Passes, ih]
      constructor
      · rintro ⟨hd, hu⟩ pre c post h
        cases pre with
        | nil =>
            obtain ⟨rfl, rfl⟩ := List.cons.inj h
            exact hd
        | cons e pre =>
            obtain ⟨rfl, rfl⟩ := List.cons.inj h
            have hnone := hu pre c post rfl
            rw [List.getLast?_cons]
            cases hlast : pre.getLast? with
            | none => rwa [hlast] at hnone
            | some l => rwa [hlast] at hnone
      · intro h
        refine ⟨h [] d u rfl, fun pre c post hu => ?_⟩
        have hnone := h (d :: pre) c post (by rw [hu, List.cons_append])
        rw [List.getLast?_cons] at hnone
        cases hlast : pre.getLast? with
        | none => rwa [hlast] at hnone
        | some l => rwa [hlast] at hnone

section Sub

variable {pattern : Option α → List α → Option (ℕ × List α)} {before : Option α}

theorem sub_nil : sub pattern before [] = [] := rfl

theorem sub_match {c : α} {u v repl : List α}
    (h : pattern before (c :: (u ++ v)) = some (u.length + 1, repl)) :
    sub pattern before (c :: (u ++ v)) = repl ++ sub pattern (u.getLast?.or (some c)) v := by
  rw [sub, scan_match h, List.flatMap_cons]
  rfl

theorem sub_pass {u v : List α} (h : Passes pattern before u v) :
    sub pattern before (u ++ v) = u ++ sub pattern (u.getLast?.or before) v := by
  rw [sub, scan_pass h, List.flatMap_append, List.flatMap_map]
  congr 1
  exact List.flatMap_singleton' u

theorem sub_eq_self {u : List α} (h : Passes pattern before u []) :
    sub pattern before u = u := by
  have hpass := sub_pass h
  rwa [List.append_nil, sub_nil, List.append_nil] at hpass

/-- A letter that is in no match is still there. -/
theorem mem_sub {a : α} (hpattern : ∀ before text n repl, pattern before text = some (n, repl) →
    0 < n ∧ a ∉ text.take n) {text : List α} (ha : a ∈ text) : a ∈ sub pattern before text := by
  have hscan (skip : ℕ) (h : a ∈ text.drop skip) : .inl a ∈ scan pattern before skip text := by
    clear ha
    induction text generalizing before skip with
    | nil =>
        rw [List.drop_nil] at h
        cases h
    | cons c text ih =>
        cases skip with
        | succ skip => exact ih skip h
        | zero =>
            rw [scan]
            cases hc : pattern before (c :: text) with
            | none =>
                rcases List.mem_cons.1 h with rfl | h
                · exact List.mem_cons_self
                · exact List.mem_cons_of_mem _ (ih 0 h)
            | some found =>
                obtain ⟨n, repl⟩ := found
                obtain ⟨hpos, hnot⟩ := hpattern _ _ _ _ hc
                obtain ⟨n, rfl⟩ := Nat.exists_eq_succ_of_ne_zero (Nat.ne_of_gt hpos)
                rw [List.take_succ_cons, List.mem_cons, not_or] at hnot
                -- The letter is behind the match.
                have hrest : a ∈ text.take n ++ text.drop n := by
                  rw [List.take_append_drop]
                  exact (List.mem_cons.1 h).resolve_left hnot.1
                exact List.mem_cons_of_mem _
                  (ih n ((List.mem_append.1 hrest).resolve_left hnot.2))
  exact List.mem_flatMap.2 ⟨.inl a, hscan 0 ha, List.mem_singleton_self a⟩

end Sub

/-! ### Texts put together -/

theorem flatMap_intercalate (f : α → List β) (sep : List α) (l : List (List α)) :
    (sep.intercalate l).flatMap f = (sep.flatMap f).intercalate (l.map fun u => u.flatMap f) := by
  induction l with
  | nil => rfl
  | cons u l ih =>
      cases l with
      | nil => simp
      | cons v l =>
          rw [List.intercalate_cons_cons, List.flatMap_append, List.flatMap_append, ih]
          simp only [List.map_cons, List.intercalate_cons_cons]

theorem mem_intercalate {sep : List α} {l : List (List α)} {a : α} (h : a ∈ sep.intercalate l) :
    a ∈ sep ∨ ∃ u ∈ l, a ∈ u := by
  induction l with
  | nil => cases h
  | cons u l ih =>
      cases l with
      | nil =>
          rw [List.intercalate_singleton] at h
          exact .inr ⟨u, List.mem_cons_self, h⟩
      | cons v l =>
          rw [List.intercalate_cons_cons, List.mem_append, List.mem_append] at h
          rcases h with (h | h) | h
          · exact .inr ⟨u, List.mem_cons_self, h⟩
          · exact .inl h
          · refine (ih h).imp_right ?_
            rintro ⟨w, hw, ha⟩
            exact ⟨w, List.mem_cons_of_mem u hw, ha⟩

/-! ### Ends cut off -/

/-- Letters of a class, up to one that is not. -/
theorem span_append {p : α → Bool} {u v : List α} (hu : ∀ c ∈ u, p c = true)
    (hv : ∀ d ∈ v.head?, p d = false) :
    (u ++ v).takeWhile p = u ∧ (u ++ v).dropWhile p = v := by
  rw [List.takeWhile_append_of_pos hu, List.dropWhile_append_of_pos hu]
  cases v with
  | nil => simp
  | cons d v => simp [hv d rfl]

theorem rdropWhile_append {p : α → Bool} {c : α} (hc : p c = false) (u v : List α) :
    (u ++ c :: v).rdropWhile p = u ++ c :: v.rdropWhile p := by
  induction v using List.reverseRecOn with
  | nil => rw [List.rdropWhile_concat, hc, List.rdropWhile_nil, if_neg Bool.false_ne_true]
  | append_singleton v d ih =>
      have hsplit : u ++ c :: (v ++ [d]) = (u ++ c :: v) ++ [d] := by simp
      rw [hsplit, List.rdropWhile_concat, List.rdropWhile_concat, ih]
      split_ifs <;> simp

theorem mem_dropWhile {p : α → Bool} {a : α} {text : List α} (ha : p a = false) (h : a ∈ text) :
    a ∈ text.dropWhile p := by
  rw [← List.takeWhile_append_dropWhile (p := p) (l := text), List.mem_append] at h
  refine h.resolve_left fun htake => ?_
  rw [List.mem_takeWhile_imp htake] at ha
  cases ha

theorem mem_rdropWhile {p : α → Bool} {a : α} {text : List α} (ha : p a = false) (h : a ∈ text) :
    a ∈ text.rdropWhile p :=
  List.mem_reverse.2 (mem_dropWhile ha (List.mem_reverse.2 h))

/-! ### Words -/

/-- What is left of a text when it is cut at the letters of a class. -/
def words (p : α → Bool) (text : List α) : List (List α) :=
  (text.splitOnP p).filter fun w => !w.isEmpty

/-- The words with `s` between them. -/
def squeeze (p : α → Bool) (s : α) (text : List α) : List α := [s].intercalate (words p text)

/-- What comes behind a word: `s`, if the word ends here and there is another one. -/
def tight (p : α → Bool) (s : α) (text : List α) : List α :=
  if (text.head?.any p && !(squeeze p s text).isEmpty) then s :: squeeze p s text
  else squeeze p s text

variable {p : α → Bool} {s c : α} {u v text : List α}

theorem words_cons_of_pos (hc : p c = true) (text : List α) :
    words p (c :: text) = words p text := by
  rw [words, List.splitOnP_cons_eq_if_modifyHead, if_pos hc]
  rfl

theorem squeeze_append_blank (hu : ∀ c ∈ u, p c = true) (v : List α) :
    squeeze p s (u ++ v) = squeeze p s v := by
  induction u with
  | nil => rfl
  | cons c u ih =>
      rw [List.cons_append, squeeze, words_cons_of_pos (hu c List.mem_cons_self)]
      exact ih fun d hd => hu d (List.mem_cons_of_mem c hd)

theorem squeeze_blank (hu : ∀ c ∈ u, p c = true) : squeeze p s u = [] := by
  have h := squeeze_append_blank (s := s) hu []
  rwa [List.append_nil] at h

theorem words_eq_nil_iff : words p text = [] ↔ squeeze p s text = [] := by
  rw [squeeze]
  constructor
  · intro h
    rw [h]
    rfl
  · intro h
    have hne : ∀ w ∈ words p text, w ≠ [] := by
      intro w hw
      simpa using (List.mem_filter.1 hw).2
    cases hwords : words p text with
    | nil => rfl
    | cons w ws =>
        rw [hwords] at h hne
        cases ws with
        | nil =>
            rw [List.intercalate_singleton] at h
            exact absurd h (hne w List.mem_cons_self)
        | cons w' ws =>
            rw [List.intercalate_cons_cons] at h
            simp at h

/-- One letter of a word, and the letters behind it. -/
theorem words_cons_cons (hc : p c = false) (d : α) (text : List α) :
    words p (c :: d :: text) = if p d then [c] :: words p (d :: text)
      else (words p (d :: text)).modifyHead (c :: ·) := by
  obtain ⟨w, ws, hsplit⟩ := List.exists_cons_of_ne_nil (List.splitOnP_ne_nil p text)
  cases hd : p d with
  | true => simp [words, List.splitOnP_cons_eq_if_modifyHead, hc, hd]
  | false => simp [words, List.splitOnP_cons_eq_if_modifyHead, hc, hd, hsplit]

theorem words_ne_nil (hc : p c = false) (text : List α) : words p (c :: text) ≠ [] := by
  obtain ⟨w, ws, hsplit⟩ := List.exists_cons_of_ne_nil (List.splitOnP_ne_nil p text)
  simp [words, List.splitOnP_cons_eq_if_modifyHead, hc, hsplit]

theorem squeeze_cons (hc : p c = false) (text : List α) :
    squeeze p s (c :: text) = c :: tight p s text := by
  cases text with
  | nil => simp [squeeze, tight, words, List.splitOnP_cons_eq_if_modifyHead, hc]
  | cons d text =>
      rw [squeeze, words_cons_cons hc, tight, List.head?_cons, Option.any_some]
      cases hd : p d with
      | true =>
          rw [if_pos rfl, Bool.true_and]
          cases hsqueeze : squeeze p s (d :: text) with
          | nil =>
              rw [words_eq_nil_iff.2 hsqueeze, List.intercalate_singleton]
              rfl
          | cons e rest =>
              have hne : words p (d :: text) ≠ [] := by
                rw [ne_eq, words_eq_nil_iff (s := s), hsqueeze]
                exact List.cons_ne_nil e rest
              rw [List.intercalate_cons_of_ne_nil hne]
              exact congrArg (fun t => c :: s :: t) hsqueeze
      | false =>
          rw [if_neg Bool.false_ne_true, Bool.false_and, if_neg Bool.false_ne_true, squeeze]
          cases hwords : words p (d :: text) with
          | nil => exact absurd hwords (words_ne_nil hd text)
          | cons w ws => cases ws <;> simp

theorem squeeze_append (hu : ∀ c ∈ u, p c = false) (hne : u ≠ []) (v : List α) :
    squeeze p s (u ++ v) = u ++ tight p s v := by
  induction u with
  | nil => exact absurd rfl hne
  | cons c u ih =>
      obtain ⟨hc, hu⟩ := List.forall_mem_cons.1 hu
      rw [List.cons_append, squeeze_cons hc]
      cases u with
      | nil => rfl
      | cons d u =>
          have hd := hu d List.mem_cons_self
          have htight : tight p s (d :: u ++ v) = squeeze p s (d :: u ++ v) := by
            rw [tight, List.cons_append, List.head?_cons, Option.any_some, hd]
            rfl
          rw [htight, ih hu (List.cons_ne_nil d u)]
          rfl

theorem tight_blank (hu : ∀ c ∈ u, p c = true) : tight p s u = [] := by
  rw [tight, squeeze_blank hu, List.isEmpty_nil, Bool.not_true, Bool.and_false]
  rfl

theorem tight_append (hu : ∀ c ∈ u, p c = true) (hc : p c = false) (v : List α) :
    tight p s (u ++ c :: v) = (if u = [] then [] else [s]) ++ squeeze p s (c :: v) := by
  have hsqueeze : squeeze p s (u ++ c :: v) = squeeze p s (c :: v) := squeeze_append_blank hu _
  rw [tight, hsqueeze, squeeze_cons hc]
  cases u with
  | nil => simp [hc]
  | cons d u => simp [hu d List.mem_cons_self]

theorem mem_squeeze {a : α} (ha : p a = false) (h : a ∈ text) : a ∈ squeeze p s text := by
  induction text with
  | nil => cases h
  | cons c text ih =>
      cases hc : p c with
      | true =>
          have hne : a ≠ c := by
            rintro rfl
            rw [ha] at hc
            cases hc
          have hsqueeze : squeeze p s (c :: text) = squeeze p s text :=
            squeeze_append_blank (u := [c]) (List.forall_mem_singleton.2 hc) text
          rw [hsqueeze]
          exact ih ((List.mem_cons.1 h).resolve_left hne)
      | false =>
          rw [squeeze_cons hc]
          rcases List.mem_cons.1 h with rfl | h
          · exact List.mem_cons_self
          · refine List.mem_cons_of_mem _ ?_
            unfold tight
            split_ifs
            · exact List.mem_cons_of_mem s (ih h)
            · exact ih h

theorem head_tight {d : α} (h : (tight p s text).head? = some d) :
    d = s ∨ text.head? = some d := by
  cases text with
  | nil => cases h
  | cons c text =>
      unfold tight at h
      split_ifs at h with hcond
      · exact .inl (Option.some.inj h).symm
      · cases hc : p c with
        | false =>
            rw [squeeze_cons hc] at h
            exact .inr h
        | true =>
            rw [List.head?_cons, Option.any_some, hc, Bool.true_and] at hcond
            cases hsqueeze : squeeze p s (c :: text) with
            | nil =>
                rw [hsqueeze] at h
                cases h
            | cons e rest =>
                rw [hsqueeze] at hcond
                exact absurd rfl hcond

end Lib
end Shannon
