/-
# The values the script can evaluate

`safe_enum_value` on the literals of C (`Shannon.Scripts.EnumText`).  It knows how to take the
suffix off a hexadecimal literal, and it hands the rest to Python's `eval`.  So it evaluates

| literal      | example      | evaluated                              |
| ------------ | ------------ | -------------------------------------- |
| decimal      | `12`, `12u`  | without suffix                         |
| octal        | `0`, `017`   | without suffix, and only if it is zero |
| hexadecimal  | `0x1f`       | with any suffix                        |
| hexadecimal  | `0X1f`       | never                                  |

and it never gives a wrong value (`safeEnumValue_lit`, `safeEnumValue_of_not`).  A text with
`#` in it is not evaluated either (`safeEnumValue_hash`).
-/

import Shannon.Scripts.EnumReading

namespace Shannon
namespace Scripts

open Lib

/-- What is used of Python's `eval`: decimal numbers, zeros, no other number that starts with
a zero, hexadecimal numbers. -/
structure PythonEval (eval : List Char → Option ℤ) : Prop where
  decimal : ∀ ds, Radix.dec.Digits ds → eval ds = some (ofDigits 10 ds)
  zeros : ∀ ds, ds ≠ [] → (∀ c ∈ ds, c = '0') → eval ds = some 0
  leadingZero : ∀ ds, (∀ c ∈ ds, c.isDigit = true) → (∃ c ∈ ds, c ≠ '0') → eval ('0' :: ds) = none
  hex : ∀ ds, Radix.hex.Digits ds → eval ('0' :: 'x' :: ds) = some (ofDigits 16 ds)

/-- The literals that are evaluated. -/
def Lit.Evaluable (l : Lit) : Prop :=
  match l.radix with
  | .dec => l.suffix = []
  | .oct => l.suffix = [] ∧ ∀ c ∈ l.digits, c = '0'
  | .hex => True
  | .hexUpper => False

instance : DecidablePred Lit.Evaluable
  | ⟨.dec, _, suffix⟩ => inferInstanceAs (Decidable (suffix = []))
  | ⟨.oct, ds, suffix⟩ => @instDecidableAnd (suffix = []) _ inferInstance
      (List.decidableBAll (· = '0') ds)
  | ⟨.hex, _, _⟩ => isTrue trivial
  | ⟨.hexUpper, _, _⟩ => isFalse id

/-! ### Literals go through unchanged -/

theorem strip_word {u : List Char} (hu : ∀ c ∈ u, isSpace c = false) : strip u = u := by
  have hdrop : u.dropWhile isSpace = u := by
    cases u with
    | nil => rfl
    | cons c u => simp [hu c List.mem_cons_self]
  rw [strip, hdrop, List.rdropWhile_eq_self_iff]
  intro hne
  rw [hu _ (List.getLast_mem hne)]
  exact Bool.false_ne_true

theorem bitMacro_eq_none {text : List Char} (h : 'I' ∉ text) (before : Option Char) :
    bitMacro before text = none := by
  unfold bitMacro
  split
  · exact absurd (List.mem_cons_of_mem _ List.mem_cons_self) h
  · rfl

theorem sub_bitMacro {u : List Char} (h : 'I' ∉ u) : sub bitMacro none u = u := by
  refine sub_eq_self (passes_iff.2 fun pre c post hu => bitMacro_eq_none ?_ _)
  rw [List.append_nil]
  exact fun hmem => h (hu ▸ List.mem_append_right pre hmem)

/-- Inside a word no other word starts. -/
theorem wordStart_eq_false {u pre post : List Char} (hu : ∀ c ∈ u, isIdent c = true)
    (heq : u = pre ++ post) (hne : pre ≠ []) : wordStart (pre.getLast?.or none) = false := by
  rw [List.getLast?_eq_some_getLast hne]
  have hc := hu _ (heq ▸ List.mem_append_left _ (List.getLast_mem hne))
  simp [wordStart, hc]

theorem toNat_of_isIdentStart {c : Char} (h : isIdentStart c = true) :
    ¬(48 ≤ c.toNat ∧ c.toNat ≤ 57) := by
  rw [isIdentStart, Bool.or_eq_true, beq_iff_eq, isAlpha_iff] at h
  rcases h with (h | h) | rfl
  · omega
  · omega
  · decide

/-- No name is a literal. -/
theorem sub_knownName {u : List Char} (hu : ∀ c ∈ u, isIdent c = true)
    (hdigit : ∀ c ∈ u.head?, c.isDigit = true) {name : List Char} (hname : Ident name) (v : ℤ) :
    sub (knownName name v) none u = u := by
  refine sub_eq_self (passes_iff.2 fun pre c post heq => if_neg ?_)
  rw [Bool.and_eq_true, Bool.and_eq_true, List.append_nil]
  rintro ⟨⟨hstart, hstarts⟩, -⟩
  cases pre with
  | cons a pre =>
      rw [wordStart_eq_false hu heq (List.cons_ne_nil a pre)] at hstart
      cases hstart
  | nil =>
      have hc : c.isDigit = true := hdigit c (heq ▸ rfl)
      obtain ⟨d, rest, rfl⟩ := List.exists_cons_of_ne_nil hname.ne_nil
      obtain ⟨rfl, -⟩ := List.cons_prefix_cons.1 (List.isPrefixOf_iff_prefix.1 hstarts)
      exact absurd (isDigit_iff.1 hc) (toNat_of_isIdentStart hname.1)

/-- A word is changed at its start or not at all. -/
theorem sub_hexSuffix {u : List Char} (hu : ∀ c ∈ u, isIdent c = true)
    (h : hexSuffix none u = none) : sub hexSuffix none u = u := by
  refine sub_eq_self (passes_iff.2 fun pre c post heq => ?_)
  rw [List.append_nil]
  cases pre with
  | nil =>
      rw [List.nil_append] at heq
      rw [← heq]
      exact h
  | cons a pre =>
      unfold hexSuffix
      split
      · rw [wordStart_eq_false hu heq (List.cons_ne_nil a pre)]
        rfl
      · rfl

theorem isHexDigit_of_isSuffix {c : Char} (h : isSuffix c = true) : isHexDigit c = false := by
  rcases isSuffix_iff.1 h with rfl | rfl | rfl | rfl <;> decide

/-- The suffix of a hexadecimal literal is taken off. -/
theorem sub_hexSuffix_hex {ds suffix : List Char} (hds : Radix.hex.Digits ds)
    (hsuffix : ∀ c ∈ suffix, isSuffix c = true) :
    sub hexSuffix none ('0' :: 'x' :: (ds ++ suffix)) = '0' :: 'x' :: ds := by
  obtain ⟨htake, hdrop⟩ := span_append hds.2 (v := suffix) fun d hd =>
    isHexDigit_of_isSuffix (hsuffix d (List.mem_of_head? hd))
  obtain ⟨htake', hdrop'⟩ := span_append hsuffix (v := []) nofun
  rw [List.append_nil] at htake' hdrop'
  have hpattern : hexSuffix none ('0' :: 'x' :: (ds ++ suffix)) = if suffix = [] then none
      else some (ds.length + suffix.length + 2, '0' :: 'x' :: ds) := by
    simp only [hexSuffix, htake, hdrop, htake', hdrop']
    cases suffix <;> simp [wordStart, wordEnd, hds.1]
  cases suffix with
  | nil =>
      rw [List.append_nil] at hpattern ⊢
      refine sub_hexSuffix (fun c hc => ?_) hpattern
      rcases List.mem_cons.1 hc with rfl | hc
      · decide
      · rcases List.mem_cons.1 hc with rfl | hc
        · decide
        · exact isIdent_of_isHexDigit (hds.2 c hc)
  | cons a suffix =>
      rw [if_neg (List.cons_ne_nil a suffix)] at hpattern
      have hmatch : hexSuffix none ('0' :: ('x' :: (ds ++ a :: suffix) ++ []))
          = some (('x' :: (ds ++ a :: suffix)).length + 1, '0' :: 'x' :: ds) := by
        have hlength : ('x' :: (ds ++ a :: suffix)).length + 1
            = ds.length + (a :: suffix).length + 2 := by
          rw [List.length_cons, List.length_append]
        rw [List.append_nil, hpattern, hlength]
      have hsub := sub_match hmatch
      rwa [List.append_nil, sub_nil, List.append_nil] at hsub

/-! ### Literals -/

/-- What `eval` is given for a literal. -/
def Lit.stripped (l : Lit) : List Char :=
  if l.radix = .hex then l.radix.lead ++ l.digits else l.text

theorem Lit.Wf.head_isDigit {l : Lit} (h : l.Wf) : ∀ c ∈ l.text.head?, c.isDigit = true := by
  obtain ⟨r, ds, suffix⟩ := l
  intro c hc
  cases r with
  | dec =>
      obtain ⟨hne, -, hdigit⟩ := h.digits
      obtain ⟨d, ds, rfl⟩ := List.exists_cons_of_ne_nil hne
      obtain rfl : d = c := Option.some.inj hc
      exact hdigit d List.mem_cons_self
  | oct =>
      obtain rfl : '0' = c := Option.some.inj hc
      decide
  | hex =>
      obtain rfl : '0' = c := Option.some.inj hc
      decide
  | hexUpper =>
      obtain rfl : '0' = c := Option.some.inj hc
      decide

theorem Lit.Wf.notMem_I {l : Lit} (h : l.Wf) : 'I' ∉ l.text := by
  rw [text, List.mem_append, List.mem_append]
  rintro ((hc | hc) | hc)
  · revert hc
    cases l.radix <;> decide
  · exact absurd (h.digits.isHexDigit hc) (by decide)
  · exact absurd (h.suffix _ hc) (by decide)

theorem Lit.Wf.sub_hexSuffix {l : Lit} (h : l.Wf) : sub hexSuffix none l.text = l.stripped := by
  have hident (c : Char) (hc : c ∈ l.text) := h.isIdent hc
  obtain ⟨r, ds, suffix⟩ := l
  cases r with
  | dec =>
      obtain ⟨hne, hzero, -⟩ := h.digits
      refine Scripts.sub_hexSuffix hident ?_
      obtain ⟨d, ds, rfl⟩ := List.exists_cons_of_ne_nil hne
      have hd : d ≠ '0' := fun heq => hzero (by rw [heq]; rfl)
      change hexSuffix none (d :: (ds ++ suffix)) = none
      unfold hexSuffix
      split
      · next htext => exact absurd (List.cons.inj htext).1 hd
      · rfl
  | oct =>
      refine Scripts.sub_hexSuffix hident ?_
      change hexSuffix none ('0' :: (ds ++ suffix)) = none
      unfold hexSuffix
      split
      · next text htext =>
          have hx : 'x' ∈ ds ++ suffix := by
            rw [(List.cons.inj htext).2]
            exact List.mem_cons_self
          rcases List.mem_append.1 hx with hx | hx
          · exact absurd (h.digits.isHexDigit hx) (by decide)
          · exact absurd (h.suffix _ hx) (by decide)
      · rfl
  | hex => exact sub_hexSuffix_hex h.digits h.suffix
  | hexUpper => exact Scripts.sub_hexSuffix hident rfl

/-- The substitutions take the suffix off a hexadecimal literal and do nothing else. -/
theorem Lit.Wf.safeEnumValue_eq {l : Lit} (h : l.Wf) (eval : List Char → Option ℤ)
    {known : List (List Char × ℤ)} (hknown : ∀ p ∈ known, Ident p.1) :
    safeEnumValue eval (strip l.text) known
      = if l.stripped.all isExprChar then eval l.stripped else none := by
  have hident (c : Char) (hc : c ∈ l.text) := h.isIdent hc
  have hstrip : strip l.text = l.text :=
    strip_word fun c hc => isSpace_of_isIdent (hident c hc)
  have hcomma : l.text.rdropWhile (· = ',') = l.text := by
    rw [List.rdropWhile_eq_self_iff]
    intro hne heq
    have hlast := hident _ (List.getLast_mem hne)
    rw [of_decide_eq_true heq] at hlast
    exact absurd hlast (by decide)
  have hnames (l' : List (List Char × ℤ)) (hl' : ∀ p ∈ l', Ident p.1) :
      l'.foldl (fun e p => sub (knownName p.1 p.2) none e) l.text = l.text := by
    induction l' with
    | nil => rfl
    | cons p l' ih =>
        obtain ⟨hp, hl'⟩ := List.forall_mem_cons.1 hl'
        rw [List.foldl_cons, sub_knownName hident h.head_isDigit hp, ih hl']
  have hsorted := hnames (known.insertionSort fun p q => q.1.length ≤ p.1.length)
    fun p hp => hknown p ((List.mem_insertionSort _).1 hp)
  simp only [safeEnumValue, hstrip, hcomma, sub_bitMacro h.notMem_I, hsorted, h.sub_hexSuffix]

theorem isExprChar_of_isHexDigit {c : Char} (h : isHexDigit c = true) : isExprChar c = true := by
  simp [isExprChar, h]

theorem ofDigits_zeros {base : ℕ} {ds : List Char} (h : ∀ c ∈ ds, c = '0') :
    ofDigits base ds = 0 := by
  unfold ofDigits
  induction ds with
  | nil => rfl
  | cons c ds ih =>
      obtain ⟨rfl, hds⟩ := List.forall_mem_cons.1 h
      exact ih hds

/-- `eval` on numbers. -/
def evalInt : List Char → Option ℤ
  | '0' :: 'x' :: ds =>
      if ds ≠ [] ∧ ds.all isHexDigit = true then some (ofDigits 16 ds) else none
  | e =>
      if e ≠ [] ∧ e.all Char.isDigit = true ∧ (e.head? = some '0' → e.all (· = '0') = true) then
        some (ofDigits 10 e)
      else none

theorem pythonEval_evalInt : PythonEval evalInt where
  decimal ds h := by
    obtain ⟨hne, hhead, hdigit⟩ := h
    unfold evalInt
    split
    · exact absurd rfl hhead
    · exact if_pos ⟨hne, List.all_eq_true.2 hdigit, fun hzero => absurd hzero hhead⟩
  zeros ds hne hzero := by
    unfold evalInt
    split
    · cases hzero 'x' (List.mem_cons_of_mem _ List.mem_cons_self)
    · rw [if_pos, ofDigits_zeros hzero]
      · rfl
      · refine ⟨hne, List.all_eq_true.2 fun c hc => ?_, fun _ => List.all_eq_true.2 fun c hc => ?_⟩
        · rw [hzero c hc]
          rfl
        · exact decide_eq_true (hzero c hc)
  leadingZero ds hdigit hnot := by
    obtain ⟨c, hc, hne⟩ := hnot
    unfold evalInt
    split
    · next htext =>
        obtain ⟨-, rfl⟩ := List.cons.inj htext
        exact absurd (hdigit 'x' List.mem_cons_self) (by decide)
    · refine if_neg fun h => hne ?_
      exact of_decide_eq_true (List.all_eq_true.1 (h.2.2 rfl) c (List.mem_cons_of_mem _ hc))
  hex _ h := if_pos ⟨h.1, List.all_eq_true.2 h.2⟩

section

variable {eval : List Char → Option ℤ} (heval : PythonEval eval) {l : Lit} (h : l.Wf)
  {known : List (List Char × ℤ)} (hknown : ∀ p ∈ known, Ident p.1)
include heval h hknown

/-- **A value that is given is the one of C.** -/
theorem safeEnumValue_lit (hl : l.Evaluable) :
    safeEnumValue eval (strip l.text) known = some l.value := by
  rw [h.safeEnumValue_eq eval hknown]
  have hhex (c : Char) (hc : c ∈ l.digits) : isExprChar c = true :=
    isExprChar_of_isHexDigit (h.digits.isHexDigit hc)
  obtain ⟨r, ds, suffix⟩ := l
  cases r with
  | dec =>
      obtain rfl : suffix = [] := hl
      have hstripped : Lit.stripped ⟨.dec, ds, []⟩ = ds := List.append_nil ds
      rw [hstripped, if_pos (List.all_eq_true.2 hhex), heval.decimal ds h.digits]
      rfl
  | oct =>
      obtain ⟨rfl, hzeros⟩ := hl
      have hstripped : Lit.stripped ⟨.oct, ds, []⟩ = '0' :: ds := List.append_nil ('0' :: ds)
      rw [hstripped, if_pos (List.all_eq_true.2 (List.forall_mem_cons.2 ⟨by decide, hhex⟩)),
        heval.zeros _ (List.cons_ne_nil '0' ds) (List.forall_mem_cons.2 ⟨rfl, hzeros⟩)]
      exact congrArg (fun n : ℕ => some (n : ℤ)) (ofDigits_zeros hzeros).symm
  | hex =>
      have hstripped : Lit.stripped ⟨.hex, ds, suffix⟩ = '0' :: 'x' :: ds := rfl
      rw [hstripped, if_pos, heval.hex ds h.digits]
      · rfl
      · exact List.all_eq_true.2 (List.forall_mem_cons.2 ⟨by decide,
          List.forall_mem_cons.2 ⟨by decide, hhex⟩⟩)
  | hexUpper => exact hl.elim

/-- **All other literals have none.** -/
theorem safeEnumValue_of_not (hl : ¬l.Evaluable) :
    safeEnumValue eval (strip l.text) known = none := by
  rw [h.safeEnumValue_eq eval hknown]
  -- A letter that `eval` is not given.
  have hletter {c : Char} (hc : c ∈ l.stripped) (hexpr : isExprChar c = false) :
      (if l.stripped.all isExprChar then eval l.stripped else none) = none := by
    rw [if_neg]
    intro hall
    rw [List.all_eq_true.1 hall c hc] at hexpr
    cases hexpr
  have hsuffix (hr : l.radix ≠ .hex) (hne : l.suffix ≠ []) :
      (if l.stripped.all isExprChar then eval l.stripped else none) = none := by
    obtain ⟨c, rest, hcons⟩ := List.exists_cons_of_ne_nil hne
    have hc : c ∈ l.suffix := by
      rw [hcons]
      exact List.mem_cons_self
    refine hletter (c := c) ?_ ?_
    · rw [Lit.stripped, if_neg hr]
      exact List.mem_append_right _ hc
    · rcases isSuffix_iff.1 (h.suffix c hc) with rfl | rfl | rfl | rfl <;> decide
  obtain ⟨r, ds, suffix⟩ := l
  cases r with
  | dec => exact hsuffix nofun hl
  | oct =>
      by_cases hne : suffix = []
      · subst hne
        have hnot : ∃ c ∈ ds, c ≠ '0' := by
          by_contra hall
          push Not at hall
          exact hl ⟨rfl, hall⟩
        have hdigit (c : Char) (hc : c ∈ ds) : c.isDigit = true := isDigit_of_octal h.digits hc
        have hstripped : Lit.stripped ⟨.oct, ds, []⟩ = '0' :: ds := List.append_nil ('0' :: ds)
        rw [hstripped, heval.leadingZero ds hdigit hnot, ite_self]
      · exact hsuffix nofun hne
  | hex => exact absurd trivial hl
  | hexUpper =>
      refine hletter (c := 'X') ?_ (by decide)
      exact List.mem_cons_of_mem _ List.mem_cons_self

end

/-! ### Other texts -/

theorem notMem_takeWhile {p : Char → Bool} {a : Char} (ha : p a = false) (u : List Char) :
    a ∉ u.takeWhile p := by
  intro hmem
  rw [List.mem_takeWhile_imp hmem] at ha
  cases ha

/-- No match of the three patterns has `#` in it. -/
theorem bitMacro_match {before : Option Char} {text repl : List Char} {n : ℕ}
    (h : bitMacro before text = some (n, repl)) : 0 < n ∧ '#' ∉ text.take n := by
  unfold bitMacro at h
  split at h
  · next text =>
      split at h
      · next inner hopen =>
          dsimp only at h
          split at h
          · next rest hclose =>
              split_ifs at h
              obtain ⟨rfl, -⟩ := Prod.mk.inj (Option.some.inj h)
              -- The whole match, piece by piece.
              let digits := inner.dropWhile isSpace
              have hdigits : digits.takeWhile Char.isDigit ++
                  ((digits.dropWhile Char.isDigit).takeWhile isSpace ++ ')' :: rest) = digits := by
                rw [← hclose, List.takeWhile_append_dropWhile, List.takeWhile_append_dropWhile]
              have hinner : inner.takeWhile isSpace ++ digits = inner :=
                List.takeWhile_append_dropWhile
              have htext : text.takeWhile isSpace ++ '(' :: inner = text := by
                rw [← hopen, List.takeWhile_append_dropWhile]
              let found := 'B' :: 'I' :: 'T' :: (text.takeWhile isSpace ++ '(' ::
                (inner.takeWhile isSpace ++ (digits.takeWhile Char.isDigit ++
                  ((digits.dropWhile Char.isDigit).takeWhile isSpace ++ [')']))))
              have hfound : found ++ rest = 'B' :: 'I' :: 'T' :: text := by
                simp [found, hdigits, hinner, htext]
              have hlength : found.length = text.length + 3 - rest.length := by
                have hall := congrArg List.length hfound
                rw [List.length_append] at hall
                simp only [List.length_cons] at hall
                omega
              have hpos : 0 < found.length := Nat.succ_pos _
              rw [← hfound, ← hlength, List.take_left]
              refine ⟨hpos, ?_⟩
              simp only [found, List.mem_cons, List.mem_append, List.not_mem_nil, or_false]
              rintro (h | h | h | h | h | h | h | h | h)
              · cases h
              · cases h
              · cases h
              · exact notMem_takeWhile (by decide) _ h
              · cases h
              · exact notMem_takeWhile (by decide) _ h
              · exact notMem_takeWhile (by decide) _ h
              · exact notMem_takeWhile (by decide) _ h
              · cases h
          · cases h
      · cases h
  · cases h

theorem knownName_match {name : List Char} (hname : Ident name) {v : ℤ} {before : Option Char}
    {text repl : List Char} {n : ℕ} (h : knownName name v before text = some (n, repl)) :
    0 < n ∧ '#' ∉ text.take n := by
  unfold knownName at h
  split_ifs at h with hcond
  obtain ⟨rfl, -⟩ := Prod.mk.inj (Option.some.inj h)
  rw [Bool.and_eq_true, Bool.and_eq_true] at hcond
  obtain ⟨rest, rfl⟩ := List.isPrefixOf_iff_prefix.1 hcond.1.2
  rw [List.take_left]
  exact ⟨List.length_pos_iff.2 hname.ne_nil, fun hmem => absurd (hname.2 _ hmem) (by decide)⟩

theorem hexSuffix_match {before : Option Char} {text repl : List Char} {n : ℕ}
    (h : hexSuffix before text = some (n, repl)) : 0 < n ∧ '#' ∉ text.take n := by
  unfold hexSuffix at h
  split at h
  · next text =>
      dsimp only at h
      split_ifs at h
      obtain ⟨rfl, -⟩ := Prod.mk.inj (Option.some.inj h)
      let found := '0' :: 'x' :: (text.takeWhile isHexDigit ++
        (text.dropWhile isHexDigit).takeWhile isSuffix)
      have hfound : found ++ (text.dropWhile isHexDigit).dropWhile isSuffix
          = '0' :: 'x' :: text := by
        simp [found]
      have hlength : found.length = (text.takeWhile isHexDigit).length +
          ((text.dropWhile isHexDigit).takeWhile isSuffix).length + 2 := by
        simp [found]
      rw [← hfound, ← hlength, List.take_left]
      refine ⟨Nat.succ_pos _, ?_⟩
      simp only [found, List.mem_cons, List.mem_append]
      rintro (h | h | h | h)
      · cases h
      · cases h
      · exact notMem_takeWhile (by decide) _ h
      · exact notMem_takeWhile (by decide) _ h
  · cases h

theorem mem_strip {a : Char} (ha : isSpace a = false) {text : List Char} (h : a ∈ text) :
    a ∈ strip text :=
  mem_rdropWhile ha (mem_dropWhile ha h)

/-- **A text with `#` is not evaluated.** -/
theorem safeEnumValue_hash (eval : List Char → Option ℤ) {e : List Char} (h : '#' ∈ e)
    {known : List (List Char × ℤ)} (hknown : ∀ p ∈ known, Ident p.1) :
    safeEnumValue eval (strip e) known = none := by
  have hnames (l : List (List Char × ℤ)) (hl : ∀ p ∈ l, Ident p.1) {u : List Char} (hu : '#' ∈ u) :
      '#' ∈ l.foldl (fun e p => sub (knownName p.1 p.2) none e) u := by
    induction l generalizing u with
    | nil => exact hu
    | cons p l ih =>
        obtain ⟨hp, hl⟩ := List.forall_mem_cons.1 hl
        exact ih hl (mem_sub (fun _ _ _ _ => knownName_match hp) hu)
  have hstrip : '#' ∈ strip ((strip e).rdropWhile (· = ',')) :=
    mem_strip (by decide) (mem_rdropWhile (by decide) (mem_strip (by decide) h))
  have hbit : '#' ∈ sub bitMacro none (strip ((strip e).rdropWhile (· = ','))) :=
    mem_sub (fun _ _ _ _ => bitMacro_match) hstrip
  have hknown := hnames (known.insertionSort fun p q => q.1.length ≤ p.1.length)
    (fun p hp => hknown p ((List.mem_insertionSort _).1 hp)) hbit
  refine if_neg fun hall => ?_
  have hexpr := List.all_eq_true.1 hall '#' (mem_sub (fun _ _ _ _ => hexSuffix_match) hknown)
  exact absurd hexpr (by decide)

end Scripts
end Shannon
