/-
# What the script reads of an enumeration

The first steps of `enum_indices` on the text of an enumeration (`Shannon.Scripts.EnumText`).

| step                        | what is left                               | lemma                |
| --------------------------- | ------------------------------------------ | -------------------- |
| the two substitutions       | the text outside comments (`seen`)         | `stripComments_text` |
| the split at commas         | one piece per fragment                     | `Clean.pieces`       |
| the lines that start with # | `in_if` is the number of open conditionals | `Wf.ifLines`         |

Two things are asked for (`EnumBody.Clean`).  The first substitution does not know line
comments, so no `/*` in one may find a `*/` behind it; and a comma cuts a directive as it cuts
anything else.
-/

import Shannon.Scripts.EnumText

namespace Shannon
namespace Scripts

open Lib

/-! ### Without comments -/

/-- What is left of a segment: a blank for a comment, and the end of its line. -/
def Seg.visible : Seg → List Char
  | .plain u => u
  | .block _ => [' ']
  | .line _ => [' ', '\n']

/-- What the first substitution leaves of it. -/
def Seg.unblocked : Seg → List Char
  | .plain u => u
  | .block _ => [' ']
  | .line t => (Seg.line t).text

/-- No block comment seems to start in a line comment, its own second slash included: wherever
`/*` is in it, there is no `*/` any more. -/
def Seg.NoOpener (behind : List Char) : Seg → Prop
  | .line t => ∀ u ∈ ('/' :: t).tails, ['/', '*'] <+: u →
      ¬['*', '/'] <:+: u.drop 2 ++ '\n' :: behind
  | _ => True

def Unopened : List Seg → Prop
  | [] => True
  | s :: segs => s.NoOpener (segs.flatMap Seg.text) ∧ Unopened segs

instance (behind : List Char) : DecidablePred (Seg.NoOpener behind)
  | .plain _ => isTrue trivial
  | .block _ => isTrue trivial
  | .line t => inferInstanceAs (Decidable (∀ u ∈ ('/' :: t).tails, ['/', '*'] <+: u →
      ¬['*', '/'] <:+: u.drop 2 ++ '\n' :: behind))

instance decidableUnopened : DecidablePred Unopened
  | [] => isTrue trivial
  | _ :: segs => @instDecidableAnd _ _ inferInstance (decidableUnopened segs)

theorem noComment_split {u pre post : List Char} (h : NoComment u) (hu : u = pre ++ '/' :: post) :
    ∃ d ∈ post.head?, d ≠ '/' ∧ d ≠ '*' := by
  induction pre generalizing u with
  | nil =>
      subst hu
      exact h.1 rfl
  | cons c pre ih =>
      subst hu
      exact ih h.2 rfl

theorem closing_eq_none {v : List Char} (h : ¬['*', '/'] <:+: v) : closing v = none := by
  induction v with
  | nil => rfl
  | cons c v ih =>
      have hc : ¬(c = '*' ∧ v.head? = some '/') := by
        rintro ⟨rfl, hhead⟩
        obtain ⟨w, rfl⟩ := List.head?_eq_some_iff.1 hhead
        exact h (List.prefix_append ['*', '/'] w).isInfix
      have hv : ¬['*', '/'] <:+: v := fun hsub => h (hsub.trans (List.suffix_cons c v).isInfix)
      rw [closing, if_neg hc, ih hv]
      rfl

theorem blockComment_eq_none {c : Char} {u : List Char} (before : Option Char)
    (h : c = '/' → ∀ v, u = '*' :: v → ¬['*', '/'] <:+: v) :
    blockComment before (c :: u) = none := by
  unfold blockComment
  split
  · next htext =>
      obtain ⟨rfl, rfl⟩ := List.cons.inj htext
      rw [closing_eq_none (h rfl _ rfl)]
      rfl
  · rfl

theorem lineComment_eq_none {c : Char} {u : List Char} (before : Option Char)
    (h : c = '/' → u.head? ≠ some '/') : lineComment before (c :: u) = none := by
  unfold lineComment
  split
  · next htext =>
      obtain ⟨rfl, rfl⟩ := List.cons.inj htext
      exact absurd rfl (h rfl)
  · rfl

theorem head?_append_of_mem {d : Char} {u : List Char} (h : d ∈ u.head?) (v : List Char) :
    (u ++ v).head? = some d := by
  rw [List.head?_append, Option.mem_def.1 h]
  rfl

/-- Neither substitution finds anything in text without comments. -/
theorem passes_of_noComment {u : List Char} (h : NoComment u) (before : Option Char)
    (v : List Char) : Passes blockComment before u v ∧ Passes lineComment before u v := by
  constructor
  · refine passes_iff.2 fun pre c post hu => blockComment_eq_none _ ?_
    rintro rfl w hw
    obtain ⟨d, hd, -, hne⟩ := noComment_split h hu
    have hhead := head?_append_of_mem hd v
    rw [hw] at hhead
    exact absurd (Option.some.inj hhead).symm hne
  · refine passes_iff.2 fun pre c post hu => lineComment_eq_none _ ?_
    rintro rfl
    obtain ⟨d, hd, hne, -⟩ := noComment_split h hu
    rw [head?_append_of_mem hd]
    exact fun heq => hne (Option.some.inj heq)

theorem closing_eq {t : List Char} (h : ¬['*', '/'] <:+: t) (v : List Char) :
    closing (t ++ '*' :: '/' :: v) = some (t.length + 2) := by
  induction t with
  | nil => rfl
  | cons c t ih =>
      have hc : ¬(c = '*' ∧ (t ++ '*' :: '/' :: v).head? = some '/') := by
        rintro ⟨rfl, hhead⟩
        cases t with
        | nil => cases hhead
        | cons d t =>
            obtain rfl : d = '/' := Option.some.inj hhead
            exact h (List.prefix_append ['*', '/'] t).isInfix
      have ht : ¬['*', '/'] <:+: t := fun hsub => h (hsub.trans (List.suffix_cons c t).isInfix)
      rw [List.cons_append, closing, if_neg hc, ih ht]
      rfl

/-- The first substitution finds nothing in a line comment. -/
theorem passes_lineComment {t behind : List Char} (h : (Seg.line t).NoOpener behind)
    (before : Option Char) :
    Passes blockComment before ('/' :: '/' :: (t ++ ['\n'])) behind := by
  refine passes_iff.2 fun pre c post hu => blockComment_eq_none _ ?_
  rintro rfl v hv
  cases pre with
  | nil =>
      obtain ⟨-, rfl⟩ := List.cons.inj hu
      cases (List.cons.inj hv).1
  | cons a pre =>
      rw [List.cons_append] at hu
      obtain ⟨-, hu⟩ := List.cons.inj hu
      rw [← List.cons_append] at hu
      -- The line feed is behind the slash.
      rcases List.eq_nil_or_concat post with rfl | ⟨post, d, rfl⟩
      · cases (List.append_inj' hu rfl).2
      · rw [List.concat_eq_append, ← List.cons_append, ← List.append_assoc] at hu
        obtain ⟨ht, hd⟩ := List.append_inj' hu rfl
        cases hd
        rw [List.concat_eq_append, List.append_assoc, List.singleton_append] at hv
        cases post with
        | nil => cases (List.cons.inj hv).1
        | cons e post =>
            obtain ⟨rfl, rfl⟩ := List.cons.inj hv
            refine h ('/' :: '*' :: post) ?_ (List.prefix_append ['/', '*'] post)
            rw [List.mem_tails, ht]
            exact List.suffix_append _ _

/-- The block comments are replaced, and nothing else is. -/
theorem sub_blockComment {segs : List Seg} (hwf : ∀ s ∈ segs, s.Wf)
    (hopen : Unopened segs) (before : Option Char) :
    sub blockComment before (segs.flatMap Seg.text) = segs.flatMap Seg.unblocked := by
  induction segs generalizing before with
  | nil => rfl
  | cons s segs ih =>
      obtain ⟨hs, hsegs⟩ := List.forall_mem_cons.1 hwf
      obtain ⟨hsopen, hopens⟩ := hopen
      rw [List.flatMap_cons, List.flatMap_cons]
      cases s with
      | plain u =>
          rw [Seg.text, sub_pass (passes_of_noComment hs.1 _ _).1, ih hsegs hopens]
          rfl
      | block t =>
          have hmatch : blockComment before ('/' :: ('*' :: (t ++ ['*', '/']) ++
              segs.flatMap Seg.text)) = some (('*' :: (t ++ ['*', '/'])).length + 1, [' ']) := by
            have hclosing := closing_eq hs.1 (segs.flatMap Seg.text)
            simp [blockComment, hclosing]
          rw [Seg.text, List.cons_append, sub_match hmatch, ih hsegs hopens]
          rfl
      | line t =>
          rw [Seg.text, sub_pass (passes_lineComment hsopen _), ih hsegs hopens]
          rfl

/-- The line comments are replaced after them. -/
theorem sub_lineComment {segs : List Seg} (hwf : ∀ s ∈ segs, s.Wf) (before : Option Char) :
    sub lineComment before (segs.flatMap Seg.unblocked) = segs.flatMap Seg.visible := by
  induction segs generalizing before with
  | nil => rfl
  | cons s segs ih =>
      obtain ⟨hs, hsegs⟩ := List.forall_mem_cons.1 hwf
      rw [List.flatMap_cons, List.flatMap_cons]
      cases s with
      | plain u =>
          rw [Seg.unblocked, sub_pass (passes_of_noComment hs.1 _ _).2, ih hsegs]
          rfl
      | block t =>
          have hblank : NoComment [' '] := by decide
          rw [Seg.unblocked, sub_pass (passes_of_noComment hblank _ _).2, ih hsegs]
          rfl
      | line t =>
          have htake : (t ++ '\n' :: segs.flatMap Seg.unblocked).takeWhile (· ≠ '\n') = t := by
            rw [List.takeWhile_append_of_pos]
            · simp
            · intro c hc
              exact decide_eq_true fun heq => hs.1 (heq ▸ hc)
          have hmatch : lineComment before ('/' :: ('/' :: t ++ '\n' :: segs.flatMap Seg.unblocked))
              = some (('/' :: t).length + 1, [' ']) := by
            simp only [lineComment, List.cons_append, htake]
            rfl
          have hfeed : NoComment ['\n'] := by decide
          have hrest := sub_pass (passes_of_noComment hfeed (('/' :: t).getLast?.or (some '/'))
            (segs.flatMap Seg.unblocked)).2
          rw [List.singleton_append] at hrest
          have htext : (Seg.line t).unblocked ++ segs.flatMap Seg.unblocked
              = '/' :: ('/' :: t ++ '\n' :: segs.flatMap Seg.unblocked) := by
            simp [Seg.unblocked, Seg.text]
          rw [htext, sub_match hmatch, hrest, ih hsegs]
          rfl

/-- **What the two substitutions leave.** -/
theorem stripComments_text {segs : List Seg} (hwf : ∀ s ∈ segs, s.Wf)
    (hopen : Unopened segs) :
    stripComments (segs.flatMap Seg.text) = segs.flatMap Seg.visible := by
  rw [stripComments, sub_blockComment hwf hopen, sub_lineComment hwf]

/-! ### Characters -/

theorem isSpace_iff {c : Char} : isSpace c = true ↔ (9 ≤ c.toNat ∧ c.toNat ≤ 13) ∨
    (28 ≤ c.toNat ∧ c.toNat ≤ 32) ∨ (0x2000 ≤ c.toNat ∧ c.toNat ≤ 0x200a) ∨
    c.toNat ∈ [0x85, 0xa0, 0x1680, 0x2028, 0x2029, 0x202f, 0x205f, 0x3000] := by
  simp [isSpace, or_assoc]

theorem isLineBreak_iff {c : Char} : isLineBreak c = true ↔ (10 ≤ c.toNat ∧ c.toNat ≤ 13) ∨
    (28 ≤ c.toNat ∧ c.toNat ≤ 30) ∨ c.toNat ∈ [0x85, 0x2028, 0x2029] := by
  simp [isLineBreak, or_assoc]

theorem isDigit_iff {c : Char} : c.isDigit = true ↔ 48 ≤ c.toNat ∧ c.toNat ≤ 57 :=
  Char.isDigit_iff_toNat

theorem isAlpha_iff {c : Char} : c.isAlpha = true ↔
    (65 ≤ c.toNat ∧ c.toNat ≤ 90) ∨ (97 ≤ c.toNat ∧ c.toNat ≤ 122) := by
  have hupper : c.isUpper = true ↔ 65 ≤ c.toNat ∧ c.toNat ≤ 90 := decide_eq_true_iff
  have hlower : c.isLower = true ↔ 97 ≤ c.toNat ∧ c.toNat ≤ 122 :=
    Bool.and_eq_true_iff.trans (and_congr decide_eq_true_iff decide_eq_true_iff)
  rw [← hupper, ← hlower]
  exact Bool.or_eq_true_iff

theorem isIdent_iff {c : Char} : isIdent c = true ↔ (65 ≤ c.toNat ∧ c.toNat ≤ 90) ∨
    (97 ≤ c.toNat ∧ c.toNat ≤ 122) ∨ (48 ≤ c.toNat ∧ c.toNat ≤ 57) ∨ c = '_' := by
  have halnum : c.isAlphanum = true ↔ c.isAlpha = true ∨ c.isDigit = true := Bool.or_eq_true_iff
  rw [isIdent, Bool.or_eq_true, beq_iff_eq, halnum, isAlpha_iff, isDigit_iff, or_assoc, or_assoc]

theorem isHexDigit_iff {c : Char} : isHexDigit c = true ↔ (48 ≤ c.toNat ∧ c.toNat ≤ 57) ∨
    (97 ≤ c.toNat ∧ c.toNat ≤ 102) ∨ (65 ≤ c.toNat ∧ c.toNat ≤ 70) := by
  simp only [isHexDigit, Bool.or_eq_true, Bool.and_eq_true, decide_eq_true_eq, isDigit_iff,
    or_assoc]
  rfl

theorem isSuffix_iff {c : Char} : isSuffix c = true ↔ c = 'u' ∨ c = 'U' ∨ c = 'l' ∨ c = 'L' := by
  simp [isSuffix, or_assoc]

theorem toNat_of_isIdent {c : Char} (h : isIdent c = true) : 48 ≤ c.toNat ∧ c.toNat ≤ 122 := by
  rcases isIdent_iff.1 h with h | h | h | rfl
  · omega
  · omega
  · omega
  · decide

theorem isSpace_of_isIdent {c : Char} (h : isIdent c = true) : isSpace c = false := by
  have hrange := toNat_of_isIdent h
  rw [Bool.eq_false_iff, ne_eq, isSpace_iff]
  simp only [List.mem_cons, List.not_mem_nil, or_false]
  omega

/-- Nothing printable in ASCII ends a line. -/
theorem isLineBreak_of_printable {c : Char} (h : 32 ≤ c.toNat ∧ c.toNat ≤ 126) :
    isLineBreak c = false := by
  rw [Bool.eq_false_iff, ne_eq, isLineBreak_iff]
  simp only [List.mem_cons, List.not_mem_nil, or_false]
  omega

theorem isSpace_of_isBlank {c : Char} (h : isBlank c = true) : isSpace c = true := by
  simp only [isBlank, List.contains_iff_mem, List.mem_cons, List.not_mem_nil, or_false] at h
  rcases h with rfl | rfl | rfl | rfl | rfl <;> decide

/-! ### Fragments -/

/-- What is left of a text. -/
def seen (segs : List Seg) : List Char := segs.flatMap Seg.visible

theorem seen_append (segs segs' : List Seg) : seen (segs ++ segs') = seen segs ++ seen segs' :=
  List.flatMap_append

theorem seen_cons (s : Seg) (segs : List Seg) : seen (s :: segs) = s.visible ++ seen segs :=
  List.flatMap_cons

/-- What is left of text of a class is of this class, or a blank for a comment. -/
theorem mem_seen {p : Char → Bool} {segs : List Seg} (h : ∀ s ∈ segs, s.Over p) {c : Char}
    (hc : c ∈ seen segs) : p c = true ∨ c = ' ' ∨ c = '\n' := by
  obtain ⟨s, hs, hc⟩ := List.mem_flatMap.1 hc
  have hover := h s hs
  cases s with
  | plain u => exact .inl (hover c hc)
  | block t => exact .inr (.inl (List.mem_singleton.1 hc))
  | line t => simpa [Seg.visible] using Or.inr hc

theorem Seg.Inline.over {p : Char → Bool} {s : Seg} (h : s.Inline p) : s.Over p := by
  cases s with
  | plain u => exact h
  | block t => trivial
  | line t => trivial

/-- Inside a line no line feed is left. -/
theorem mem_seen_inline {p : Char → Bool} {segs : List Seg} (h : ∀ s ∈ segs, s.Inline p)
    {c : Char} (hc : c ∈ seen segs) : p c = true ∨ c = ' ' := by
  obtain ⟨s, hs, hc⟩ := List.mem_flatMap.1 hc
  have hline := h s hs
  cases s with
  | plain u => exact .inl (hline c hc)
  | block t => exact .inr (List.mem_singleton.1 hc)
  | line t => exact hline.elim

theorem isBlank_seen {segs : List Seg} (h : ∀ s ∈ segs, s.Over isBlank) {c : Char}
    (hc : c ∈ seen segs) : isBlank c = true := by
  rcases mem_seen h hc with hblank | rfl | rfl
  · exact hblank
  · decide
  · decide

/-- The line of a directive. -/
def Directive.line (d : Directive) : List Char :=
  '#' :: (seen d.gap ++ d.keyword.text ++ (seen d.rest ++ (d.comment.map fun _ => ' ').toList))

theorem Directive.seen_segs (d : Directive) : seen d.segs = d.line ++ ['\n'] := by
  have hend : seen [d.lineEnd] = (d.comment.map fun _ => ' ').toList ++ ['\n'] := by
    unfold lineEnd
    cases d.comment <;> rfl
  rw [segs, List.append_assoc, List.cons_append, List.cons_append, seen_cons, seen_append,
    seen_cons, seen_append, hend, line]
  simp [Seg.visible]

theorem Keyword.mem_text {kw : Keyword} {c : Char} (h : c ∈ kw.text) : isIdent c = true := by
  have hall : kw.text.all isIdent = true := by cases kw <;> decide
  exact List.all_eq_true.1 hall c h

theorem Directive.Wf.mem_line {d : Directive} (h : d.Wf) {p : Char → Bool}
    (hrest : ∀ s ∈ d.rest, s.Inline p) {c : Char} (hc : c ∈ d.line) :
    c = '#' ∨ c = ' ' ∨ c = '\t' ∨ isIdent c = true ∨ p c = true := by
  rw [line, List.mem_cons, List.mem_append, List.mem_append, List.mem_append] at hc
  rcases hc with rfl | (hc | hc) | hc | hc
  · exact .inl rfl
  · rcases mem_seen_inline h.gap hc with hblank | rfl
    · rw [Bool.or_eq_true, beq_iff_eq, beq_iff_eq] at hblank
      exact .inr (hblank.imp_right .inl)
    · exact .inr (.inl rfl)
  · exact .inr (.inr (.inr (.inl (Keyword.mem_text hc))))
  · rcases mem_seen_inline hrest hc with hp | rfl
    · exact .inr (.inr (.inr (.inr hp)))
    · exact .inr (.inl rfl)
  · cases hcomment : d.comment with
    | none =>
        rw [hcomment] at hc
        cases hc
    | some t =>
        rw [hcomment] at hc
        exact .inr (.inl (List.mem_singleton.1 hc))

theorem isLineBreak_of_isCondChar {c : Char} (h : isCondChar c = true) :
    isLineBreak c = false := by
  simp only [isCondChar, Bool.or_eq_true, Bool.and_eq_true, decide_eq_true_eq, beq_iff_eq] at h
  rcases h with rfl | ⟨⟨hge, hle⟩, -⟩
  · decide
  · exact isLineBreak_of_printable ⟨hge, hle⟩

/-- A directive is one line. -/
theorem Directive.Wf.oneLine {d : Directive} (h : d.Wf) {c : Char} (hc : c ∈ d.line) :
    isLineBreak c = false := by
  rcases h.mem_line h.rest hc with rfl | rfl | rfl | hident | hcond
  · decide
  · decide
  · decide
  · have hrange := toNat_of_isIdent hident
    exact isLineBreak_of_printable (by omega)
  · exact isLineBreak_of_isCondChar hcond

theorem isIdent_of_isHexDigit {c : Char} (h : isHexDigit c = true) : isIdent c = true := by
  have hrange := isHexDigit_iff.1 h
  exact isIdent_iff.2 (by omega)

theorem isDigit_of_octal {ds : List Char} (h : Radix.oct.Digits ds) {c : Char} (hc : c ∈ ds) :
    c.isDigit = true := by
  obtain ⟨hge, hle⟩ := h c hc
  have hhi : c.toNat ≤ 55 := hle
  exact isDigit_iff.2 ⟨hge, by omega⟩

/-- The digits of every radix are hexadecimal ones. -/
theorem Radix.Digits.isHexDigit {r : Radix} {ds : List Char} (h : r.Digits ds) {c : Char}
    (hc : c ∈ ds) : isHexDigit c = true := by
  cases r with
  | dec => exact isHexDigit_iff.2 (.inl (isDigit_iff.1 (h.2.2 c hc)))
  | oct => exact isHexDigit_iff.2 (.inl (isDigit_iff.1 (isDigit_of_octal h hc)))
  | hex => exact h.2 c hc
  | hexUpper => exact h.2 c hc

/-- A literal is a word. -/
theorem Lit.Wf.isIdent {l : Lit} (h : l.Wf) {c : Char} (hc : c ∈ l.text) : isIdent c = true := by
  rw [text, List.mem_append, List.mem_append] at hc
  rcases hc with (hc | hc) | hc
  · have hall : l.radix.lead.all Scripts.isIdent = true := by cases l.radix <;> decide
    exact List.all_eq_true.1 hall c hc
  · exact isIdent_of_isHexDigit (h.digits.isHexDigit hc)
  · rcases isSuffix_iff.1 (h.suffix c hc) with rfl | rfl | rfl | rfl <;> decide

theorem Lit.Wf.text_ne_nil {l : Lit} (h : l.Wf) : l.text ≠ [] := by
  obtain ⟨r, ds, suffix⟩ := l
  cases r with
  | dec =>
      have hne := List.append_ne_nil_of_right_ne_nil (Radix.lead .dec) h.digits.1
      exact List.append_ne_nil_of_left_ne_nil hne suffix
  | oct => exact List.cons_ne_nil _ _
  | hex => exact List.cons_ne_nil _ _
  | hexUpper => exact List.cons_ne_nil _ _

theorem Ident.ne_nil {name : List Char} (h : Ident name) : name ≠ [] := by
  rintro rfl
  cases h.1

theorem Init.seen_segs (i : Init) :
    seen i.segs = seen i.before ++ '=' :: (seen i.after ++ i.lit.text) := by
  rw [segs, List.append_assoc, seen_append, List.cons_append, seen_cons, seen_append]
  simp [seen, Seg.visible]

theorem Member.seen_segs (m : Member) :
    seen m.segs = m.name ++ (m.init.map fun i => seen i.segs).getD [] := by
  rw [segs, seen_cons]
  cases m.init <;> rfl

theorem Member.Wf.mem_seen {m : Member} (h : m.Wf) {c : Char} (hc : c ∈ seen m.segs) :
    Scripts.isIdent c = true ∨ isBlank c = true ∨ c = '=' := by
  rw [seen_segs, List.mem_append] at hc
  rcases hc with hc | hc
  · exact .inl (h.name.2 c hc)
  · cases hinit : m.init with
    | none =>
        rw [hinit] at hc
        cases hc
    | some i =>
        have hi := h.init i hinit
        rw [hinit, Option.map_some, Option.getD_some, Init.seen_segs, List.mem_append,
          List.mem_cons, List.mem_append] at hc
        rcases hc with hc | rfl | hc | hc
        · exact .inr (.inl (isBlank_seen hi.before hc))
        · exact .inr (.inr rfl)
        · exact .inr (.inl (isBlank_seen hi.after hc))
        · exact .inl (hi.lit.isIdent hc)

/-! ### Commas -/

/-- The gaps of a fragment. -/
def Fragment.gaps (f : Fragment) : List Gap := f.before ++ f.after

theorem Fragment.seen_segs (f : Fragment) : seen f.segs = seen (f.before.flatMap Gap.segs) ++
    (seen ((f.member.map Member.segs).getD []) ++ seen (f.after.flatMap Gap.segs)) := by
  rw [segs, List.append_assoc, seen_append, seen_append]

/-- No condition of a directive has a comma. -/
def Gap.NoComma : Gap → Prop
  | .seg _ => True
  | .directive d => ∀ s ∈ d.rest, s.Over (· ≠ ',')

instance : DecidablePred Gap.NoComma
  | .seg _ => isTrue trivial
  | .directive d => inferInstanceAs (Decidable (∀ s ∈ d.rest, s.Over (· ≠ ',')))

theorem Gap.notMem_comma {g : Gap} (hwf : g.Wf) (hcomma : g.NoComma) : ',' ∉ seen g.segs := by
  intro hc
  cases g with
  | seg s =>
      have hblank := isBlank_seen (List.forall_mem_singleton.2 hwf) hc
      exact absurd hblank (by decide)
  | directive d =>
      rw [segs, Directive.seen_segs, List.mem_append] at hc
      rcases hc with hc | hc
      · have hrest : ∀ s ∈ d.rest, s.Inline (· ≠ ',') := by
          intro s hs
          have hline := Directive.Wf.rest hwf s hs
          cases s with
          | plain u => exact hcomma _ hs
          | block t => trivial
          | line t => exact hline.elim
        have hline := Directive.Wf.mem_line hwf hrest hc
        revert hline
        decide
      · exact absurd hc (by decide)

theorem gaps_notMem_comma {gaps : List Gap} (hwf : ∀ g ∈ gaps, g.Wf)
    (hcomma : ∀ g ∈ gaps, g.NoComma) : ',' ∉ seen (gaps.flatMap Gap.segs) := by
  rw [seen, List.flatMap_assoc]
  intro hc
  obtain ⟨g, hg, hc⟩ := List.mem_flatMap.1 hc
  exact Gap.notMem_comma (hwf g hg) (hcomma g hg) hc

theorem Fragment.Wf.notMem_comma {f : Fragment} (h : f.Wf) (hcomma : ∀ g ∈ f.gaps, g.NoComma) :
    ',' ∉ seen f.segs := by
  rw [seen_segs, List.mem_append, List.mem_append]
  rintro (hc | hc | hc)
  · exact gaps_notMem_comma h.before (fun g hg => hcomma g (List.mem_append_left _ hg)) hc
  · cases hmember : f.member with
    | none =>
        rw [hmember] at hc
        cases hc
    | some m =>
        rw [hmember] at hc
        have hmem := (h.member m hmember).mem_seen hc
        revert hmem
        decide
  · exact gaps_notMem_comma h.after (fun g hg => hcomma g (List.mem_append_right _ hg)) hc

/-- Comments and commas are read as they are meant: no block comment seems to start in a line
comment, and no condition of a directive has a comma. -/
structure EnumBody.Clean (body : EnumBody) : Prop where
  unopened : Unopened body.segs
  noComma : ∀ f ∈ body.fragments, ∀ g ∈ f.gaps, g.NoComma

theorem EnumBody.mem_segs {body : EnumBody} {s : Seg} (h : s ∈ body.segs) :
    s = .plain [','] ∨ ∃ f ∈ body.fragments, s ∈ f.segs := by
  rcases mem_intercalate h with hsep | ⟨segs, hsegs, hs⟩
  · exact .inl (List.mem_singleton.1 hsep)
  · obtain ⟨f, hf, rfl⟩ := List.mem_map.1 hsegs
    exact .inr ⟨f, hf, hs⟩

/-- **The pieces the script reads are the fragments.** -/
theorem EnumBody.Clean.pieces {body : EnumBody} (h : body.Clean) :
    (stripComments body.text).splitOn ',' = body.fragments.map fun f => seen f.segs := by
  have hwf : ∀ s ∈ body.segs, s.Wf := by
    intro s hs
    rcases body.mem_segs hs with rfl | ⟨f, hf, hs⟩
    · exact ⟨by decide, by decide⟩
    · exact (body.wf f hf).segs s hs
  have hseen : seen body.segs
      = [','].intercalate (body.fragments.map fun f => seen f.segs) := by
    rw [seen, segs, flatMap_intercalate, List.map_map]
    rfl
  rw [text, stripComments_text hwf h.unopened]
  refine (congrArg (List.splitOn ',') hseen).trans (List.splitOn_intercalate ',' ?_ ?_)
  · intro l hl
    obtain ⟨f, hf, rfl⟩ := List.mem_map.1 hl
    exact (body.wf f hf).notMem_comma (h.noComma f hf)
  · rw [ne_eq, List.map_eq_nil_iff]
    exact body.fragments_ne

/-! ### Conditionals -/

/-- `in_if` behind a text. -/
def ifLines (k : ℕ) (text : List Char) : ℕ := (splitlines text).foldl ifLine k

/-- The start of a line that is no directive. -/
def Quiet (p : List Char) : Prop := ∀ c ∈ p, c ≠ '#' ∧ isLineBreak c = false

theorem ifLine_of_notMem {line : List Char} (h : '#' ∉ line) (k : ℕ) : ifLine k line = k := by
  unfold ifLine
  split
  · next text hstrip =>
      have hmem : '#' ∈ strip line := by
        rw [hstrip]
        exact List.mem_cons_self
      have hsub := (List.rdropWhile_prefix isSpace _).subset hmem
      exact absurd ((List.dropWhile_suffix isSpace).subset hsub) h
  · rfl

theorem splitlines_line {p : List Char} (hp : ∀ c ∈ p, isLineBreak c = false) {c : Char}
    (hc : isLineBreak c = true) (hcr : c ≠ '\r') (text : List Char) :
    splitlines (p ++ c :: text) = p :: splitlines text := by
  induction p with
  | nil => rw [List.nil_append, splitlines, if_neg fun h => hcr h.1, if_pos hc]
  | cons d p ih =>
      obtain ⟨hd, hp⟩ := List.forall_mem_cons.1 hp
      have hdcr : d ≠ '\r' := by
        rintro rfl
        exact absurd hd (by decide)
      rw [List.cons_append, splitlines, if_neg fun h => hdcr h.1, hd, if_neg Bool.false_ne_true,
        ih hp]

theorem ifLines_line {p : List Char} (hp : ∀ c ∈ p, isLineBreak c = false) {c : Char}
    (hc : isLineBreak c = true) (hcr : c ≠ '\r') (k : ℕ) (text : List Char) :
    ifLines k (p ++ c :: text) = ifLines (ifLine k p) text := by
  rw [ifLines, splitlines_line hp hc hcr, List.foldl_cons]
  rfl

/-- Text without directives changes nothing.  Behind it is the start of a line, blank if the
text is and has a line feed, or was at the start of a line. -/
theorem ifLines_quiet {w : List Char} (hw : ∀ c ∈ w, c ≠ '#' ∧ c ≠ '\r') {p : List Char}
    (hp : Quiet p) (k : ℕ) (v : List Char) : ∃ p', Quiet p' ∧
      ifLines k (p ++ (w ++ v)) = ifLines k (p' ++ v) ∧
      ((∀ c ∈ w, isSpace c = true) → ((∀ c ∈ p, isSpace c = true) ∨ '\n' ∈ w) →
        ∀ c ∈ p', isSpace c = true) := by
  induction w generalizing p with
  | nil =>
      refine ⟨p, hp, rfl, fun _ h => h.resolve_right List.not_mem_nil⟩
  | cons c w ih =>
      obtain ⟨⟨hhash, hcr⟩, hw⟩ := List.forall_mem_cons.1 hw
      cases hbreak : isLineBreak c with
      | true =>
          obtain ⟨p', hp', heq, hspace⟩ := @ih hw [] (List.forall_mem_nil _)
          refine ⟨p', hp', ?_, fun hall _ => ?_⟩
          · have hnot : '#' ∉ p := fun hmem => (hp _ hmem).1 rfl
            rw [← heq, List.cons_append, ifLines_line (fun d hd => (hp d hd).2) hbreak hcr,
              ifLine_of_notMem hnot]
            rfl
          · exact hspace (List.forall_mem_cons.1 hall).2 (.inl (List.forall_mem_nil _))
      | false =>
          have hp₁ : Quiet (p ++ [c]) := by
            intro d hd
            rcases List.mem_append.1 hd with hd | hd
            · exact hp d hd
            · obtain rfl := List.mem_singleton.1 hd
              exact ⟨hhash, hbreak⟩
          obtain ⟨p', hp', heq, hspace⟩ := @ih hw (p ++ [c]) hp₁
          refine ⟨p', hp', ?_, fun hall hstart => ?_⟩
          · rw [← heq, List.append_assoc]
            rfl
          · obtain ⟨hc, hall⟩ := List.forall_mem_cons.1 hall
            refine hspace hall (hstart.imp (fun hp d hd => ?_) fun hmem => ?_)
            · rcases List.mem_append.1 hd with hd | hd
              · exact hp d hd
              · obtain rfl := List.mem_singleton.1 hd
                exact hc
            · refine (List.mem_cons.1 hmem).resolve_left ?_
              rintro rfl
              exact absurd hbreak (by decide)

theorem splitlines_of_noBreak {p : List Char} (hp : ∀ c ∈ p, isLineBreak c = false) :
    splitlines p = if p = [] then [] else [p] := by
  induction p with
  | nil => rfl
  | cons c p ih =>
      obtain ⟨hc, hp⟩ := List.forall_mem_cons.1 hp
      have hcr : c ≠ '\r' := by
        rintro rfl
        exact absurd hc (by decide)
      rw [splitlines, if_neg fun h => hcr h.1, hc, if_neg Bool.false_ne_true, ih hp,
        if_neg (List.cons_ne_nil c p)]
      cases p <;> rfl

theorem ifLines_of_quiet {p : List Char} (hp : Quiet p) (k : ℕ) : ifLines k p = k := by
  rw [ifLines, splitlines_of_noBreak fun c hc => (hp c hc).2]
  split_ifs
  · rfl
  · exact ifLine_of_notMem (fun hmem => (hp _ hmem).1 rfl) k

/-- The keyword starts with a letter and ends with one. -/
theorem Keyword.text_eq (kw : Keyword) :
    ∃ (c : Char) (u : List Char) (d : Char), isSpace c = false ∧ isSpace d = false ∧
      kw.text = c :: (u ++ [d]) := by
  cases kw with
  | if_ => exact ⟨'i', [], 'f', by decide, by decide, rfl⟩
  | ifdef => exact ⟨'i', ['f', 'd', 'e'], 'f', by decide, by decide, rfl⟩
  | ifndef => exact ⟨'i', ['f', 'n', 'd', 'e'], 'f', by decide, by decide, rfl⟩
  | endif => exact ⟨'e', ['n', 'd', 'i'], 'f', by decide, by decide, rfl⟩

/-- A directive, behind blanks at the start of its line. -/
theorem ifLine_directive {d : Directive} (h : d.Wf) {p : List Char}
    (hp : ∀ c ∈ p, isSpace c = true) (k : ℕ) :
    ifLine k (p ++ d.line) = if d.keyword = .endif then k - 1 else k + 1 := by
  have hgap : ∀ c ∈ seen d.gap, isSpace c = true := by
    intro c hc
    rcases mem_seen_inline h.gap hc with hblank | rfl
    · rw [Bool.or_eq_true, beq_iff_eq, beq_iff_eq] at hblank
      rcases hblank with rfl | rfl <;> decide
    · decide
  obtain ⟨c, u, e, hc, he, htext⟩ := d.keyword.text_eq
  -- What is behind the keyword may lose blanks at its end.
  obtain ⟨tail, hstrip⟩ : ∃ tail,
      strip (p ++ d.line) = '#' :: (seen d.gap ++ (d.keyword.text ++ tail)) := by
    refine ⟨(seen d.rest ++ (d.comment.map fun _ => ' ').toList).rdropWhile isSpace, ?_⟩
    have hline : d.line = '#' :: (seen d.gap ++ c :: u) ++
        e :: (seen d.rest ++ (d.comment.map fun _ => ' ').toList) := by
      simp [Directive.line, htext]
    rw [strip, List.dropWhile_append_of_pos hp, hline, List.cons_append, List.dropWhile_cons,
      if_neg (by decide), ← List.cons_append, rdropWhile_append he, htext]
    simp
  have hdrop : (seen d.gap ++ (d.keyword.text ++ tail)).dropWhile isSpace
      = d.keyword.text ++ tail := by
    rw [List.dropWhile_append_of_pos hgap, htext, List.cons_append, List.dropWhile_cons, hc,
      if_neg Bool.false_ne_true]
  simp only [ifLine, hstrip, hdrop]
  cases d.keyword <;> simp [Keyword.text]

/-- **`in_if` follows the directives** of the gaps. -/
theorem ifLines_gaps {gaps : List Gap} (hwf : ∀ g ∈ gaps, g.Wf) {start : Bool}
    (hplaced : Placed start gaps) {p : List Char} (hp : Quiet p)
    (hstart : start = true → ∀ c ∈ p, isSpace c = true) (k : ℕ) (v : List Char) :
    ∃ p', Quiet p' ∧
      ifLines k (p ++ (seen (gaps.flatMap Gap.segs) ++ v)) = ifLines (depth k gaps) (p' ++ v) := by
  induction gaps generalizing start p k with
  | nil => exact ⟨p, hp, rfl⟩
  | cons g gaps ih =>
      obtain ⟨hg, hgaps⟩ := List.forall_mem_cons.1 hwf
      rw [List.flatMap_cons, seen_append, List.append_assoc]
      cases g with
      | seg s =>
          have hblank (c : Char) (hc : c ∈ seen [s]) : isBlank c = true :=
            isBlank_seen (List.forall_mem_singleton.2 hg) hc
          have hw : ∀ c ∈ seen [s], c ≠ '#' ∧ c ≠ '\r' := by
            intro c hc
            refine ⟨?_, ?_⟩
            · rintro rfl
              exact absurd (hblank _ hc) (by decide)
            · rintro rfl
              exact absurd (hblank _ hc) (by decide)
          obtain ⟨p₁, hp₁, heq₁, hspace₁⟩ := ifLines_quiet hw hp k
            (seen (gaps.flatMap Gap.segs) ++ v)
          have hstart₁ : (start || s.breaks) = true → ∀ c ∈ p₁, isSpace c = true := by
            intro hor
            refine hspace₁ (fun c hc => isSpace_of_isBlank (hblank c hc)) ?_
            rcases Bool.or_eq_true_iff.1 hor with hs | hs
            · exact .inl (hstart hs)
            · refine .inr ?_
              cases s with
              | plain u =>
                  rw [Seg.breaks, List.contains_iff_mem] at hs
                  simpa [seen, Seg.visible] using hs
              | block t => cases hs
              | line t => simp [seen, Seg.visible]
          obtain ⟨p', hp', heq⟩ := ih hgaps hplaced hp₁ hstart₁ k
          exact ⟨p', hp', heq₁.trans heq⟩
      | directive d =>
          obtain ⟨hs, hplaced⟩ := hplaced
          have hpd : ∀ c ∈ p ++ d.line, isLineBreak c = false := by
            intro c hc
            rcases List.mem_append.1 hc with hc | hc
            · exact (hp c hc).2
            · exact Directive.Wf.oneLine hg hc
          obtain ⟨p', hp', heq⟩ := ih hgaps hplaced (List.forall_mem_nil _)
            (fun _ => List.forall_mem_nil _) (if d.keyword = .endif then k - 1 else k + 1)
          refine ⟨p', hp', ?_⟩
          rw [Gap.segs, Directive.seen_segs, List.append_assoc, ← List.append_assoc p,
            List.singleton_append, ifLines_line hpd (by decide) (by decide),
            ifLine_directive hg (hstart hs)]
          exact heq

/-- `in_if` behind a fragment. -/
theorem Fragment.Wf.ifLines {f : Fragment} (h : f.Wf) (k : ℕ) :
    ifLines k (seen f.segs) = depth (depth k f.before) f.after := by
  obtain ⟨p₁, hp₁, heq₁⟩ := ifLines_gaps h.before h.placed_before (List.forall_mem_nil _) nofun k
    (seen ((f.member.map Member.segs).getD []) ++ (seen (f.after.flatMap Gap.segs) ++ []))
  have hmember : ∀ c ∈ seen ((f.member.map Member.segs).getD []), c ≠ '#' ∧ c ≠ '\r' := by
    intro c hc
    cases hm : f.member with
    | none =>
        rw [hm] at hc
        cases hc
    | some m =>
        rw [hm] at hc
        have hmem := (h.member m hm).mem_seen hc
        refine ⟨?_, ?_⟩
        · rintro rfl
          revert hmem
          decide
        · rintro rfl
          revert hmem
          decide
  obtain ⟨p₂, hp₂, heq₂, -⟩ := ifLines_quiet hmember hp₁ (depth k f.before)
    (seen (f.after.flatMap Gap.segs) ++ [])
  obtain ⟨p₃, hp₃, heq₃⟩ := ifLines_gaps h.after h.placed_after hp₂ nofun (depth k f.before) []
  have hseen : seen f.segs = [] ++ (seen (f.before.flatMap Gap.segs) ++
      (seen ((f.member.map Member.segs).getD []) ++ (seen (f.after.flatMap Gap.segs) ++ []))) := by
    rw [seen_segs, List.append_nil, List.nil_append]
  rw [hseen, heq₁, heq₂, heq₃, List.append_nil, ifLines_of_quiet hp₃]

end Scripts
end Shannon
