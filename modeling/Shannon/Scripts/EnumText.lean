/-
# Enumerations as C reads them

The text between the braces of an enumeration: members `NAME` or `NAME = literal` with commas
between them, comments anywhere, and lines with `#if`, `#ifdef`, `#ifndef` and `#endif`.
`EnumBody` is such a text, taken apart; `EnumBody.text` puts it together.

A comma ends a fragment.  What C makes of the fragments is the list of members, each with
whether it is inside a conditional (`members`); the values of the members follow from the
literals (`nextValue`).

A directive is on a line of its own, so `Placed` keeps track of line starts.  Lines are not
continued with a backslash.  Nothing is asked of how the conditionals nest.
-/

import Mathlib.Data.List.Infix
import Mathlib.Data.List.Pairwise
import Shannon.Scripts.EnumIndices

namespace Shannon
namespace Scripts

/-! ### Text and comments -/

/-- A stretch of a source text. -/
inductive Seg where
  /-- Text outside comments. -/
  | plain (u : List Char)
  /-- A block comment around `t`. -/
  | block (t : List Char)
  /-- A line comment, with the line feed that ends it. -/
  | line (t : List Char)
deriving DecidableEq, Repr

def Seg.text : Seg → List Char
  | .plain u => u
  | .block t => '/' :: '*' :: (t ++ ['*', '/'])
  | .line t => '/' :: '/' :: (t ++ ['\n'])

/-- No comment starts in the text, and none does when another one comes behind it. -/
def NoComment : List Char → Prop
  | [] => True
  | c :: u => (c = '/' → ∃ d ∈ u.head?, d ≠ '/' ∧ d ≠ '*') ∧ NoComment u

instance decidableNoComment : DecidablePred NoComment
  | [] => isTrue trivial
  | _ :: u => @instDecidableAnd _ _ (@instDecidableForall _ _ _ (Option.decidableExistsMem u.head?))
      (decidableNoComment u)

/-- The comments end where they say, and no brace ends the enumeration. -/
def Seg.Wf : Seg → Prop
  | .plain u => NoComment u ∧ '}' ∉ u
  | .block t => ¬['*', '/'] <:+: t ∧ '}' ∉ t
  | .line t => '\n' ∉ t ∧ t.getLast? ≠ some '\\' ∧ '}' ∉ t

instance : DecidablePred Seg.Wf
  | .plain _ => inferInstanceAs (Decidable (_ ∧ _))
  | .block _ => inferInstanceAs (Decidable (_ ∧ _))
  | .line _ => inferInstanceAs (Decidable (_ ∧ _ ∧ _))

/-- The text outside comments is of a class. -/
def Seg.Over (p : Char → Bool) : Seg → Prop
  | .plain u => ∀ c ∈ u, p c = true
  | _ => True

/-- All on one line, apart from what is inside block comments. -/
def Seg.Inline (p : Char → Bool) : Seg → Prop
  | .line _ => False
  | s => s.Over p

instance (p : Char → Bool) : DecidablePred (Seg.Over p)
  | .plain u => List.decidableBAll (p · = true) u
  | .block _ => isTrue trivial
  | .line _ => isTrue trivial

instance (p : Char → Bool) : DecidablePred (Seg.Inline p)
  | .plain u => List.decidableBAll (p · = true) u
  | .block _ => isTrue trivial
  | .line _ => isFalse id

/-- White space in C. -/
def isBlank (c : Char) : Bool := [' ', '\t', '\n', '\x0b', '\x0c'].contains c

/-- What the condition of a directive is made of: printable characters and tabs. -/
def isCondChar (c : Char) : Bool := c == '\t' || (' ' ≤ c && c ≤ '~' && c != '\\')

/-! ### Directives -/

inductive Keyword where
  | if_
  | ifdef
  | ifndef
  | endif
deriving DecidableEq, Repr

def Keyword.text : Keyword → List Char
  | .if_ => ['i', 'f']
  | .ifdef => ['i', 'f', 'd', 'e', 'f']
  | .ifndef => ['i', 'f', 'n', 'd', 'e', 'f']
  | .endif => ['e', 'n', 'd', 'i', 'f']

/-- From `#` to the end of the line. -/
structure Directive where
  gap : List Seg
  keyword : Keyword
  rest : List Seg
  /-- A line comment at the end of the line. -/
  comment : Option (List Char)
deriving DecidableEq, Repr

/-- The end of the line. -/
def Directive.lineEnd (d : Directive) : Seg := d.comment.elim (.plain ['\n']) .line

def Directive.segs (d : Directive) : List Seg :=
  .plain ['#'] :: d.gap ++ .plain d.keyword.text :: d.rest ++ [d.lineEnd]

structure Directive.Wf (d : Directive) : Prop where
  gap : ∀ s ∈ d.gap, s.Inline fun c => c == ' ' || c == '\t'
  rest : ∀ s ∈ d.rest, s.Inline isCondChar

instance : DecidablePred Directive.Wf := fun _ =>
  decidable_of_iff (_ ∧ _) ⟨fun h => ⟨h.1, h.2⟩, fun h => ⟨h.gap, h.rest⟩⟩

/-- What may stand around members. -/
inductive Gap where
  | seg (s : Seg)
  | directive (d : Directive)
deriving DecidableEq, Repr

def Gap.segs : Gap → List Seg
  | .seg s => [s]
  | .directive d => d.segs

def Gap.Wf : Gap → Prop
  | .seg s => s.Over isBlank
  | .directive d => d.Wf

instance : DecidablePred Gap.Wf
  | .seg s => inferInstanceAs (Decidable (s.Over isBlank))
  | .directive d => inferInstanceAs (Decidable d.Wf)

def Gap.isDirective : Gap → Bool
  | .seg _ => false
  | .directive _ => true

/-- A line starts behind the segment. -/
def Seg.breaks : Seg → Bool
  | .plain u => u.contains '\n'
  | .block _ => false
  | .line _ => true

/-- Every directive is at the start of a line.  `start` says if a line starts here. -/
def Placed : Bool → List Gap → Prop
  | _, [] => True
  | start, .seg s :: gaps => Placed (start || s.breaks) gaps
  | start, .directive _ :: gaps => start = true ∧ Placed true gaps

instance decidablePlaced : (start : Bool) → DecidablePred (Placed start)
  | _, [] => isTrue trivial
  | start, .seg s :: gaps => decidablePlaced (start || s.breaks) gaps
  | _, .directive _ :: gaps => @instDecidableAnd _ _ inferInstance (decidablePlaced true gaps)

/-- How many conditionals are open behind the gaps. -/
def depth (k : ℕ) : List Gap → ℕ
  | [] => k
  | .seg _ :: gaps => depth k gaps
  | .directive d :: gaps => depth (if d.keyword = .endif then k - 1 else k + 1) gaps

/-! ### Literals -/

inductive Radix where
  | dec
  | oct
  | hex
  /-- `0X`. -/
  | hexUpper
deriving DecidableEq, Repr

def Radix.lead : Radix → List Char
  | .dec => []
  | .oct => ['0']
  | .hex => ['0', 'x']
  | .hexUpper => ['0', 'X']

/-- An integer literal. -/
structure Lit where
  radix : Radix
  digits : List Char
  suffix : List Char
deriving DecidableEq, Repr

def Lit.text (l : Lit) : List Char := l.radix.lead ++ l.digits ++ l.suffix

/-- `0` is the octal literal without further digits. -/
def Radix.Digits : Radix → List Char → Prop
  | .dec, ds => ds ≠ [] ∧ ds.head? ≠ some '0' ∧ ∀ c ∈ ds, c.isDigit = true
  | .oct, ds => ∀ c ∈ ds, ('0' ≤ c ∧ c ≤ '7')
  | .hex, ds => ds ≠ [] ∧ ∀ c ∈ ds, isHexDigit c = true
  | .hexUpper, ds => ds ≠ [] ∧ ∀ c ∈ ds, isHexDigit c = true

structure Lit.Wf (l : Lit) : Prop where
  digits : l.radix.Digits l.digits
  suffix : ∀ c ∈ l.suffix, isSuffix c = true

instance : (r : Radix) → DecidablePred r.Digits
  | .dec, ds => @instDecidableAnd _ _ inferInstance
      (@instDecidableAnd _ _ inferInstance (List.decidableBAll (·.isDigit = true) ds))
  | .oct, ds => List.decidableBAll (fun c => '0' ≤ c ∧ c ≤ '7') ds
  | .hex, ds => @instDecidableAnd _ _ inferInstance (List.decidableBAll (isHexDigit · = true) ds)
  | .hexUpper, ds =>
      @instDecidableAnd _ _ inferInstance (List.decidableBAll (isHexDigit · = true) ds)

instance : DecidablePred Lit.Wf := fun l =>
  @decidable_of_iff _ (l.radix.Digits l.digits ∧ ∀ c ∈ l.suffix, isSuffix c = true)
    ⟨fun h => ⟨h.1, h.2⟩, fun h => ⟨h.digits, h.suffix⟩⟩
    (@instDecidableAnd _ _ inferInstance (List.decidableBAll (isSuffix · = true) l.suffix))

def digitVal (c : Char) : ℕ :=
  if c.isDigit then c.toNat - 48 else if 'a' ≤ c then c.toNat - 87 else c.toNat - 55

/-- The number with these digits. -/
def ofDigits (base : ℕ) (ds : List Char) : ℕ := ds.foldl (fun n c => base * n + digitVal c) 0

def Radix.base : Radix → ℕ
  | .dec => 10
  | .oct => 8
  | .hex => 16
  | .hexUpper => 16

def Lit.value (l : Lit) : ℤ := ofDigits l.radix.base l.digits

/-! ### Members -/

/-- `= literal`, with what stands around the sign. -/
structure Init where
  before : List Seg
  after : List Seg
  lit : Lit
deriving DecidableEq, Repr

structure Member where
  name : List Char
  init : Option Init
deriving DecidableEq, Repr

def Init.segs (i : Init) : List Seg :=
  i.before ++ .plain ['='] :: i.after ++ [.plain i.lit.text]

def Member.segs (m : Member) : List Seg := .plain m.name :: (m.init.map Init.segs).getD []

def Member.value (m : Member) : Option ℤ := m.init.map fun i => i.lit.value

/-- An identifier. -/
def Ident (name : List Char) : Prop :=
  name.head?.any isIdentStart = true ∧ ∀ c ∈ name, isIdent c = true

structure Init.Wf (i : Init) : Prop where
  before : ∀ s ∈ i.before, s.Over isBlank
  after : ∀ s ∈ i.after, s.Over isBlank
  lit : i.lit.Wf

structure Member.Wf (m : Member) : Prop where
  name : Ident m.name
  init : ∀ i ∈ m.init, i.Wf

instance : DecidablePred Ident := fun name =>
  @instDecidableAnd _ _ inferInstance (List.decidableBAll (isIdent · = true) name)

instance : DecidablePred Init.Wf := fun _ =>
  decidable_of_iff (_ ∧ _ ∧ _) ⟨fun h => ⟨h.1, h.2.1, h.2.2⟩, fun h => ⟨h.before, h.after, h.lit⟩⟩

instance : DecidablePred Member.Wf := fun _ =>
  decidable_of_iff (_ ∧ _) ⟨fun h => ⟨h.1, h.2⟩, fun h => ⟨h.name, h.init⟩⟩

/-! ### Bodies -/

/-- What is between two commas.  Only the last fragment of an enumeration may have no
member; nothing here depends on that. -/
structure Fragment where
  before : List Gap
  member : Option Member
  after : List Gap
deriving DecidableEq, Repr

def Fragment.segs (f : Fragment) : List Seg :=
  f.before.flatMap Gap.segs ++ (f.member.map Member.segs).getD [] ++ f.after.flatMap Gap.segs

structure Fragment.Wf (f : Fragment) : Prop where
  segs : ∀ s ∈ f.segs, s.Wf
  before : ∀ g ∈ f.before, g.Wf
  after : ∀ g ∈ f.after, g.Wf
  placed_before : Placed false f.before
  placed_after : Placed false f.after
  member : ∀ m ∈ f.member, m.Wf

instance : DecidablePred Fragment.Wf := fun _ =>
  decidable_of_iff (_ ∧ _ ∧ _ ∧ _ ∧ _ ∧ _)
    ⟨fun h => ⟨h.1, h.2.1, h.2.2.1, h.2.2.2.1, h.2.2.2.2.1, h.2.2.2.2.2⟩,
      fun h => ⟨h.segs, h.before, h.after, h.placed_before, h.placed_after, h.member⟩⟩

/-- The text between the braces of an enumeration. -/
structure EnumBody where
  fragments : List Fragment
  fragments_ne : fragments ≠ []
  wf : ∀ f ∈ fragments, f.Wf
  /-- No two members have the same name. -/
  distinct : fragments.Pairwise fun f g =>
    ∀ m ∈ f.member, ∀ m' ∈ g.member, m.name ≠ m'.name

def EnumBody.segs (body : EnumBody) : List Seg :=
  [Seg.plain [',']].intercalate (body.fragments.map Fragment.segs)

def EnumBody.text (body : EnumBody) : List Char := body.segs.flatMap Seg.text

/-- The members, with whether they are inside a conditional, `k` being open at the start. -/
def membersFrom (k : ℕ) : List Fragment → List (Member × Bool)
  | [] => []
  | f :: fs =>
      (f.member.map fun m => (m, decide (depth k f.before ≠ 0))).toList ++
        membersFrom (depth (depth k f.before) f.after) fs

def EnumBody.members (body : EnumBody) : List (Member × Bool) := membersFrom 0 body.fragments

/-- The value of a member without initialiser behind `pre`. -/
def nextValue (pre : List (Member × Bool)) : ℤ := pre.foldl (fun v m => m.1.value.getD v + 1) 0

/-- The value C gives to `m` behind `pre`. -/
def cValue (pre : List (Member × Bool)) (m : Member) : ℤ := m.value.getD (nextValue pre)

end Scripts
end Shannon
