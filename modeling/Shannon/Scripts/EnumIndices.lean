/-
# Numbering the members of an enumeration

`scripts/kernel-flag-abi.py`: `enum_indices` reads the enumerations of a header and gives the
members it is asked for their values; `safe_enum_value` evaluates an initialiser.

The steps are those of the script.  Comments are replaced by a blank, block comments first;
what is left is cut at the commas.  In every piece the lines that start with `#if`, `#endif`
and `#else` are counted, and then the whole piece, squeezed, is read as `NAME` or
`NAME = value`.  A piece that does not read as that is passed over, and so is a member that
was not asked for, without being counted.  A value that cannot be evaluated ends the
enumeration.

`eval` stands for Python's `eval`.  Outside comments the text is ASCII: `\w` and `\d` are
the ASCII letters and digits.
-/

import Mathlib.Data.Int.Notation
import Mathlib.Data.List.DropRight
import Mathlib.Data.List.Sort
import Shannon.Lib.Text

namespace Shannon
namespace Scripts

open Lib

/-! ### Characters -/

/-- `str.isspace` and `\s`. -/
def isSpace (c : Char) : Bool :=
  (9 ≤ c.toNat && c.toNat ≤ 13) || (28 ≤ c.toNat && c.toNat ≤ 32) ||
    (0x2000 ≤ c.toNat && c.toNat ≤ 0x200a) ||
    [0x85, 0xa0, 0x1680, 0x2028, 0x2029, 0x202f, 0x205f, 0x3000].contains c.toNat

/-- Where `str.splitlines` ends a line. -/
def isLineBreak (c : Char) : Bool :=
  (10 ≤ c.toNat && c.toNat ≤ 13) || (28 ≤ c.toNat && c.toNat ≤ 30) ||
    [0x85, 0x2028, 0x2029].contains c.toNat

/-- `[A-Za-z_]`. -/
def isIdentStart (c : Char) : Bool := c.isAlpha || c == '_'

/-- `[A-Za-z0-9_]`, and `\w`. -/
def isIdent (c : Char) : Bool := c.isAlphanum || c == '_'

/-- `[0-9a-fA-F]`. -/
def isHexDigit (c : Char) : Bool :=
  c.isDigit || ('a' ≤ c && c ≤ 'f') || ('A' ≤ c && c ≤ 'F')

/-- `[uUlL]`. -/
def isSuffix (c : Char) : Bool := c == 'u' || c == 'U' || c == 'l' || c == 'L'

/-- `str.strip`. -/
def strip (text : List Char) : List Char := (text.dropWhile isSpace).rdropWhile isSpace

/-- `str.splitlines`. -/
def splitlines : List Char → List (List Char)
  | [] => []
  | c :: text =>
      -- A carriage return and a line feed are one line break.
      if c = '\r' ∧ text.head? = some '\n' then splitlines text
      else if isLineBreak c then [] :: splitlines text
      else
        match splitlines text with
        | [] => [[c]]
        | line :: lines => (c :: line) :: lines

/-! ### Comments -/

/-- The length of the text up to and with the first `*/`. -/
def closing : List Char → Option ℕ
  | [] => none
  | c :: text =>
      if c = '*' ∧ text.head? = some '/' then some 2 else (closing text).map (· + 1)

/-- `/\*.*?\*/`, replaced by a blank. -/
def blockComment (_ : Option Char) : List Char → Option (ℕ × List Char)
  | '/' :: '*' :: text => (closing text).map fun n => (n + 2, [' '])
  | _ => none

/-- `//[^\n]*`, replaced by a blank. -/
def lineComment (_ : Option Char) : List Char → Option (ℕ × List Char)
  | '/' :: '/' :: text => some ((text.takeWhile (· ≠ '\n')).length + 2, [' '])
  | _ => none

/-- The two substitutions at the start. -/
def stripComments (text : List Char) : List Char :=
  sub lineComment none (sub blockComment none text)

/-! ### Values -/

/-- `\b` before a word. -/
def wordStart (before : Option Char) : Bool := !before.any isIdent

/-- `\b` behind a word. -/
def wordEnd (text : List Char) : Bool := !text.head?.any isIdent

/-- `\bBIT\s*\(\s*(\d+)\s*\)`, replaced by `(1<<\1)`. -/
def bitMacro (before : Option Char) : List Char → Option (ℕ × List Char)
  | 'B' :: 'I' :: 'T' :: text =>
      match text.dropWhile isSpace with
      | '(' :: inner =>
          let digits := (inner.dropWhile isSpace).takeWhile Char.isDigit
          match ((inner.dropWhile isSpace).dropWhile Char.isDigit).dropWhile isSpace with
          | ')' :: rest =>
              if wordStart before && !digits.isEmpty then
                some (text.length + 3 - rest.length,
                  ['(', '1', '<', '<'] ++ digits ++ [')'])
              else none
          | _ => none
      | _ => none
  | _ => none

/-- A name already numbered, replaced by its number in brackets. -/
def knownName (name : List Char) (v : ℤ) (before : Option Char) (text : List Char) :
    Option (ℕ × List Char) :=
  if wordStart before && name.isPrefixOf text && wordEnd (text.drop name.length) then
    some (name.length, '(' :: (toString v).toList ++ [')'])
  else none

/-- `\b(0x[0-9a-fA-F]+)[uUlL]+\b`, replaced by `\1`. -/
def hexSuffix (before : Option Char) : List Char → Option (ℕ × List Char)
  | '0' :: 'x' :: text =>
      let digits := text.takeWhile isHexDigit
      let suffix := (text.dropWhile isHexDigit).takeWhile isSuffix
      if wordStart before && !digits.isEmpty && !suffix.isEmpty &&
          wordEnd ((text.dropWhile isHexDigit).dropWhile isSuffix) then
        some (digits.length + suffix.length + 2, '0' :: 'x' :: digits)
      else none
  | _ => none

/-- `[0-9a-fA-Fx<>|&+\-()\s]`. -/
def isExprChar (c : Char) : Bool :=
  isHexDigit c || ['x', '<', '>', '|', '&', '+', '-', '(', ')'].contains c || isSpace c

/-- `safe_enum_value`.  The names are substituted by length, the longest first. -/
def safeEnumValue (eval : List Char → Option ℤ) (expr : List Char) (known : List (List Char × ℤ)) :
    Option ℤ :=
  let e := strip (expr.rdropWhile (· = ','))
  let e := sub bitMacro none e
  let e := (known.insertionSort fun p q => q.1.length ≤ p.1.length).foldl
    (fun e p => sub (knownName p.1 p.2) none e) e
  let e := sub hexSuffix none e
  if e.all isExprChar then eval e else none

/-! ### Enumerations -/

/-- The result: the numbers, and the members found inside a conditional. -/
structure Indices where
  out : List (List Char × ℤ)
  conditionals : List (List Char)
deriving DecidableEq, Repr

/-- Assignment to a key of a Python `dict`, which keeps the place of a key it has. -/
def setItem : List (List Char × ℤ) → List Char → ℤ → List (List Char × ℤ)
  | [], name, v => [(name, v)]
  | p :: out, name, v => if p.1 = name then (name, v) :: out else p :: setItem out name v

/-- A member is numbered, and listed if it is found inside a conditional. -/
def Indices.record (r : Indices) (name : List Char) (v : ℤ) (conditional : Bool) : Indices :=
  ⟨setItem r.out name v, if conditional then r.conditionals ++ [name] else r.conditionals⟩

/-- `in_if` after a line. -/
def ifLine (inIf : ℕ) (line : List Char) : ℕ :=
  match strip line with
  | '#' :: text =>
      let text := text.dropWhile isSpace
      if ['i', 'f'].isPrefixOf text then inIf + 1
      else if ['e', 'n', 'd', 'i', 'f'].isPrefixOf text || ['e', 'l', 's', 'e'].isPrefixOf text then
        inIf - 1
      else inIf
  | _ => inIf

/-- `^([A-Za-z_][A-Za-z0-9_]*)(?:\s*=\s*(.+))?$` on an item, which does not end with a blank.
An item that is empty or starts with `#` does not match. -/
def parseItem (item : List Char) : Option (List Char × Option (List Char)) :=
  if item.head?.any isIdentStart then
    let name := item.takeWhile isIdent
    match item.dropWhile isIdent with
    | [] => some (name, none)
    | rest =>
        match rest.dropWhile isSpace with
        | '=' :: init =>
            let init := init.dropWhile isSpace
            if init = [] then none else some (name, some init)
        | _ => none
  else none

/-- The loop over the pieces of an enumeration, from the number `n` on. -/
def enumLoop (eval : List Char → Option ℤ) (names : List Char → Bool) :
    List (List Char) → ℤ → ℕ → Indices → Indices
  | [], _, _, r => r
  | raw :: raws, n, inIf, r =>
      let inIf := (splitlines raw).foldl ifLine inIf
      match parseItem (squeeze isSpace ' ' raw) with
      | none => enumLoop eval names raws n inIf r
      | some (name, init) =>
          if names name then
            match init.elim (some n) fun e => safeEnumValue eval (strip e) r.out with
            | none => r
            | some v => enumLoop eval names raws (v + 1) inIf (r.record name v (inIf ≠ 0))
          else enumLoop eval names raws n inIf r

/-- What is behind `\s*(?:[A-Za-z_][A-Za-z0-9_]*\s*)?`. -/
def enumHead (text : List Char) : List Char :=
  let head := text.dropWhile isSpace
  if head.head?.any isIdentStart then (head.dropWhile isIdent).dropWhile isSpace else head

/-- `enum\s*(?:[A-Za-z_][A-Za-z0-9_]*\s*)?\{(.*?)\}`, with its group. -/
def enumPattern (_ : Option Char) : List Char → Option (ℕ × List Char)
  | 'e' :: 'n' :: 'u' :: 'm' :: text =>
      match enumHead text with
      | '{' :: rest =>
          if '}' ∈ rest then
            let body := rest.takeWhile (· ≠ '}')
            some (text.length + 4 - rest.length + body.length + 1, body)
          else none
      | _ => none
  | _ => none

/-- `enum_indices`. -/
def enumIndices (eval : List Char → Option ℤ) (text : List Char) (names : List Char → Bool) :
    Indices :=
  (findAll enumPattern text).foldl
    (fun r body => enumLoop eval names ((stripComments body).splitOn ',') 0 0 r) ⟨[], []⟩

end Scripts
end Shannon
