import JsonEdit.Text.DecimalDigit

/-!
# Regular expressions

The expressions that paths are tested against: characters and sets of them, both ends of the text,
sequences, choices and repetition.

* `CharSet`: a set of characters;
* `Expr`: the expressions;
* `Regex`: an expression with the text it was written as.
-/

namespace JsonEdit

/-- How two sets of characters are combined. -/
inductive SetOp
  /-- The characters of either set. -/
  | union
  /-- The characters of both sets. -/
  | inter
  /-- The characters of the first set that are not in the second. -/
  | diff
  /-- The characters of exactly one of the sets. -/
  | symmDiff
deriving DecidableEq, Repr

/-- Whether a character is in the combination of two sets, by whether it is in each of them. -/
def SetOp.holds : SetOp → Bool → Bool → Bool
  | .union, a, b => a || b
  | .inter, a, b => a && b
  | .diff, a, b => a && !b
  | .symmDiff, a, b => a != b

/-- A set of characters. -/
inductive CharSet
  /-- No character. -/
  | empty
  /-- The characters from the first to the last. -/
  | range (first last : Char)
  /-- The decimal digits of all scripts. -/
  | digit
  /-- All characters that are not in a set. -/
  | other (set : CharSet)
  /-- Two sets combined. -/
  | combine (op : SetOp) (left right : CharSet)
deriving DecidableEq, Repr

namespace CharSet

/-- Whether a character is in the set. -/
def contains : CharSet → Char → Bool
  | .empty, _ => false
  | .range first last, c => first ≤ c && c ≤ last
  | .digit, c => isDecimalDigit c
  | .other set, c => !set.contains c
  | .combine op left right, c => op.holds (left.contains c) (right.contains c)

/-- The set of one character. -/
def single (c : Char) : CharSet := .range c c

/-- All characters but the line feed. -/
def visible : CharSet := .other (.single '\n')

end CharSet

/-- A regular expression. -/
inductive Expr
  /-- The empty text. -/
  | empty
  /-- One character of a set. -/
  | chars (set : CharSet)
  /-- The start of the whole text. -/
  | atStart
  /-- The end of the whole text. -/
  | atEnd
  /-- One expression after the other. -/
  | seq (first second : Expr)
  /-- One expression or the other. -/
  | alt (first second : Expr)
  /-- Any number of times. -/
  | star (body : Expr)
deriving DecidableEq, Repr

/-- A regular expression as it was written. -/
structure Regex where
  source : String
  expr : Expr
deriving DecidableEq, Repr

end JsonEdit
