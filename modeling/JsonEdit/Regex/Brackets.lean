import JsonEdit.Regex.Named
import JsonEdit.Regex.Token

/-!
# Sets in brackets

A set is written as its members in brackets: characters, ranges, escapes, sets in brackets and
named sets. A `^` in front stands for all others. Hyphens in front of the members are ordinary, and
so is a closing bracket that comes first; none of these starts a range. `&&`, `--` and `~~` combine
what stands on their two sides, the left one first; a side may be empty.

* `Regex.OpenSet`: a set whose end has not been read;
* `Regex.readSets`: replaces sets in brackets by one token each.
-/

namespace JsonEdit.Regex

/-- What stands before the next token of a set. -/
inductive SetPlace
  /-- The bracket that opens the set. -/
  | start
  /-- Hyphens behind that bracket. -/
  | hyphens
  /-- Part of the name of a named set. -/
  | name
  /-- Anything else. -/
  | inside
deriving DecidableEq, Repr

/-- A set being read. -/
structure OpenSet where
  negated : Bool
  place : SetPlace
  /-- What stands before the last operation, and the operation. -/
  left : Option (CharSet × SetOp)
  /-- What has been read behind it. -/
  members : CharSet
deriving DecidableEq, Repr

namespace OpenSet

/-- Nothing read yet. -/
def new (negated : Bool) : OpenSet := ⟨negated, .start, none, .empty⟩

/-- A named set whose name is being read. -/
def named (set : CharSet) : OpenSet := ⟨false, .name, none, set⟩

/-- Adds the characters of a set. -/
def add (s : OpenSet) (set : CharSet) : OpenSet :=
  { s with place := .inside, members := .combine .union s.members set }

/-- Adds a hyphen in front of the members. -/
def addHyphen (s : OpenSet) : OpenSet := { s.add (.single '-') with place := .hyphens }

/-- What has been read, combined. -/
def combined (s : OpenSet) : CharSet :=
  match s.left with
  | none => s.members
  | some (left, op) => .combine op left s.members

/-- Goes on behind an operation. -/
def operate (s : OpenSet) (op : SetOp) : OpenSet :=
  { s with place := .inside, left := some (s.combined, op), members := .empty }

/-- The whole set. -/
def set (s : OpenSet) : CharSet := if s.negated then .other s.combined else s.combined

end OpenSet

/-- The range between two tokens. -/
def rangeOf? (first last : Token) : Option CharSet :=
  match first.char?, last.char? with
  | some a, some b => if a ≤ b then some (.range a b) else none
  | _, _ => none

/-- Replaces each set in brackets by one token. The innermost set that is open comes first. -/
def readSets : List OpenSet → List Token → Option (List Token)
  | [], [] => some []
  | _ :: _, [] => none
  | [], .sign '[' :: .sign '^' :: rest => readSets [.new true] rest
  | [], .sign '[' :: rest => readSets [.new false] rest
  | [], t :: rest => (readSets [] rest).map fun rest => t :: rest
  | s :: outer, t :: rest =>
    match s.place, t, rest with
    | .start, .sign '-', rest => readSets (s.addHyphen :: outer) rest
    | .hyphens, .sign '-', rest => readSets (s.addHyphen :: outer) rest
    | .start, .sign ']', rest => readSets (s.add (.single ']') :: outer) rest
    | _, .sign ']', rest =>
      match outer with
      | [] => (readSets [] rest).map fun rest => .chars s.set :: rest
      | parent :: outer => readSets (parent.add s.set :: outer) rest
    | .name, _, rest => readSets (s :: outer) rest
    | _, .sign '[', .sign '^' :: rest => readSets (.new true :: s :: outer) rest
    | _, .sign '[', rest =>
      match CharSet.named? (Token.signs rest) with
      | some set => readSets (.named set :: s :: outer) rest
      | none => readSets (.new false :: s :: outer) rest
    | _, .sign '&', .sign '&' :: rest => readSets (s.operate .inter :: outer) rest
    | _, .sign '-', .sign '-' :: rest => readSets (s.operate .diff :: outer) rest
    | _, .sign '~', .sign '~' :: rest => readSets (s.operate .symmDiff :: outer) rest
    | _, t, .sign '-' :: .sign ']' :: rest =>
      readSets (s.add t.set :: outer) (.sign '-' :: .sign ']' :: rest)
    | _, t, .sign '-' :: .sign '-' :: rest =>
      readSets (s.add t.set :: outer) (.sign '-' :: .sign '-' :: rest)
    | _, t, .sign '-' :: last :: rest =>
      (rangeOf? t last).bind fun set => readSets (s.add set :: outer) rest
    | _, t, rest => readSets (s.add t.set :: outer) rest

end JsonEdit.Regex
