/-!
# Positions in a text

Lines, columns and bytes count from 0; a column is a number of characters. A line ends at a line
feed, at a carriage return, or at both in a row.

* `Position.blank`: the position after a blank;
* `Position.skip`, `Position.char`: after ASCII characters, and after any character.
-/

namespace JsonEdit

/-- A place in a text. -/
structure Position where
  line : Nat
  column : Nat
  /-- The bytes before it. -/
  offset : Nat
  /-- The character before it is a carriage return. -/
  afterReturn : Bool
deriving DecidableEq, Repr

namespace Position

/-- The start of the text. -/
def start : Position := ⟨0, 0, 0, false⟩

/-- After `n` characters of one byte each, none of which ends a line. -/
def skip (p : Position) (n : Nat) : Position := ⟨p.line, p.column + n, p.offset + n, false⟩

/-- After a character of `n` bytes that does not end a line. -/
def char (p : Position) (n : Nat) : Position := ⟨p.line, p.column + 1, p.offset + n, false⟩

/-- After a blank. -/
def blank (p : Position) (c : Char) : Position :=
  if c = '\r' then ⟨p.line + 1, 0, p.offset + 1, true⟩
  else if c = '\n' then
    if p.afterReturn then ⟨p.line, 0, p.offset + 1, false⟩
    else ⟨p.line + 1, 0, p.offset + 1, false⟩
  else p.skip 1

/-- The wording of a position. -/
def message (p : Position) : String :=
  s!"line {p.line}, column {p.column} (data pos {p.offset})"

end Position

end JsonEdit
