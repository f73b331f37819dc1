import JsonEdit.Pattern.Basic
import JsonEdit.Pattern.Limits

/-!
# Compiling patterns

A pattern text is read from left to right. A `$` at its start marks the root and may be left out;
`.` separates segments and `..` makes the next one descend; brackets hold a segment in which dots
are ordinary; `*` stands for any characters of one key; a backslash makes the next character
ordinary. Empty segments at separators are dropped.

* `symbols`: a text as symbols with their positions;
* `Assembly`: the segments built so far and what is still open, one symbol at a time (`step`);
* `KeyMatcher.ofPieces`: the test that the pieces of one segment stand for;
* `Pattern.compile`: a text to a pattern, within limits.
-/

namespace JsonEdit

/-! ## Symbols -/

/-- What a character, or a backslash with its character, stands for. -/
inductive Symbol
  /-- An ordinary character. -/
  | char (c : Char)
  | star
  | dot
  | openBracket
  | closeBracket
  /-- A backslash with nothing after it. -/
  | loneEscape
deriving DecidableEq, Repr

/-- What a character stands for without a backslash. -/
def Symbol.ofChar (c : Char) : Symbol :=
  if c = '*' then .star
  else if c = '.' then .dot
  else if c = '[' then .openBracket
  else if c = ']' then .closeBracket
  else .char c

/-- The symbols of a text whose first character has the given position. -/
def symbolsFrom : Nat → List Char → List (Nat × Symbol)
  | _, [] => []
  | position, ['\\'] => [(position, .loneEscape)]
  | position, '\\' :: c :: rest => (position, .char c) :: symbolsFrom (position + 2) rest
  | position, c :: rest => (position, .ofChar c) :: symbolsFrom (position + 1) rest

/-- The symbols of a pattern text; a `$` at its start is none. -/
def symbols : List Char → List (Nat × Symbol)
  | '$' :: rest => symbolsFrom 1 rest
  | text => symbolsFrom 0 text

/-! ## The pieces of a segment -/

/-- A piece of a segment. -/
inductive Piece
  | char (c : Char)
  | star
deriving DecidableEq, Repr

namespace Piece

/-- The character of a piece that has one. -/
def char? : Piece → Option Char
  | .char c => some c
  | .star => none

/-- The texts between the stars; stars in a row count as one. -/
def parts : List Piece → List (List Char)
  | [] => [[]]
  | .star :: .star :: pieces => parts (.star :: pieces)
  | .star :: pieces => [] :: parts pieces
  | .char c :: pieces =>
    match parts pieces with
    | [] => [[c]]
    | part :: rest => (c :: part) :: rest

end Piece

/-- The test that the pieces of a segment stand for. -/
def KeyMatcher.ofPieces (pieces : List Piece) : KeyMatcher :=
  if pieces.contains .star then
    let parts := Piece.parts pieces
    if parts.all List.isEmpty then .any else .glob (parts.map String.ofList)
  else .literal (String.ofList (pieces.filterMap Piece.char?))

/-! ## Assembling segments -/

/-- The segments built so far, last first, and what is still open. -/
structure Assembly where
  segments : List Segment
  /-- The pieces of the segment being read, last first. -/
  pieces : List Piece
  /-- Whether the next segment descends. -/
  descend : Bool
  /-- How many dots were just read. -/
  dots : Nat
  /-- The position of the bracket that is open. -/
  bracket : Option Nat
deriving DecidableEq, Repr

namespace Assembly

/-- Nothing read yet. -/
def start : Assembly := ⟨[], [], false, 0, none⟩

/-- Ends the segment being read, if it has any pieces. -/
def finishSegment (a : Assembly) : Assembly :=
  if a.pieces.isEmpty then a
  else { a with
    segments := ⟨a.descend, .ofPieces a.pieces.reverse⟩ :: a.segments
    pieces := []
    descend := false }

/-- Adds a piece to the segment being read. -/
def addPiece (a : Assembly) (piece : Piece) : Assembly :=
  { a with pieces := piece :: a.pieces, dots := 0 }

/-- A separating dot: the second in a row makes the next segment descend. -/
def separate (a : Assembly) (position : Nat) : Except PatternFault Assembly :=
  let a := a.finishSegment
  match a.dots with
  | 0 => .ok { a with dots := 1 }
  | 1 => .ok { a with dots := 2, descend := true }
  | _ => .error (.invalidDescent position)

/-- Reads one symbol. -/
def step (a : Assembly) : Nat × Symbol → Except PatternFault Assembly
  | (_, .char c) => .ok (a.addPiece (.char c))
  | (_, .star) => .ok (a.addPiece .star)
  | (_, .loneEscape) => .error .danglingEscape
  | (position, .openBracket) =>
    match a.bracket with
    | some _ => .error (.nestedBracket position)
    | none => .ok { a.finishSegment with bracket := some position, dots := 0 }
  | (position, .closeBracket) =>
    match a.bracket with
    | none => .error (.unexpectedCloseBracket position)
    | some opened =>
      if a.pieces.isEmpty then .error (.emptyBracket opened)
      else .ok { a.finishSegment with bracket := none, dots := 0 }
  | (position, .dot) =>
    match a.bracket with
    | some _ => .ok { a with pieces := .char '.' :: a.pieces }
    | none => a.separate position

/-- Reads symbols up to the first fault. -/
def steps : Assembly → List (Nat × Symbol) → Except PatternFault Assembly
  | a, [] => .ok a
  | a, symbol :: rest =>
    match a.step symbol with
    | .ok a => a.steps rest
    | .error fault => .error fault

/-- All segments, once the text has ended. -/
def finish (a : Assembly) : Except PatternFault (List Segment) :=
  match a.bracket with
  | some opened => .error (.unclosedBracket opened)
  | none => .ok a.finishSegment.segments.reverse

end Assembly

/-- The segments of a pattern text. -/
def compileChars (text : List Char) : Except PatternFault (List Segment) :=
  match Assembly.start.steps (symbols text) with
  | .ok a => a.finish
  | .error fault => .error fault

namespace Pattern

/-- Compiles a text within limits: its length is checked first, then the text itself, then the
number of segments. -/
def compile (limits : PatternLimits) (text : String) : Except PatternError Pattern :=
  if text.length > limits.maxLength then
    .error (.patternTooLong text.length limits.maxLength)
  else
    match compileChars text.toList with
    | .error fault => .error (.malformed fault text)
    | .ok segments =>
      if segments.length > limits.maxSegments then
        .error (.tooManySegments text segments.length limits.maxSegments)
      else .ok ⟨text, segments⟩

end Pattern

end JsonEdit
