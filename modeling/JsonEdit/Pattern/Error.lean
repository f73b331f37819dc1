/-!
# Pattern errors

Why a text is not a pattern. Positions count characters from the start of the text.

* `PatternFault`: what is wrong inside a text, and where;
* `PatternError`: a fault with its text, or a limit that is passed;
* `PatternError.message`: the wording.
-/

namespace JsonEdit

/-- What is wrong inside a pattern text, and at which character. -/
inductive PatternFault
  /-- A bracket is never closed. -/
  | unclosedBracket (position : Nat)
  /-- A closing bracket has no opening one. -/
  | unexpectedCloseBracket (position : Nat)
  /-- A bracket opens inside a bracket. -/
  | nestedBracket (position : Nat)
  /-- A bracket pair holds nothing. -/
  | emptyBracket (position : Nat)
  /-- Three dots stand in a row. -/
  | invalidDescent (position : Nat)
  /-- The text ends in a lone backslash. -/
  | danglingEscape
deriving DecidableEq, Repr

/-- Why a text is not accepted as a pattern. -/
inductive PatternError
  | malformed (fault : PatternFault) (pattern : String)
  | patternTooLong (length maxLength : Nat)
  | tooManySegments (pattern : String) (segments maxSegments : Nat)
  /-- The length limit itself is above what may be asked for. -/
  | lengthLimitTooLarge (asked hard : Nat)
  /-- The segment limit itself is above what may be asked for. -/
  | segmentLimitTooLarge (asked hard : Nat)
deriving DecidableEq, Repr

/-- The wording of a fault in a text. -/
def PatternFault.message (pattern : String) : PatternFault → String
  | .unclosedBracket position => s!"Unclosed '[' at position {position} in pattern '{pattern}'"
  | .unexpectedCloseBracket position =>
    s!"Unexpected ']' at position {position} in pattern '{pattern}'"
  | .nestedBracket position =>
    s!"Nested '[' at position {position} in pattern '{pattern}'. " ++
      "Escape it as '\\[' to match a literal bracket."
  | .emptyBracket position =>
    s!"Empty bracket segment at position {position} in pattern '{pattern}'"
  | .invalidDescent position =>
    s!"Invalid recursive descent at position {position} in pattern '{pattern}'. " ++
      "Use '..' for recursive descent and '.' to separate segments."
  | .danglingEscape => s!"Incomplete escape sequence at end of pattern '{pattern}'"

/-- The wording of a pattern error. -/
def PatternError.message : PatternError → String
  | .malformed fault pattern => fault.message pattern
  | .patternTooLong length maxLength =>
    s!"Pattern too long: {length} characters (max: {maxLength})"
  | .tooManySegments pattern segments maxSegments =>
    s!"Pattern '{pattern}' has {segments} segments (max: {maxSegments})"
  | .lengthLimitTooLarge asked hard =>
    s!"Configuration exceeds hard limits: max_pattern_length {asked} exceeds hard limit {hard}"
  | .segmentLimitTooLarge asked hard =>
    s!"Configuration exceeds hard limits: max_segments {asked} exceeds hard limit {hard}"

end JsonEdit
