import JsonEdit.Scanner.Position

/-!
# Why a text cannot be read

* `ScanFault`: what is wrong in a text;
* `ScanError`: a fault, a failure of the reader, or nesting that goes too deep, each with its place;
* `ScanError.message`: the wording.
-/

namespace JsonEdit

/-- What is wrong in a text. -/
inductive ScanFault
  /-- The text ends too early. -/
  | incompleteDocument
  /-- Something follows the document. -/
  | trailingData
  | commentsNotEnabled
  | unexpectedComma
  | missingComma
  /-- A comma stands before a closing bracket. -/
  | trailingComma
  | unexpectedColon
  | missingColon
  | expectingNameOrObjectEnd
  | unexpectedClosingBracket
  /-- No value starts like this. -/
  | malformedJson
  | invalidLiteral
  | trailingDataAfterLiteral
  | malformedNumber
  | trailingDataAfterNumber
  | unescapedControlCharacter
  | unknownEscape
  | malformedEscape
  /-- One half of a surrogate pair stands alone. -/
  | unpairedSurrogate
deriving DecidableEq, Repr

/-- The name of a fault. -/
def ScanFault.name : ScanFault → String
  | .incompleteDocument => "IncompleteDocument"
  | .trailingData => "TrailingData"
  | .commentsNotEnabled => "CommentsNotEnabled"
  | .unexpectedComma => "UnexpectedComma"
  | .missingComma => "MissingComma"
  | .trailingComma => "TrailingCommaNotEnabled"
  | .unexpectedColon => "UnexpectedColon"
  | .missingColon => "MissingColon"
  | .expectingNameOrObjectEnd => "ExpectingMemberNameOrObjectEnd"
  | .unexpectedClosingBracket => "UnexpectedClosingBracket"
  | .malformedJson => "MalformedJson"
  | .invalidLiteral => "InvalidLiteral"
  | .trailingDataAfterLiteral => "TrailingDataAfterLiteral"
  | .malformedNumber => "MalformedNumber"
  | .trailingDataAfterNumber => "TrailingDataAfterNumber"
  | .unescapedControlCharacter => "NotEscapedControlCharacter"
  | .unknownEscape => "UnknownEscapeSequence"
  | .malformedEscape => "MalformedEscapeSequence"
  | .unpairedSurrogate => "UnpairedSurrogatePairEscapeSequence"

/-- Why a text cannot be read, and where. -/
inductive ScanError
  | malformed (fault : ScanFault) (place : Position)
  /-- The bytes cannot be had, or are no characters. -/
  | input (reason : String) (place : Position)
  /-- More containers than allowed are open. -/
  | tooDeep (maxNesting : Nat) (place : Position)
deriving DecidableEq, Repr

/-- The wording of an error. -/
def ScanError.message : ScanError → String
  | .malformed fault place =>
    s!"syntax error: JSON syntax error {fault.name} at {place.message}"
  | .input reason place => s!"IO error '{reason}' at (roughly) {place.message}"
  | .tooDeep maxNesting place => s!"maximum nesting depth {maxNesting} exceeded at {place.message}"

end JsonEdit
