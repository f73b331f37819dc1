/-!
# Numbers

A number is kept as the text it was written with, so that no digit is lost. The texts are those of
JSON: an optional minus, an integer without leading zeros, an optional fraction, an optional
exponent.

* `NumberState`: how far a number text has been read, one character at a time;
* `Number`: a complete number text;
* `Number.normal`: `-0` is the same number as `0` and becomes it.
-/

namespace JsonEdit

/-- How far a number text has been read. -/
inductive NumberState
  | start
  | minus
  /-- The integer is `0`, which no digit may follow. -/
  | zero
  | integer
  | point
  | fraction
  | exponentMark
  | exponentSign
  | exponent
deriving DecidableEq, Repr

namespace NumberState

/-- Whether the character is a digit from 1 to 9. -/
def isNonzeroDigit (c : Char) : Bool := '1' ≤ c && c ≤ '9'

/-- Whether the character starts an exponent. -/
def isExponentMark (c : Char) : Bool := c == 'e' || c == 'E'

/-- Reads one more character, if a number text can go on with it. -/
def step : NumberState → Char → Option NumberState
  | .start, c =>
    if c = '-' then some .minus
    else if c = '0' then some .zero
    else if isNonzeroDigit c then some .integer
    else none
  | .minus, c =>
    if c = '0' then some .zero
    else if isNonzeroDigit c then some .integer
    else none
  | .zero, c =>
    if c = '.' then some .point
    else if isExponentMark c then some .exponentMark
    else none
  | .integer, c =>
    if c.isDigit then some .integer
    else if c = '.' then some .point
    else if isExponentMark c then some .exponentMark
    else none
  | .point, c => if c.isDigit then some .fraction else none
  | .fraction, c =>
    if c.isDigit then some .fraction
    else if isExponentMark c then some .exponentMark
    else none
  | .exponentMark, c =>
    if c = '+' || c = '-' then some .exponentSign
    else if c.isDigit then some .exponent
    else none
  | .exponentSign, c => if c.isDigit then some .exponent else none
  | .exponent, c => if c.isDigit then some .exponent else none

/-- The text read so far is a whole number text. -/
def complete : NumberState → Bool
  | .zero | .integer | .fraction | .exponent => true
  | _ => false

/-- Reads characters in turn. -/
def run (state : NumberState) (text : List Char) : Option NumberState :=
  text.foldlM step state

theorem run_concat {state state' : NumberState} {text : List Char}
    (h : state.run text = some state') (c : Char) : state.run (text ++ [c]) = state'.step c := by
  simp [run, List.foldlM_append] at h ⊢
  simp [h]

end NumberState

/-- The characters are those of a whole number text. -/
def isNumberText (text : List Char) : Bool :=
  match NumberState.start.run text with
  | some state => state.complete
  | none => false

/-- A number, as its text. -/
structure Number where
  chars : List Char
  isText : isNumberText chars = true
deriving DecidableEq, Repr

namespace Number

/-- The number with the given text. -/
def ofChars? (text : List Char) : Option Number :=
  if h : isNumberText text = true then some ⟨text, h⟩ else none

/-- The number zero. -/
def zero : Number := ⟨['0'], rfl⟩

/-- The integers of 64 bits with a sign. -/
def inWord (i : Int) : Bool := -9223372036854775808 ≤ i && i ≤ 9223372036854775807

/-- An integer in decimal digits. -/
def ofInt (i : Int) : Number := (ofChars? (toString i).toList).getD zero

/-- The text of a number. -/
def text (n : Number) : String := String.ofList n.chars

/-- Minus zero, written without fraction and exponent, becomes zero. -/
def normal (n : Number) : Number := if n.chars = ['-', '0'] then zero else n

/-- The integer that a number text without fraction and exponent stands for. -/
def toInt? (n : Number) : Option Int :=
  match n.chars with
  | '-' :: digits => (natOf? digits).map fun k => -Int.ofNat k
  | digits => (natOf? digits).map Int.ofNat
where
  /-- The number written by a non-empty run of digits. -/
  natOf? (digits : List Char) : Option Nat :=
    if !digits.isEmpty && digits.all Char.isDigit then
      some (digits.foldl (fun k c => 10 * k + (c.toNat - '0'.toNat)) 0)
    else none

end Number

end JsonEdit
