import JsonEdit.Decimal.Shortest
import JsonEdit.Json.Basic
import JsonEdit.Toml.Token

/-!
# Numbers in TOML

Integers of 64 bits with a sign, in decimal or, behind `0x`, `0o` or `0b`, in another base, and
numbers of double precision. Underscores may stand between digits. What is not finite is no JSON
number and becomes null.

* `splitDigits?`: the digits at the start of a word;
* `word?`: the value of a bare word, with the tokens of a number after it.
-/

namespace JsonEdit.Toml

/-- The value of a digit, if the base has it. -/
def digitValue? (base : Nat) (c : Char) : Option Nat :=
  let value :=
    if c.isDigit then some (c.toNat - 48)
    else if 'a' ≤ c && c ≤ 'z' then some (c.toNat - 87)
    else if 'A' ≤ c && c ≤ 'Z' then some (c.toNat - 55)
    else none
  value.filter (· < base)

/-- What has been read of the digits of a number. -/
structure DigitsState where
  /-- Nothing has been read. -/
  first : Bool
  firstZero : Bool
  /-- The last character is an underscore. -/
  underscore : Bool

/-- Reads digits and single underscores between them. -/
def readDigits? (base : Nat) (leadingZeros : Bool) :
    DigitsState → List Char → Option (List Char × List Char)
  | s, [] => if s.first || s.underscore then none else some ([], [])
  | s, c :: rest =>
    if c = '0' && s.first then
      (readDigits? base leadingZeros ⟨false, true, s.underscore⟩ rest).map fun (digits, rest) =>
        (c :: digits, rest)
    else if (digitValue? base c).isSome then
      if !s.first && s.firstZero && !leadingZeros then none
      else
        (readDigits? base leadingZeros ⟨false, s.firstZero, false⟩ rest).map fun (digits, rest) =>
          (c :: digits, rest)
    else if c = '_' && s.first then none
    else if c = '_' && !s.underscore then
      readDigits? base leadingZeros { s with underscore := true } rest
    else if s.first || s.underscore then none
    else some ([], c :: rest)

/-- The sign of a number, whether it is negative, and the rest. -/
def splitSign (text : List Char) : Bool × List Char :=
  match text with
  | '-' :: rest => (true, rest)
  | '+' :: rest => (false, rest)
  | _ => (false, text)

/-- The digits at the start of a text, without underscores, and what follows them. -/
def splitDigits? (base : Nat) (leadingZeros : Bool) (text : List Char) :
    Option (List Char × List Char) :=
  readDigits? base leadingZeros ⟨true, false, false⟩ text

/-- The number that digits stand for. -/
def natOf (base : Nat) (digits : List Char) : Nat :=
  digits.foldl (fun n c => n * base + (digitValue? base c).getD 0) 0

/-- An integer of 64 bits. -/
def integer? (negative : Bool) (n : Nat) : Option Json :=
  let i : Int := if negative then -(n : Int) else n
  if Number.inWord i then some (.num (Number.ofInt i)) else none

/-- An integer in another base, which has no sign. -/
def basedInteger? (base : Nat) (text : List Char) : Option Json :=
  match splitDigits? base true text with
  | some (digits, []) => integer? false (natOf base digits)
  | _ => none

/-- A decimal integer. -/
def decimalInteger? (text : List Char) : Option Json :=
  let (negative, text) := splitSign text
  match splitDigits? 10 false text with
  | some (digits, []) => integer? negative (natOf 10 digits)
  | _ => none

/-- The exponent of a number: what is left of a word after its digits, and the tokens after it. -/
def exponent? (rest : List Char) (tokens : List Token) : Option (Int × List Token) :=
  let signed (text : List Char) : Option Int :=
    let (negative, text) := splitSign text
    match splitDigits? 10 true text with
    | some (digits, []) => some (if negative then -(natOf 10 digits : Int) else natOf 10 digits)
    | _ => none
  match rest with
  | [] => some (0, tokens)
  | mark :: rest =>
    if mark ≠ 'e' && mark ≠ 'E' then none
    else if !rest.isEmpty then (signed rest).map (·, tokens)
    else
      let tokens := match tokens with
        | .plus :: tokens => tokens
        | _ => tokens
      match tokens with
      | .word text :: tokens =>
        match splitDigits? 10 true text with
        | some (digits, []) => some ((natOf 10 digits : Int), tokens)
        | _ => none
      | _ => none

/-- A number of double precision: its first word, the word after the point, and the tokens after
them. -/
def float? (word : List Char) (fraction : Option (List Char)) (tokens : List Token) :
    Option (Json × List Token) := do
  let (negative, text) := splitSign word
  let (whole, rest) ← splitDigits? 10 false text
  let (part, rest) ← match fraction with
    | none => some ([], rest)
    | some fraction => if rest.isEmpty then splitDigits? 10 true fraction else none
  let (power, tokens) ← exponent? rest tokens
  let d ← Double.ofDecimal? (natOf 10 (whole ++ part)) (power - part.length)
  return (.num (d.toNumber negative), tokens)

/-- A number that starts with a word. -/
def number? (word : List Char) (tokens : List Token) : Option (Json × List Token) :=
  match word with
  | '0' :: 'x' :: text => (basedInteger? 16 text).map (·, tokens)
  | '0' :: 'o' :: text => (basedInteger? 8 text).map (·, tokens)
  | '0' :: 'b' :: text => (basedInteger? 2 text).map (·, tokens)
  | _ =>
    if word.contains 'e' || word.contains 'E' then float? word none tokens
    else
      match tokens with
      | .period :: .word fraction :: tokens => float? word (some fraction) tokens
      | .period :: _ => none
      | _ =>
        if (splitSign word).2 ∈ [['i', 'n', 'f'], ['n', 'a', 'n']] then some (.null, tokens)
        else (decimalInteger? word).map (·, tokens)

end JsonEdit.Toml
