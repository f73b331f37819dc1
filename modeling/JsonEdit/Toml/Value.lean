import JsonEdit.Toml.Entry
import JsonEdit.Toml.Moment
import JsonEdit.Toml.Number

/-!
# Values in TOML

Values are strings, truth values, numbers, dates and times, arrays, and tables on one line. An array
may go over several lines.

* `key?`: a key, with any number of dots;
* `value?`: a value.
-/

namespace JsonEdit.Toml

/-! ## Keys -/

/-- Skips blanks. -/
def skipBlanks : List Token → List Token
  | .blank _ :: tokens => skipBlanks tokens
  | tokens => tokens

/-- Skips blanks, line ends and comments. -/
def skipLines : List Token → List Token
  | .blank _ :: tokens | .newline :: tokens | .comment :: tokens => skipLines tokens
  | tokens => tokens

/-- A key without dots. -/
def simpleKey? : List Token → Option (String × List Token)
  | .word text :: tokens => some (String.ofList text, tokens)
  | .string text false :: tokens => some (text, tokens)
  | _ => none

/-- A key with any number of dots. -/
def key? : Nat → List Token → Option (List String × List Token)
  | 0, _ => none
  | fuel + 1, tokens => do
    let (name, tokens) ← simpleKey? tokens
    match skipBlanks tokens with
    | .period :: tokens =>
      let (names, tokens) ← key? fuel (skipBlanks tokens)
      return (name :: names, tokens)
    | tokens => return ([name], tokens)

/-! ## Values -/

/-- Whether a word may start a number, a date or a time. -/
def startsQuantity (word : List Char) : Bool :=
  word == ['i', 'n', 'f'] || word == ['n', 'a', 'n'] ||
    word.head?.any fun c => c == '-' || c.isDigit

/-- A number, a date or a time that starts with a word. -/
def quantity? (word : List Char) (tokens : List Token) : Option (Json × List Token) :=
  if !startsQuantity word then none
  else if isDate word || tokens.head? == some .colon then moment? word tokens
  else number? word tokens

mutual

/-- A value. -/
def value? : Nat → List Token → Option (Json × List Token)
  | 0, _ => none
  | fuel + 1, tokens =>
    match tokens with
    | .string text _ :: tokens => some (.str text, tokens)
    | .word ['t', 'r', 'u', 'e'] :: tokens => some (.bool true, tokens)
    | .word ['f', 'a', 'l', 's', 'e'] :: tokens => some (.bool false, tokens)
    | .word text :: tokens => quantity? text tokens
    | .plus :: .word text :: tokens => number? text tokens
    | .leftBracket :: tokens => items? fuel [] (skipLines tokens)
    | .leftBrace :: tokens =>
      match skipBlanks tokens with
      | .rightBrace :: tokens => some (.obj [], tokens)
      | tokens => inlineTable? fuel [] tokens
    | _ => none

/-- The elements of an array from the next one on; those before it stand last first. -/
def items? : Nat → List Json → List Token → Option (Json × List Token)
  | 0, _, _ => none
  | fuel + 1, items, tokens =>
    match tokens with
    | .rightBracket :: tokens => some (.arr items.reverse, tokens)
    | tokens => do
      let (item, tokens) ← value? fuel tokens
      match skipLines tokens with
      | .comma :: tokens => items? fuel (item :: items) (skipLines tokens)
      | .rightBracket :: tokens => return (.arr (item :: items).reverse, tokens)
      | _ => none

/-- The entries of a table on one line from the next one on. -/
def inlineTable? : Nat → Entries → List Token → Option (Json × List Token)
  | 0, _, _ => none
  | fuel + 1, entries, tokens => do
    let (key, tokens) ← key? fuel tokens
    match skipBlanks tokens with
    | .equals :: tokens =>
      let (value, tokens) ← value? fuel (skipBlanks tokens)
      let entries ← insert? value key entries
      match skipBlanks tokens with
      | .rightBrace :: tokens => return (tableJson (membersOf entries), tokens)
      | .comma :: tokens => inlineTable? fuel entries (skipBlanks tokens)
      | _ => none
    | _ => none

end

end JsonEdit.Toml
