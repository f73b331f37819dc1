/-!
# Tokens of TOML

A TOML text is cut into brackets and other marks, bare words, strings, blanks and line ends. Bare
words are keys as well as numbers and truth values.

* `Token`: the tokens;
* `tokens?`: the tokens of a text.
-/

namespace JsonEdit.Toml

/-- A token of TOML. -/
inductive Token
  | blank (text : List Char)
  | newline
  | comment
  | equals
  | period
  | comma
  | colon
  | plus
  | leftBrace
  | rightBrace
  | leftBracket
  | rightBracket
  /-- A bare word. -/
  | word (text : List Char)
  /-- A string; whether it was written with three quotes. -/
  | string (text : String) (multiline : Bool)
deriving DecidableEq, Repr

/-- A line end of two characters becomes a line feed. -/
def foldLineEnds : List Char → List Char
  | [] => []
  | '\r' :: '\n' :: rest => '\n' :: foldLineEnds rest
  | c :: rest => c :: foldLineEnds rest

/-- The characters of bare words. -/
def isWordChar (c : Char) : Bool := c.isAlphanum || c == '-' || c == '_'

/-- The characters between marks and words. -/
def isBlank (c : Char) : Bool := c == ' ' || c == '\t'

/-- The characters that may stand in a comment or a string on one line. -/
def isTextChar (c : Char) : Bool := c == '\t' || 0x20 ≤ c.toNat

/-- The characters that may stand in a string as they are. -/
def isStringChar (c : Char) : Bool := isTextChar c && c.toNat ≠ 0x7f

/-- The value of hexadecimal digits after a value read before them. -/
def hexFrom? : Nat → List Char → Option Nat
  | value, [] => some value
  | value, c :: rest =>
    if c.isDigit then hexFrom? (value * 16 + (c.toNat - 48)) rest
    else if 'a' ≤ c && c ≤ 'f' then hexFrom? (value * 16 + (c.toNat - 87)) rest
    else if 'A' ≤ c && c ≤ 'F' then hexFrom? (value * 16 + (c.toNat - 55)) rest
    else none

/-- The character whose code point is written in hexadecimal digits. -/
def hexChar? (digits : List Char) : Option Char :=
  (hexFrom? 0 digits).bind fun n => if n.isValidChar then some (Char.ofNat n) else none

/-- The character behind a backslash, unless it is a code point. -/
def escaped? (c : Char) : Option Char :=
  if c = '"' then some '"'
  else if c = '\\' then some '\\'
  else if c = 'b' then some '\x08'
  else if c = 'f' then some '\x0c'
  else if c = 'n' then some '\n'
  else if c = 'r' then some '\r'
  else if c = 't' then some '\t'
  else none

/-- What follows a backslash at the end of a line: all blanks and line ends up to the next
character. -/
def afterLineEnd? (rest : List Char) : Option (List Char) :=
  match rest.dropWhile isBlank with
  | '\n' :: rest => some (rest.dropWhile fun c => isBlank c || c == '\n')
  | [] => some []
  | _ => none

/-- The quotes that end a string of three quotes: up to two more belong to the string. -/
def closing? (quote : Char) (text : List Char) : Option (List Char × List Char) :=
  match text.span (· == quote) with
  | (quotes, rest) =>
    if quotes.length < 3 then none
    else
      let inside := min (quotes.length - 3) 2
      some (quotes.take inside, quotes.drop (inside + 3) ++ rest)

/-- Reads a string after its opening quotes; its characters so far stand last first. -/
def readString (quote : Char) (multiline : Bool) :
    Nat → List Char → List Char → Option (String × List Char)
  | 0, _, _ => none
  | _ + 1, _, [] => none
  | fuel + 1, read, c :: rest =>
    if c = quote then
      if multiline then
        match closing? quote (c :: rest) with
        | some (inside, rest) => some (String.ofList (read.reverse ++ inside), rest)
        | none => readString quote multiline fuel (c :: read) rest
      else some (String.ofList read.reverse, rest)
    else if c = '\n' then
      if multiline then readString quote multiline fuel (c :: read) rest else none
    else if c = '\\' && quote = '"' then
      match rest with
      | [] => none
      | e :: rest =>
        if e = 'u' || e = 'U' then
          let count := if e = 'u' then 4 else 8
          if rest.length < count then none
          else (hexChar? (rest.take count)).bind fun c =>
            readString quote multiline fuel (c :: read) (rest.drop count)
        else if multiline && (isBlank e || e = '\n') then
          (afterLineEnd? (e :: rest)).bind fun rest => readString quote multiline fuel read rest
        else (escaped? e).bind fun c => readString quote multiline fuel (c :: read) rest
    else if isStringChar c then readString quote multiline fuel (c :: read) rest
    else none

/-- Reads a string that starts with a quote. A line end directly after three quotes is no part of
it. -/
def readQuoted (quote : Char) (text : List Char) : Option (Token × List Char) :=
  let result (multiline : Bool) (text : List Char) :=
    (readString quote multiline (text.length + 1) [] text).map fun (value, rest) =>
      (Token.string value multiline, rest)
  match text with
  | first :: second :: third :: rest =>
    if first = quote && second = quote && third = quote then
      match rest with
      | '\n' :: rest => result true rest
      | _ => result true rest
    else result false (second :: third :: rest)
  | _ :: rest => result false rest
  | [] => none

/-- The token of a mark. -/
def mark? (c : Char) : Option Token :=
  if c = '=' then some .equals
  else if c = '.' then some .period
  else if c = ',' then some .comma
  else if c = ':' then some .colon
  else if c = '+' then some .plus
  else if c = '{' then some .leftBrace
  else if c = '}' then some .rightBrace
  else if c = '[' then some .leftBracket
  else if c = ']' then some .rightBracket
  else if c = '\n' then some .newline
  else none

/-- The first token of a text and what follows it. -/
def next? (c : Char) (rest : List Char) : Option (Token × List Char) :=
  match mark? c with
  | some token => some (token, rest)
  | none =>
    if isBlank c then
      some (.blank (c :: rest.takeWhile isBlank), rest.dropWhile isBlank)
    else if c = '#' then some (.comment, rest.dropWhile isTextChar)
    else if c = '"' || c = '\'' then readQuoted c (c :: rest)
    else if isWordChar c then
      some (.word (c :: rest.takeWhile isWordChar), rest.dropWhile isWordChar)
    else none

/-- The tokens of a text, of which there are at most as many as characters. -/
def tokensFrom? : Nat → List Char → Option (List Token)
  | _, [] => some []
  | 0, _ :: _ => none
  | fuel + 1, c :: rest =>
    match next? c rest with
    | some (token, rest) => (tokensFrom? fuel rest).map (token :: ·)
    | none => none

/-- The tokens of a text; a byte order mark at its start is none. -/
def tokens? (text : String) : Option (List Token) :=
  let text := match text.toList with
    | '\ufeff' :: rest => rest
    | text => text
  let text := foldLineEnds text
  tokensFrom? text.length text

end JsonEdit.Toml
