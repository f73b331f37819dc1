import JsonEdit.Json.Basic
import JsonEdit.Toml.Token

/-!
# Dates and times in TOML

A date, a time of day, or both, is kept as it is written. Only its outline is looked at: which words
and marks follow each other, not what the words are.

* `isDate`: words that are dates by themselves;
* `moment?`: the text from a word on.
-/

namespace JsonEdit.Toml

/-- The name of the only member of an object that stands for a date or a time. -/
def momentName : String := "$__toml_private_datetime"

/-- The value of a date or a time. -/
def momentJson (text : List Char) : Json := .obj [(momentName, .str (String.ofList text))]

/-- Whether a word holds a mark of exponents in front of a minus. -/
def hasNegativeExponent : List Char → Bool
  | 'e' :: '-' :: _ | 'E' :: '-' :: _ => true
  | _ :: rest => hasNegativeExponent rest
  | [] => false

/-- A word with a `T` in it, or with a hyphen that is neither a sign nor part of an exponent. -/
def isDate (word : List Char) : Bool :=
  word.contains 'T' || word.contains 't' ||
    ((word.drop 1).contains '-' && !hasNegativeExponent word)

/-- A word at the start of tokens. -/
def word? : List Token → Option (List Char × List Token)
  | .word text :: tokens => some (text, tokens)
  | _ => none

/-- A mark with a word behind it, if tokens start with the mark. -/
def marked? (mark : Token) (shown : Char) : List Token → Option (List Char × List Token)
  | [] => some ([], [])
  | token :: tokens =>
    if token = mark then (word? tokens).map fun (text, tokens) => (shown :: text, tokens)
    else some ([], token :: tokens)

/-- The hour behind a date, if tokens start with one space and a word. -/
def hour (tokens : List Token) : List Char × List Token :=
  match tokens with
  | .blank [' '] :: .word text :: tokens => (' ' :: text, tokens)
  | _ => ([], tokens)

/-- What follows the first colon of a time: minutes, seconds, and perhaps a fraction and the
distance to another clock. -/
def clock? (tokens : List Token) : Option (List Char × List Token) := do
  let (minutes, tokens) ← word? tokens
  let .colon :: tokens := tokens | none
  let (seconds, tokens) ← word? tokens
  let (fraction, tokens) ← marked? .period '.' tokens
  let (distance, tokens) ← marked? .plus '+' tokens
  let (rest, tokens) ← marked? .colon ':' tokens
  return (minutes ++ ':' :: seconds ++ fraction ++ distance ++ rest, tokens)

/-- The date or time that starts with a word. A date may go on with an hour and its time; the colon
of a time follows its first word or its hour. -/
def moment? (word : List Char) (tokens : List Token) : Option (Json × List Token) :=
  let done (start : List Char) (result : Option (List Char × List Token)) :=
    result.map fun (text, tokens) => (momentJson (start ++ text), tokens)
  if isDate word then
    let (hour, tokens) := hour tokens
    match tokens with
    | .colon :: tokens => done (word ++ hour ++ [':']) (clock? tokens)
    | tokens => some (momentJson (word ++ hour), tokens)
  else
    match tokens with
    | .colon :: tokens =>
      let (hour, tokens) := hour tokens
      done (word ++ ':' :: hour) (clock? tokens)
    | _ => none

end JsonEdit.Toml
