import JsonEdit.Toml.Value

/-!
# Sections of TOML documents

A document is read line by line as sections: a header in brackets and the entries below it. A header
in double brackets says that the section is an element of a list. Entries above the first header
make a section without a name.

* `Section`: a header with its entries;
* `sections?`: the sections of a text, in their order.
-/

namespace JsonEdit.Toml

/-- A header with the entries below it. -/
structure Section where
  /-- The names in the header, from the outermost table to this one. -/
  header : List String
  /-- Whether the header has double brackets. -/
  isElement : Bool
  entries : Entries

/-- The members that a section holds. -/
def Section.members (s : Section) : List (String × Json) := membersOf s.entries

/-- Adds an entry to the last section, the first of a list that stands last first. -/
def addEntry? (key : List String) (value : Json) : List Section → Option (List Section)
  | [] => (insert? value key []).map fun entries => [⟨[], false, entries⟩]
  | last :: before =>
    (insert? value key last.entries).map fun entries => { last with entries } :: before

/-- The end of a line, or of the text. -/
def lineEnd? (tokens : List Token) : Option (List Token) :=
  match skipBlanks tokens with
  | [] | [.comment] => some []
  | .newline :: tokens | .comment :: .newline :: tokens => some tokens
  | _ => none

/-- The key of a header and what follows its brackets. -/
def header? (fuel : Nat) (isElement : Bool) (tokens : List Token) :
    Option (List String × List Token) := do
  let (key, tokens) ← key? fuel (skipBlanks tokens)
  match isElement, skipBlanks tokens with
  | false, .rightBracket :: tokens => return (key, tokens)
  | true, .rightBracket :: .rightBracket :: tokens => return (key, tokens)
  | _, _ => none

/-- The sections from the next line on; those before it stand last first. -/
def lines? : Nat → List Section → List Token → Option (List Section)
  | 0, _, _ => none
  | fuel + 1, sections, tokens =>
    match skipLines tokens with
    | [] => some sections.reverse
    | .leftBracket :: tokens => do
      let (isElement, tokens) := match tokens with
        | .leftBracket :: tokens => (true, tokens)
        | tokens => (false, tokens)
      let (key, tokens) ← header? fuel isElement tokens
      let tokens ← lineEnd? tokens
      lines? fuel (⟨key, isElement, []⟩ :: sections) tokens
    | tokens => do
      let (key, tokens) ← key? fuel tokens
      match skipBlanks tokens with
      | .equals :: tokens =>
        let (value, tokens) ← value? fuel (skipBlanks tokens)
        let tokens ← lineEnd? tokens
        let sections ← addEntry? key value sections
        lines? fuel sections tokens
      | _ => none

/-- The sections of a text. -/
def sections? (text : String) : Option (List Section) :=
  (tokens? text).bind fun tokens => lines? (tokens.length + 1) [] tokens

end JsonEdit.Toml
