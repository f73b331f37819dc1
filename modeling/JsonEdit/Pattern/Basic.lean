import JsonEdit.Path.Basic

/-!
# Patterns

A pattern is a list of segments. Each segment takes one key of a path; a segment that descends may
first pass over any number of keys.

* `Glob.accepts`: literal parts with anything between them;
* `KeyMatcher.accepts`: the test of one key;
* `matchKeys`, `Pattern.accepts`: the test of a whole path, from its first key to its last.
-/

namespace JsonEdit

/-! ## One key -/

namespace Glob

/-- What follows the first place where `piece` stands in a text. -/
def afterFirst (piece : List Char) : List Char → Option (List Char)
  | [] => piece.isPrefixOf? []
  | c :: text =>
    match piece.isPrefixOf? (c :: text) with
    | some rest => some rest
    | none => afterFirst piece text

/-- The parts after the first against the text after it: each part but the last is looked for from
the left, and the last has to end the text. -/
def acceptsRest : List (List Char) → List Char → Bool
  | [], text => text.isEmpty
  | [last], text => last.isSuffixOf text
  | piece :: parts, text =>
    match afterFirst piece text with
    | some rest => acceptsRest parts rest
    | none => false

/-- The first part starts the key, the last ends it, and the others stand between them in order. -/
def accepts : List (List Char) → List Char → Bool
  | [], _ => true
  | first :: parts, key =>
    match first.isPrefixOf? key with
    | some rest => acceptsRest parts rest
    | none => false

end Glob

/-- The test of a single key. -/
inductive KeyMatcher
  /-- Exactly this key. -/
  | literal (text : String)
  /-- Every key. -/
  | any
  /-- These parts in order, with anything between them. -/
  | glob (parts : List String)
deriving DecidableEq, Repr

/-- Whether a key passes the test. -/
def KeyMatcher.accepts : KeyMatcher → String → Bool
  | .literal text, key => text == key
  | .any, _ => true
  | .glob parts, key => Glob.accepts (parts.map String.toList) key.toList

/-- One segment of a pattern. -/
structure Segment where
  /-- Whether any number of keys may be passed over first. -/
  descend : Bool
  matcher : KeyMatcher
deriving DecidableEq, Repr

/-! ## A path -/

/-- Some key of the list, with the keys after it, passes the test. -/
def anySplit (test : String → List String → Bool) : List String → Bool
  | [] => false
  | key :: keys => test key keys || anySplit test keys

/-- The segments take all keys in order, from the first to the last. -/
def matchKeys : List Segment → List String → Bool
  | [], keys => keys.isEmpty
  | segment :: segments, keys =>
    if segment.descend then
      anySplit (fun key rest => segment.matcher.accepts key && matchKeys segments rest) keys
    else
      match keys with
      | [] => false
      | key :: rest => segment.matcher.accepts key && matchKeys segments rest

/-- A compiled pattern. -/
structure Pattern where
  /-- The text it was compiled from. -/
  source : String
  segments : List Segment
deriving DecidableEq, Repr

namespace Pattern

/-- The pattern accepts the root and nothing else. -/
def isRoot (p : Pattern) : Bool := p.segments.isEmpty

/-- Whether the pattern accepts a path. -/
def accepts (p : Pattern) (path : Path) : Bool := matchKeys p.segments path.keys

end Pattern

end JsonEdit
