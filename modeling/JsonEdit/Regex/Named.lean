import JsonEdit.Regex.Basic

/-!
# Named sets of characters

The sets of ASCII characters that have a name, which is written between colons.

* `namedSets`: the sets with their names;
* `CharSet.named?`: the set whose name a text starts with.
-/

namespace JsonEdit

/-- The characters of several ranges. -/
def CharSet.ofRanges (ranges : List (Char × Char)) : CharSet :=
  ranges.foldl (fun set (first, last) => .combine .union set (.range first last)) .empty

/-- The sets that have a name. -/
def namedSets : List (String × CharSet) := [
  ("alnum", .ofRanges [('0', '9'), ('A', 'Z'), ('a', 'z')]),
  ("alpha", .ofRanges [('A', 'Z'), ('a', 'z')]),
  ("ascii", .range '\x00' '\x7f'),
  ("blank", .ofRanges [('\t', '\t'), (' ', ' ')]),
  ("cntrl", .ofRanges [('\x00', '\x1f'), ('\x7f', '\x7f')]),
  ("digit", .range '0' '9'),
  ("graph", .range '!' '~'),
  ("lower", .range 'a' 'z'),
  ("print", .range ' ' '~'),
  ("punct", .ofRanges [('!', '/'), (':', '@'), ('[', '\x60'), ('{', '~')]),
  ("space", .ofRanges [('\t', '\r'), (' ', ' ')]),
  ("upper", .range 'A' 'Z'),
  ("word", .ofRanges [('0', '9'), ('A', 'Z'), ('_', '_'), ('a', 'z')]),
  ("xdigit", .ofRanges [('0', '9'), ('A', 'F'), ('a', 'f')])]

namespace CharSet

/-- The set whose name a text starts with. The name ends in a colon, and the set in a bracket. -/
def ofName? (text : List Char) : Option CharSet :=
  (namedSets.find? fun (name, _) => (name ++ ":]").toList.isPrefixOf text).map Prod.snd

/-- The set that a text behind a bracket names; a `^` before the name stands for all others. -/
def named? : List Char → Option CharSet
  | ':' :: '^' :: text => (ofName? text).map .other
  | ':' :: text => ofName? text
  | _ => none

end CharSet

end JsonEdit
