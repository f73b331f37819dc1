import JsonEdit.Path.Escape

/-!
# Paths

A path is the list of keys from the root of a document to a node. The key of an array element is
its position in decimal digits; the root has no key.

* `Path.joined`: the keys with dots between them, which regular expressions are tested against;
* `Path.display`: the path written as a pattern, `$.arr[0].name`.
-/

namespace JsonEdit

/-- The keys from the root to a node. -/
structure Path where
  keys : List String
deriving DecidableEq, Repr

namespace Path

/-- The path of the root. -/
def root : Path := ⟨[]⟩

/-- The number of keys. -/
def length (p : Path) : Nat := p.keys.length

/-- The root has no keys. -/
def isRoot (p : Path) : Bool := p.keys.isEmpty

/-- The key of the node itself. -/
def last? (p : Path) : Option String := p.keys.getLast?

/-- The keys with dots between them. -/
def joined (p : Path) : String := ".".intercalate p.keys

/-- A non-empty run of the digits `0` to `9`. -/
def isIndex (key : List Char) : Bool :=
  !key.isEmpty && key.all Char.isDigit

/-- One key of the written form: an index in brackets, any other key behind a dot. -/
def displayKey (key : List Char) : List Char :=
  if isIndex key then '[' :: key ++ [']'] else '.' :: escapeChars key

/-- The characters of the written form. -/
def displayChars (p : Path) : List Char :=
  '$' :: p.keys.flatMap fun key => displayKey key.toList

/-- The path written as a pattern. -/
def display (p : Path) : String := String.ofList p.displayChars

@[simp] theorem toList_display (p : Path) : p.display.toList = p.displayChars := by
  simp [display]

end Path

end JsonEdit
