/-!
# Escaping

Six characters have a meaning of their own in a pattern. Written behind a backslash, each stands
for itself, so a key becomes pattern text by escaping.

* `isMeta`: the six characters;
* `escapeChars`, `escape`: a key as pattern text.
-/

namespace JsonEdit

/-- The characters with a meaning of their own in a pattern. -/
def isMeta (c : Char) : Bool :=
  c == '.' || c == '[' || c == ']' || c == '*' || c == '\\' || c == '$'

/-- A character as pattern text: behind a backslash if it has a meaning of its own. -/
def escapeChar (c : Char) : List Char :=
  if isMeta c then ['\\', c] else [c]

/-- The characters of a key as pattern text. -/
def escapeChars (key : List Char) : List Char :=
  key.flatMap escapeChar

/-- A key as pattern text. -/
def escape (key : String) : String :=
  String.ofList (escapeChars key.toList)

@[simp] theorem escapeChars_nil : escapeChars [] = [] := rfl

@[simp] theorem escapeChars_cons (c : Char) (key : List Char) :
    escapeChars (c :: key) = escapeChar c ++ escapeChars key := rfl

@[simp] theorem escapeChars_append (k l : List Char) :
    escapeChars (k ++ l) = escapeChars k ++ escapeChars l := by
  simp [escapeChars]

@[simp] theorem toList_escape (key : String) : (escape key).toList = escapeChars key.toList := by
  simp [escape]

end JsonEdit
