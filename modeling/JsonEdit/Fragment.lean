import JsonEdit.Stack

/-!
# Fragments

The text of a document leaves in fragments. The fragment of a node starts with what its parent
owes it: a comma after earlier children and the member name.

* `childPrefix`: what a parent owes a child;
* `openToken?`, `closeToken`: the brackets of a container;
* `Stack.chargePrefix`: the same for the innermost frame, counted on its parent.
-/

namespace JsonEdit

/-- What stands before a child in its parent. -/
def childPrefix (parent : Frame) (key : Option String) : String :=
  (if parent.childCount > 0 then "," else "") ++
    (if parent.container = some .object then quote (key.getD "") ++ ":" else "")

/-- One more child has been written. -/
def Frame.countChild (f : Frame) : Frame := { f with childCount := f.childCount + 1 }

/-- The opening bracket of a container. -/
def openToken? : NodeKind → Option String
  | .object => some "\x7b"
  | .array => some "["
  | .scalar => none

/-- The closing bracket of a container. -/
def closeToken : ContainerKind → String
  | .object => "\x7d"
  | .array => "]"

/-- What stands before the innermost node, with the node counted in its parent. -/
def Stack.chargePrefix (s : Stack) : String × Stack :=
  match s.frames with
  | top :: parent :: rest =>
    (childPrefix parent top.key, { s with frames := top :: parent.countChild :: rest })
  | _ => ("", s)

end JsonEdit
