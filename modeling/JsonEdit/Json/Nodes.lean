import JsonEdit.Rule.Basic

/-!
# The nodes of a value

Every value inside a value is a node of it, and so is the value itself. A node is addressed by the
keys on the way to it.

* `Json.nodes`: all nodes in the order of the document, each before what it holds;
* `Json.replaceAt`: other nodes in the place of those at a path.
-/

namespace JsonEdit

/-- The key of the element at a position. -/
def indexKey (index : Nat) : String := toString index

namespace Json

/-- The kind of a value. -/
def kind : Json → NodeKind
  | .arr _ => .array
  | .obj _ => .object
  | _ => .scalar

/-- What a handler is shown of the value: a scalar, and nothing of a container. -/
def scalar? : Json → Option Json
  | .arr _ | .obj _ => none
  | value => some value

/-- The value as a node at a path. -/
def asNode (path : List String) (value : Json) : Node :=
  ⟨value.kind, path.getLast?, ⟨path⟩, value.scalar?⟩

mutual

/-- The nodes of a value at a path. -/
def nodesAt (path : List String) : Json → List Node
  | .arr items => asNode path (.arr items) :: nodesOfItems path 0 items
  | .obj members => asNode path (.obj members) :: nodesOfMembers path members
  | value => [asNode path value]

/-- The nodes of elements; the first has the given position. -/
def nodesOfItems (path : List String) (index : Nat) : List Json → List Node
  | [] => []
  | item :: items => nodesAt (path ++ [indexKey index]) item ++ nodesOfItems path (index + 1) items

/-- The nodes of members. -/
def nodesOfMembers (path : List String) : List (String × Json) → List Node
  | [] => []
  | (name, value) :: members => nodesAt (path ++ [name]) value ++ nodesOfMembers path members

end

/-- The nodes of a document. -/
def nodes (value : Json) : List Node := nodesAt [] value

mutual

/-- Another value in the place of each node at a path. -/
def replaceAt (new : Json) : List String → Json → Json
  | [], _ => new
  | key :: path, .arr items => .arr (replaceInItems new key path 0 items)
  | key :: path, .obj members => .obj (replaceInMembers new key path members)
  | _ :: _, value => value

/-- The same inside the element with a key; the first has the given position. -/
def replaceInItems (new : Json) (key : String) (path : List String) (index : Nat) :
    List Json → List Json
  | [] => []
  | item :: items =>
    (if indexKey index = key then replaceAt new path item else item) ::
      replaceInItems new key path (index + 1) items

/-- The same inside every member with a name. -/
def replaceInMembers (new : Json) (key : String) (path : List String) :
    List (String × Json) → List (String × Json)
  | [] => []
  | (name, value) :: members =>
    (name, if name = key then replaceAt new path value else value) ::
      replaceInMembers new key path members

end

end Json

end JsonEdit
