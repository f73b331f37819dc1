import JsonEdit.Json.Printer
import JsonEdit.Text.Quoted

/-!
# Events

A document arrives as events, one for each token that matters. The start of an object carries its
first member name, if it has any members.

* `ContainerKind`, `NodeKind`: what a node can be;
* `Event`, `Event.name`, `Event.describe`: the events and how diagnostics show them.
-/

namespace JsonEdit

/-- The two kinds of container. -/
inductive ContainerKind
  | object
  | array
deriving DecidableEq, Repr

/-- The kinds of node. -/
inductive NodeKind
  | object
  | array
  /-- A string, a number, a truth value or null. -/
  | scalar
deriving DecidableEq, Repr

namespace NodeKind

/-- The container that a node of this kind is. -/
def container? : NodeKind → Option ContainerKind
  | .object => some .object
  | .array => some .array
  | .scalar => none

/-- Objects and arrays are containers. -/
def isContainer (kind : NodeKind) : Bool := kind.container?.isSome

/-- The name of the kind. -/
def name : NodeKind → String
  | .object => "object"
  | .array => "array"
  | .scalar => "scalar"

/-- The name of the event that a node of this kind begins with. -/
def eventName : NodeKind → String
  | .object => "startObject"
  | .array => "startArray"
  | .scalar => "scalar"

end NodeKind

/-- The name of the event that a container of this kind ends with. -/
def ContainerKind.endName : ContainerKind → String
  | .object => "endObject"
  | .array => "endArray"

/-- One step of a document. -/
inductive Event
  /-- The name of the next member. -/
  | key (name : String)
  | scalar (value : Json)
  /-- The start of an object, with the name of its first member if it has one. -/
  | startObject (firstName : Option String)
  | endObject
  | startArray
  | endArray
  /-- The text cannot be read any further. -/
  | error (message : String)
  /-- The text has ended as it should. -/
  | finish
deriving Repr

namespace Event

/-- The name of an event. -/
def name : Event → String
  | .key _ => "key"
  | .scalar _ => NodeKind.scalar.eventName
  | .startObject _ => NodeKind.object.eventName
  | .endObject => ContainerKind.object.endName
  | .startArray => NodeKind.array.eventName
  | .endArray => ContainerKind.array.endName
  | .error _ => "error"
  | .finish => "end"

/-- An event as diagnostics show it. -/
def describe : Event → String
  | .key name => "key(" ++ quoted name ++ ")"
  | .scalar value => "scalar(" ++ value.compact ++ ")"
  | .startObject (some name) => "startObject(" ++ quoted name ++ ")"
  | .error message => "error(" ++ message ++ ")"
  | event => event.name

end Event

end JsonEdit
