import JsonEdit.Event

/-!
# The events of a value

What a reader of the text of a value is told: containers as they begin and end, names and scalars
in their order.

* `Json.events`: the events of a value; the start of an object carries its first name;
* `Json.documentEvents`: the same for a value that is a whole document.
-/

namespace JsonEdit

namespace Json

mutual

/-- The events of a value. -/
def events : Json → List Event
  | .arr items => .startArray :: (eventsOfItems items ++ [.endArray])
  | .obj [] => [.startObject none, .endObject]
  | .obj ((name, value) :: members) =>
    .startObject (some name) :: (value.events ++ eventsOfMembers members ++ [.endObject])
  | scalar => [.scalar scalar]

/-- The events of elements. -/
def eventsOfItems : List Json → List Event
  | [] => []
  | item :: items => item.events ++ eventsOfItems items

/-- The events of members, each with its name before it. -/
def eventsOfMembers : List (String × Json) → List Event
  | [] => []
  | (name, value) :: members => .key name :: (value.events ++ eventsOfMembers members)

end

/-- The events of a document, to its end. -/
def documentEvents (value : Json) : List Event := value.events ++ [.finish]

end Json

end JsonEdit
