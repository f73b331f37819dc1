import JsonEdit.Event.Grammar
import JsonEdit.Json.Events
import JsonEdit.Json.Nodes

/-!
# Values as events tell them

A value may be told in more than one way: the name of the first member of an object stands in the
start of the object or in an event of its own.

* `Json.ToldBy`: the events tell a value, with `Json.ItemsToldBy` and `Json.MembersToldBy` for what
  stands in its containers;
* `Json.toldBy_events`: the events of a value tell it;
* `Document`: a value and events that tell it.
-/

namespace JsonEdit

namespace Json

mutual

/-- The events tell the value. -/
inductive ToldBy : Json → List Event → Prop
  | scalar {value : Json} : value.kind = .scalar → ToldBy value [.scalar value]
  | array {items : List Json} {events : List Event} : ItemsToldBy items events →
    ToldBy (.arr items) (.startArray :: events ++ [.endArray])
  | object {members : List (String × Json)} {events : List Event} : MembersToldBy members events →
    ToldBy (.obj members) (.startObject none :: events ++ [.endObject])
  | objectWith (name : String) {value : Json} {members : List (String × Json)}
    {first rest : List Event} : ToldBy value first → MembersToldBy members rest →
    ToldBy (.obj ((name, value) :: members))
      (.startObject (some name) :: first ++ rest ++ [.endObject])

/-- The events tell the elements in turn. -/
inductive ItemsToldBy : List Json → List Event → Prop
  | nil : ItemsToldBy [] []
  | cons {item : Json} {items : List Json} {first rest : List Event} : ToldBy item first →
    ItemsToldBy items rest → ItemsToldBy (item :: items) (first ++ rest)

/-- The events tell the members in turn, each with its name before it. -/
inductive MembersToldBy : List (String × Json) → List Event → Prop
  | nil : MembersToldBy [] []
  | cons (name : String) {value : Json} {members : List (String × Json)} {first rest : List Event} :
    ToldBy value first → MembersToldBy members rest →
    MembersToldBy ((name, value) :: members) (.key name :: first ++ rest)

end

mutual

/-- **The events of a value tell it.** -/
theorem toldBy_events : ∀ value : Json, ToldBy value value.events
  | .null | .bool _ | .num _ | .str _ => .scalar rfl
  | .arr items => .array (itemsToldBy_events items)
  | .obj [] => .object .nil
  | .obj ((name, value) :: members) =>
    .objectWith name (toldBy_events value) (membersToldBy_events members)

theorem itemsToldBy_events : ∀ items : List Json, ItemsToldBy items (eventsOfItems items)
  | [] => .nil
  | item :: items => .cons (toldBy_events item) (itemsToldBy_events items)

theorem membersToldBy_events : ∀ members : List (String × Json),
    MembersToldBy members (eventsOfMembers members)
  | [] => .nil
  | (name, value) :: members => .cons name (toldBy_events value) (membersToldBy_events members)

end

mutual

/-- What tells a value is a document of the grammar. -/
theorem ToldBy.isDocument {value : Json} {events : List Event} :
    value.ToldBy events → IsDocument events
  | .scalar _ => .scalar value
  | .array hi => .array hi.areItems
  | .object hm => .object hm.areMembers
  | .objectWith name hv hm => .objectWith name hv.isDocument hm.areMembers

theorem ItemsToldBy.areItems {items : List Json} {events : List Event} :
    ItemsToldBy items events → AreItems events
  | .nil => .nil
  | .cons hi his => .cons hi.isDocument his.areItems

theorem MembersToldBy.areMembers {members : List (String × Json)} {events : List Event} :
    MembersToldBy members events → AreMembers events
  | .nil => .nil
  | .cons name hv hm => .cons name hv.isDocument hm.areMembers

end

end Json

/-- A document: a value, and events that tell it. -/
structure Document where
  value : Json
  events : List Event
  told : value.ToldBy events

namespace Document

/-- A value with the events that a reader of its text is told. -/
def ofValue (value : Json) : Document := ⟨value, value.events, value.toldBy_events⟩

/-- The events of a document on its own, to its end. -/
def allEvents (doc : Document) : List Event := doc.events ++ [.finish]

end Document

end JsonEdit
