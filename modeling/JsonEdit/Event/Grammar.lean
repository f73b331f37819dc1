import JsonEdit.Event

/-!
# The grammar of events

Which events make up documents, said without a stack.

* `IsDocument`: the events of one document, with `AreItems` and `AreMembers` for what stands in
  its containers;
* `AreDocuments`: any number of documents in a row.
-/

namespace JsonEdit

mutual

/-- The events of one document. The first name of an object may stand in its start. -/
inductive IsDocument : List Event → Prop
  | scalar (value : Json) : IsDocument [.scalar value]
  | array {items : List Event} : AreItems items → IsDocument (.startArray :: items ++ [.endArray])
  | object {members : List Event} :
    AreMembers members → IsDocument (.startObject none :: members ++ [.endObject])
  | objectWith (name : String) {value members : List Event} : IsDocument value →
    AreMembers members → IsDocument (.startObject (some name) :: value ++ members ++ [.endObject])

/-- The events of elements. -/
inductive AreItems : List Event → Prop
  | nil : AreItems []
  | cons {item items : List Event} : IsDocument item → AreItems items → AreItems (item ++ items)

/-- The events of members, each with its name before it. -/
inductive AreMembers : List Event → Prop
  | nil : AreMembers []
  | cons (name : String) {value members : List Event} : IsDocument value → AreMembers members →
    AreMembers (.key name :: value ++ members)

end

/-- The events of documents in a row. They follow each other as elements do. -/
abbrev AreDocuments (events : List Event) : Prop := AreItems events

end JsonEdit
