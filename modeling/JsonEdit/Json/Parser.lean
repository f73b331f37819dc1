import JsonEdit.Scanner.Basic

/-!
# Reading values

A value is put together from the events of its text. Containers may nest at most 127 deep.

* `Builder`: the values that are being put together;
* `Json.ofEvents?`: the value of events;
* `Json.read?`, `Json.parse?`: the value of a text as written, and in normal form.
-/

namespace JsonEdit

/-- A container that is being put together, its children last first. -/
inductive Unfinished
  | arr (items : List Json)
  /-- An object, with the name of the member that is due. -/
  | obj (members : List (String × Json)) (name : Option String)

/-- The containers that are open, innermost first, and the value of the document. -/
structure Builder where
  opened : List Unfinished
  value : Option Json

namespace Builder

/-- Nothing put together yet. -/
def start : Builder := ⟨[], none⟩

/-- A value is complete: it goes into the innermost container. -/
def add (b : Builder) (value : Json) : Option Builder :=
  match b.opened with
  | [] => some { b with value := some value }
  | .arr items :: rest => some { b with opened := .arr (value :: items) :: rest }
  | .obj members (some name) :: rest =>
    some { b with opened := .obj ((name, value) :: members) none :: rest }
  | .obj _ none :: _ => none

/-- Takes one event. -/
def step (b : Builder) : Event → Option Builder
  | .scalar value => b.add value
  | .startArray => some { b with opened := .arr [] :: b.opened }
  | .startObject name => some { b with opened := .obj [] name :: b.opened }
  | .key name =>
    match b.opened with
    | .obj members none :: rest => some { b with opened := .obj members (some name) :: rest }
    | _ => none
  | .endArray =>
    match b.opened with
    | .arr items :: rest => add { b with opened := rest } (.arr items.reverse)
    | _ => none
  | .endObject =>
    match b.opened with
    | .obj members none :: rest => add { b with opened := rest } (.obj members.reverse)
    | _ => none
  | .error _ => none
  | .finish => some b

/-- Takes events in turn. -/
def steps (b : Builder) : List Event → Option Builder
  | [] => some b
  | event :: events =>
    match b.step event with
    | some b => b.steps events
    | none => none

end Builder

namespace Json

/-- The value that events stand for. -/
def ofEvents? (events : List Event) : Option Json :=
  (Builder.start.steps events).bind Builder.value

/-- How deep the containers of a value may nest. -/
def maxNesting : Nat := 127

/-- The value a text stands for, as written. -/
def read? (text : String) : Option Json :=
  ofEvents? ((scan (some maxNesting) (utf8 text)).map Scanned.event)

/-- The value a text stands for, in normal form. -/
def parse? (text : String) : Option Json := (read? text).bind normal?

end Json

end JsonEdit
