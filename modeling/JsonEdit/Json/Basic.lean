import JsonEdit.Json.Number

/-!
# JSON values

A value as written: the members of an object stand in their order and names may repeat. Where a
value is data and not a document, its objects are in normal form: names in the order of their
characters, each once.

* `Json`: the values;
* `Json.normal?`: of members with one name the last stays, and names are put in order;
* `Json.numberName`: an object whose first member has this name stands for a number;
* `Json.depth`, `Json.nesting`: how deep the nodes and the containers go.
-/

namespace JsonEdit

/-- A JSON value. -/
inductive Json where
  | null
  | bool (b : Bool)
  | num (n : Number)
  | str (s : String)
  | arr (items : List Json)
  | obj (members : List (String × Json))
deriving Inhabited, Repr

namespace Json

/-- Puts a member into members ordered by name, in the place of one with its name. -/
def insertMember (name : String) (value : Json) :
    List (String × Json) → List (String × Json)
  | [] => [(name, value)]
  | (other, old) :: rest =>
    if name < other then (name, value) :: (other, old) :: rest
    else if name = other then (name, value) :: rest
    else (other, old) :: insertMember name value rest

/-- The name of the only member of an object that stands for a number. The member's value is the
text of the number, whose digits may be more than a number type holds. -/
def numberName : String := "$serde_json::private::Number"

/-- The number that a value stands for under `numberName`: a number text as a string. -/
def number? : Json → Option Json
  | .str text => (Number.ofChars? text.toList).map fun n => .num n.normal
  | _ => none

mutual

/-- The normal form of a value; there is none if an object starts like one that stands for a
number and is not. -/
def normal? : Json → Option Json
  | .arr items => (normalItems? items).map .arr
  | .obj [] => some (.obj [])
  | .obj ((name, value) :: members) =>
    if name = numberName then
      if members.isEmpty then number? value else none
    else
      match value.normal? with
      | none => none
      | some value => (normalMembers? members [(name, value)]).map .obj
  | value => some value

/-- Every element in normal form. -/
def normalItems? : List Json → Option (List Json)
  | [] => some []
  | item :: items =>
    match item.normal? with
    | none => none
    | some item => (normalItems? items).map (item :: ·)

/-- The members, in normal form, put into ordered members one after the other. -/
def normalMembers? :
    List (String × Json) → List (String × Json) → Option (List (String × Json))
  | [], ordered => some ordered
  | (name, value) :: members, ordered =>
    match value.normal? with
    | none => none
    | some value => normalMembers? members (insertMember name value ordered)

end

mutual

/-- How many nodes lie on the longest way from the root, itself included. -/
def depth : Json → Nat
  | .arr items => 1 + depthItems items
  | .obj members => 1 + depthMembers members
  | _ => 1

/-- The largest depth among elements. -/
def depthItems : List Json → Nat
  | [] => 0
  | item :: items => max item.depth (depthItems items)

/-- The largest depth among member values. -/
def depthMembers : List (String × Json) → Nat
  | [] => 0
  | (_, value) :: members => max value.depth (depthMembers members)

end

mutual

/-- How many containers are at most open at once. -/
def nesting : Json → Nat
  | .arr items => 1 + nestingItems items
  | .obj members => 1 + nestingMembers members
  | _ => 0

/-- The largest nesting among elements. -/
def nestingItems : List Json → Nat
  | [] => 0
  | item :: items => max item.nesting (nestingItems items)

/-- The largest nesting among member values. -/
def nestingMembers : List (String × Json) → Nat
  | [] => 0
  | (_, value) :: members => max value.nesting (nestingMembers members)

end

end Json

end JsonEdit
