import JsonEdit.Json.Basic

/-!
# Entries of TOML tables

A table is written as entries, one after the other. A key with dots opens tables of its own, which
later keys with dots may add to; any other entry stays as it is, and a name may repeat.

* `Entry`: a value, or a table that keys with dots opened;
* `insert?`: adds a value under a key;
* `tableJson`: the object that entries stand for.
-/

namespace JsonEdit.Toml

/-- What stands under a name. -/
inductive Entry
  | value (json : Json)
  /-- A table that a key with dots opened. -/
  | dotted (entries : List (String × Entry))

/-- The entries of a table, in their order. -/
abbrev Entries := List (String × Entry)

/-- Changes the first entry with a name, or adds one. -/
def update? (name : String) (f : Option Entry → Option Entry) : Entries → Option Entries
  | [] => (f none).map fun entry => [(name, entry)]
  | (other, entry) :: entries =>
    if other = name then (f (some entry)).map fun entry => (other, entry) :: entries
    else (update? name f entries).map ((other, entry) :: ·)

/-- Adds a value under a key with dots. -/
def insert? (value : Json) : List String → Entries → Option Entries
  | [], _ => none
  | [name], entries => some (entries ++ [(name, .value value)])
  | name :: key, entries =>
    update? name (fun
      | none => (insert? value key []).map .dotted
      | some (.dotted inner) => (insert? value key inner).map .dotted
      | some (.value _) => none) entries

/-- Whether members start like those of an object that stands for a number. -/
def startsNumber : List (String × Json) → Bool
  | (name, _) :: _ => name == Json.numberName
  | [] => false

/-- The object of members. One that stands for a number is complete with its first member. -/
def tableJson (members : List (String × Json)) : Json :=
  .obj (if startsNumber members then members.take 1 else members)

mutual

/-- The value of an entry. -/
def Entry.toJson : Entry → Json
  | .value json => json
  | .dotted entries => tableJson (membersOf entries)

/-- The members that entries stand for. -/
def membersOf : List (String × Entry) → List (String × Json)
  | [] => []
  | (name, entry) :: entries => (name, entry.toJson) :: membersOf entries

end

end JsonEdit.Toml
