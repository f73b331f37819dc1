import JsonEdit.Toml.Section

/-!
# TOML documents

A document is a table of tables, put together from its sections. A table takes its members from all
sections whose headers start with its own names and which no other table has taken, in their order:
the entries of its own section, and a member for each longer header. A name may come up again: then
the table has two members of that name.

* `table?`: the members of a table;
* `elements?`: the elements of a list of tables;
* `document?`: the value of a text.
-/

namespace JsonEdit.Toml

/-- How far a table has been put together. -/
structure Gathering where
  members : List (String × Json)
  /-- Which sections no table has taken. -/
  unread : Array Bool
  /-- The section with the shortest header among those looked at. -/
  owner : Nat

/-- A section has the header of another one, by which the table is already known. -/
def repeats (sections : Array Section) (owner index : Nat) : Bool :=
  match sections[owner]?, sections[index]? with
  | some known, some new => owner != index && known.header == new.header
  | _, _ => false

/-- Which of two sections has the shorter header, the first if both are of one length. -/
def shorter (sections : Array Section) (owner index : Nat) : Nat :=
  match sections[owner]?, sections[index]? with
  | some known, some new => if new.header.length < known.header.length then index else owner
  | _, _ => owner

/-- The elements of the list that starts with section `first`: the sections with its header before
`limit`, each with the place where the next one starts. -/
def starts (sections : Array Section) (first limit : Nat) : List (Nat × Nat) :=
  let header := sections[first]?.map Section.header
  let later := (List.range limit).filter fun index =>
    first < index && sections[index]?.any fun s => s.isElement && some s.header == header
  (first :: later).zip (later ++ [limit])

/-- Reads the tables of a list one after the other, given how to read one between two sections from
the members of its own section on. -/
def elements? (sections : Array Section)
    (readTable : Nat → Nat → Array Bool → List (String × Json) →
      Option (List (String × Json) × Array Bool)) :
    List (Nat × Nat) → Array Bool → Option (List Json × Array Bool)
  | [], unread => some ([], unread)
  | (first, limit) :: rest, unread => do
    let s ← sections[first]?
    if unread[first]? = some true then
      let (members, unread) ← readTable first limit (unread.setIfInBounds first false) s.members
      let (items, unread) ← elements? sections readTable rest unread
      return (tableJson members :: items, unread)
    else none

/-- Reads the members of the table with the names `path` from the sections before `limit`. It is
found through section `owner`; members of its own section may have been read. Each level adds a
name, so there are no more levels than the longest header has names. -/
def table? (sections : Array Section) : Nat → List String → Nat → Nat → Array Bool →
    List (String × Json) → Option (List (String × Json) × Array Bool)
  | 0, _, _, _, _, _ => none
  | levels + 1, path, owner, limit, unread, members => do
    let gathered ← (List.range limit).foldlM (fun (g : Gathering) index => do
      let s ← sections[index]?
      let mine := g.unread[index]? = some true && path.isPrefixOf s.header
      if startsNumber g.members || !mine then return g
      if repeats sections g.owner index then none
      let owner := shorter sections g.owner index
      match s.header.drop path.length with
      | [] =>
        if s.isElement then none
        else return ⟨g.members ++ s.members, g.unread.setIfInBounds index false, owner⟩
      | name :: longer =>
        let (member, unread) ←
          if s.isElement && longer.isEmpty then
            (elements? sections (table? sections levels (path ++ [name]))
              (starts sections index limit) g.unread).map fun (items, unread) =>
                (Json.arr items, unread)
          else
            (table? sections levels (path ++ [name]) index limit g.unread []).map
              fun (members, unread) => (tableJson members, unread)
        return ⟨g.members ++ [(name, member)], unread, owner⟩) ⟨members, unread, owner⟩
    return (gathered.members, gathered.unread)

/-- The table that a text stands for. -/
def document? (text : String) : Option Json := do
  let sections ← sections? text
  let levels := (sections.map fun s => s.header.length).foldl max 0 + 1
  let unread := Array.replicate sections.length true
  let (members, _) ← table? sections.toArray levels [] 0 sections.length unread []
  return tableJson members

end JsonEdit.Toml
