import JsonEdit.Editor.Basic
import JsonEdit.Json.Nodes

/-!
# Editing a whole value

What rules make of a value, from its root down: the first rule that accepts a node's path says what
becomes of the node, and only what is kept is gone into. Nothing streams here; the definition
follows the value.

* `RuleSet.actionAt`: what the rules say about a node;
* `Edited`: what has become of a node, with the handlers called on the way;
* `Json.edit`: what becomes of a document.
-/

namespace JsonEdit

/-! ## One node -/

namespace RuleSet

/-- What the first rule that accepts a node says. A node that no rule accepts passes, and so does
one whose handler fails. -/
def actionAt (rules : RuleSet) (node : Node) : Action :=
  match rules.first? node.path with
  | none => .pass
  | some (_, rule) => (rule.handler node).toOption.getD .pass

/-- The handler called for a node, if a rule accepts it. -/
def callsAt (rules : RuleSet) (node : Node) : List Call :=
  match rules.first? node.path with
  | none => []
  | some (index, _) => [⟨index, node⟩]

end RuleSet

/-- What has become of a node. -/
structure Edited where
  /-- The handlers called, in the order of the document. -/
  calls : List Call
  /-- The value that is left, if any, with the new name if the node got one. -/
  kept : Option (Option String × Json)

/-- The text that is left of a document. -/
def Edited.text (e : Edited) : String :=
  match e.kept with
  | none => ""
  | some (_, value) => value.compact

/-- A path whose last key is another one; the root keeps its path. -/
def renamePath (path : List String) : Option String → List String
  | none => path
  | some key => if path.isEmpty then path else path.dropLast ++ [key]

/-- What becomes of a node; `inside` says what becomes of what it holds if it is kept, given the
path it then has. -/
def RuleSet.editNode (rules : RuleSet) (path : List String) (value : Json)
    (inside : List String → List Call × Json) : Edited :=
  let node := value.asNode path
  let calls := rules.callsAt node
  let action := rules.actionAt node
  if action.drops then ⟨calls, none⟩
  else
    match action.newValue? with
    | some new => ⟨calls, some (action.newKey?, new)⟩
    | none =>
      let (more, kept) := inside (renamePath path action.newKey?)
      ⟨calls ++ more, some (action.newKey?, kept)⟩

/-! ## All nodes -/

namespace Json

mutual

/-- What becomes of the value at a path. -/
def editAt (rules : RuleSet) (path : List String) : Json → Edited
  | .arr items =>
    rules.editNode path (.arr items) fun path =>
      let (calls, items) := editItems rules path 0 items
      (calls, .arr items)
  | .obj members =>
    rules.editNode path (.obj members) fun path =>
      let (calls, members) := editMembers rules path members
      (calls, .obj members)
  | value => rules.editNode path value fun _ => ([], value)

/-- What becomes of elements; the first has the given position. Those that are kept close up. -/
def editItems (rules : RuleSet) (path : List String) (index : Nat) :
    List Json → List Call × List Json
  | [] => ([], [])
  | item :: items =>
    let first := editAt rules (path ++ [indexKey index]) item
    let (calls, rest) := editItems rules path (index + 1) items
    (first.calls ++ calls, (first.kept.map Prod.snd).toList ++ rest)

/-- What becomes of members. A new name takes the place of the old one. -/
def editMembers (rules : RuleSet) (path : List String) :
    List (String × Json) → List Call × List (String × Json)
  | [] => ([], [])
  | (name, value) :: members =>
    let first := editAt rules (path ++ [name]) value
    let (calls, rest) := editMembers rules path members
    let kept := first.kept.map fun (new, value) => (new.getD name, value)
    (first.calls ++ calls, kept.toList ++ rest)

end

/-- What becomes of a document. -/
def edit (rules : RuleSet) (value : Json) : Edited := editAt rules [] value

end Json

end JsonEdit
