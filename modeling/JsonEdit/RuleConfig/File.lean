import JsonEdit.Json.Parser
import JsonEdit.Rule.Builder
import JsonEdit.RuleConfig.Error
import JsonEdit.Toml.Document

/-!
# Rules files

A rules file lists entries, each with a path and what to do there. It is TOML or JSON, as its name
says. An object may also be written as the array of its values.

* `RuleEntry`, `RuleEntry.action`: an entry and the action it asks for;
* `RulesFile.load`: the entries of a file;
* `RulesFile.applyTo`: the entries as rules. All entries are looked at before any pattern.
-/

namespace JsonEdit

/-! ## Entries -/

/-- An entry of a rules file. -/
structure RuleEntry where
  path : String
  rename : Option String
  remove : Bool
  /-- The new value; null is one. -/
  value : Option Json

namespace RuleEntry

/-- The action an entry asks for. -/
def action (e : RuleEntry) : Except EntryFault Action :=
  if e.remove then
    if e.rename.isSome || e.value.isSome then .error .contradictory else .ok .remove
  else
    match e.rename, e.value with
    | some key, some value => .ok (.renameReplace key value)
    | some key, none => .ok (.rename key)
    | none, some value => .ok (.replace value)
    | none, none => .error .noAction

/-- What has been read of the fields of an entry. -/
structure Fields where
  path : Option String
  rename : Option (Option String)
  remove : Option Bool
  value : Option Json

/-- No field read yet. -/
def Fields.none : Fields := ⟨.none, .none, .none, .none⟩

/-- Reads a field, each of which may stand only once. A name may be null if `nulls` says that the
notation has null. -/
def Fields.set? (nulls : Bool) (f : Fields) (name : String) (value : Json) : Option Fields :=
  if name = "path" then
    match f.path, value with
    | .none, .str s => some { f with path := some s }
    | _, _ => .none
  else if name = "rename" then
    match f.rename, value with
    | .none, .str s => some { f with rename := some (some s) }
    | .none, .null => if nulls then some { f with rename := some .none } else .none
    | _, _ => .none
  else if name = "remove" then
    match f.remove, value with
    | .none, .bool b => some { f with remove := some b }
    | _, _ => .none
  else if name = "value" then
    match f.value with
    | .none => value.normal?.map fun value => { f with value := some value }
    | some _ => .none
  else .none

/-- Reads fields in turn. -/
def Fields.setAll? (nulls : Bool) (f : Fields) : List (String × Json) → Option Fields
  | [] => some f
  | (name, value) :: rest => (f.set? nulls name value).bind fun f => f.setAll? nulls rest

/-- The entry of the fields; the path must be among them. -/
def Fields.complete? (f : Fields) : Option RuleEntry :=
  f.path.map fun path => ⟨path, f.rename.join, f.remove.getD false, f.value⟩

/-- The names of the fields in their order. -/
def fieldNames : List String := ["path", "rename", "remove", "value"]

/-- The entry that a value stands for. -/
def ofJson? (nulls : Bool) : Json → Option RuleEntry
  | .obj members => (Fields.none.setAll? nulls members).bind Fields.complete?
  | .arr items =>
    if items.length ≤ fieldNames.length then
      (Fields.none.setAll? nulls (fieldNames.zip items)).bind Fields.complete?
    else .none
  | _ => .none

end RuleEntry

/-! ## Files -/

/-- Adds a rule with the same action for all nodes that a pattern accepts. -/
def RuleBuilder.addAction (b : RuleBuilder) (pattern : String) (action : Action) :
    Except ConfigError RuleBuilder :=
  match b.on pattern (.always action) with
  | .error e => .error (.pattern e)
  | .ok b => .ok b

/-- The entries of a rules file. -/
abbrev RulesFile := List RuleEntry

namespace RulesFile

/-- The entries of a list. -/
def entries? (nulls : Bool) : Json → Option RulesFile
  | .arr items => items.mapM (RuleEntry.ofJson? nulls)
  | _ => none

/-- The entries of a whole file, which may have no list of them. -/
def ofJson? (nulls : Bool) : Json → Option RulesFile
  | .obj [] | .arr [] => some []
  | .obj [(name, list)] => if name = "rule" || name = "rules" then entries? nulls list else none
  | .arr [list] => entries? nulls list
  | _ => none

/-- What follows the last dot of a file name, if something stands before the dot. -/
def extension? (name : String) : Option (List Char) :=
  let base := (name.toList.reverse.takeWhile (· != '/')).reverse
  let after := (base.reverse.takeWhile (· != '.')).reverse
  if after.length + 1 < base.length then some after else none

/-- Whether a file of this name is TOML. -/
def isToml (name : String) : Bool :=
  match extension? name with
  | some text => text.map Char.toLower == ['t', 'o', 'm', 'l']
  | none => false

/-- The entries of a text in the notation of its file. -/
def parse (name : String) (text : String) : Except ConfigError RulesFile :=
  if isToml name then
    match (Toml.document? text).bind (ofJson? false) with
    | some file => .ok file
    | none => .error .invalidToml
  else
    match (Json.read? text).bind (ofJson? true) with
    | some file => .ok file
    | none => .error .invalidJson

/-- The entries of a file, if there is one of this name; its bytes must be a text. -/
def load (name : String) (bytes : Option (List UInt8)) : Except ConfigError RulesFile :=
  match bytes.bind fun bytes => String.fromUTF8? bytes.toByteArray with
  | some text => parse name text
  | none => .error .unreadable

/-- The actions of entries, counted from `index`. -/
def actionsFrom : Nat → RulesFile → Except ConfigError (List (String × Action))
  | _, [] => .ok []
  | index, entry :: entries =>
    match entry.action with
    | .error fault => .error (.invalidRule index entry.path fault)
    | .ok action => (actionsFrom (index + 1) entries).map ((entry.path, action) :: ·)

/-- Adds the rules of a file. -/
def applyTo (file : RulesFile) (b : RuleBuilder) : Except ConfigError RuleBuilder := do
  let actions ← actionsFrom 1 file
  actions.foldlM (fun b (path, action) => b.addAction path action) b

end RulesFile

end JsonEdit
