import JsonEdit.Json.Parser
import JsonEdit.Stream.Pipeline

/-!
# Editing a value

* `editValue`: a value with the rules applied, by way of its text.
-/

namespace JsonEdit

/-- A value with the rules applied. Its edited text has to be a value again. -/
def editValue (rules : RuleSet) (value : Json) : Except EditError Json :=
  match (editText rules value.compact) with
  | ⟨.error e, _, _⟩ => .error e
  | ⟨.ok _, _, text⟩ =>
    match Json.parse? text with
    | some value => .ok value
    | none => .error .invalidResult

end JsonEdit
