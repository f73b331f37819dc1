import JsonEdit.Editor.Error

/-!
# Asking rules

* `Rule.apply`: the answer of one rule's handler, with the rule and the node in its error;
* `RuleSet.evaluate`: the answer of the first rule that accepts a node.
-/

namespace JsonEdit

/-- What the handler of a rule answers for a node. -/
def Rule.apply (rule : Rule) (node : Node) : Except EditError Action :=
  match rule.handler node with
  | .ok action => .ok action
  | .error message => .error (.handler rule.matcher.label node.path.display message)

/-- What the first rule that accepts a node answers, with its position. -/
def RuleSet.evaluate (rules : RuleSet) (node : Node) : Except EditError (Option (Nat × Action)) :=
  match rules.first? node.path with
  | none => .ok none
  | some (index, rule) => (rule.apply node).map fun action => some (index, action)

end JsonEdit
