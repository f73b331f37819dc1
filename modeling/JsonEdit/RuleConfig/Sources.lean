import JsonEdit.RuleConfig.File

/-!
# Rules from a file and from arguments

Rules come from a rules file and from arguments that rename, remove and set, in this order.

* `splitAssignment`: an argument `PATTERN=VALUE`;
* `setValue`: the value of an argument that sets;
* `RuleSources.build`: all rules.
-/

namespace JsonEdit

/-- Where rules come from. -/
structure RuleSources where
  file : Option RulesFile
  rename : List String
  remove : List String
  set : List String

/-- The parts of an argument before and after its first `=`; the first must not be empty. -/
def splitAssignment (flag : AssignmentFlag) (argument : String) :
    Except ConfigError (String × String) :=
  match argument.toList.span (· != '=') with
  | (c :: pattern, '=' :: value) => .ok (String.ofList (c :: pattern), String.ofList value)
  | _ => .error (.invalidArgument flag argument)

/-- The value a text stands for, or else the text as a string. -/
def setValue (text : String) : Json := (Json.parse? text).getD (.str text)

namespace RuleSources

/-- Adds the rule of an assignment. -/
def addAssignment (flag : AssignmentFlag) (action : String → Action) (b : RuleBuilder)
    (argument : String) : Except ConfigError RuleBuilder :=
  match splitAssignment flag argument with
  | .error e => .error e
  | .ok (pattern, value) => b.addAction pattern (action value)

/-- All rules: those of the file, then those that rename, remove and set. -/
def build (sources : RuleSources) : Except ConfigError RuleSet := do
  let b ← (sources.file.getD []).applyTo .new
  let b ← sources.rename.foldlM (addAssignment .rename .rename) b
  let b ← sources.remove.foldlM (fun b pattern => b.addAction pattern .remove) b
  let b ← sources.set.foldlM (addAssignment .set fun text => .replace (setValue text)) b
  return b.rules

end RuleSources

end JsonEdit
