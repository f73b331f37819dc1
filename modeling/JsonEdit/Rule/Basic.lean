import JsonEdit.Event
import JsonEdit.Pattern.Basic
import JsonEdit.Regex.Match

/-!
# Rules

A rule is a test of paths and a handler that says what to do with a node. Of the rules in a list
the first whose test accepts a node's path decides.

* `Node`, `Action`, `Handler`: what a handler is given and what it answers;
* `Matcher`: the tests of paths, each with a label;
* `RuleSet.first?`: the rule that decides.
-/

namespace JsonEdit

/-- A node of the document, as a handler sees it. -/
structure Node where
  kind : NodeKind
  /-- The key the node stands under; the root has none. -/
  key : Option String
  path : Path
  /-- The value of a scalar. -/
  value : Option Json
deriving Repr

/-- What to do with a node. -/
inductive Action
  /-- Keep it as it is. -/
  | pass
  /-- Keep it under another name. -/
  | rename (key : String)
  /-- Drop it with everything below it. -/
  | remove
  /-- Put another value in its place. -/
  | replace (value : Json)
  /-- Put another value in its place, under another name. -/
  | renameReplace (key : String) (value : Json)
deriving Repr

namespace Action

/-- The new name, if the action gives one. -/
def newKey? : Action → Option String
  | .rename key | .renameReplace key _ => some key
  | _ => none

/-- The new value, if the action gives one. -/
def newValue? : Action → Option Json
  | .replace value | .renameReplace _ value => some value
  | _ => none

/-- Whether the action drops the node. -/
def drops : Action → Bool
  | .remove => true
  | _ => false

end Action

/-- Says what to do with a node, or fails with a message. -/
abbrev Handler := Node → Except String Action

/-- A test of paths. -/
inductive Matcher
  | pattern (p : Pattern)
  /-- A regular expression, looked for in the keys joined by dots. -/
  | regex (r : Regex)
  /-- Any test at all, under a label. -/
  | predicate (label : String) (test : Path → Bool)

namespace Matcher

/-- Whether a path passes the test. -/
def accepts : Matcher → Path → Bool
  | .pattern p, path => p.accepts path
  | .regex r, path => r.foundIn path.joined
  | .predicate _ holds, path => holds path

/-- The label of a test in diagnostics. -/
def label : Matcher → String
  | .pattern p => p.source
  | .regex r => "/" ++ r.source ++ "/"
  | .predicate text _ => text

end Matcher

/-- A test of paths with the handler of the nodes it accepts. -/
structure Rule where
  matcher : Matcher
  handler : Handler

/-- Rules in the order they were given. -/
abbrev RuleSet := List Rule

namespace RuleSet

/-- The first rule that accepts a path, with its position; positions count from `start`. -/
def firstFrom? (path : Path) : Nat → RuleSet → Option (Nat × Rule)
  | _, [] => none
  | start, rule :: rules =>
    if rule.matcher.accepts path then some (start, rule) else firstFrom? path (start + 1) rules

/-- The first rule that accepts a path, with its position. -/
def first? (rules : RuleSet) (path : Path) : Option (Nat × Rule) := firstFrom? path 0 rules

/-- The labels of the rules. -/
def labels (rules : RuleSet) : List String := rules.map fun rule => rule.matcher.label

end RuleSet

/-! ## In diagnostics -/

/-- A test with a label as diagnostics show it. -/
def describePredicate (label : String) : String :=
  "FnMatcher \x7b label: " ++ quoted label ++ ", .. \x7d"

/-- A rule as diagnostics show it. -/
def Rule.describe (rule : Rule) : String :=
  "Rule \x7b matcher: " ++ quoted rule.matcher.label ++ ", .. \x7d"

/-- Rules as diagnostics show them. -/
def RuleSet.describe (rules : RuleSet) : String :=
  "RuleSet \x7b rules: [" ++ ", ".intercalate (rules.map Rule.describe) ++ "] \x7d"

end JsonEdit
