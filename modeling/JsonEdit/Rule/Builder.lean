import JsonEdit.Pattern.Compile
import JsonEdit.Rule.Handler

/-!
# Setting up rules

Rules are added one after the other. Patterns given as text are compiled when their rule is added,
within the limits set before.

* `RuleBuilder.add`: a rule with any matcher;
* `RuleBuilder.on`: a rule for a pattern given as text;
* `RuleBuilder.withLimits`: other limits for the patterns that follow.
-/

namespace JsonEdit

/-- Rules being set up. -/
structure RuleBuilder where
  rules : RuleSet
  limits : PatternLimits

namespace RuleBuilder

/-- No rules, and the usual limits. -/
def new : RuleBuilder := ⟨[], .standard⟩

/-- Other limits for the patterns that follow. -/
def withLimits (b : RuleBuilder) (limits : PatternLimits) : Except PatternError RuleBuilder :=
  limits.validate.map fun _ => { b with limits }

/-- Adds a rule. -/
def add (b : RuleBuilder) (matcher : Matcher) (handler : Handler) : RuleBuilder :=
  { b with rules := b.rules ++ [⟨matcher, handler⟩] }

/-- Adds a rule for a pattern. -/
def on (b : RuleBuilder) (pattern : String) (handler : Handler) : Except PatternError RuleBuilder :=
  (Pattern.compile b.limits pattern).map fun p => b.add (.pattern p) handler

end RuleBuilder

end JsonEdit
