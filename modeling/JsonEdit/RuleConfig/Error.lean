import JsonEdit.Pattern.Error

/-!
# Why rules cannot be set up

* `EntryFault`: why an entry of a rules file says no action;
* `ConfigError`: the causes;
* `ConfigError.message?`: the wording, where the cause fixes it.
-/

namespace JsonEdit

/-- Why an entry of a rules file says no action. -/
inductive EntryFault
  /-- It removes and changes. -/
  | contradictory
  /-- It asks for nothing. -/
  | noAction
deriving DecidableEq, Repr

/-- The wording of a fault. -/
def EntryFault.message : EntryFault → String
  | .contradictory => "remove cannot be combined with rename or value"
  | .noAction => "rule has no action; set rename, remove or value"

/-- The flags whose arguments are assignments. -/
inductive AssignmentFlag
  | rename
  | set
deriving DecidableEq, Repr

/-- The flag as it is written. -/
def AssignmentFlag.text : AssignmentFlag → String
  | .rename => "--rename"
  | .set => "--set"

/-- Why rules cannot be set up. -/
inductive ConfigError
  /-- The rules file cannot be read. -/
  | unreadable
  /-- The rules file is not the TOML it should be. -/
  | invalidToml
  /-- The rules file is not the JSON it should be. -/
  | invalidJson
  /-- An entry of the rules file says no action; entries count from 1. -/
  | invalidRule (index : Nat) (path : String) (fault : EntryFault)
  /-- An argument is not an assignment. -/
  | invalidArgument (flag : AssignmentFlag) (argument : String)
  | pattern (e : PatternError)
deriving DecidableEq, Repr

/-- The wording of an error, where its cause fixes it. -/
def ConfigError.message? : ConfigError → Option String
  | .unreadable | .invalidToml | .invalidJson => none
  | .invalidRule index path fault => some (s!"Rule #{index} ({path}): " ++ fault.message)
  | .invalidArgument flag argument =>
    some (s!"Invalid {flag.text} argument '{argument}': expected PATTERN=VALUE")
  | .pattern e => some e.message

end JsonEdit
