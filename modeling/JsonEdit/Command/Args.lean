/-!
# Command line arguments

Arguments are read from left to right; the first problem ends the reading. An option with a value
takes it after `=`, directly behind its letter, or from the next argument unless that looks like an
option itself. After `--` nothing is an option.

* `Switch`, `Setting`: the options without a value, and those with one;
* `Arguments`: what has been read;
* `Invocation.parse`: what the arguments ask for.
-/

namespace JsonEdit

/-- The commands. -/
inductive CommandName
  /-- Edits a document. -/
  | edit
  /-- Lists the nodes of a document. -/
  | paths
deriving DecidableEq, Repr

/-- The options without a value. -/
inductive Switch
  | verbose
  | help
  | version
  | flush
  | progress
  | summary
deriving DecidableEq, Repr

/-- The options with a value. -/
inductive Setting
  | output
  | rules
  | rename
  | remove
  | set
  | maxDepth
  | pattern
deriving DecidableEq, Repr

/-- Why the reading of arguments ends early. -/
inductive Halt
  /-- The arguments are not those of the program. -/
  | usage
  /-- The arguments ask for help. -/
  | help
  /-- The arguments ask for the version. -/
  | version
deriving DecidableEq, Repr

/-- What has been read of the arguments of a command. -/
structure Arguments where
  input : Option String
  output : Option String
  rulesFile : Option String
  rename : List String
  remove : List String
  set : List String
  maxDepth : Option Nat
  pattern : Option String
  flush : Bool
  progress : Bool
  summary : Bool
deriving DecidableEq, Repr

namespace Arguments

/-- Nothing read yet. -/
def empty : Arguments := ⟨none, none, none, [], [], [], none, none, false, false, false⟩

/-- The number that digits stand for, behind an optional plus, if it has at most 64 bits. -/
def number? (text : String) : Option Nat :=
  let digits := match text.toList with
    | '+' :: rest => rest
    | text => text
  if digits.isEmpty || !digits.all Char.isDigit then none
  else
    let n := digits.foldl (fun n c => 10 * n + (c.toNat - 48)) 0
    if n ≤ 18446744073709551615 then some n else none

/-- A value that may be given only once. -/
def once {α : Type} (old : Option α) (new : Option α) : Except Halt (Option α) :=
  match old, new with
  | none, some value => .ok (some value)
  | _, _ => .error .usage

/-- A file name is not empty. -/
def fileName? (text : String) : Option String := if text.isEmpty then none else some text

/-- Reads an option with its value. -/
def assign (a : Arguments) (value : String) : Setting → Except Halt Arguments
  | .output => (once a.output (fileName? value)).map fun output => { a with output }
  | .rules => (once a.rulesFile (fileName? value)).map fun rulesFile => { a with rulesFile }
  | .rename => .ok { a with rename := a.rename ++ [value] }
  | .remove => .ok { a with remove := a.remove ++ [value] }
  | .set => .ok { a with set := a.set ++ [value] }
  | .maxDepth => (once a.maxDepth (number? value)).map fun maxDepth => { a with maxDepth }
  | .pattern => (once a.pattern (some value)).map fun pattern => { a with pattern }

/-- Reads an option without a value; all but one may be given only once. -/
def enable (a : Arguments) : Switch → Except Halt Arguments
  | .verbose => .ok a
  | .help => .error .help
  | .version => .error .version
  | .flush => if a.flush then .error .usage else .ok { a with flush := true }
  | .progress => if a.progress then .error .usage else .ok { a with progress := true }
  | .summary => if a.summary then .error .usage else .ok { a with summary := true }

/-- Reads an argument that is no option: the input. -/
def addInput (a : Arguments) (text : String) : Except Halt Arguments :=
  (once a.input (fileName? text)).map fun input => { a with input }

end Arguments

/-! ## The options of each command -/

/-- Any option. -/
inductive Choice
  | switch (s : Switch)
  | setting (s : Setting)

/-- The option with a long name. -/
def CommandName.long? : CommandName → String → Option Choice
  | _, "verbose" => some (.switch .verbose)
  | _, "help" => some (.switch .help)
  | .edit, "output" => some (.setting .output)
  | .edit, "rules" => some (.setting .rules)
  | .edit, "rename" => some (.setting .rename)
  | .edit, "remove" => some (.setting .remove)
  | .edit, "set" => some (.setting .set)
  | .edit, "max-depth" => some (.setting .maxDepth)
  | .edit, "flush" => some (.switch .flush)
  | .edit, "progress" => some (.switch .progress)
  | .edit, "summary" => some (.switch .summary)
  | .paths, "pattern" => some (.setting .pattern)
  | _, _ => none

/-- The option with a letter. -/
def CommandName.short? : CommandName → Char → Option Choice
  | _, 'v' => some (.switch .verbose)
  | _, 'h' => some (.switch .help)
  | .edit, 'o' => some (.setting .output)
  | _, _ => none

/-- Whether an argument looks like an option and cannot be the value of one. -/
def looksLikeOption (text : String) : Bool :=
  match text.toList with
  | '-' :: _ :: _ => true
  | _ => false

/-- Reads the letters of an argument; the last may be an option that waits for its value. -/
def readLetters (name : CommandName) (a : Arguments) :
    List Char → Except Halt (Arguments × Option Setting)
  | [] => .ok (a, none)
  | c :: rest =>
    match name.short? c with
    | none => .error .usage
    | some (.switch s) => (a.enable s).bind fun a => readLetters name a rest
    | some (.setting s) =>
      match rest with
      | [] => .ok (a, some s)
      | '=' :: value => (a.assign (String.ofList value) s).map (·, none)
      | value => (a.assign (String.ofList value) s).map (·, none)

/-- Reads a long option, written with its value or not. -/
def readLong (name : CommandName) (a : Arguments) (text : List Char) :
    Except Halt (Arguments × Option Setting) :=
  let (long, value) := text.span (· != '=')
  match name.long? (String.ofList long), value with
  | none, _ => .error .usage
  | some (.switch s), [] => (a.enable s).map (·, none)
  | some (.switch _), _ :: _ => .error .usage
  | some (.setting s), [] => .ok (a, some s)
  | some (.setting s), _ :: value => (a.assign (String.ofList value) s).map (·, none)

/-- Reads one argument; the answer says which option takes the next one as its value. -/
def readArgument (name : CommandName) (a : Arguments) (text : String) :
    Except Halt (Arguments × Option Setting) :=
  match text.toList with
  | '-' :: '-' :: long => readLong name a long
  | '-' :: c :: letters => readLetters name a (c :: letters)
  | _ => (a.addInput text).map (·, none)

/-- Reads the arguments of a command. The option `waiting` takes the next one as its value. -/
def readArguments (name : CommandName) (a : Arguments) (waiting : Option Setting) :
    List String → Except Halt Arguments
  | [] => if waiting.isSome then .error .usage else .ok a
  | text :: rest =>
    match waiting with
    | some s =>
      if looksLikeOption text then .error .usage
      else (a.assign text s).bind fun a => readArguments name a none rest
    | none =>
      if text = "--" then rest.foldlM Arguments.addInput a
      else
        match readArgument name a text with
        | .error cause => .error cause
        | .ok (a, waiting) => readArguments name a waiting rest

/-! ## The whole line -/

/-- What the arguments ask for. -/
inductive Invocation
  | halt (cause : Halt)
  | command (name : CommandName) (arguments : Arguments)
deriving DecidableEq, Repr

namespace Invocation

/-- Reads the letters of an argument before the command. -/
def readLeadingLetters : List Char → Option Halt
  | [] => none
  | 'v' :: rest => readLeadingLetters rest
  | 'h' :: _ => some .help
  | 'V' :: _ => some .version
  | _ => some .usage

/-- The help command, which takes the name of a command. -/
def help : List String → Halt
  | [] | ["rewrite"] | ["paths"] | ["help"] => .help
  | _ => .usage

/-- What the arguments ask for. -/
def parse : List String → Invocation
  | [] => .halt .usage
  | text :: rest =>
    if text = "rewrite" then ofCommand .edit rest
    else if text = "paths" then ofCommand .paths rest
    else if text = "help" then .halt (help rest)
    else if text = "--verbose" then parse rest
    else if text = "--help" then .halt .help
    else if text = "--version" then .halt .version
    else
      match text.toList with
      | '-' :: '-' :: _ => .halt .usage
      | '-' :: c :: letters =>
        match readLeadingLetters (c :: letters) with
        | some cause => .halt cause
        | none => parse rest
      | _ => .halt .usage
where
  /-- A command with its arguments. -/
  ofCommand (name : CommandName) (rest : List String) : Invocation :=
    match readArguments name .empty none rest with
    | .ok a => .command name a
    | .error cause => .halt cause

end Invocation

end JsonEdit
