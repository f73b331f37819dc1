import JsonEdit.Command.Args
import JsonEdit.RuleConfig.Sources
import JsonEdit.Stream.Request

/-!
# Running a command

What a command does, as a function of the files and the standard input.

* `Surroundings`, `Outcome`: what a run starts from and what it leaves behind;
* `runEdit`: the command that edits a document;
* `runPaths`: the command that lists the nodes of a document;
* `runCommandLine`: any command line.
-/

namespace JsonEdit

/-- What a run starts from. -/
structure Surroundings where
  files : Files
  stdin : List UInt8

/-- What a run leaves behind. -/
structure Outcome where
  /-- The exit status: 0 for success, 1 for failure, 2 for arguments that are not understood. -/
  exit : Nat
  stdout : List UInt8
  files : Files
  /-- The counts of a successful edit, if they were asked for. -/
  summary : Option Summary

namespace Surroundings

/-- A run that fails before it has touched anything. -/
def failed (s : Surroundings) : Outcome := ⟨1, [], s.files, none⟩

/-- A run that stops at its arguments. -/
def halted (s : Surroundings) : Halt → Outcome
  | .usage => ⟨2, [], s.files, none⟩
  | .help => ⟨0, utf8 helpText, s.files, none⟩
  | .version => ⟨0, utf8 "jsplice 0.1.0\n", s.files, none⟩
where
  /-- How the program is used. -/
  helpText : String :=
    "Streaming JSON rewrite tool\n\nUsage: jsplice [OPTIONS] <COMMAND>\n\nCommands:\n" ++
    "  rewrite  Rewrite a JSON document\n  paths    Print the path and kind of every node\n"

end Surroundings

/-- The place a document is read from; a hyphen is the standard input. -/
def inputPlace : Option String → InputPlace
  | none => .stdin
  | some name => if FileName.isHyphen name then .stdin else .file name

/-- The place a document goes to; a hyphen is the standard output. -/
def outputPlace : Option String → OutputPlace
  | none => .stdout
  | some name => if FileName.isHyphen name then .stdout else .file name

/-- The rules that arguments ask for. -/
def rulesOf (a : Arguments) (files : Files) : Except ConfigError RuleSet := do
  let file ← match a.rulesFile with
    | none => .ok none
    | some name => (RulesFile.load name (files.read? name)).map some
  RuleSources.build ⟨file, a.rename, a.remove, a.set⟩

/-- The exit status of a result. -/
def exitOf {ε α : Type} : Except ε α → Nat
  | .ok _ => 0
  | .error _ => 1

/-- Edits a document. -/
def runEdit (a : Arguments) (s : Surroundings) : Outcome :=
  match rulesOf a s.files with
  | .error _ => s.failed
  | .ok rules =>
    let output := outputPlace a.output
    let options : StreamOptions := ⟨a.maxDepth.getD DepthLimit.standard, none, a.flush⟩
    let done := Request.execute ⟨inputPlace a.input, output, options⟩ rules s.files s.stdin
    let stdout := match output with
      | .stdout => done.output.taken.toList
      | _ => []
    ⟨exitOf done.result, stdout, done.files, if a.summary then done.result.toOption else none⟩

/-- The line that lists a node. -/
def nodeLine (node : Node) : String := node.path.display ++ "\t" ++ node.kind.name ++ "\n"

/-- The test that listed nodes pass. -/
def listedBy : Option String → Except PatternError Matcher
  | none => .ok (.predicate "every node" fun _ => true)
  | some pattern => (Pattern.compile .standard pattern).map .pattern

/-- Lists nodes of a document. -/
def runPaths (a : Arguments) (s : Surroundings) : Outcome :=
  match listedBy a.pattern with
  | .error _ => s.failed
  | .ok matcher =>
    let request : Request := ⟨inputPlace a.input, .sink .unlimited, .standard⟩
    let done := request.execute [⟨matcher, .always .pass⟩] s.files s.stdin
    let lines := done.calls.toList.map fun call => nodeLine call.node
    ⟨exitOf done.result, lines.flatMap utf8, done.files, none⟩

/-- Runs a command line. -/
def runCommandLine (arguments : List String) (s : Surroundings) : Outcome :=
  match Invocation.parse arguments with
  | .halt cause => s.halted cause
  | .command .edit a => runEdit a s
  | .command .paths a => runPaths a s

end JsonEdit
