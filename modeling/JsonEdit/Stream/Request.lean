import JsonEdit.Sink.Bounded
import JsonEdit.Source.Pieces
import JsonEdit.Stream.Basic
import JsonEdit.Stream.Files
import JsonEdit.Text.Quoted

/-!
# Requests

A request says where a document is read from and where it goes: files, the standard streams, or a
given source or sink.

* `InputPlace`, `OutputPlace`: such places;
* `Request`, `Request.execute`: an edit between such places.
-/

namespace JsonEdit

/-! ## Places -/

/-- Where a document is read from. -/
inductive InputPlace
  | file (name : String)
  | stdin
  | source (source : Pieces)

/-- Where a document goes. -/
inductive OutputPlace
  /-- A file, created or emptied first. -/
  | file (name : String)
  | stdout
  | sink (sink : Bounded)

/-- A place as diagnostics show it. -/
def InputPlace.describe : InputPlace → String
  | .file name => "Path(" ++ quoted name ++ ")"
  | .stdin => "Stdin"
  | .source _ => "Reader(..)"

/-- A place as diagnostics show it. -/
def OutputPlace.describe : OutputPlace → String
  | .file name => "Path(" ++ quoted name ++ ")"
  | .stdout => "Stdout"
  | .sink _ => "Writer(..)"

/-! ## Executing -/

/-- An edit between two places. -/
structure Request where
  input : InputPlace
  output : OutputPlace
  options : StreamOptions

/-- What an executed request leaves behind. -/
structure Executed where
  result : Except EditError Summary
  calls : Array Call
  /-- What the output place has taken. -/
  output : Bounded
  files : Files

/-- The cause reported for a file that is not there. -/
def noSuchFile : EditError := .transfer "No such file or directory (os error 2)"

/-- Nothing is done, for a cause. -/
def Request.refuse (cause : EditError) (files : Files) : Executed :=
  ⟨.error cause, #[], .unlimited, files⟩

/-- Reads from a source and writes to the output place. A file is emptied before anything is
read. -/
def Request.executeFrom (request : Request) (rules : RuleSet) (files : Files)
    (source : Files → Pieces) : Executed :=
  match request.output with
  | .file name =>
    if files.canWrite name then
      let run := editStream rules request.options (source (files.put name [])) Bounded.unlimited
      ⟨run.result, run.calls, run.sink, files.put name run.sink.taken.toList⟩
    else refuse noSuchFile files
  | .stdout =>
    let run := editStream rules request.options (source files) Bounded.unlimited
    ⟨run.result, run.calls, run.sink, files⟩
  | .sink sink =>
    let run := editStream rules request.options (source files) sink
    ⟨run.result, run.calls, run.sink, files⟩

/-- Executes a request: the input has to be there before the output is touched. A folder is there
but cannot be read. -/
def Request.execute (request : Request) (rules : RuleSet) (files : Files) (stdin : List UInt8) :
    Executed :=
  match request.input with
  | .file name =>
    match files.find name with
    | .nothing => refuse noSuchFile files
    | .folder => request.executeFrom rules files fun _ => ⟨[], none, some 0⟩
    | .file _ => request.executeFrom rules files fun files => .whole ((files.read? name).getD [])
  | .stdin => request.executeFrom rules files fun _ => .whole stdin
  | .source source => request.executeFrom rules files fun _ => source

end JsonEdit
