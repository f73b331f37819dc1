import JsonEdit.Command.Run
import JsonEdit.Stream.Report

/-!
# The program

The command line: reads the files that the arguments name and the standard input, runs the command,
and writes what it leaves behind.
-/

namespace JsonEdit

/-- The names of the files that a command line may read. -/
def filesRead (arguments : List String) : List String :=
  match Invocation.parse arguments with
  | .command _ a => a.input.toList ++ a.rulesFile.toList
  | .halt _ => []

/-- Whether a command line may read the standard input. -/
def readsStdin (arguments : List String) : Bool :=
  match Invocation.parse arguments with
  | .command _ a => match inputPlace a.input with
    | .stdin => true
    | _ => false
  | .halt _ => false

/-- The name of the file that a command line may write. -/
def fileWritten? (arguments : List String) : Option String :=
  match Invocation.parse arguments with
  | .command .edit a => match outputPlace a.output with
    | .file name => some name
    | _ => none
  | _ => none

/-- The bytes of a file, if it can be read. -/
def readFile? (name : String) : IO (Option (List UInt8)) := do
  try
    let bytes ← IO.FS.readBinFile name
    return some bytes.toList
  catch _ => return none

/-- The location that a way leads to, if there is anything. -/
def realPath? (way : String) : IO (Option String) := do
  try
    let location ← IO.FS.realPath way
    return some location.toString
  catch _ => return none

/-- The files of the given names, and the folders on the way to them. Symbolic links are followed;
a file with several hard links counts as several files. -/
def readFiles (names : List String) : IO Files := do
  let working := (← realPath? ".").getD ""
  let mut contents : List (String × List UInt8) := []
  let mut steps : List ((String × String) × String) := []
  let mut folders : List String := []
  for text in names do
    let name := FileName.ofString text
    let mut location := if name.fromRoot then "/" else working
    for step in name.steps do
      if (← realPath? (location ++ "/.")).isSome then
        folders := location :: folders
      let way := location ++ "/" ++ step
      let next := (← realPath? way).getD way
      steps := ((location, step), next) :: steps
      location := next
    if (← realPath? (location ++ "/.")).isSome then
      folders := location :: folders
    if let some bytes ← readFile? text then
      contents := (location, bytes) :: contents
  let ways : Folders :=
    { working, root := "/", mayWrite := fun _ => true,
      next := fun folder step => (steps.lookup (folder, step)).getD (folder ++ "/" ++ step) }
  return { folders := ways, contents := fun location => contents.lookup location,
           isFolder := folders.contains }

end JsonEdit

open JsonEdit in
/-- Runs the command line. -/
def main (arguments : List String) : IO UInt32 := do
  let written := fileWritten? arguments
  let files ← readFiles (filesRead arguments ++ written.toList)
  let stdin ←
    if readsStdin arguments then (← IO.getStdin).readBinToEnd else pure ByteArray.empty
  let outcome := runCommandLine arguments ⟨files, stdin.toList⟩
  if let some name := written then
    if outcome.files.read? name ≠ files.read? name then
      if let some bytes := outcome.files.read? name then
        IO.FS.writeBinFile name bytes.toByteArray
  let stdout ← IO.getStdout
  stdout.write outcome.stdout.toByteArray
  stdout.flush
  if let some summary := outcome.summary then
    IO.eprintln summary.toJson.compact
  return outcome.exit.toUInt32
