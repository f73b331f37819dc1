/-!
# Files

A file name is a way through folders. Where a step leads is up to the folders: links are followed,
so that different names may lead to one location, and what is written under one name is read under
all of them. Steps that are empty or a single dot stay where they are.

* `FileName`: the steps of a name;
* `Folders`: how steps lead on;
* `Files`, `Files.locate?`, `Files.find`: where a name leads, and what is there;
* `Files.canWrite`, `Files.put`: new contents for a file.
-/

namespace JsonEdit

/-! ## Names -/

/-- The steps of a file name. -/
structure FileName where
  /-- The way starts at the root of all folders and not in the working folder. -/
  fromRoot : Bool
  /-- The steps that lead on. -/
  steps : List String
  /-- The last step stays where it is, so that the way has to end in a folder. -/
  toFolder : Bool
deriving DecidableEq, Repr

namespace FileName

/-- A step that stays in its folder. -/
def stays (step : String) : Bool := step == "" || step == "."

/-- The steps of a text. -/
def ofString (text : String) : FileName :=
  let steps := (text.toList.splitOn '/').map String.ofList
  ⟨text.toList.head? == some '/', steps.filter fun step => !stays step, steps.getLast?.any stays⟩

/-- The shortest text with the same steps. -/
def plain (name : FileName) : String :=
  (if name.fromRoot then "/" else "") ++ "/".intercalate name.steps

/-- The folder that the last step starts from. -/
def folder (name : FileName) : FileName := ⟨name.fromRoot, name.steps.dropLast, true⟩

/-- One step further, where no step is a link: two dots take the last step back. -/
def child (name : FileName) (step : String) : FileName :=
  if step = ".." then
    if name.steps.getLast?.any (· != "..") then name.folder
    else if name.fromRoot then name
    else ⟨false, name.steps ++ [".."], true⟩
  else ⟨name.fromRoot, name.steps ++ [step], false⟩

/-- A single hyphen, which names a standard stream. Only steps that stay may follow it. -/
def isHyphen (text : String) : Bool :=
  text.toList.head? == some '-' && (ofString text).steps == ["-"]

end FileName

/-! ## Folders -/

/-- How steps lead from folder to folder. Links are followed, so that different steps may lead to
one location. -/
class Folders where
  /-- The folder that names start from. -/
  working : String
  /-- The folder that names with a slash in front start from. -/
  root : String
  /-- The location that a step from a folder leads to, whether or not anything is there. -/
  next : String → String → String
  /-- A file at this location may be created or written. -/
  mayWrite : String → Bool

/-- Folders without links, where a location is the plain text of the way there. No way from outside
is known to lead into the working folder. -/
instance Folders.unlinked : Folders where
  working := ""
  root := "/"
  next := fun folder step => ((FileName.ofString folder).child step).plain
  mayWrite := fun _ => true

/-! ## Contents -/

/-- The files and folders, by their locations. -/
structure Files where
  [folders : Folders]
  /-- What each file holds; a location without a file has nothing. -/
  contents : String → Option (List UInt8)
  isFolder : String → Bool

/-- What a name leads to. -/
inductive Found
  | nothing
  | folder
  | file (bytes : List UInt8)
deriving DecidableEq, Repr

namespace Files

/-- Where steps lead from a location. Each of them starts from a folder. -/
def walk (files : Files) (location : String) : List String → Option String
  | [] => some location
  | step :: steps =>
    if files.isFolder location then files.walk (files.folders.next location step) steps else none

/-- Where a name leads. -/
def locate? (files : Files) (text : String) : Option String :=
  let name := FileName.ofString text
  files.walk (if name.fromRoot then files.folders.root else files.folders.working) name.steps

/-- What a name leads to. -/
def find (files : Files) (text : String) : Found :=
  match files.locate? text with
  | none => .nothing
  | some location =>
    match (FileName.ofString text).toFolder, files.contents location with
    | false, some bytes => .file bytes
    | _, _ => if files.isFolder location then .folder else .nothing

/-- What the file of a name holds. -/
def read? (files : Files) (text : String) : Option (List UInt8) :=
  match files.find text with
  | .file bytes => some bytes
  | _ => none

/-- Whether a file of this name can be created or written. -/
def canWrite (files : Files) (text : String) : Bool :=
  match files.locate? text with
  | none => false
  | some location =>
    !(FileName.ofString text).toFolder && !files.isFolder location &&
      files.folders.mayWrite location

/-- A file gets new contents, under every name that leads to it. -/
def put (files : Files) (text : String) (bytes : List UInt8) : Files :=
  { files with contents := fun location =>
      if files.locate? text = some location then some bytes else files.contents location }

end Files

end JsonEdit
