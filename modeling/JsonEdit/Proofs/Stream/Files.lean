import JsonEdit.Stream.Files
import Mathlib.Tactic.SplitIfs

/-!
# Names of one file

Names are one file if they lead to one location, whatever the way there. New contents under one
name are read under all of them, and no other name leads to anything new.

* `Files.SameFile`: names of one file;
* `Files.locate?_put`: new contents move nothing;
* **`Files.find_put_of_same`**, **`Files.find_put_of_not_same`**: what is found afterwards.
-/

namespace JsonEdit

namespace Files

/-- Two names lead to the same location. -/
def SameFile (files : Files) (name other : String) : Prop :=
  ∃ location, files.locate? name = some location ∧ files.locate? other = some location

instance (files : Files) (name other : String) : Decidable (files.SameFile name other) :=
  decidable_of_iff (∃ location ∈ files.locate? name, files.locate? other = some location) Iff.rfl

variable {files : Files} {name other : String} {bytes : List UInt8}

/-! ## New contents -/

@[simp] theorem isFolder_put : (files.put name bytes).isFolder = files.isFolder := rfl

theorem contents_put (location : String) : (files.put name bytes).contents location =
    if files.locate? name = some location then some bytes else files.contents location := rfl

@[simp] theorem walk_put (steps : List String) (location : String) :
    (files.put name bytes).walk location steps = files.walk location steps := by
  induction steps generalizing location with
  | nil => rfl
  | cons step steps ih =>
    simp only [walk, ih, isFolder_put]
    rfl

@[simp] theorem locate?_put : (files.put other bytes).locate? name = files.locate? name :=
  walk_put _ _

@[simp] theorem canWrite_put : (files.put other bytes).canWrite name = files.canWrite name := by
  simp only [canWrite, locate?_put, isFolder_put]
  rfl

@[simp] theorem sameFile_put {first second : String} :
    (files.put other bytes).SameFile first second ↔ files.SameFile first second := by
  simp [SameFile]

/-- **A file is read under each of its names.** -/
theorem find_put_of_same (h : files.SameFile name other)
    (hn : (FileName.ofString name).toFolder = false) (bytes : List UInt8) :
    (files.put other bytes).find name = .file bytes := by
  obtain ⟨location, hname, hother⟩ := h
  simp only [find, locate?_put, hname, hn, contents_put, if_pos hother]

/-- **New contents of a file** are seen under none but its own names. -/
theorem find_put_of_not_same (h : ¬ files.SameFile name other) (bytes : List UInt8) :
    (files.put other bytes).find name = files.find name := by
  rcases hname : files.locate? name with _ | location
  · simp only [find, locate?_put, hname]
  · have hother : files.locate? other ≠ some location := fun ho => h ⟨location, hname, ho⟩
    simp only [find, locate?_put, hname, contents_put, if_neg hother, isFolder_put]
    rfl

/-! ## Files that are there, and files that can be -/

theorem toFolder_of_find (h : files.find name = .file bytes) :
    (FileName.ofString name).toFolder = false := by
  unfold find at h
  split at h
  · cases h
  · split at h
    · assumption
    · split_ifs at h

theorem canWrite_iff : files.canWrite name = true ↔
    (FileName.ofString name).toFolder = false ∧ ∃ location, files.locate? name = some location ∧
      files.isFolder location = false ∧ files.folders.mayWrite location = true := by
  rcases hname : files.locate? name with _ | location
  · simp [canWrite, hname]
  · simp [canWrite, hname, and_assoc]

theorem read?_put (h : files.canWrite name = true) (bytes : List UInt8) :
    (files.put name bytes).read? name = some bytes := by
  obtain ⟨hn, location, hname, -⟩ := canWrite_iff.mp h
  rw [read?, find_put_of_same ⟨location, hname, hname⟩ hn]

/-! ## Names of a single step -/

theorem locate?_step (hn : FileName.ofString name = ⟨false, [name], false⟩)
    (hw : files.isFolder files.folders.working = true) :
    files.locate? name = some (files.folders.next files.folders.working name) := by
  simp [locate?, hn, walk, hw]

theorem find_step (hn : FileName.ofString name = ⟨false, [name], false⟩)
    (hw : files.isFolder files.folders.working = true)
    (hb : files.contents (files.folders.next files.folders.working name) = some bytes) :
    files.find name = .file bytes := by
  simp only [find, locate?_step hn hw, hn, hb]

end Files

end JsonEdit
