import JsonEdit.Proofs.Command.Refusal
import JsonEdit.Proofs.Stream.Writing

/-!
# Editing one file into another

An edit of a file into another one is a stream of the bytes that the first had when the command
started, and the second then holds what the stream has written, whether it came to its end or not.
The output is emptied before anything is read. So a file that is edited into itself, under whatever
name, has no bytes left to read, and none afterwards.

* `leftToRead`, `execute_fileToFile`: a request from one file to another;
* **`edits_file_to_file`**: the command.
-/

namespace JsonEdit

open Keeper

/-! ## From file to file -/

section FileToFile

variable {request : Request} {rules : RuleSet} {files : Files} {input output : String}
  {bytes : List UInt8}

/-- What is left to read of a file when the output is there. -/
def leftToRead (files : Files) (input output : String) (bytes : List UInt8) : List UInt8 :=
  if files.SameFile input output then [] else bytes

theorem read?_put_input (hf : files.find input = .file bytes) (output : String) :
    (files.put output []).read? input = some (leftToRead files input output bytes) := by
  unfold Files.read? leftToRead
  split_ifs with hsame
  · rw [Files.find_put_of_same hsame (Files.toFolder_of_find hf)]
  · rw [Files.find_put_of_not_same hsame, hf]

theorem execute_fileToFile (hi : request.input = .file input) (ho : request.output = .file output)
    (hf : files.find input = .file bytes) (hw : files.canWrite output = true)
    (stdin : List UInt8) :
    let run := editStream rules request.options
      (Pieces.whole (leftToRead files input output bytes)) Bounded.unlimited
    request.execute rules files stdin =
      ⟨run.result, run.calls, run.sink, files.put output run.sink.taken.toList⟩ := by
  simp only [Request.execute, hi, hf, Request.executeFrom, ho, hw, if_true, read?_put_input hf,
    Option.getD_some]

variable {a : Arguments} {s : Surroundings}

theorem runEdit_fileToFile (hr : rulesOf a s.files = .ok rules)
    (hi : inputPlace a.input = .file input) (ho : outputPlace a.output = .file output)
    (hf : s.files.find input = .file bytes) (hw : s.files.canWrite output = true) :
    let run := editStream rules ⟨a.maxDepth.getD DepthLimit.standard, none, a.flush⟩
      (Pieces.whole (leftToRead s.files input output bytes)) Bounded.unlimited
    runEdit a s = ⟨exitOf run.result, [], s.files.put output run.sink.taken.toList,
      if a.summary then run.result.toOption else none⟩ := by
  intro run
  let request : Request := ⟨inputPlace a.input, .file output,
    ⟨a.maxDepth.getD DepthLimit.standard, none, a.flush⟩⟩
  have hexec : request.execute rules s.files s.stdin = _ := execute_fileToFile hi rfl hf hw s.stdin
  simp only [runEdit, hr, ho]
  rw [show Request.execute _ rules s.files s.stdin = _ from hexec]

theorem runEdit_of_not_canWrite (hr : rulesOf a s.files = .ok rules)
    (hi : inputPlace a.input = .file input) (ho : outputPlace a.output = .file output)
    (hf : s.files.find input = .file bytes) (hw : s.files.canWrite output = false) :
    runEdit a s = ⟨1, [], s.files, none⟩ := by
  simp only [runEdit, hr, Request.execute, hi, hf, Request.executeFrom, ho, hw,
    Bool.false_eq_true, if_false, Request.refuse]
  cases a.summary <;> rfl

theorem exitOf_eq_zero {ε α : Type} {result : Except ε α} :
    exitOf result = 0 ↔ ∃ x, result = .ok x := by
  cases result <;> simp [exitOf]

end FileToFile

/-- **An edit of one file into another** is a stream of the bytes that the first file had before:
the command succeeds if the stream does, and in any case the second file then holds what the stream
has written. If both names lead to one file, it is emptied before it is read, and the command fails.
Where no file can be created or written nothing happens. No other file is touched, and nothing goes
to the standard output. -/
theorem edits_file_to_file {τ ω : Type} [ByteSource τ] [Keeper ω] (arguments : List String)
    (a : Arguments) (s : Surroundings) (input output : String) (rules : RuleSet) (source : τ)
    (sink : ω) (hp : Invocation.parse arguments = .command .edit a)
    (hi : inputPlace a.input = .file input) (ho : outputPlace a.output = .file output)
    (hf : s.files.find input = .file (ByteSource.pending source))
    (hr : rulesOf a s.files = .ok rules) (hs : ByteSource.Reliable source)
    (hn : taken sink = []) (hl : limit sink = none) :
    let run := editStream rules ⟨a.maxDepth.getD DepthLimit.standard, none, a.flush⟩ source sink
    let outcome := runCommandLine arguments s
    (s.files.canWrite output = true → ¬ s.files.SameFile input output →
        (outcome.exit = 0 ↔ ∃ summary, run.result = .ok summary) ∧
          outcome.files.read? output = some (taken run.sink)) ∧
      (s.files.canWrite output = true → s.files.SameFile input output →
        outcome.exit = 1 ∧ outcome.files.read? input = some [] ∧
          outcome.files.read? output = some []) ∧
      (s.files.canWrite output = false → outcome = ⟨1, [], s.files, none⟩) ∧
      outcome.stdout = [] ∧
      ∀ name, ¬ s.files.SameFile name output →
        outcome.files.find name = s.files.find name := by
  intro run outcome
  have houtcome : outcome = runEdit a s := by simp only [outcome, runCommandLine, hp]
  rcases hw : s.files.canWrite output with _ | _
  · rw [houtcome, runEdit_of_not_canWrite hr hi ho hf hw]
    simp
  · let bytes := leftToRead s.files input output (ByteSource.pending source)
    let edit := editStream rules ⟨a.maxDepth.getD DepthLimit.standard, none, a.flush⟩
      (Pieces.whole bytes) Bounded.unlimited
    have hwhole := Pieces.reliable_whole bytes
    rw [houtcome, show runEdit a s = _ from runEdit_fileToFile hr hi ho hf hw]
    refine ⟨fun _ hother => ?_, fun _ hsame => ?_, by simp, rfl,
      fun name hname => Files.find_put_of_not_same hname _⟩
    · have hbytes : bytes = ByteSource.pending source := if_neg hother
      have hedit : edit.result = run.result ∧ _ ∧ edit.sink.taken.toList = taken run.sink :=
        editStream_same_bytes rules _ a.flush a.flush hwhole hs hbytes rfl rfl hn hl
      rw [← hedit.1, ← hedit.2.2]
      exact ⟨exitOf_eq_zero, Files.read?_put hw _⟩
    · have hbytes : bytes = [] := if_pos hsame
      obtain ⟨⟨e, he⟩, hnothing⟩ :
          (∃ e, edit.result = .error e) ∧ edit.sink.taken.toList = [] :=
        editStream_empty rules _ a.flush hwhole hbytes rfl rfl
      have hexit : exitOf edit.result = 1 := by rw [he, exitOf]
      have hheld : (s.files.put output edit.sink.taken.toList).read? input = some [] := by
        rw [Files.read?, Files.find_put_of_same hsame (Files.toFolder_of_find hf), hnothing]
      exact ⟨hexit, hheld, (Files.read?_put hw _).trans (congrArg some hnothing)⟩

/-- The two files, with an array that breaks off in the first. -/
def brokenFiles : Files := twoFiles.put "i" (utf8 "[1,")

/-- What asks for an edit of the first file in which nothing is kept back. -/
def flushedEdit (output : String) : Arguments :=
  ⟨some "i", some output, none, [], [], [], none, none, true, false, false⟩

theorem works_flushedEdit {output : String} (h : output ∈ ["o", "l"]) :
    Invocation.parse ["rewrite", "i", "-o", output, "--flush"] =
        .command .edit (flushedEdit output) ∧
      inputPlace (flushedEdit output).input = .file "i" ∧
      outputPlace (flushedEdit output).output = .file output ∧
      rulesOf (flushedEdit output) brokenFiles = .ok [] ∧ brokenFiles.canWrite output = true := by
  have hname : output ∈ ["i", "o", "l"] := List.mem_cons_of_mem _ h
  refine ⟨?_, (places_twoFiles (by decide)).1, (places_twoFiles hname).2, rfl,
    Files.canWrite_put.trans (canWrite_twoFiles hname)⟩
  revert output
  decide +kernel

theorem sameFile_brokenFiles :
    ¬ brokenFiles.SameFile "i" "o" ∧ brokenFiles.SameFile "i" "l" := by
  simp only [brokenFiles, Files.sameFile_put]
  exact ⟨fun h => (sameFile_twoFiles (by decide)).mp h rfl,
    (sameFile_twoFiles (by decide)).mpr (by decide)⟩

theorem find_brokenFiles : brokenFiles.find "i" = .file (utf8 "[1,") := by
  refine Files.find_put_of_same ((sameFile_twoFiles (by decide)).mpr (by decide)) ?_ _
  rw [ofString_twoFiles (by decide)]

/-- An array that breaks off, edited from a source that gives single bytes: what has been written of
it by then is in the second file. Written to a link to itself it is lost. -/
theorem edits_broken_array :
    let source : Pieces := ⟨utf8 "[1,", some 1, none⟩
    let outcome (output : String) :=
      runCommandLine ["rewrite", "i", "-o", output, "--flush"] ⟨brokenFiles, []⟩
    (∀ output ∈ ["o", "l"],
        Invocation.parse ["rewrite", "i", "-o", output, "--flush"] =
          .command .edit (flushedEdit output) ∧
        inputPlace (flushedEdit output).input = .file "i" ∧
        outputPlace (flushedEdit output).output = .file output ∧
        rulesOf (flushedEdit output) brokenFiles = .ok [] ∧
        brokenFiles.canWrite output = true) ∧
      brokenFiles.find "i" = .file (ByteSource.pending source) ∧ ByteSource.Reliable source ∧
      taken Bounded.unlimited = [] ∧ limit Bounded.unlimited = none ∧
      (¬ brokenFiles.SameFile "i" "o" ∧ (outcome "o").exit ≠ 0 ∧
        (outcome "o").files.read? "o" = some (utf8 "[1")) ∧
      brokenFiles.SameFile "i" "l" ∧ (outcome "l").exit = 1 ∧
        (outcome "l").files.read? "i" = some [] := by
  intro source outcome
  have hs : ByteSource.Reliable source := Pieces.reliable _ (some 1)
  have hrun (output : String) (hm : output ∈ ["o", "l"]) :=
    have ⟨hp, hi, ho, hr, _⟩ := works_flushedEdit hm
    edits_file_to_file _ (flushedEdit output) ⟨brokenFiles, []⟩ "i" output [] source
      Bounded.unlimited hp hi ho find_brokenFiles hr hs rfl rfl
  have hw (output : String) (hm : output ∈ ["o", "l"]) : brokenFiles.canWrite output = true :=
    (works_flushedEdit hm).2.2.2.2
  obtain ⟨hother, hlink⟩ := sameFile_brokenFiles
  obtain ⟨hexit, hheld⟩ := (hrun "o" (by decide)).1 (hw "o" (by decide)) hother
  obtain ⟨hlost, hempty, -⟩ := (hrun "l" (by decide)).2.1 (hw "l" (by decide)) hlink
  obtain ⟨-, hwritten, hresult⟩ :=
    editStream_bytes [] true (rfl : Editor.withLimit 512 = .ok (.new 512)) hs
      (rfl : taken Bounded.unlimited = []) rfl
  obtain ⟨e, he⟩ : ∃ e, (editStream [] ⟨512, none, true⟩ source Bounded.unlimited).result =
      .error e := ⟨_, hresult⟩
  refine ⟨fun _ => works_flushedEdit, find_brokenFiles, hs, rfl, rfl,
    ⟨hother, fun h0 => ?_, ?_⟩, hlink, hlost, hempty⟩
  · obtain ⟨summary, hok⟩ := hexit.mp h0
    cases he.symm.trans hok
  · exact hheld.trans ((congrArg some hwritten).trans (by decide +kernel))

/-- **A file edited into itself is lost**: its bytes can be edited with success, yet the command
fails and leaves nothing of them. -/
theorem edit_in_place_empties_file :
    let arguments := ["rewrite", "i", "-o", "i"]
    let a : Arguments :=
      ⟨some "i", some "i", none, [], [], [], none, none, false, false, false⟩
    let source := Pieces.whole (utf8 "[]")
    let run := editStream [] .standard source Bounded.unlimited
    let outcome := runCommandLine arguments ⟨twoFiles, []⟩
    Invocation.parse arguments = .command .edit a ∧ rulesOf a twoFiles = .ok [] ∧
      twoFiles.read? "i" = some (ByteSource.pending source) ∧
      (∃ summary, run.result = .ok summary) ∧ taken run.sink = utf8 "[]" ∧
      outcome.exit = 1 ∧ outcome.files.read? "i" = some [] := by
  intro arguments a source run outcome
  have hp : Invocation.parse arguments = .command .edit a := by decide +kernel
  have hr : rulesOf a twoFiles = .ok [] := rfl
  obtain ⟨hi, ho⟩ : inputPlace a.input = .file "i" ∧ outputPlace a.output = .file "i" :=
    places_twoFiles (by decide)
  have hf : twoFiles.find "i" = .file (utf8 "[]") := find_twoFiles.1
  have hw : twoFiles.canWrite "i" = true := canWrite_twoFiles (by decide)
  obtain ⟨-, hwritten, hresult⟩ :=
    editStream_bytes [] false (rfl : Editor.withLimit 512 = .ok (.new 512))
      (Pieces.reliable_whole (utf8 "[]")) (rfl : taken Bounded.unlimited = []) rfl
  have hrun : outcome = runEdit a ⟨twoFiles, []⟩ := by
    simp only [outcome, runCommandLine, hp]
  obtain ⟨⟨e, he⟩, hnothing⟩ := editStream_empty [] 512 false (Pieces.reliable_whole []) rfl
    (rfl : taken Bounded.unlimited = []) rfl
  have hleft : leftToRead twoFiles "i" "i" (utf8 "[]") = [] :=
    if_pos ((sameFile_twoFiles (by decide)).mpr (by decide))
  have hedit := runEdit_fileToFile (s := ⟨twoFiles, []⟩) hr hi ho hf hw
  rw [hleft] at hedit
  refine ⟨hp, hr, by rw [Files.read?, hf]; rfl, ⟨_, hresult⟩, hwritten, ?_, ?_⟩
  · rw [hrun, hedit]
    exact congrArg exitOf he
  · rw [hrun, hedit]
    have hheld : (twoFiles.put "i" []).read? "i" = some [] := Files.read?_put hw []
    rw [← hheld]
    exact congrArg (fun bytes => (twoFiles.put "i" bytes).read? "i") hnothing

end JsonEdit
