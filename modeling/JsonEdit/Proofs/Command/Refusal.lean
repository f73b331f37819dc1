import JsonEdit.Command.Run
import JsonEdit.Proofs.RuleConfig.Setup
import JsonEdit.Proofs.Stream.Files
import JsonEdit.Proofs.Stream.Pipeline

/-!
# Edits that are refused

Rules that cannot be set up, an input that is not there and a depth limit out of range all refuse
an edit before anything is read. The depth limit is looked at last, when the output file has been
created or emptied.

* `Arguments.RulesFault`: what is wrong with rules;
* `SetsUp`: rules are set up unless something is wrong; `not_works_entry`, `not_works_assignment`,
  `setsUp_build`: what may be wrong;
* **`rulesOf_error_iff`**: the rules that arguments ask for;
* `OutputPlace.emptied`, **`executeFrom_refused`**: a depth limit out of range;
* **`refused_edit_leaves_files`**: what refused edits leave behind.
-/

namespace JsonEdit

/-! ## What is wrong with arguments -/

/-- No pattern is written like this. -/
def NoPattern (text : String) : Prop := ∃ e, Pattern.compile .standard text = .error e

/-- An entry of a rules file that says no action. -/
def RuleEntry.SaysNothing (entry : RuleEntry) : Prop := ∃ fault, entry.action = .error fault

/-- An argument that is no assignment. -/
def NoAssignment (flag : AssignmentFlag) (argument : String) : Prop :=
  ∃ e, splitAssignment flag argument = .error e

namespace Arguments

/-- The arguments that should be assignments. -/
def assignments (a : Arguments) : AssignmentFlag → List String
  | .rename => a.rename
  | .set => a.set

/-- The rules file holds these entries. -/
def Lists (a : Arguments) (files : Files) (file : RulesFile) : Prop :=
  ∃ name, a.rulesFile = some name ∧ RulesFile.load name (files.read? name) = .ok file

/-- A rule is asked for with this text as its pattern. -/
inductive Asks (a : Arguments) (files : Files) : String → Prop
  | entry {file : RulesFile} {entry : RuleEntry} :
    a.Lists files file → entry ∈ file → Asks a files entry.path
  | assignment {flag : AssignmentFlag} {argument pattern value : String} :
    argument ∈ a.assignments flag → splitAssignment flag argument = .ok (pattern, value) →
      Asks a files pattern
  | remove {pattern : String} : pattern ∈ a.remove → Asks a files pattern

/-- Why the rules that arguments ask for cannot be set up. -/
inductive RulesFault (a : Arguments) (files : Files) : Prop
  /-- The rules file is not there, or it is not what it should be. -/
  | file {name : String} {e : ConfigError} :
    a.rulesFile = some name → RulesFile.load name (files.read? name) = .error e → RulesFault a files
  | entry {file : RulesFile} {entry : RuleEntry} :
    a.Lists files file → entry ∈ file → entry.SaysNothing → RulesFault a files
  | assignment {flag : AssignmentFlag} {argument : String} :
    argument ∈ a.assignments flag → NoAssignment flag argument → RulesFault a files
  | pattern {text : String} : a.Asks files text → NoPattern text → RulesFault a files

/-- The input is a file that is not there. -/
def InputMissing (a : Arguments) (files : Files) : Prop :=
  ∃ name, inputPlace a.input = .file name ∧ files.find name = .nothing

/-- The depth limit may not be chosen. -/
def DepthOutOfRange (a : Arguments) : Prop :=
  ∃ d, a.maxDepth = some d ∧ (d = 0 ∨ DepthLimit.hard < d)

end Arguments

/-- The files once the output file is there and empty, if it can be written. -/
def OutputPlace.emptied (place : OutputPlace) (files : Files) : Files :=
  match place with
  | .file name => if files.canWrite name then files.put name [] else files
  | _ => files

/-! ## Setting up rules -/

/-- The setup comes to something good, unless there is a fault. -/
def SetsUp {α : Type} (fault : Prop) (good : α → Prop) (r : Except ConfigError α) : Prop :=
  fault ∧ (∃ e, r = .error e) ∨ ¬ fault ∧ ∃ x, r = .ok x ∧ good x

theorem SetsUp.error_iff {α : Type} {fault : Prop} {good : α → Prop} {r : Except ConfigError α}
    (h : SetsUp fault good r) : (∃ e, r = .error e) ↔ fault := by
  rcases h with ⟨hf, he⟩ | ⟨hf, x, rfl, -⟩
  · exact iff_of_true he hf
  · exact iff_of_false (fun ⟨e, he⟩ => by cases he) hf

/-! ## Requests that fail -/

theorem not_works_of_asks {request : RuleRequest} {asked : AskedRule} (h : request.Asks asked) :
    ¬ request.Works ↔ NoPattern asked.pattern := by
  rw [h.works_iff, NoPattern]
  cases Pattern.compile .standard asked.pattern <;> simp

theorem not_works_entry (entry : RuleEntry) :
    ¬ (RuleRequest.entry entry).Works ↔ entry.SaysNothing ∨ NoPattern entry.path := by
  rcases entry.action_cases with ⟨action, ha, he⟩ | ⟨fault, -, he⟩
  · have hsays : ¬ entry.SaysNothing := by
      rintro ⟨fault, hf⟩
      rw [he] at hf
      cases hf
    rw [not_works_of_asks (.entry ha), or_iff_right hsays]
  · refine iff_of_true ?_ (.inl ⟨fault, he⟩)
    rintro ⟨_, _, h, -⟩
    cases h with
    | entry ha =>
      rw [RuleEntry.asks_iff, he] at ha
      cases ha

theorem not_works_assignment (flag : AssignmentFlag) (argument : String) :
    ¬ (RuleRequest.assignment flag argument).Works ↔
      NoAssignment flag argument ∨ ∃ pattern value,
        splitAssignment flag argument = .ok (pattern, value) ∧ NoPattern pattern := by
  rcases splitAssignment_cases flag argument with ⟨pattern, value, ha, hs⟩ | ⟨hnone, hs⟩
  · rw [not_works_of_asks (.assignment ha)]
    simp [NoAssignment, hs]
  · refine iff_of_true ?_ (.inl ⟨_, hs⟩)
    rintro ⟨_, _, h, -⟩
    cases h with
    | assignment ha => exact hnone _ _ ha

/-! ## The rules of arguments -/

/-- What is wrong with entries. -/
def EntriesFault (file : RulesFile) : Prop :=
  (∃ entry ∈ file, entry.SaysNothing) ∨ ∃ entry ∈ file, NoPattern entry.path

/-- What is wrong with the assignments of a flag. -/
def AssignmentFault (flag : AssignmentFlag) (arguments : List String) : Prop :=
  ∃ argument ∈ arguments, NoAssignment flag argument ∨ ∃ pattern value,
    splitAssignment flag argument = .ok (pattern, value) ∧ NoPattern pattern

theorem setsUp_build (sources : RuleSources) :
    SetsUp (EntriesFault (sources.file.getD []) ∨ AssignmentFault .rename sources.rename ∨
        (∃ text ∈ sources.remove, NoPattern text) ∨ AssignmentFault .set sources.set)
      (fun _ => True) sources.build := by
  have hfault : (¬ ∀ request ∈ sources.requests, request.Works) ↔
      EntriesFault (sources.file.getD []) ∨ AssignmentFault .rename sources.rename ∨
        (∃ text ∈ sources.remove, NoPattern text) ∨ AssignmentFault .set sources.set := by
    have hremove (text : String) : ¬ (RuleRequest.remove text).Works ↔ NoPattern text :=
      not_works_of_asks .remove
    simp only [RuleSources.requests, RuleSources.entries, EntriesFault, AssignmentFault,
      List.forall_mem_append, List.forall_mem_map, not_and_or, not_forall, exists_prop,
      not_works_entry, not_works_assignment, hremove, and_or_left, exists_or]
  -- requests become rules, or one of them fails
  rw [← hfault]
  rcases sources.build_cases with ⟨asked, rules, hrules, hok⟩ | ⟨e, hf, he⟩
  · exact .inr ⟨not_not.mpr hrules.works, rules, hok, trivial⟩
  · exact .inl ⟨fun hall => hf.not_sound (RuleSources.sound_iff.mpr hall), e, he⟩

section Rules

variable {a : Arguments} {files : Files}

theorem rulesFault_of_assignments (flag : AssignmentFlag)
    (h : AssignmentFault flag (a.assignments flag)) : a.RulesFault files := by
  obtain ⟨argument, hm, hs | ⟨pattern, value, hs, hp⟩⟩ := h
  · exact .assignment hm hs
  · exact .pattern (.assignment hm hs) hp

theorem rulesFault_iff {file : Option RulesFile} (hl : ∀ f, a.Lists files f ↔ file = some f)
    (hr : ∀ name e, a.rulesFile = some name → RulesFile.load name (files.read? name) ≠ .error e) :
    EntriesFault (file.getD []) ∨ AssignmentFault .rename a.rename ∨
        (∃ text ∈ a.remove, NoPattern text) ∨ AssignmentFault .set a.set ↔
      a.RulesFault files := by
  constructor
  · rintro (hentries | hrename | ⟨text, hm, hp⟩ | hset)
    · rcases file with _ | file
      · rcases hentries with ⟨entry, hm, -⟩ | ⟨entry, hm, -⟩ <;> cases hm
      · have hlists := (hl file).mpr rfl
        rcases hentries with ⟨entry, hm, hs⟩ | ⟨entry, hm, hp⟩
        · exact .entry hlists hm hs
        · exact .pattern (.entry hlists hm) hp
    · exact rulesFault_of_assignments .rename hrename
    · exact .pattern (.remove hm) hp
    · exact rulesFault_of_assignments .set hset
  · intro h
    -- an assignment belongs to one of two flags
    have hassigned {flag : AssignmentFlag} (hf : AssignmentFault flag (a.assignments flag)) :
        EntriesFault (file.getD []) ∨ AssignmentFault .rename a.rename ∨
          (∃ text ∈ a.remove, NoPattern text) ∨ AssignmentFault .set a.set := by
      cases flag with
      | rename => exact .inr (.inl hf)
      | set => exact .inr (.inr (.inr hf))
    cases h with
    | file hn he => exact absurd he (hr _ _ hn)
    | entry hlists hm hs =>
      obtain rfl := (hl _).mp hlists
      exact .inl (.inl ⟨_, hm, hs⟩)
    | assignment hm hs => exact hassigned ⟨_, hm, .inl hs⟩
    | pattern hasks hp =>
      cases hasks with
      | entry hlists hm =>
        obtain rfl := (hl _).mp hlists
        exact .inl (.inr ⟨_, hm, hp⟩)
      | assignment hm hs => exact hassigned ⟨_, hm, .inr ⟨_, _, hs, hp⟩⟩
      | remove hm => exact .inr (.inr (.inl ⟨_, hm, hp⟩))

/-- **The rules that arguments ask for** cannot be set up exactly if something is wrong with the
rules file, an entry of it, an assignment or a pattern. -/
theorem rulesOf_error_iff (a : Arguments) (files : Files) :
    (∃ e, rulesOf a files = .error e) ↔ a.RulesFault files := by
  rcases hn : a.rulesFile with _ | name
  · have hrules : rulesOf a files = RuleSources.build ⟨none, a.rename, a.remove, a.set⟩ := by
      rw [rulesOf, hn]
      rfl
    rw [hrules, (setsUp_build _).error_iff]
    refine rulesFault_iff (fun f => iff_of_false ?_ (by simp)) ?_
    · rintro ⟨name, hname, -⟩
      rw [hn] at hname
      cases hname
    · intro name e hname
      rw [hn] at hname
      cases hname
  · rcases hf : RulesFile.load name (files.read? name) with e | file
    · have hrules : rulesOf a files = .error e := by
        simp only [rulesOf, hn, hf]
        rfl
      exact iff_of_true ⟨e, hrules⟩ (.file hn hf)
    · have hrules : rulesOf a files =
          RuleSources.build ⟨some file, a.rename, a.remove, a.set⟩ := by
        simp only [rulesOf, hn, hf]
        rfl
      rw [hrules, (setsUp_build _).error_iff]
      refine rulesFault_iff (fun f => ⟨?_, ?_⟩) ?_
      · rintro ⟨other, hother, hload⟩
        rw [hn] at hother
        cases hother
        rw [hf] at hload
        cases hload
        rfl
      · rintro hfile
        cases hfile
        exact ⟨name, hn, hf⟩
      · intro other e hother he
        rw [hn] at hother
        cases hother
        rw [hf] at he
        cases he

end Rules

/-! ## Refused edits -/

theorem withLimit_of_outOfRange {a : Arguments} (h : a.DepthOutOfRange) :
    ∃ e, Editor.withLimit (a.maxDepth.getD DepthLimit.standard) = .error e := by
  obtain ⟨d, hd, hrange⟩ := h
  rw [hd, Option.getD_some, Editor.withLimit, DepthLimit.validate]
  split_ifs with hlarge hzero
  · exact ⟨_, rfl⟩
  · exact ⟨_, rfl⟩
  · exact absurd (hrange.resolve_left hzero) hlarge

/-- **A depth limit out of range** is seen when the output place is there: a file has been created
or emptied, and nothing is written to it. -/
theorem executeFrom_refused (request : Request) {e : EditError}
    (hd : Editor.withLimit request.options.maxDepth = .error e) (rules : RuleSet) (files : Files)
    (source : Files → Pieces) (hs : ∀ sink, request.output ≠ .sink sink) :
    ∃ e', request.executeFrom rules files source =
      ⟨.error e', #[], .unlimited, request.output.emptied files⟩ := by
  unfold Request.executeFrom OutputPlace.emptied
  simp only [editStream_refused hd]
  rcases ho : request.output with name | _ | sink
  · simp only
    split_ifs
    · exact ⟨e, rfl⟩
    · exact ⟨noSuchFile, rfl⟩
  · exact ⟨e, rfl⟩
  · exact absurd ho (hs sink)

theorem outputPlace_ne_sink (name : Option String) (sink : Bounded) :
    outputPlace name ≠ .sink sink := by
  unfold outputPlace
  split
  · simp
  · split_ifs <;> simp

section RunEdit

variable {a : Arguments} {s : Surroundings}

theorem runEdit_of_rulesFault (h : a.RulesFault s.files) :
    runEdit a s = ⟨1, [], s.files, none⟩ := by
  obtain ⟨e, he⟩ := (rulesOf_error_iff a s.files).mpr h
  rw [runEdit, he]
  rfl

theorem runEdit_of_inputMissing (h : a.InputMissing s.files) :
    runEdit a s = ⟨1, [], s.files, none⟩ := by
  obtain ⟨name, hi, hf⟩ := h
  rcases hr : rulesOf a s.files with e | rules
  · rw [runEdit, hr]
    rfl
  · simp only [runEdit, hr, Request.execute, hi, hf, Request.refuse]
    cases outputPlace a.output <;> cases a.summary <;> rfl

theorem runEdit_of_depthOutOfRange (hd : a.DepthOutOfRange) (hr : ¬ a.RulesFault s.files)
    (hi : ¬ a.InputMissing s.files) :
    runEdit a s = ⟨1, [], (outputPlace a.output).emptied s.files, none⟩ := by
  obtain ⟨e, hd⟩ := withLimit_of_outOfRange hd
  rcases hrules : rulesOf a s.files with e' | rules
  · exact absurd ((rulesOf_error_iff a s.files).mp ⟨e', hrules⟩) hr
  let request : Request := ⟨inputPlace a.input, outputPlace a.output,
    ⟨a.maxDepth.getD DepthLimit.standard, none, a.flush⟩⟩
  have hexec : ∃ e', request.execute rules s.files s.stdin =
      ⟨.error e', #[], .unlimited, (outputPlace a.output).emptied s.files⟩ := by
    have hfrom (source : Files → Pieces) :=
      executeFrom_refused request hd rules s.files source (outputPlace_ne_sink a.output)
    unfold Request.execute
    rcases hin : request.input with name | _ | source
    · simp only
      rcases hf : s.files.find name with _ | _ | bytes
      · exact absurd ⟨name, hin, hf⟩ hi
      · exact hfrom _
      · exact hfrom _
    · exact hfrom _
    · exact hfrom _
  obtain ⟨e', he⟩ := hexec
  simp only [runEdit, hrules]
  rw [show Request.execute _ rules s.files s.stdin = _ from he]
  cases outputPlace a.output <;> cases a.summary <;> rfl

end RunEdit

/-- **What refused edits leave behind.** Arguments that are not understood, rules that cannot be set
up and an input that is not there leave all files as they are. A depth limit out of range does so
too, but for the output file, which is created or loses what it held. Nothing goes to the standard
output. -/
theorem refused_edit_leaves_files (arguments : List String) (s : Surroundings) :
    (Invocation.parse arguments = .halt .usage →
        runCommandLine arguments s = ⟨2, [], s.files, none⟩) ∧
      ∀ a, Invocation.parse arguments = .command .edit a →
        (a.RulesFault s.files ∨ a.InputMissing s.files →
            runCommandLine arguments s = ⟨1, [], s.files, none⟩) ∧
          (a.DepthOutOfRange → ¬ (a.RulesFault s.files ∨ a.InputMissing s.files) →
            runCommandLine arguments s =
              ⟨1, [], (outputPlace a.output).emptied s.files, none⟩) := by
  refine ⟨fun hp => ?_, fun a hp => ?_⟩
  · rw [runCommandLine, hp]
    rfl
  · rw [runCommandLine, hp]
    refine ⟨?_, fun hd hno => ?_⟩
    · rintro (h | h)
      · exact runEdit_of_rulesFault h
      · exact runEdit_of_inputMissing h
    · obtain ⟨hr, hi⟩ := not_or.mp hno
      exact runEdit_of_depthOutOfRange hd hr hi

/-! ## Files at hand -/

section Names

variable {files : Files} {text : String}

theorem not_refused {a : Arguments} {rules : RuleSet} {bytes : List UInt8}
    (hr : rulesOf a files = .ok rules) (hi : inputPlace a.input = .file text)
    (hf : files.find text = .file bytes) : ¬ (a.RulesFault files ∨ a.InputMissing files) := by
  rintro (h | ⟨name, hname, hnothing⟩)
  · obtain ⟨e, he⟩ := (rulesOf_error_iff a files).mpr h
    rw [hr] at he
    cases he
  · rw [hi] at hname
    cases hname
    rw [hf] at hnothing
    cases hnothing

end Names

/-- Two files, of which one may be edited into the other, and a link to the first. -/
def twoFiles : Files where
  folders :=
    { working := "", root := "/", next := fun _ step => if step = "l" then "i" else step,
      mayWrite := fun _ => true }
  contents := fun location => [("i", utf8 "[]"), ("o", utf8 "old")].lookup location
  isFolder := fun location => location == ""

/-- What asks for an edit of one into the other, with a depth limit of zero. -/
def shallowEdit : Arguments :=
  ⟨some "i", some "o", none, [], [], [], some 0, none, false, false, false⟩

section TwoFiles

variable {name : String}

theorem ofString_twoFiles (h : name ∈ ["i", "o", "l"]) :
    FileName.ofString name = ⟨false, [name], false⟩ := by
  revert name
  decide +kernel

theorem locate?_twoFiles (h : name ∈ ["i", "o", "l"]) :
    twoFiles.locate? name = some (if name = "l" then "i" else name) :=
  Files.locate?_step (ofString_twoFiles h) rfl

theorem sameFile_twoFiles (h : name ∈ ["i", "o", "l"]) :
    twoFiles.SameFile "i" name ↔ name ≠ "o" := by
  have hi : "i" ∈ ["i", "o", "l"] := List.mem_cons_self
  simp only [Files.SameFile, locate?_twoFiles hi, locate?_twoFiles h]
  revert name
  decide

theorem canWrite_twoFiles (h : name ∈ ["i", "o", "l"]) : twoFiles.canWrite name = true := by
  have hfile : twoFiles.isFolder (if name = "l" then "i" else name) = false := by
    revert name
    decide +kernel
  exact Files.canWrite_iff.mpr ⟨by rw [ofString_twoFiles h], _, locate?_twoFiles h, hfile, rfl⟩

theorem places_twoFiles (h : name ∈ ["i", "o", "l"]) :
    inputPlace (some name) = .file name ∧ outputPlace (some name) = .file name := by
  have hname : ¬ FileName.isHyphen name = true := by
    revert name
    decide +kernel
  exact ⟨if_neg hname, if_neg hname⟩

theorem find_twoFiles :
    twoFiles.find "i" = .file (utf8 "[]") ∧ twoFiles.find "o" = .file (utf8 "old") := by
  constructor
  all_goals exact Files.find_step (ofString_twoFiles (by decide)) rfl (by decide +kernel)

end TwoFiles

theorem not_refused_shallowEdit :
    ¬ (shallowEdit.RulesFault twoFiles ∨ shallowEdit.InputMissing twoFiles) := by
  have hrules : rulesOf shallowEdit twoFiles = .ok [] := rfl
  exact not_refused hrules (places_twoFiles (by decide)).1 find_twoFiles.1

/-- An option that is not understood, an assignment without a pattern, and a depth limit of zero. -/
theorem refused_edit_leaves_old_output :
    let s : Surroundings := ⟨twoFiles, []⟩
    let unread := ["rewrite", "i", "-o", "o", "--max-depth", "x"]
    let unassigned := ["rewrite", "i", "-o", "o", "--rename", "=x"]
    let shallow := ["rewrite", "i", "-o", "o", "--max-depth", "0"]
    (Invocation.parse unread = .halt .usage ∧
        runCommandLine unread s = ⟨2, [], twoFiles, none⟩) ∧
      (∃ a, Invocation.parse unassigned = .command .edit a ∧ a.RulesFault twoFiles ∧
        runCommandLine unassigned s = ⟨1, [], twoFiles, none⟩) ∧
      Invocation.parse shallow = .command .edit shallowEdit ∧ shallowEdit.DepthOutOfRange ∧
        ¬ (shallowEdit.RulesFault twoFiles ∨ shallowEdit.InputMissing twoFiles) ∧
        runCommandLine shallow s =
          ⟨1, [], (outputPlace shallowEdit.output).emptied twoFiles, none⟩ := by
  intro s unread unassigned shallow
  have hunread : Invocation.parse unread = .halt .usage := by decide +kernel
  let a : Arguments :=
    ⟨some "i", some "o", none, ["=x"], [], [], none, none, false, false, false⟩
  have hunassigned : Invocation.parse unassigned = .command .edit a := by decide +kernel
  have hm : "=x" ∈ a.assignments .rename := List.mem_cons_self
  have hfault : a.RulesFault twoFiles := .assignment hm ⟨_, rfl⟩
  have hshallow : Invocation.parse shallow = .command .edit shallowEdit := by decide +kernel
  have hdepth : shallowEdit.DepthOutOfRange := ⟨0, rfl, .inl rfl⟩
  refine ⟨⟨hunread, (refused_edit_leaves_files unread s).1 hunread⟩, ⟨a, hunassigned, hfault, ?_⟩,
    hshallow, hdepth, not_refused_shallowEdit, ?_⟩
  · exact ((refused_edit_leaves_files unassigned s).2 a hunassigned).1 (.inl hfault)
  · exact ((refused_edit_leaves_files shallow s).2 shallowEdit hshallow).2 hdepth
      not_refused_shallowEdit

/-- **A depth limit out of range empties the output file.** -/
theorem depth_limit_empties_output :
    let arguments := ["rewrite", "i", "-o", "o", "--max-depth", "0"]
    let outcome := runCommandLine arguments ⟨twoFiles, []⟩
    Invocation.parse arguments = .command .edit shallowEdit ∧ shallowEdit.DepthOutOfRange ∧
      outcome.exit = 1 ∧ twoFiles.read? "o" = some (utf8 "old") ∧
      outcome.files.read? "o" = some [] := by
  intro arguments outcome
  have hparse : Invocation.parse arguments = .command .edit shallowEdit := by decide +kernel
  have hdepth : shallowEdit.DepthOutOfRange := ⟨0, rfl, .inl rfl⟩
  obtain ⟨hr, hi⟩ := not_or.mp not_refused_shallowEdit
  have hrun : outcome = ⟨1, [], (outputPlace shallowEdit.output).emptied twoFiles, none⟩ := by
    have hedit := runEdit_of_depthOutOfRange (s := ⟨twoFiles, []⟩) hdepth hr hi
    rw [← hedit]
    simp only [outcome, runCommandLine, hparse]
  have hplace : outputPlace shallowEdit.output = .file "o" := (places_twoFiles (by decide)).2
  have hwrite : twoFiles.canWrite "o" = true := canWrite_twoFiles (by decide)
  have hemptied : (outputPlace shallowEdit.output).emptied twoFiles = twoFiles.put "o" [] := by
    simp [OutputPlace.emptied, hplace, hwrite]
  rw [hrun, hemptied]
  refine ⟨hparse, hdepth, rfl, ?_, Files.read?_put hwrite []⟩
  rw [Files.read?, find_twoFiles.2]

end JsonEdit
