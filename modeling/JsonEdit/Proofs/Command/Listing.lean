import JsonEdit.Proofs.Command.Refusal
import JsonEdit.Proofs.Editor.SameActions
import JsonEdit.Proofs.Stream.Reading
import JsonEdit.Proofs.Stream.Writing

/-!
# Listing nodes

To list the nodes of a document is to edit it with one rule that keeps everything, and to write a
line for each node at which its handler is called. A pattern decides which lines are written, and
nothing else.

* `InputPlace.source?`, `execute_toSink`: a request with a given sink;
* `RuleSet.watching`, `run_watching`: the rule, with one test of paths and with another;
* `Arguments.listing`, `Arguments.listedNodes`: what the command does, and the nodes it lists if no
  pattern is given; `listing_selects`: the nodes it lists for a test;
* `nodesAt_plainZeros`, `listing_of_spells`: the nodes of a document;
* **`paths_filter_selects`**: the lines with and without a pattern.
-/

namespace JsonEdit

/-! ## A request with a sink -/

/-- What is read from a place, unless it is a file that is not there. -/
def InputPlace.source? (place : InputPlace) (files : Files) (stdin : List UInt8) :
    Option Pieces :=
  match place with
  | .file name =>
    match files.find name with
    | .nothing => none
    | .folder => some ⟨[], none, some 0⟩
    | .file bytes => some (.whole bytes)
  | .stdin => some (.whole stdin)
  | .source given => some given

theorem execute_toSink (place : InputPlace) (sink : Bounded) (options : StreamOptions)
    (rules : RuleSet) (files : Files) (stdin : List UInt8) :
    Request.execute ⟨place, .sink sink, options⟩ rules files stdin =
      match place.source? files stdin with
      | none => Request.refuse noSuchFile files
      | some source =>
        let run := editStream rules options source sink
        ⟨run.result, run.calls, run.sink, files⟩ := by
  cases place with
  | file name =>
    cases hf : files.find name with
    | nothing | folder => simp only [Request.execute, InputPlace.source?, Request.executeFrom, hf]
    | file bytes =>
      simp only [Request.execute, InputPlace.source?, Request.executeFrom, Files.read?, hf,
        Option.getD_some]
  | stdin | source => rfl

/-! ## A rule that keeps everything -/

/-- Every path passes. -/
def Matcher.every : Matcher := .predicate "every node" fun _ => true

/-- The rule that is called at the nodes which pass a test, and keeps everything. -/
def RuleSet.watching (matcher : Matcher) : RuleSet := [⟨matcher, .always .pass⟩]

namespace RuleSet

theorem first?_watching (matcher : Matcher) (path : Path) :
    (watching matcher).first? path =
      if matcher.accepts path then some (0, ⟨matcher, .always .pass⟩) else none := rfl

theorem actionAt_watching (matcher : Matcher) (node : Node) :
    (watching matcher).actionAt node = .pass := by
  rw [actionAt, first?_watching]
  cases matcher.accepts node.path <;> rfl

theorem neverFails_watching (matcher : Matcher) : (watching matcher).NeverFails :=
  neverFails_nil.cons_always _ _

theorem sameActions_watching (matcher matcher' : Matcher) :
    (watching matcher).SameActions (watching matcher') where
  neverFails := neverFails_watching matcher
  neverFails' := neverFails_watching matcher'
  actionAt node := by rw [actionAt_watching, actionAt_watching]

theorem nodes_callsOf_watching (matcher : Matcher) (nodes : List Node) :
    ((watching matcher).callsOf nodes).toList.map Call.node =
      nodes.filter fun node => matcher.accepts node.path := by
  induction nodes with
  | nil => rfl
  | cons node nodes ih =>
    simp only [callsOf, List.flatMap_cons, List.map_append] at ih ⊢
    rw [ih, callsAt, first?_watching, List.filter_cons]
    cases matcher.accepts node.path <;> rfl

theorem nodes_callsOf_every (nodes : List Node) :
    ((watching .every).callsOf nodes).toList.map Call.node = nodes := by
  rw [nodes_callsOf_watching]
  exact List.filter_true nodes

end RuleSet

section Watching

variable {σ : Type}

theorem Reply.AskedAlike.error?_eq {rules rules' : RuleSet} {r r' : Reply σ}
    (h : r.AskedAlike rules rules' r') : r'.error? = r.error? := by
  obtain ⟨nodes, n, -, rfl⟩ := h
  rfl

theorem run_watching [FragmentSink σ] (matcher : Matcher) (ed : Editor) (sink : σ)
    (events : List Event) :
    let all := ed.run (.watching .every) sink #[] events
    let chosen := ed.run (.watching matcher) sink #[] events
    chosen.error? = all.error? ∧ chosen.calls.toList.map Call.node =
      (all.calls.toList.map Call.node).filter fun node => matcher.accepts node.path := by
  intro all chosen
  have h : all.AskedAlike _ _ chosen :=
    Editor.run_asked (RuleSet.sameActions_watching .every matcher) ed sink events
  refine ⟨h.error?_eq, ?_⟩
  obtain ⟨nodes, n, hall, hchosen⟩ := h
  rw [hchosen, hall, RuleSet.nodes_callsOf_every, RuleSet.nodes_callsOf_watching]

end Watching

/-! ## The command -/

/-- The edit that lists the nodes which pass a test. -/
def Arguments.listing (a : Arguments) (s : Surroundings) (matcher : Matcher) : Executed :=
  Request.execute ⟨inputPlace a.input, .sink .unlimited, .standard⟩ (.watching matcher) s.files
    s.stdin

/-- The nodes that are listed if no pattern is given. -/
def Arguments.listedNodes (a : Arguments) (s : Surroundings) : List Node :=
  (a.listing s .every).calls.toList.map Call.node

/-- The lines of nodes. -/
def nodeLines (nodes : List Node) : List UInt8 := nodes.flatMap fun node => utf8 (nodeLine node)

theorem runPaths_eq {a : Arguments} {matcher : Matcher} (h : listedBy a.pattern = .ok matcher)
    (s : Surroundings) :
    let done := a.listing s matcher
    runPaths a s =
      ⟨exitOf done.result, nodeLines (done.calls.toList.map Call.node), done.files, none⟩ := by
  simp only [runPaths, h, nodeLines, List.flatMap_map]
  rfl

/-- A stream to a sink that takes everything calls the handlers that the editor calls, and succeeds
if the editor comes to the end. -/
theorem editStream_toEnd (rules : RuleSet) (source : Pieces) :
    let r := (Editor.new DepthLimit.standard).run rules "" #[] (streamEvents source none)
    let run := editStream rules .standard source Bounded.unlimited
    run.calls = r.calls ∧ exitOf run.result = if r.error?.isSome then 1 else 0 := by
  intro r run
  have hlimit : Editor.withLimit StreamOptions.standard.maxDepth =
      .ok (.new DepthLimit.standard) := rfl
  obtain ⟨hcalls, -, hok, herror⟩ := editStream_unlimited rules .standard source hlimit
  refine ⟨hcalls, ?_⟩
  cases he : r.error? with
  | none =>
    have hresult : run.result = _ := hok he
    rw [hresult]
    rfl
  | some e =>
    rcases herror e he with hresult | ⟨limit, hl, -⟩
    · rw [show run.result = _ from hresult]
      rfl
    · cases hl

/-- **The nodes that are listed for a test** are those that pass it. -/
theorem listing_selects (a : Arguments) (s : Surroundings) (matcher : Matcher) :
    exitOf (a.listing s matcher).result = exitOf (a.listing s .every).result ∧
      (a.listing s matcher).files = (a.listing s .every).files ∧
      (a.listing s matcher).calls.toList.map Call.node =
        (a.listedNodes s).filter fun node => matcher.accepts node.path := by
  simp only [Arguments.listedNodes, Arguments.listing, execute_toSink]
  cases (inputPlace a.input).source? s.files s.stdin with
  | none => exact ⟨rfl, rfl, rfl⟩
  | some source =>
    obtain ⟨herror, hnodes⟩ :=
      run_watching matcher (.new DepthLimit.standard) "" (streamEvents source none)
    obtain ⟨hcalls, hexit⟩ := editStream_toEnd (.watching matcher) source
    obtain ⟨hcalls', hexit'⟩ := editStream_toEnd (.watching .every) source
    simp only [hexit, hexit', herror, hcalls, hcalls', hnodes, and_self]

/-! ## The nodes of a document -/

/-- The node with its value as it is read. -/
def Node.plainZeros (node : Node) : Node := { node with value := node.value.map Json.plainZeros }

namespace Json

mutual

theorem nodesAt_plainZeros : ∀ (value : Json) (path : List String),
    value.plainZeros.nodesAt path = (value.nodesAt path).map Node.plainZeros
  | .null, _ | .bool _, _ | .num _, _ | .str _, _ => rfl
  | .arr items, path => by
    rw [plainZeros, nodesAt, nodesAt, nodesOfItems_plainZeros items, List.map_cons]
    rfl
  | .obj members, path => by
    rw [plainZeros, nodesAt, nodesAt, nodesOfMembers_plainZeros members, List.map_cons]
    rfl

theorem nodesOfItems_plainZeros : ∀ (items : List Json) (path : List String) (index : Nat),
    nodesOfItems path index (plainZerosOfItems items) =
      (nodesOfItems path index items).map Node.plainZeros
  | [], _, _ => rfl
  | item :: items, path, index => by
    rw [plainZerosOfItems, nodesOfItems, nodesOfItems, nodesAt_plainZeros item,
      nodesOfItems_plainZeros items, List.map_append]

theorem nodesOfMembers_plainZeros : ∀ (members : List (String × Json)) (path : List String),
    nodesOfMembers path (plainZerosOfMembers members) =
      (nodesOfMembers path members).map Node.plainZeros
  | [], _ => rfl
  | (name, value) :: members, path => by
    rw [plainZerosOfMembers, nodesOfMembers, nodesOfMembers, nodesAt_plainZeros value,
      nodesOfMembers_plainZeros members, List.map_append]

end

end Json

/-- The input of a command is there and holds these bytes. -/
inductive Arguments.Reads (a : Arguments) (s : Surroundings) : List UInt8 → Prop
  | stdin : inputPlace a.input = .stdin → Reads a s s.stdin
  | file {name : String} {bytes : List UInt8} : inputPlace a.input = .file name →
    s.files.find name = .file bytes → Reads a s bytes

theorem Arguments.Reads.source? {a : Arguments} {s : Surroundings} {bytes : List UInt8}
    (h : a.Reads s bytes) : (inputPlace a.input).source? s.files s.stdin = some (.whole bytes) := by
  cases h with
  | stdin hi => rw [hi]; rfl
  | file hi hf => simp only [hi, InputPlace.source?, hf]

theorem listing_of_spells {a : Arguments} {s : Surroundings} {value : Json} {text : String}
    (hr : a.Reads s (utf8 text)) (hs : SpellsDocument value text.toList)
    (hd : value.depth ≤ DepthLimit.standard) :
    exitOf (a.listing s .every).result = 0 ∧
      a.listedNodes s = value.nodes.map Node.plainZeros := by
  let rules := RuleSet.watching .every
  have hevents : streamEvents (Pieces.whole (utf8 text)) none = value.plainZeros.documentEvents :=
    (streamEvents_eq (Pieces.reliable_whole _) none).trans (textEvents_spelled hs)
  rw [← value.depth_plainZeros] at hd
  obtain ⟨ed, hrun, hphase⟩ :=
    Editor.run_documentEvents_eq_edit (RuleSet.neverFails_watching .every) hd
  rw [← hevents] at hrun
  have hcalls : (value.plainZeros.edit rules).calls.toArray =
      rules.callsOf value.plainZeros.nodes :=
    congrArg List.toArray
      (Json.editAt_calls_of_pass (RuleSet.actionAt_watching .every) value.plainZeros [])
  have hnodes : (value.plainZeros.edit rules).calls.toArray.toList.map Call.node =
      value.nodes.map Node.plainZeros := by
    rw [hcalls, RuleSet.nodes_callsOf_every]
    exact value.nodesAt_plainZeros []
  obtain ⟨htold, hexit⟩ := editStream_toEnd rules (Pieces.whole (utf8 text))
  simp only [Arguments.listedNodes, Arguments.listing, execute_toSink, hr.source?]
  constructor
  · rw [hexit, hrun, Reply.error?_of_finished rfl hphase]
    rfl
  · rw [htold, hrun]
    exact hnodes

theorem nodeLines_plainZeros (nodes : List Node) :
    nodeLines (nodes.map Node.plainZeros) = nodeLines nodes := by
  rw [nodeLines, List.flatMap_map]
  rfl

/-! ## With and without a pattern -/

/-- The value of the option may be anything if it stands in one argument with it. -/
theorem parse_paths_pattern (text : String) :
    Invocation.parse ["paths", "--pattern=" ++ text] =
      .command .paths { Arguments.empty with pattern := some text } := by
  have hchars : ("--pattern=" ++ text).toList =
      '-' :: '-' :: 'p' :: 'a' :: 't' :: 't' :: 'e' :: 'r' :: 'n' :: '=' :: text.toList := by
    rw [String.toList_append]
    rfl
  have hdashes : "--pattern=" ++ text ≠ "--" := by
    intro h
    rw [← String.toList_inj, hchars] at h
    cases h
  have hname : String.ofList ['p', 'a', 't', 't', 'e', 'r', 'n'] = "pattern" := rfl
  have hread : readArgument .paths .empty ("--pattern=" ++ text) =
      .ok ({ Arguments.empty with pattern := some text }, none) := by
    simp only [readArgument, hchars, readLong]
    simp [List.span, List.span.loop, hname, CommandName.long?, Arguments.assign, Arguments.once,
      Arguments.empty, Except.map]
  rw [Invocation.parse, if_neg (by decide), if_pos rfl]
  simp only [Invocation.parse.ofCommand, readArguments, if_neg hdashes, hread]
  rfl

/-- **A pattern selects lines.** Whatever there is to read, the command with a pattern writes, in
their order, those lines of the command without one that belong to nodes whose path the pattern
accepts, and leaves everything else as that does, the exit status too. For a document that is not
too deep it succeeds, and the nodes are all those of the document. -/
theorem paths_filter_selects (arguments : List String) (a : Arguments) (s : Surroundings)
    (hp : Invocation.parse arguments = .command .paths a) (hn : a.pattern = none) :
    let all := runCommandLine arguments s
    let nodes := a.listedNodes s
    all.stdout = nodeLines nodes ∧
    (∀ (filtered : List String) (text : String) (p : Pattern),
      Invocation.parse filtered = .command .paths { a with pattern := some text } →
      Pattern.compile .standard text = .ok p →
      runCommandLine filtered s =
        { all with stdout := nodeLines (nodes.filter fun node => p.accepts node.path) }) ∧
    ∀ (value : Json) (text : String), a.Reads s (utf8 text) → SpellsDocument value text.toList →
      value.depth ≤ 512 → all.exit = 0 ∧ nodes = value.nodes.map Node.plainZeros ∧
        all.stdout = nodeLines value.nodes := by
  intro all nodes
  have hall : all = ⟨exitOf (a.listing s .every).result, nodeLines nodes,
      (a.listing s .every).files, none⟩ := by
    have hlisted : listedBy a.pattern = .ok .every := by rw [hn]; rfl
    simp only [all, runCommandLine, hp]
    exact runPaths_eq hlisted s
  refine ⟨by rw [hall], fun filtered text p hf hc => ?_, fun value text hr hs hd => ?_⟩
  · have hlisted : listedBy (some text) = .ok (.pattern p) := by rw [listedBy, hc]; rfl
    obtain ⟨hexit, hfiles, hcalls⟩ := listing_selects a s (.pattern p)
    have hrun : runCommandLine filtered s = runPaths { a with pattern := some text } s := by
      simp only [runCommandLine, hf]
    have hsame : Arguments.listing { a with pattern := some text } s = a.listing s := rfl
    rw [hrun, runPaths_eq hlisted s, hall]
    simp only [hsame, hexit, hfiles, hcalls]
    rfl
  · obtain ⟨hexit, hnodes⟩ := listing_of_spells hr hs hd
    rw [hall]
    exact ⟨hexit, hnodes, (congrArg nodeLines hnodes).trans (nodeLines_plainZeros value.nodes)⟩

/-- A document with two members of one name, one of them inside an element of an array, and the
pattern that asks for that name at any depth. -/
theorem paths_filter_selects_below :
    let value : Json :=
      .obj [("a", .arr [.bool true, .obj [("b", .null)]]), ("b", .num ⟨['-', '0'], rfl⟩)]
    let a := Arguments.empty
    let s : Surroundings := ⟨twoFiles, utf8 value.compact⟩
    let p : Pattern := ⟨"$..b", [⟨true, .literal "b"⟩]⟩
    let filtered := ["paths", "--pattern=" ++ "$..b"]
    (Invocation.parse ["paths"] = .command .paths a ∧ a.pattern = none) ∧
      Invocation.parse filtered = .command .paths { a with pattern := some "$..b" } ∧
      Pattern.compile .standard "$..b" = .ok p ∧
      (a.Reads s (utf8 value.compact) ∧ SpellsDocument value value.compact.toList ∧
        value.depth ≤ 512) ∧
      (runCommandLine ["paths"] s).exit = 0 ∧
      (runCommandLine ["paths"] s).stdout = utf8 ("$\tobject\n$.a\tarray\n$.a[0]\tscalar\n" ++
        "$.a[1]\tobject\n$.a[1].b\tscalar\n$.b\tscalar\n") ∧
      (runCommandLine filtered s).exit = 0 ∧
      (runCommandLine filtered s).stdout = utf8 "$.a[1].b\tscalar\n$.b\tscalar\n" := by
  intro value a s p filtered
  have hp : Invocation.parse ["paths"] = .command .paths a := by decide +kernel
  have hf : Invocation.parse filtered = _ := parse_paths_pattern "$..b"
  have hc : Pattern.compile .standard "$..b" = .ok p := by decide +kernel
  have hr : a.Reads s (utf8 value.compact) := .stdin rfl
  have hs : SpellsDocument value value.compact.toList := spellsDocument_compact value
  have hd : value.depth ≤ 512 := by decide
  obtain ⟨-, hselects, hlists⟩ := paths_filter_selects ["paths"] a s hp rfl
  obtain ⟨hexit, hnodes, hlines⟩ := hlists value value.compact hr hs hd
  have hfiltered := hselects filtered "$..b" p hf hc
  rw [hnodes] at hfiltered
  refine ⟨⟨hp, rfl⟩, hf, hc, ⟨hr, hs, hd⟩, hexit, ?_, ?_, ?_⟩
  · rw [hlines]
    decide +kernel
  · rw [hfiltered]
    exact hexit
  · rw [hfiltered]
    decide +kernel

end JsonEdit
