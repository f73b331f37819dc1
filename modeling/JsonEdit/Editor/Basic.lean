import JsonEdit.Editor.Evaluate
import JsonEdit.Editor.Limits
import JsonEdit.Fragment
import JsonEdit.FragmentSink

/-!
# The editor

An editor takes the events of a document one by one, asks the rules what to do with each node when
it begins, and gives out the text of the edited document as it becomes known.

* `Step`, `Event.steps`: what an event consists of; only the start of an object with its first
  member name is more than one step;
* `Editor.advance`: one step, with the fragment it settles and the handler it called;
* `Editor.perform`, `Editor.handle`: the same with a sink that takes the fragment;
* `Editor.run`: events in turn, up to the first error.
-/

namespace JsonEdit

/-! ## The state -/

/-- What an editor counts. -/
structure Stats where
  /-- Events taken. -/
  events : Nat
  /-- Nodes begun, withheld ones included. -/
  nodes : Nat
  /-- Nodes that a rule has answered for. -/
  matched : Nat
  renamed : Nat
  removed : Nat
  replaced : Nat
  /-- Fragments given out. -/
  fragments : Nat
  /-- Bytes given out. -/
  bytesEmitted : Nat
  /-- Nodes at the top level. -/
  documents : Nat
deriving DecidableEq, Repr

/-- Nothing counted. -/
def Stats.zero : Stats := ⟨0, 0, 0, 0, 0, 0, 0, 0, 0⟩

/-- An editor between two events. -/
structure Editor where
  stack : Stack
  phase : Phase
  stats : Stats
  maxDepth : Nat
deriving DecidableEq, Repr

/-- A handler was called: the position of its rule, and the node. -/
structure Call where
  rule : Nat
  node : Node
deriving Repr

/-! ## Steps -/

/-- What an event asks for. -/
inductive Step
  /-- A node begins; a scalar is whole. -/
  | node (kind : NodeKind) (value : Option Json)
  /-- The name of the next member. -/
  | key (name : String)
  /-- A container ends. -/
  | close (kind : ContainerKind)
  /-- The text cannot be read any further. -/
  | fail (message : String)
  /-- The text has ended. -/
  | finish

/-- The steps of an event. -/
def Event.steps : Event → List Step
  | .key name => [.key name]
  | .scalar value => [.node .scalar (some value)]
  | .startObject none => [.node .object none]
  | .startObject (some name) => [.node .object none, .key name]
  | .endObject => [.close .object]
  | .startArray => [.node .array none]
  | .endArray => [.close .array]
  | .error message => [.fail message]
  | .finish => [.finish]

/-- What a step comes to: the editor after it, the handlers it called, and the fragment it settles
if it does not fail. -/
structure Effect where
  editor : Editor
  calls : List Call
  result : Except EditError String

namespace Editor

/-- A new editor. -/
def new (maxDepth : Nat) : Editor := ⟨.empty, .running, .zero, maxDepth⟩

/-- A new editor, if the depth limit may be chosen. -/
def withLimit (maxDepth : Nat) : Except EditError Editor :=
  (DepthLimit.validate maxDepth).map fun _ => new maxDepth

/-- The number of frames. -/
def depth (ed : Editor) : Nat := ed.stack.depth

/-- Changes the counters. -/
def count (ed : Editor) (f : Stats → Stats) : Editor := { ed with stats := f ed.stats }

/-- The depth is within its limit. -/
def checkDepth (ed : Editor) : Except EditError Unit :=
  if ed.depth > ed.maxDepth then .error (.depthLimitExceeded ed.depth ed.maxDepth) else .ok ()

/-- A member name: a frame for the member. -/
def pushKey (ed : Editor) (name : String) : Effect :=
  match ed.stack.pushKey name with
  | .error reason => ⟨ed, [], .error (.unbalanced (Event.key name).name reason)⟩
  | .ok stack =>
    let ed := { ed with stack }
    ⟨ed, [], ed.checkDepth.map fun _ => ""⟩

/-- Goes past the innermost node without any output: a container is withheld until it ends, a
scalar is over. -/
def withhold (ed : Editor) (kind : NodeKind) : Editor :=
  { ed with stack := if kind.isContainer then ed.stack.enterSuppressed else ed.stack.pop }

/-- The innermost node as a handler sees it. -/
def currentNode (ed : Editor) (kind : NodeKind) (value : Option Json) : Node :=
  ⟨kind, ed.stack.top?.bind Frame.key, ed.stack.path, value⟩

/-- Gives out the innermost node after an action that keeps it: what its parent owes it, and its
value or bracket. A line feed keeps documents apart. -/
def write (ed : Editor) (fresh : Bool) (kind : NodeKind) (value : Option Json) (action : Action) :
    Editor × String :=
  let ed := match action.newKey? with
    | some key => { ed with stack := ed.stack.rename key }.count fun s =>
        { s with renamed := s.renamed + 1 }
    | none => ed
  let ed := match action.newValue? with
    | some _ => ed.count fun s => { s with replaced := s.replaced + 1 }
    | none => ed
  let separator := if fresh && ed.stats.fragments > 0 then "\n" else ""
  let (before, stack) := ed.stack.chargePrefix
  let ed := { ed with stack }
  match openToken? kind, action.newValue? with
  | some token, none => (ed, separator ++ before ++ token)
  | _, newValue =>
    (ed.withhold kind, separator ++ before ++ ((newValue.or value).getD .null).compact)

/-- Carries out an action on the innermost node. -/
def apply (ed : Editor) (fresh : Bool) (kind : NodeKind) (value : Option Json) (action : Action) :
    Editor × String :=
  if action.drops then
    ((ed.count fun s => { s with removed := s.removed + 1 }).withhold kind, "")
  else ed.write fresh kind value action

/-- Asks the rules about the innermost node and carries out the answer. -/
def visit (rules : RuleSet) (ed : Editor) (fresh : Bool) (kind : NodeKind) (value : Option Json) :
    Effect :=
  let node := ed.currentNode kind value
  match rules.first? node.path with
  | none =>
    let (ed, fragment) := ed.apply fresh kind value .pass
    ⟨ed, [], .ok fragment⟩
  | some (index, rule) =>
    match rule.apply node with
    | .error e => ⟨ed, [⟨index, node⟩], .error e⟩
    | .ok action =>
      let (ed, fragment) :=
        (ed.count fun s => { s with matched := s.matched + 1 }).apply fresh kind value action
      ⟨ed, [⟨index, node⟩], .ok fragment⟩

/-- A node begins. Inside a withheld subtree only the nesting is kept. -/
def beginNode (rules : RuleSet) (ed : Editor) (kind : NodeKind) (value : Option Json) : Effect :=
  let fresh := ed.stack.isEmpty
  match ed.stack.prepare with
  | .error reason => ⟨ed, [], .error (.unbalanced kind.eventName reason)⟩
  | .ok stack =>
    let ed := { ed with stack }
    match ed.checkDepth with
    | .error e => ⟨ed, [], .error e⟩
    | .ok _ =>
      let ed := ed.count fun s =>
        { s with documents := s.documents + fresh.toNat, nodes := s.nodes + 1 }
      let ed := match kind.container? with
        | some container => { ed with stack := ed.stack.openContainer (some container) }
        | none => ed
      if ed.stack.suppression > 0 then ⟨ed.withhold kind, [], .ok ""⟩
      else ed.visit rules fresh kind value

/-- A container ends. -/
def close (ed : Editor) (kind : ContainerKind) : Effect :=
  match ed.stack.top? with
  | none => ⟨ed, [], .error (.unbalanced kind.endName .nothingOpen)⟩
  | some frame =>
    let ed := { ed with stack := ed.stack.pop }
    if frame.container ≠ some kind then
      ⟨ed, [], .error (.unbalanced kind.endName (.innermost frame.container))⟩
    else if ed.stack.suppression > 0 then
      ⟨{ ed with stack := ed.stack.leaveSuppressed }, [], .ok ""⟩
    else ⟨ed, [], .ok (closeToken kind)⟩

/-- The text has ended: no document may be open. -/
def finish (ed : Editor) : Effect :=
  if ed.stack.isEmpty then ⟨{ ed with phase := .finished }, [], .ok ""⟩
  else ⟨ed, [], .error (.unexpectedEnd ed.stack.openContainers)⟩

/-- One step. -/
def advance (rules : RuleSet) (ed : Editor) : Step → Effect
  | .node kind value => ed.beginNode rules kind value
  | .key name => ed.pushKey name
  | .close kind => ed.close kind
  | .fail message => ⟨ed, [], .error (.malformedInput message)⟩
  | .finish => ed.finish

/-- One more fragment goes out. -/
def countFragment (ed : Editor) (fragment : String) : Editor :=
  ed.count fun s =>
    { s with fragments := s.fragments + 1, bytesEmitted := s.bytesEmitted + fragment.utf8ByteSize }

/-- The first error stops the editor for good. -/
def halt (ed : Editor) : Editor := { ed with phase := .halted }

end Editor

/-! ## With a sink -/

/-- What one or more events come to: the editor and the sink after them, the handlers called, and
the error that stopped the editor. -/
structure Reply (σ : Type) where
  editor : Editor
  sink : σ
  calls : Array Call
  result : Except EditError Unit

namespace Editor

variable {σ : Type} [FragmentSink σ]

/-- One step; the fragment it settles goes to the sink, unless it is empty. -/
def perform (rules : RuleSet) (ed : Editor) (sink : σ) (step : Step) : Reply σ :=
  match ed.advance rules step with
  | ⟨ed, calls, .error e⟩ => ⟨ed.halt, sink, calls.toArray, .error e⟩
  | ⟨ed, calls, .ok fragment⟩ =>
    if fragment.isEmpty then ⟨ed, sink, calls.toArray, .ok ()⟩
    else
      let ed := ed.countFragment fragment
      match FragmentSink.emit sink fragment with
      | (.ok _, sink) => ⟨ed, sink, calls.toArray, .ok ()⟩
      | (.error message, sink) => ⟨ed.halt, sink, calls.toArray, .error (.transfer message)⟩

/-- Steps in turn, up to the first error. -/
def performAll (rules : RuleSet) (ed : Editor) (sink : σ) (calls : Array Call) :
    List Step → Reply σ
  | [] => ⟨ed, sink, calls, .ok ()⟩
  | step :: steps =>
    match ed.perform rules sink step with
    | ⟨ed, sink, more, .ok _⟩ => ed.performAll rules sink (calls ++ more) steps
    | ⟨ed, sink, more, .error e⟩ => ⟨ed, sink, calls ++ more, .error e⟩

/-- One event. An editor that has stopped takes none and stays as it is. -/
def handle (rules : RuleSet) (ed : Editor) (sink : σ) (event : Event) : Reply σ :=
  match ed.phase with
  | .running =>
    (ed.count fun s => { s with events := s.events + 1 }).performAll rules sink #[] event.steps
  | phase => ⟨ed, sink, #[], .error (.closed phase)⟩

/-- Events in turn, up to the first error. -/
def run (rules : RuleSet) (ed : Editor) (sink : σ) (calls : Array Call) : List Event → Reply σ
  | [] => ⟨ed, sink, calls, .ok ()⟩
  | event :: events =>
    match ed.handle rules sink event with
    | ⟨ed, sink, more, .ok _⟩ => ed.run rules sink (calls ++ more) events
    | ⟨ed, sink, more, .error e⟩ => ⟨ed, sink, calls ++ more, .error e⟩

end Editor

/-- The text that events come to; the end need not be among them. -/
def editEvents (rules : RuleSet) (events : List Event) : Except EditError String :=
  match (Editor.new DepthLimit.standard).run rules "" #[] events with
  | ⟨_, text, _, .ok _⟩ => .ok text
  | ⟨_, _, _, .error e⟩ => .error e

end JsonEdit
