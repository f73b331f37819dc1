import JsonEdit.Editor.Tree
import JsonEdit.Rule.Handler
import Mathlib.Tactic.SplitIfs

/-!
# What a step of the editor comes to

The functions of the editor, each by what it does to the stack, to the text and to the counters.
All that is said later about whole runs goes back to these.

* `owed`, `charged`: what the frames around a node owe it, and the same frames once it is written;
* `pathOf`: the keys on the way to the innermost of some frames;
* `prepare_cases`: where a node can begin;
* `Action.text`, `Action.settle`, `apply_eq`: an action carried out on the innermost node;
* `RuleSet.NeverFails`, `visit_eq`, **`beginNode_of_answers`**: a node about which the rules answer;
* `NodeEffect`, **`beginNode_cases`**: all that the beginning of a node can come to;
* `pushKey_of_object`, `close_eq`: names and ends;
* `advance_unchanged`: what no step changes.
-/

namespace JsonEdit

/-! ## Frames around a node -/

/-- What the innermost of these frames owes a child with this key. -/
def owed (around : List Frame) (key : Option String) : String :=
  match around with
  | [] => ""
  | parent :: _ => childPrefix parent key

/-- The frames once one more child has been written. -/
def charged : List Frame → List Frame
  | [] => []
  | parent :: rest => parent.countChild :: rest

/-- The keys on the way from the root to the innermost of these frames. -/
def pathOf (frames : List Frame) : List String :=
  (frames.dropLast.map fun f => f.key.getD "").reverse

theorem Stack.path_eq (s : Stack) : s.path = ⟨pathOf s.frames⟩ := rfl

theorem pathOf_cons (f g : Frame) (rest : List Frame) :
    pathOf (f :: g :: rest) = pathOf (g :: rest) ++ [f.key.getD ""] := by
  simp [pathOf]

theorem pathOf_congr {fs gs : List Frame} (h : fs.map Frame.key = gs.map Frame.key) :
    pathOf fs = pathOf gs := by
  have : ∀ l : List Frame, l.dropLast.map (fun f => f.key.getD "") =
      (l.map Frame.key).dropLast.map (·.getD "") := fun l => by
    rw [← List.map_dropLast, List.map_map]
    rfl
  rw [pathOf, pathOf, this, this, h]

@[simp] theorem charged_keys (fs : List Frame) :
    (charged fs).map Frame.key = fs.map Frame.key := by
  cases fs <;> rfl

@[simp] theorem charged_containers (fs : List Frame) :
    (charged fs).map Frame.container = fs.map Frame.container := by
  cases fs <;> rfl

theorem chargePrefix_cons (top : Frame) (around : List Frame) (n : Nat) :
    (⟨top :: around, n⟩ : Stack).chargePrefix =
      (owed around top.key, ⟨top :: charged around, n⟩) := by
  cases around <;> rfl

/-! ## Where a node can begin -/

namespace Stack

/-- **Where a node can begin**: at the top level, in an array, or where a key is due. -/
theorem prepare_cases {s t : Stack} (h : s.prepare = .ok t) :
    (s.frames = [] ∧ t = ⟨[.pending none], s.suppression⟩) ∨
    (∃ array rest, s.frames = array :: rest ∧ array.container = some .array ∧
      t = ⟨.pending (some (toString array.nextIndex)) ::
        { array with nextIndex := array.nextIndex + 1 } :: rest, s.suppression⟩) ∨
    ∃ top rest, s.frames = top :: rest ∧ top.container = none ∧ t = s := by
  obtain ⟨frames, n⟩ := s
  match frames with
  | [] => cases h; exact .inl ⟨rfl, rfl⟩
  | ⟨key, some .array, count, index⟩ :: rest =>
    cases h; exact .inr (.inl ⟨_, rest, rfl, rfl, rfl⟩)
  | ⟨key, some .object, count, index⟩ :: rest => cases h
  | ⟨key, none, count, index⟩ :: rest => cases h; exact .inr (.inr ⟨_, rest, rfl, rfl, rfl⟩)

theorem prepare_top {s t : Stack} (h : s.prepare = .ok t) :
    ∃ top around, t = ⟨top :: around, s.suppression⟩ ∧ top.container = none := by
  rcases prepare_cases h with ⟨_, rfl⟩ | ⟨array, rest, _, _, rfl⟩ | ⟨top, rest, hs, hc, rfl⟩
  · exact ⟨_, _, rfl, rfl⟩
  · exact ⟨_, _, rfl, rfl⟩
  · exact ⟨top, rest, by rw [← hs], hc⟩

end Stack

/-! ## Actions -/

/-- The action ends what is written of a container before the container ends. -/
def Action.withholds (action : Action) : Bool := action.drops || action.newValue?.isSome

/-- The text of a node after an action: what the frames around it owe it, and its opening bracket
or its whole value. -/
def Action.text (action : Action) (separator : String) (around : List Frame)
    (key : Option String) (kind : NodeKind) (value : Option Json) : String :=
  if action.drops then ""
  else separator ++ owed around (action.newKey?.or key) ++
    match openToken? kind, action.newValue? with
    | some token, none => token
    | _, newValue => ((newValue.or value).getD .null).compact

/-- The stack after an action on its innermost node. -/
def Action.settle (action : Action) (top : Frame) (around : List Frame) (n : Nat)
    (kind : NodeKind) : Stack :=
  let around := if action.drops then around else charged around
  if kind.isContainer then
    ⟨{ top with key := action.newKey?.or top.key } :: around, n + action.withholds.toNat⟩
  else ⟨around, n⟩

/-- The counters after an action. -/
def Stats.settle (stats : Stats) (action : Action) : Stats :=
  { stats with
    renamed := stats.renamed + action.newKey?.isSome.toNat
    removed := stats.removed + action.drops.toNat
    replaced := stats.replaced + action.newValue?.isSome.toNat }

namespace Editor

/-- The line feed between a document and the text before it. -/
def separator (ed : Editor) (fresh : Bool) : String :=
  if fresh && ed.stats.fragments > 0 then "\n" else ""

theorem apply_eq {ed : Editor} {top : Frame} {around : List Frame} {n : Nat}
    (hs : ed.stack = ⟨top :: around, n⟩) (fresh : Bool) (kind : NodeKind) (value : Option Json)
    (action : Action) :
    ed.apply fresh kind value action =
      ({ ed with
          stack := action.settle top around n kind
          stats := ed.stats.settle action },
        action.text (ed.separator fresh) around top.key kind value) := by
  obtain ⟨stack, phase, stats, maxDepth⟩ := ed
  cases hs
  cases action <;> cases kind <;>
    simp [apply, write, withhold, separator, count, Action.settle, Action.text, Action.drops,
      Action.newKey?, Action.newValue?, Action.withholds, Stats.settle, Stack.rename, Stack.onTop,
      Stack.enterSuppressed, Stack.pop, openToken?, NodeKind.isContainer, NodeKind.container?,
      chargePrefix_cons]

end Editor

/-! ## Asking the rules -/

namespace RuleSet

/-- The handler of the first rule that accepts the node's path gives an action. -/
def Answers (rules : RuleSet) (node : Node) : Prop :=
  ∀ index rule, rules.first? node.path = some (index, rule) →
    ∃ action, rule.handler node = .ok action

/-- No handler fails at any node. -/
def NeverFails (rules : RuleSet) : Prop :=
  ∀ rule ∈ rules, ∀ node, ∃ action, rule.handler node = .ok action

theorem mem_of_firstFrom? {path : Path} : ∀ {rules : RuleSet} {start index : Nat} {rule : Rule},
    rules.firstFrom? path start = some (index, rule) → rule ∈ rules
  | [], _, _, _, h => by cases h
  | first :: rules, start, index, rule, h => by
    rw [firstFrom?] at h
    split_ifs at h with hp
    · cases h
      exact List.mem_cons_self
    · exact List.mem_cons_of_mem _ (mem_of_firstFrom? h)

theorem NeverFails.answers {rules : RuleSet} (h : rules.NeverFails) (node : Node) :
    rules.Answers node := fun _ rule hf => h rule (mem_of_firstFrom? hf) node

theorem neverFails_nil : NeverFails [] := fun _ h => by cases h

theorem NeverFails.cons_always {rules : RuleSet} (h : rules.NeverFails) (matcher : Matcher)
    (action : Action) : NeverFails (⟨matcher, .always action⟩ :: rules) := by
  intro rule hr node
  rcases List.mem_cons.mp hr with rfl | hr
  · exact ⟨action, rfl⟩
  · exact h rule hr node

end RuleSet

namespace Editor

/-- The editor with what the rules are asked about counted. -/
def countMatched (ed : Editor) (calls : List Call) : Editor :=
  ed.count fun s => { s with matched := s.matched + calls.length }

theorem visit_eq {rules : RuleSet} {ed : Editor} {kind : NodeKind} {value : Option Json}
    (h : rules.Answers (ed.currentNode kind value)) (fresh : Bool) :
    ed.visit rules fresh kind value =
      let node := ed.currentNode kind value
      let r := (ed.countMatched (rules.callsAt node)).apply fresh kind value (rules.actionAt node)
      ⟨r.1, rules.callsAt node, .ok r.2⟩ := by
  simp only [visit, RuleSet.callsAt, RuleSet.actionAt]
  cases hf : rules.first? (ed.currentNode kind value).path with
  | none => rfl
  | some found =>
    obtain ⟨index, rule⟩ := found
    obtain ⟨action, ha⟩ := h index rule hf
    simp only [Rule.apply, ha]
    rfl

theorem visit_of_not_answers {rules : RuleSet} {ed : Editor} {kind : NodeKind}
    {value : Option Json} (h : ¬ rules.Answers (ed.currentNode kind value)) (fresh : Bool) :
    ∃ e, ed.visit rules fresh kind value =
      ⟨ed, rules.callsAt (ed.currentNode kind value), .error e⟩ := by
  simp only [visit, RuleSet.callsAt]
  cases hf : rules.first? (ed.currentNode kind value).path with
  | none => exact absurd (fun index rule hr => by rw [hf] at hr; cases hr) h
  | some found =>
    obtain ⟨index, rule⟩ := found
    cases ha : rule.handler (ed.currentNode kind value) with
    | error message =>
      simp only [Rule.apply, ha]
      exact ⟨_, rfl⟩
    | ok action =>
      refine absurd (fun index rule hr => ⟨action, ?_⟩) h
      rw [hf] at hr
      cases hr
      exact ha

theorem visit_of_change (change : Editor → Editor)
    (hnode : ∀ ed kind value, (change ed).currentNode kind value = ed.currentNode kind value)
    (hmatched : ∀ ed, (change ed).count (fun s => { s with matched := s.matched + 1 }) =
      change (ed.count fun s => { s with matched := s.matched + 1 }))
    (happly : ∀ ed fresh kind value action, (change ed).apply fresh kind value action =
      (change (ed.apply fresh kind value action).1, (ed.apply fresh kind value action).2))
    (rules : RuleSet) (ed : Editor) (fresh : Bool) (kind : NodeKind) (value : Option Json) :
    (change ed).visit rules fresh kind value =
      { ed.visit rules fresh kind value with
        editor := change (ed.visit rules fresh kind value).editor } := by
  simp only [visit, hnode]
  rcases rules.first? (ed.currentNode kind value).path with _ | ⟨index, rule⟩
  · simp only [happly]
  simp only
  rcases rule.apply (ed.currentNode kind value) with e | action
  · rfl
  · simp only [hmatched, happly]

end Editor

/-! ## A node that begins -/

/-- The frame of a node of some kind, once the kind is known. -/
def Frame.become (top : Frame) (kind : NodeKind) : Frame :=
  match kind.container? with
  | some container => { top with container := some container, childCount := 0 }
  | none => top

@[simp] theorem Frame.become_key (top : Frame) (kind : NodeKind) :
    (top.become kind).key = top.key := by
  cases kind <;> rfl

namespace Editor

/-- The editor once the next node has its frame and is counted. -/
def enter (ed : Editor) (top : Frame) (around : List Frame) (n : Nat) (kind : NodeKind) :
    Editor :=
  { ed with
    stack := ⟨top.become kind :: around, n⟩
    stats := { ed.stats with
      documents := ed.stats.documents + ed.stack.isEmpty.toNat
      nodes := ed.stats.nodes + 1 } }

section BeginNode

variable {ed : Editor} {top : Frame} {around : List Frame} {n : Nat}

theorem beginNode_of_not_prepared {reason : Imbalance} (h : ed.stack.prepare = .error reason)
    (rules : RuleSet) (kind : NodeKind) (value : Option Json) :
    ed.beginNode rules kind value = ⟨ed, [], .error (.unbalanced kind.eventName reason)⟩ := by
  simp only [beginNode, h]

theorem beginNode_of_too_deep (h : ed.stack.prepare = .ok ⟨top :: around, n⟩)
    (hd : ed.maxDepth ≤ around.length) (rules : RuleSet) (kind : NodeKind) (value : Option Json) :
    ed.beginNode rules kind value =
      ⟨{ ed with stack := ⟨top :: around, n⟩ }, [],
        .error (.depthLimitExceeded (around.length + 1) ed.maxDepth)⟩ := by
  have hd : ed.maxDepth < around.length + 1 := by omega
  simp only [beginNode, h, checkDepth, depth, Stack.depth, List.length_cons, gt_iff_lt, if_pos hd]

/-- **A node within the depth limit.** Inside a withheld subtree nothing is asked and nothing goes
out. -/
theorem beginNode_eq (h : ed.stack.prepare = .ok ⟨top :: around, n⟩)
    (hd : around.length < ed.maxDepth) (rules : RuleSet) (kind : NodeKind) (value : Option Json) :
    ed.beginNode rules kind value =
      if n > 0 then ⟨(ed.enter top around n kind).withhold kind, [], .ok ""⟩
      else (ed.enter top around n kind).visit rules ed.stack.isEmpty kind value := by
  have hd : ¬ ed.maxDepth < around.length + 1 := by omega
  simp only [beginNode, h, checkDepth, depth, Stack.depth, List.length_cons, gt_iff_lt, if_neg hd]
  cases kind <;> rfl

/-- Inside a withheld subtree a container is one more that is withheld, and a scalar leaves
nothing behind. -/
theorem beginNode_of_withheld (h : ed.stack.prepare = .ok ⟨top :: around, n⟩)
    (hd : around.length < ed.maxDepth) (hn : 0 < n) (rules : RuleSet) (kind : NodeKind)
    (value : Option Json) :
    ed.beginNode rules kind value = ⟨(ed.enter top around n kind).withhold kind, [], .ok ""⟩ := by
  rw [beginNode_eq h hd, if_pos hn]

/-- The node of these frames, as a handler sees it. -/
def nodeOf (top : Frame) (around : List Frame) (kind : NodeKind) (value : Option Json) : Node :=
  ⟨kind, top.key, ⟨pathOf (top :: around)⟩, value⟩

theorem currentNode_enter (ed : Editor) (top : Frame) (around : List Frame) (n : Nat)
    (kind : NodeKind) (value : Option Json) :
    (ed.enter top around n kind).currentNode kind value = nodeOf top around kind value := by
  have hp : pathOf (top.become kind :: around) = pathOf (top :: around) :=
    pathOf_congr (by simp)
  simp only [currentNode, enter, nodeOf, Stack.path_eq, Stack.top?, List.head?_cons,
    Option.bind_some, Frame.become_key, hp]

/-- The editor once the next node is counted, asked about and treated. -/
def settle (ed : Editor) (top : Frame) (around : List Frame) (kind : NodeKind)
    (calls : List Call) (action : Action) : Editor :=
  let entered := (ed.enter top around 0 kind).countMatched calls
  { entered with
    stack := action.settle (top.become kind) around 0 kind
    stats := entered.stats.settle action }

/-- **A node about which the rules answer**, outside of withheld subtrees. -/
theorem beginNode_of_answers {rules : RuleSet} {kind : NodeKind} {value : Option Json}
    (h : ed.stack.prepare = .ok ⟨top :: around, 0⟩) (hd : around.length < ed.maxDepth)
    (ha : rules.Answers (nodeOf top around kind value)) :
    ed.beginNode rules kind value =
      let node := nodeOf top around kind value
      let action := rules.actionAt node
      ⟨ed.settle top around kind (rules.callsAt node) action, rules.callsAt node,
        .ok (action.text (ed.separator ed.stack.isEmpty) around top.key kind value)⟩ := by
  rw [← currentNode_enter ed top around 0] at ha
  rw [beginNode_eq h hd, if_neg (by omega), visit_eq ha, currentNode_enter]
  simp only
  rw [apply_eq rfl, Frame.become_key]
  rfl

theorem beginNode_of_not_answers {rules : RuleSet} {kind : NodeKind} {value : Option Json}
    (h : ed.stack.prepare = .ok ⟨top :: around, 0⟩) (hd : around.length < ed.maxDepth)
    (ha : ¬ rules.Answers (nodeOf top around kind value)) :
    ∃ e, ed.beginNode rules kind value =
      ⟨ed.enter top around 0 kind, rules.callsAt (nodeOf top around kind value), .error e⟩ := by
  rw [← currentNode_enter ed top around 0] at ha
  obtain ⟨e, he⟩ := visit_of_not_answers ha ed.stack.isEmpty
  exact ⟨e, by rw [beginNode_eq h hd, if_neg (by omega), he, currentNode_enter]⟩

end BeginNode

/-- **What the beginning of a node comes to.** -/
inductive NodeEffect (rules : RuleSet) (ed : Editor) (kind : NodeKind) (value : Option Json) :
    Effect → Prop
  | misplaced {reason : Imbalance} : ed.stack.prepare = .error reason →
    NodeEffect rules ed kind value ⟨ed, [], .error (.unbalanced kind.eventName reason)⟩
  | tooDeep {top : Frame} {around : List Frame} {n : Nat} :
    ed.stack.prepare = .ok ⟨top :: around, n⟩ → ed.maxDepth ≤ around.length →
    NodeEffect rules ed kind value ⟨{ ed with stack := ⟨top :: around, n⟩ }, [],
      .error (.depthLimitExceeded (around.length + 1) ed.maxDepth)⟩
  | withheld {top : Frame} {around : List Frame} {n : Nat} :
    ed.stack.prepare = .ok ⟨top :: around, n⟩ → around.length < ed.maxDepth → 0 < n →
    NodeEffect rules ed kind value ⟨(ed.enter top around n kind).withhold kind, [], .ok ""⟩
  | answered {top : Frame} {around : List Frame} {node : Node} {action : Action} :
    ed.stack.prepare = .ok ⟨top :: around, 0⟩ → around.length < ed.maxDepth →
    rules.Answers node → node = nodeOf top around kind value → action = rules.actionAt node →
    NodeEffect rules ed kind value
      ⟨ed.settle top around kind (rules.callsAt node) action, rules.callsAt node,
        .ok (action.text (ed.separator ed.stack.isEmpty) around top.key kind value)⟩
  | failed {top : Frame} {around : List Frame} {e : EditError} :
    ed.stack.prepare = .ok ⟨top :: around, 0⟩ → around.length < ed.maxDepth →
    ¬ rules.Answers (nodeOf top around kind value) →
    NodeEffect rules ed kind value
      ⟨ed.enter top around 0 kind, rules.callsAt (nodeOf top around kind value), .error e⟩

theorem beginNode_cases (rules : RuleSet) (ed : Editor) (kind : NodeKind) (value : Option Json) :
    NodeEffect rules ed kind value (ed.beginNode rules kind value) := by
  rcases hp : ed.stack.prepare with reason | stack
  · rw [beginNode_of_not_prepared hp]
    exact .misplaced hp
  obtain ⟨top, around, rfl, -⟩ := Stack.prepare_top hp
  by_cases hd : around.length < ed.maxDepth
  · by_cases hn : 0 < ed.stack.suppression
    · rw [beginNode_of_withheld hp hd hn]
      exact .withheld hp hd hn
    · rw [show ed.stack.suppression = 0 by omega] at hp
      by_cases ha : rules.Answers (nodeOf top around kind value)
      · rw [beginNode_of_answers hp hd ha]
        exact .answered hp hd ha rfl rfl
      · obtain ⟨e, he⟩ := beginNode_of_not_answers hp hd ha
        rw [he]
        exact .failed hp hd ha
  · rw [beginNode_of_too_deep hp (by omega)]
    exact .tooDeep hp (by omega)

theorem beginNode_phase (rules : RuleSet) (ed : Editor) (kind : NodeKind) (value : Option Json) :
    (ed.beginNode rules kind value).editor.phase = ed.phase := by
  have h := beginNode_cases rules ed kind value
  generalize ed.beginNode rules kind value = effect at h
  cases h <;> rfl

/-! ## Keys and ends -/

section Brackets

variable {ed : Editor} {top : Frame} {around : List Frame} {n : Nat}

theorem pushKey_of_object (hs : ed.stack = ⟨top :: around, n⟩)
    (ht : top.container = some .object) (name : String) :
    ed.pushKey name =
      if around.length + 1 < ed.maxDepth then
        ⟨{ ed with stack := ⟨.pending (some name) :: top :: around, n⟩ }, [], .ok ""⟩
      else
        ⟨{ ed with stack := ⟨.pending (some name) :: top :: around, n⟩ }, [],
          .error (.depthLimitExceeded (around.length + 2) ed.maxDepth)⟩ := by
  obtain ⟨key, container, count, index⟩ := top
  cases ht
  simp only [pushKey, hs, Stack.pushKey, Stack.push, checkDepth, depth, Stack.depth,
    List.length_cons, gt_iff_lt]
  by_cases hd : around.length + 1 < ed.maxDepth
  · rw [if_pos hd, if_neg (by omega)]
    rfl
  · rw [if_neg hd, if_pos (by omega)]
    rfl

theorem pushKey_of_not_object (h : ∀ f rest, ed.stack.frames = f :: rest →
    f.container ≠ some .object) (name : String) :
    ed.pushKey name = ⟨ed, [], .error (.unbalanced "key" .nameOutsideObject)⟩ := by
  have hk : ed.stack.pushKey name = .error .nameOutsideObject := by
    rw [Stack.pushKey]
    split
    · next key count index rest hf => exact absurd rfl (h _ _ hf)
    · rfl
  rw [pushKey, hk]
  rfl

/-- **A container ends.** Its bracket goes out unless it is withheld. -/
theorem close_eq (hs : ed.stack = ⟨top :: around, n⟩) (kind : ContainerKind) :
    ed.close kind =
      if top.container = some kind then
        ⟨{ ed with stack := ⟨around, n - 1⟩ }, [], .ok (if n > 0 then "" else closeToken kind)⟩
      else
        ⟨{ ed with stack := ⟨around, n⟩ }, [],
          .error (.unbalanced kind.endName (.innermost top.container))⟩ := by
  obtain ⟨stack, phase, stats, maxDepth⟩ := ed
  cases hs
  by_cases ht : top.container = some kind
  · cases n <;> simp [close, Stack.top?, Stack.pop, Stack.leaveSuppressed, ht]
  · simp [close, Stack.top?, Stack.pop, ht]

end Brackets

theorem advance_unchanged (rules : RuleSet) (ed : Editor) (step : Step) :
    let ed' := (ed.advance rules step).editor
    ed'.maxDepth = ed.maxDepth ∧ ed'.stats.fragments = ed.stats.fragments ∧
      ed'.stats.bytesEmitted = ed.stats.bytesEmitted := by
  cases step with
  | node kind value =>
    have h := beginNode_cases rules ed kind value
    simp only [advance]
    generalize ed.beginNode rules kind value = effect at h
    cases h with
    | withheld => cases kind <;> exact ⟨rfl, rfl, rfl⟩
    | misplaced | tooDeep | answered | failed => exact ⟨rfl, rfl, rfl⟩
  | key name =>
    simp only [advance, pushKey]
    split <;> exact ⟨rfl, rfl, rfl⟩
  | close kind =>
    simp only [advance, close]
    split
    · exact ⟨rfl, rfl, rfl⟩
    · split_ifs <;> exact ⟨rfl, rfl, rfl⟩
  | fail message => exact ⟨rfl, rfl, rfl⟩
  | finish =>
    simp only [advance, finish]
    split_ifs <;> exact ⟨rfl, rfl, rfl⟩

end Editor

end JsonEdit
