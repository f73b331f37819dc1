import JsonEdit.Event.Grammar
import JsonEdit.Proofs.Editor.Feed
import JsonEdit.Proofs.Json.Compact

/-!
# Withheld content

What stands inside a container that is dropped or replaced is read and forgotten: it reaches no
handler and no sink, and all it leaves behind is the number of its events and of its nodes.

* `Editor.outside`: an editor up to what withheld content may change, and `handle_outside`: nothing
  else depends on that;
* `skip_document`, `skip_items`, `skip_members`: the events of the grammar inside a withheld
  container;
* `IsContainer`, `Withholds`, `DifferInside`: two streams that differ only in withheld content;
* **`withheld_content_never_leaks`**: such streams cannot be told apart by what goes out.
-/

namespace JsonEdit

theorem Frame.become_node_container (top : Frame) (kind : ContainerKind) :
    (top.become kind.node).container = some kind := by
  cases kind <;> rfl

/-- The counters that withheld content has no part in: all but those of events and of nodes. -/
def Stats.outside (stats : Stats) : Stats := { stats with events := 0, nodes := 0 }

namespace Editor

/-- An editor up to the counters of events and of nodes. -/
def outside (ed : Editor) : Editor := { ed with stats := ed.stats.outside }

/-- An editor in another place. -/
def moved (ed : Editor) (stack : Stack) : Editor := { ed with stack }

end Editor

/-! ## Nothing depends on the counters of events and nodes -/

/-- An effect up to the counters of events and of nodes. -/
def Effect.outside (effect : Effect) : Effect := { effect with editor := effect.editor.outside }

/-- A reply up to the counters of events and of nodes. -/
def Reply.outside {σ : Type} (r : Reply σ) : Reply σ := { r with editor := r.editor.outside }

theorem Reply.outside_eq {σ : Type} {r r' : Reply σ} (h : r.outside = r'.outside) :
    r.editor.outside = r'.editor.outside ∧ r.sink = r'.sink ∧ r.calls = r'.calls ∧
      r.result = r'.result := by
  simpa only [Reply.outside, Reply.mk.injEq] using h

namespace Editor

variable {σ : Type} [FragmentSink σ] {rules : RuleSet}

theorem beginNode_outside (h : rules.NeverFails) (ed : Editor) (kind : NodeKind)
    (value : Option Json) :
    (ed.outside.beginNode rules kind value).outside = (ed.beginNode rules kind value).outside := by
  have hs : ed.outside.stack.prepare = ed.stack.prepare := rfl
  have hm : ed.outside.maxDepth = ed.maxDepth := rfl
  rcases hp : ed.stack.prepare with reason | stack
  · rw [beginNode_of_not_prepared hp, beginNode_of_not_prepared (hs.trans hp)]
    rfl
  obtain ⟨top, around, rfl, -⟩ := Stack.prepare_top hp
  by_cases hd : around.length < ed.maxDepth
  · by_cases hn : 0 < ed.stack.suppression
    · rw [beginNode_of_withheld hp hd hn, beginNode_of_withheld (hs.trans hp) (hm ▸ hd) hn]
      cases kind <;> rfl
    · rw [show ed.stack.suppression = 0 by omega] at hp
      rw [beginNode_of_answers hp hd (h.answers _),
        beginNode_of_answers (hs.trans hp) (hm ▸ hd) (h.answers _)]
      rfl
  · have hd : ed.maxDepth ≤ around.length := by omega
    rw [beginNode_of_too_deep hp hd, beginNode_of_too_deep (hs.trans hp) (hm ▸ hd)]
    rfl

theorem pushKey_outside (ed : Editor) (name : String) :
    (ed.outside.pushKey name).outside = (ed.pushKey name).outside := by
  simp only [pushKey, show ed.outside.stack = ed.stack from rfl]
  cases ed.stack.pushKey name <;> rfl

theorem close_outside (ed : Editor) (kind : ContainerKind) :
    (ed.outside.close kind).outside = (ed.close kind).outside := by
  simp only [close, show ed.outside.stack = ed.stack from rfl]
  cases ed.stack.top? with
  | none => rfl
  | some frame =>
    simp only
    split_ifs <;> rfl

theorem advance_outside (h : rules.NeverFails) (ed : Editor) (step : Step) :
    (ed.outside.advance rules step).outside = (ed.advance rules step).outside := by
  cases step with
  | node kind value => exact beginNode_outside h ed kind value
  | key name => exact pushKey_outside ed name
  | close kind => exact close_outside ed kind
  | fail message => rfl
  | finish =>
    simp only [advance, finish, show ed.outside.stack = ed.stack from rfl]
    split_ifs <;> rfl

theorem perform_outside (h : rules.NeverFails) (ed : Editor) (sink : σ) (step : Step) :
    (ed.outside.perform rules sink step).outside = (ed.perform rules sink step).outside := by
  have ha := advance_outside h ed step
  rcases h₁ : ed.outside.advance rules step with ⟨ed₁, calls₁, result₁⟩
  rcases h₂ : ed.advance rules step with ⟨ed₂, calls₂, result₂⟩
  rw [h₁, h₂] at ha
  simp only [Effect.outside, Effect.mk.injEq] at ha
  obtain ⟨he, rfl, rfl⟩ := ha
  have hhalt : ed₁.halt.outside = ed₂.halt.outside := congrArg halt he
  cases result₁ with
  | error e =>
    rw [perform_of_error h₁, perform_of_error h₂]
    simp only [Reply.outside, hhalt]
  | ok fragment =>
    rw [perform, perform, h₁, h₂]
    simp only
    split_ifs
    · simp only [Reply.outside, he]
    · have hsent : (ed₁.countFragment fragment).outside = (ed₂.countFragment fragment).outside :=
        congrArg (countFragment · fragment) he
      have hstop : (ed₁.countFragment fragment).halt.outside =
          (ed₂.countFragment fragment).halt.outside := congrArg halt hsent
      rcases FragmentSink.emit sink fragment with ⟨_ | _, sink'⟩
      · simp only [Reply.outside, hstop]
      · simp only [Reply.outside, hsent]

theorem perform_tick_outside (h : rules.NeverFails) (ed : Editor) (sink : σ) (step : Step) :
    (ed.tick.perform rules sink step).outside = (ed.perform rules sink step).outside := by
  have ht : ed.tick.outside = ed.outside := rfl
  rw [← perform_outside h, ht, perform_outside h]

theorem sent_outside {ed ed' : Editor} (h : ed.outside = ed'.outside) (fragment : String) :
    (ed.sent fragment).outside = (ed'.sent fragment).outside := by
  unfold sent
  split_ifs
  · exact h
  · exact congrArg (countFragment · fragment) h

theorem performAll_outside (h : rules.NeverFails) : ∀ (steps : List Step) (ed : Editor)
    (sink : σ) (calls : Array Call),
    (ed.outside.performAll rules sink calls steps).outside =
      (ed.performAll rules sink calls steps).outside
  | [], _, _, _ => rfl
  | step :: steps, ed, sink, calls => by
    obtain ⟨he, hsink, hcalls, hresult⟩ := Reply.outside_eq (perform_outside h ed sink step)
    simp only [performAll_cons, hsink, hcalls, hresult]
    cases (ed.perform rules sink step).result with
    | error e => simp only [Reply.outside, he]
    | ok _ =>
      simp only
      rw [← performAll_outside h steps (ed.outside.perform rules sink step).editor, he,
        performAll_outside h]

theorem handle_outside (h : rules.NeverFails) (ed : Editor) (sink : σ) (event : Event) :
    (ed.outside.handle rules sink event).outside = (ed.handle rules sink event).outside := by
  by_cases hp : ed.phase = .running
  · have ht : ed.outside.tick.outside = ed.tick.outside := rfl
    rw [handle_running hp, handle_running (show ed.outside.phase = .running from hp),
      ← performAll_outside h _ ed.tick, ← ht, performAll_outside h]
  · rw [handle_stopped hp, handle_stopped (show ed.outside.phase ≠ .running from hp)]
    rfl

theorem run_outside (h : rules.NeverFails) : ∀ (events : List Event) (ed : Editor) (sink : σ)
    (calls : Array Call),
    (ed.outside.run rules sink calls events).outside = (ed.run rules sink calls events).outside
  | [], _, _, _ => rfl
  | event :: events, ed, sink, calls => by
    obtain ⟨he, hsink, hcalls, hresult⟩ := Reply.outside_eq (handle_outside h ed sink event)
    simp only [run_cons, hsink, hcalls, hresult]
    cases (ed.handle rules sink event).result with
    | error e => simp only [Reply.outside, he]
    | ok _ =>
      simp only
      rw [← run_outside h events (ed.outside.handle rules sink event).editor, he, run_outside h]

theorem run_congr (h : rules.NeverFails) {ed ed' : Editor} (he : ed.outside = ed'.outside)
    (sink : σ) (calls : Array Call) (events : List Event) :
    (ed.run rules sink calls events).outside = (ed'.run rules sink calls events).outside := by
  rw [← run_outside h, he, run_outside h]

/-! ## Streams up to these counters -/

/-- Every event of the stream succeeds; up to the counters of events and of nodes this is what
becomes of the editor and the sink, and these handlers are called. -/
def Passes (rules : RuleSet) (ed : Editor) (sink : σ) (events : List Event) (ed' : Editor)
    (sink' : σ) (calls : List Call) : Prop :=
  (ed.run rules sink #[] events).outside = Reply.outside ⟨ed', sink', calls.toArray, .ok ()⟩

section Passes

variable {ed ed₁ ed₂ : Editor} {sink sink₁ sink₂ : σ} {events rest : List Event} {event : Event}
  {step : Step} {calls₁ calls₂ : List Call}

theorem passes_nil (ed : Editor) (sink : σ) : Passes rules ed sink [] ed sink [] := rfl

theorem Passes.takes (h : Passes rules ed sink events ed₁ sink₁ calls₁) :
    ∃ ed', Takes rules ed sink events ed' sink₁ calls₁ ∧ ed'.outside = ed₁.outside := by
  rw [Passes] at h
  rcases hr : ed.run rules sink #[] events with ⟨ed', sink', calls, result⟩
  rw [hr] at h
  simp only [Reply.outside, Reply.mk.injEq] at h
  obtain ⟨he, rfl, rfl, rfl⟩ := h
  exact ⟨ed', hr, he⟩

theorem Takes.passes (h : Takes rules ed sink events ed₁ sink₁ calls₁) :
    Passes rules ed sink events ed₁ sink₁ calls₁ := by
  rw [Passes, h]

theorem Passes.to (h : Passes rules ed sink events ed₁ sink₁ calls₁)
    (he : ed₁.outside = ed₂.outside) : Passes rules ed sink events ed₂ sink₁ calls₁ := by
  rw [Passes, h]
  simp only [Reply.outside, he]

theorem Passes.append (h : rules.NeverFails) (hp : Passes rules ed sink events ed₁ sink₁ calls₁)
    (hr : Passes rules ed₁ sink₁ rest ed₂ sink₂ calls₂) :
    Passes rules ed sink (events ++ rest) ed₂ sink₂ (calls₁ ++ calls₂) := by
  obtain ⟨ed', ht, he⟩ := hp.takes
  have hr' : Passes rules ed' sink₁ rest ed₂ sink₂ calls₂ := (run_congr h he _ _ _).trans hr
  obtain ⟨ed'', ht', he'⟩ := hr'.takes
  rw [Passes, ht.append ht']
  simp only [Reply.outside, he']

theorem Accepts.after (h : rules.NeverFails) (ha : Accepts rules ed sink (events ++ rest))
    (hp : Passes rules ed sink events ed₁ sink₁ calls₁) : Accepts rules ed₁ sink₁ rest := by
  obtain ⟨ed', ht, he⟩ := hp.takes
  have hc := congrArg Reply.result (run_congr h he sink₁ #[] rest)
  exact hc.symm.trans (ha.right ht)

theorem passes_step (hr : ed.phase = .running) (hs : event.steps = [step])
    (ha : ed.tick.advance rules step = ⟨ed₁, [], .ok ""⟩) :
    Passes rules ed sink [event] ed₁ sink [] := by
  refine (Takes.of_handle ?_).passes
  rw [handle_step hr sink hs, perform, ha]
  rfl

theorem run_startObject (h : rules.NeverFails) (ed : Editor) (sink : σ) (calls : Array Call)
    (name : String) (events : List Event) :
    (ed.run rules sink calls (.startObject (some name) :: events)).outside =
      (ed.run rules sink calls (.startObject none :: .key name :: events)).outside := by
  by_cases hp : ed.phase = .running
  · have hsteps : (Event.startObject none).steps = [.node .object none] := rfl
    rw [run_cons, run_cons, handle_startObject hp]
    rcases hr : ed.handle rules sink (.startObject none) with ⟨ed₁, sink₁, calls₁, e | _⟩
    · rfl
    · have hp₁ : ed₁.phase = .running := by
        rw [handle_step hp sink hsteps] at hr
        have hphase := phase_of_perform_node (congrArg Reply.result hr)
        rwa [hr, show ed.tick.phase = .running from hp] at hphase
      -- told apart, the name is one more event; that is all the difference
      obtain ⟨he, hsink, hcalls, hresult⟩ :=
        Reply.outside_eq (perform_tick_outside h ed₁ sink₁ (.key name))
      have hkey : ed₁.handle rules sink₁ (.key name) = _ := handle_step hp₁ sink₁ rfl
      simp only [run_cons, hkey, hsink, hcalls, hresult]
      cases (ed₁.perform rules sink₁ (.key name)).result with
      | error e => simp only [Reply.outside, he, Array.append_assoc]
      | ok _ =>
        simp only [Array.append_assoc]
        exact run_congr h he.symm _ _ _
  · rw [run_cons, run_cons, handle_stopped hp, handle_stopped hp]

end Passes

/-! ## Inside a withheld container -/

/-- The events are passed over, as those of one node, wherever a node can begin inside a withheld
container. -/
def SkippedAsNode (rules : RuleSet) (σ : Type) [FragmentSink σ] (events : List Event) : Prop :=
  ∀ (ed : Editor) (sink : σ) (top : Frame) (around : List Frame) (n : Nat),
    ed.phase = .running → ed.stack.isEmpty = false →
    ed.stack.prepare = .ok ⟨top :: around, n⟩ → 0 < n → Accepts rules ed sink events →
    Passes rules ed sink events (ed.moved ⟨around, n⟩) sink []

/-- The events are passed over in a withheld container of this kind, which stays open. -/
def SkippedInside (rules : RuleSet) (σ : Type) [FragmentSink σ] (kind : ContainerKind)
    (events : List Event) : Prop :=
  ∀ (ed : Editor) (sink : σ) (top : Frame) (around : List Frame) (n : Nat),
    ed.phase = .running → ed.stack = ⟨top :: around, n⟩ → top.container = some kind → 0 < n →
    Accepts rules ed sink events →
    ∃ top', top'.container = some kind ∧
      Passes rules ed sink events (ed.moved ⟨top' :: around, n⟩) sink []

section Skip

variable {ed : Editor} {sink : σ} {event start stop : Event}
  {inner items members value : List Event} {top : Frame} {around : List Frame} {n : Nat}
  {kind : ContainerKind}

theorem skip_begin (hr : ed.phase = .running) (hin : ed.stack.isEmpty = false)
    (hp : ed.stack.prepare = .ok ⟨top :: around, n⟩) (hn : 0 < n) {node : NodeKind}
    {value : Option Json}
    (hs : event.steps = [.node node value]) (ha : Accepts rules ed sink [event]) :
    Passes rules ed sink [event]
      (ed.moved (if node.isContainer then ⟨top.become node :: around, n + 1⟩ else ⟨around, n⟩))
      sink [] := by
  have hpt : ed.tick.stack.prepare = .ok ⟨top :: around, n⟩ := hp
  by_cases hd : around.length < ed.tick.maxDepth
  · refine (passes_step hr hs (beginNode_of_withheld hpt hd hn _ _ _)).to ?_
    cases node <;> simp [outside, moved, withhold, enter, tick, count, Stats.outside, hin,
      Stack.enterSuppressed, Stack.pop, NodeKind.isContainer, NodeKind.container?]
  · have he : ed.tick.advance rules (.node node value) = _ :=
      beginNode_of_too_deep hpt (by omega) rules node value
    have hh := ha.head
    rw [handle_step hr sink hs, perform_of_error he] at hh
    cases hh

theorem passes_key (hr : ed.phase = .running) (hs : ed.stack = ⟨top :: around, n⟩)
    (ht : top.container = some .object) (name : String)
    (ha : Accepts rules ed sink [.key name]) :
    Passes rules ed sink [.key name]
      (ed.moved ⟨.pending (some name) :: top :: around, n⟩) sink [] := by
  have hk : ed.tick.advance rules (.key name) = _ :=
    pushKey_of_object (show ed.tick.stack = _ from hs) ht name
  by_cases hd : around.length + 1 < ed.tick.maxDepth
  · rw [if_pos hd] at hk
    exact (passes_step hr rfl hk).to rfl
  · rw [if_neg hd] at hk
    have hh := ha.head
    rw [handle_step hr sink rfl, perform_of_error hk] at hh
    cases hh

theorem skip_end (hr : ed.phase = .running) (hs : ed.stack = ⟨top :: around, n + 1⟩)
    (ht : top.container = some kind) (he : event.steps = [.close kind]) :
    Passes rules ed sink [event] (ed.moved ⟨around, n⟩) sink [] := by
  have hc : ed.tick.advance rules (.close kind) = _ :=
    close_eq (show ed.tick.stack = _ from hs) kind
  rw [if_pos ht, if_pos (by omega)] at hc
  exact (passes_step hr he hc).to rfl

theorem skippedInside_nil (kind : ContainerKind) : SkippedInside rules σ kind [] :=
  fun ed sink top around n _ hs ht _ _ => ⟨top, ht, (passes_nil ed sink).to (by rw [← hs]; rfl)⟩

theorem SkippedInside.item (h : rules.NeverFails) (hi : SkippedAsNode rules σ inner)
    (his : SkippedInside rules σ .array items) :
    SkippedInside rules σ .array (inner ++ items) := by
  intro ed sink top around n hr hs ht hn ha
  obtain ⟨key, _, count, index⟩ := top
  cases ht
  let next : Frame := ⟨key, some .array, count, index + 1⟩
  have hfirst := hi ed sink (.pending (some (toString index))) (next :: around) n hr
    (by rw [hs]; rfl) (by rw [hs]; rfl) hn ha.left
  obtain ⟨top', ht', hrest⟩ :=
    his (ed.moved ⟨next :: around, n⟩) sink next around n hr rfl rfl hn (ha.after h hfirst)
  exact ⟨top', ht', hfirst.append h hrest⟩

theorem SkippedInside.member (h : rules.NeverFails) (name : String)
    (hv : SkippedAsNode rules σ value) (hm : SkippedInside rules σ .object members) :
    SkippedInside rules σ .object (.key name :: value ++ members) := by
  intro ed sink top around n hr hs ht hn ha
  have ha : Accepts rules ed sink ([.key name] ++ value ++ members) := ha
  have hk := passes_key hr hs ht name ha.left.left
  have hkv := hk.append h <|
    hv (ed.moved ⟨.pending (some name) :: top :: around, n⟩) sink _ (top :: around) n hr rfl rfl hn
      (ha.left.after h hk)
  obtain ⟨top', ht', hrest⟩ :=
    hm (ed.moved ⟨top :: around, n⟩) sink top around n hr rfl ht hn (ha.after h hkv)
  exact ⟨top', ht', hkv.append h hrest⟩

theorem SkippedAsNode.ofContainer (h : rules.NeverFails)
    (hs : start.steps = [.node kind.node none]) (he : stop.steps = [.close kind])
    (hi : SkippedInside rules σ kind inner) :
    SkippedAsNode rules σ (start :: inner ++ [stop]) := by
  intro ed sink top around n hr hin hp hn ha
  have ha : Accepts rules ed sink ([start] ++ inner ++ [stop]) := ha
  have hb := skip_begin hr hin hp hn hs ha.left.left
  rw [kind.isContainer_node, if_pos rfl] at hb
  obtain ⟨top', ht', hinner⟩ :=
    hi (ed.moved ⟨top.become kind.node :: around, n + 1⟩) sink _ around (n + 1) hr rfl
      (top.become_node_container kind) (by omega) (ha.left.after h hb)
  have hend : Passes rules (ed.moved ⟨top' :: around, n + 1⟩) sink [stop] (ed.moved ⟨around, n⟩)
      sink [] := skip_end hr rfl ht' he
  exact (hb.append h hinner).append h hend

theorem SkippedAsNode.startObject (h : rules.NeverFails) (name : String)
    (hs : SkippedAsNode rules σ (.startObject none :: .key name :: items)) :
    SkippedAsNode rules σ (.startObject (some name) :: items) := by
  intro ed sink top around n hr hin hp hn ha
  have hrun := run_startObject h ed sink #[] name items
  have ha' : Accepts rules ed sink (.startObject none :: .key name :: items) :=
    (congrArg Reply.result hrun).symm.trans ha
  exact hrun.trans (hs ed sink top around n hr hin hp hn ha')

end Skip

mutual

/-- **A document inside a withheld container** reaches no handler and no sink. -/
theorem skip_document (h : rules.NeverFails) {events : List Event} :
    IsDocument events → SkippedAsNode rules σ events
  | .scalar value => fun _ _ _ _ _ hr hin hp hn ha =>
    skip_begin hr hin hp hn (rfl : (Event.scalar value).steps = [.node .scalar (some value)]) ha
  | .array hi => .ofContainer h rfl rfl (skip_items h hi)
  | .object hm => .ofContainer h rfl rfl (skip_members h hm)
  | .objectWith name hv hm =>
    .startObject h name
      (.ofContainer h rfl rfl (.member h name (skip_document h hv) (skip_members h hm)))

theorem skip_items (h : rules.NeverFails) {events : List Event} :
    AreItems events → SkippedInside rules σ .array events
  | .nil => skippedInside_nil .array
  | .cons hi his => .item h (skip_document h hi) (skip_items h his)

theorem skip_members (h : rules.NeverFails) {events : List Event} :
    AreMembers events → SkippedInside rules σ .object events
  | .nil => skippedInside_nil .object
  | .cons name hv hm => .member h name (skip_document h hv) (skip_members h hm)

end

end Editor

/-! ## Containers that are withheld -/

/-- The events of a container of some kind. -/
inductive IsContainer : ContainerKind → List Event → Prop
  | array {items : List Event} :
    AreItems items → IsContainer .array (.startArray :: items ++ [.endArray])
  | object {members : List Event} :
    AreMembers members → IsContainer .object (.startObject none :: members ++ [.endObject])
  | objectWith (name : String) {value members : List Event} : IsDocument value →
    AreMembers members →
    IsContainer .object (.startObject (some name) :: value ++ members ++ [.endObject])

namespace Editor

/-- A container may begin here, the rules are asked about it, and they drop it or put another value
in its place. -/
def Withholds (rules : RuleSet) (ed : Editor) (kind : ContainerKind) : Prop :=
  ∃ top around, ed.stack.prepare = .ok ⟨top :: around, 0⟩ ∧
    (rules.actionAt (nodeOf top around kind.node none)).withholds = true

/-- The editor once a withheld container is over, whatever was inside. -/
def afterWithheld (rules : RuleSet) (ed : Editor) (top : Frame) (around : List Frame)
    (kind : NodeKind) : Editor :=
  let node := nodeOf top around kind none
  let action := rules.actionAt node
  let fragment := action.text (ed.separator ed.stack.isEmpty) around top.key kind none
  ((ed.settle top around kind (rules.callsAt node) action).sent fragment).moved
    ⟨if action.drops then around else charged around, 0⟩

section Withheld

variable {σ : Type} [FragmentSink σ] {rules : RuleSet} {ed : Editor} {sink : σ}
  {start stop : Event} {inner events : List Event} {top : Frame} {around : List Frame}
  {kind : ContainerKind}

/-- **A withheld container**: one fragment at most, the calls for the container itself, and nothing
of what is inside. -/
theorem passes_withheld (h : rules.NeverFails) (hr : ed.phase = .running)
    (hp : ed.stack.prepare = .ok ⟨top :: around, 0⟩)
    (hw : (rules.actionAt (nodeOf top around kind.node none)).withholds = true)
    (hs : start.steps = [.node kind.node none]) (he : stop.steps = [.close kind])
    (hi : SkippedInside rules σ kind inner)
    (ha : Accepts rules ed sink (start :: inner ++ [stop])) :
    Passes rules ed sink (start :: inner ++ [stop]) (ed.afterWithheld rules top around kind.node)
      (FragmentSink.put sink ((rules.actionAt (nodeOf top around kind.node none)).text
        (ed.separator ed.stack.isEmpty) around top.key kind.node none))
      (rules.callsAt (nodeOf top around kind.node none)) := by
  have ha : Accepts rules ed sink ([start] ++ inner ++ [stop]) := ha
  let node := nodeOf top around kind.node none
  let action := rules.actionAt node
  let fragment := action.text (ed.separator ed.stack.isEmpty) around top.key kind.node none
  let entered := (ed.settle top around kind.node (rules.callsAt node) action).sent fragment
  let begun := top.become kind.node
  let frame : Frame := { begun with key := action.newKey?.or begun.key }
  let rest := if action.drops then around else charged around
  have hframe : frame.container = some kind := top.become_node_container kind
  have hstack : entered.stack = ⟨frame :: rest, 1⟩ := by
    simp only [entered, sent_stack, settle, Action.settle, kind.isContainer_node, action, node,
      hw, if_true, Bool.toNat_true, frame, begun, rest]
  have hsettle : (ed.tick.settle top around kind.node (rules.callsAt node) action).outside =
      (ed.settle top around kind.node (rules.callsAt node) action).outside := rfl
  have hbegin : Passes rules ed sink [start] entered (FragmentSink.put sink fragment)
      (rules.callsAt node) :=
    (Takes.of_handle (handle_node hr hs hp (h.answers _) ha.left.left.head)).passes.to
      (sent_outside hsettle fragment)
  have hrun : entered.phase = .running := (sent_phase _ _).trans hr
  obtain ⟨top', ht', hinner⟩ :=
    hi entered _ frame rest 1 hrun hstack hframe (by omega) (ha.left.after h hbegin)
  have hend : Passes rules (entered.moved ⟨top' :: rest, 1⟩) (FragmentSink.put sink fragment)
      [stop] (entered.moved ⟨rest, 0⟩) (FragmentSink.put sink fragment) [] :=
    skip_end hrun rfl ht' he
  have hall := (hbegin.append h hinner).append h hend
  rw [List.append_nil, List.append_nil] at hall
  exact hall

theorem passes_container (h : rules.NeverFails)
    (hp : ed.stack.prepare = .ok ⟨top :: around, 0⟩)
    (hw : (rules.actionAt (nodeOf top around kind.node none)).withholds = true)
    (hc : IsContainer kind events) (ha : Accepts rules ed sink events) :
    Passes rules ed sink events (ed.afterWithheld rules top around kind.node)
      (FragmentSink.put sink ((rules.actionAt (nodeOf top around kind.node none)).text
        (ed.separator ed.stack.isEmpty) around top.key kind.node none))
      (rules.callsAt (nodeOf top around kind.node none)) := by
  cases hc with
  | array hi => exact passes_withheld h ha.running hp hw rfl rfl (skip_items h hi) ha
  | object hm => exact passes_withheld h ha.running hp hw rfl rfl (skip_members h hm) ha
  | objectWith name hv hm =>
    have hrun := run_startObject h ed sink #[] name
    have ha' := (congrArg Reply.result (hrun _)).symm.trans ha
    have hinner : SkippedInside rules σ .object _ :=
      .member h name (skip_document h hv) (skip_members h hm)
    exact (hrun _).trans (passes_withheld h ha.running hp hw rfl rfl hinner ha')

end Withheld

/-! ## Two streams -/

/-- Two streams that are the same but for what stands inside containers that are withheld, as the
first stream finds them. -/
inductive DifferInside (rules : RuleSet) {σ : Type} [FragmentSink σ] :
    Editor → σ → List Event → List Event → Prop
  | nil (ed : Editor) (sink : σ) : DifferInside rules ed sink [] []
  | same {ed : Editor} {sink : σ} (event : Event) {events events' : List Event} :
    DifferInside rules (ed.handle rules sink event).editor (ed.handle rules sink event).sink
      events events' →
    DifferInside rules ed sink (event :: events) (event :: events')
  | inside {ed : Editor} {sink : σ} {kind : ContainerKind} {container container' : List Event}
    {events events' : List Event} : Withholds rules ed kind → IsContainer kind container →
    IsContainer kind container' →
    DifferInside rules (ed.run rules sink #[] container).editor
      (ed.run rules sink #[] container).sink events events' →
    DifferInside rules ed sink (container ++ events) (container' ++ events')

theorem DifferInside.agree {σ : Type} [FragmentSink σ] {rules : RuleSet} (h : rules.NeverFails)
    {ed : Editor} {sink : σ} {events events' : List Event}
    (hd : DifferInside rules ed sink events events') (ha : Accepts rules ed sink events)
    (ha' : Accepts rules ed sink events') :
    ∃ last sink' calls, Passes rules ed sink events last sink' calls ∧
      Passes rules ed sink events' last sink' calls := by
  induction hd with
  | nil ed sink => exact ⟨ed, sink, [], passes_nil ed sink, passes_nil ed sink⟩
  | @same ed sink event events events' _ ih =>
    have ha : Accepts rules ed sink ([event] ++ events) := ha
    have ha' : Accepts rules ed sink ([event] ++ events') := ha'
    rcases hh : ed.handle rules sink event with ⟨ed₁, sink₁, calls₁, result⟩
    have hok := ha.head
    rw [hh] at hok ih
    cases hok
    have ht : Takes rules ed sink [event] ed₁ sink₁ calls₁.toList :=
      Takes.of_handle (by rw [hh, Array.toArray_toList])
    obtain ⟨last, sink', calls, hr, hr'⟩ := ih (ha.right ht) (ha'.right ht)
    exact ⟨last, sink', _, ht.passes.append h hr, ht.passes.append h hr'⟩
  | @inside ed sink kind container container' events events' hw hc hc' _ ih =>
    obtain ⟨top, around, hp, hw⟩ := hw
    have hpass := passes_container h hp hw hc ha.left
    have hpass' := passes_container h hp hw hc' ha'.left
    obtain ⟨ed₁, ht, he⟩ := hpass.takes
    rw [ht] at ih
    have hto := hpass'.to he.symm
    obtain ⟨last, sink', calls, hr, hr'⟩ := ih (ha.right ht) (ha'.after h hto)
    exact ⟨last, sink', _, ht.passes.append h hr, hto.append h hr'⟩

/-- **Withheld content never leaks.** Two streams that differ only inside containers that are
dropped or replaced give the same fragments to the sink, call the same handlers on the same nodes,
and are counted alike but for their events and nodes. -/
theorem withheld_content_never_leaks {σ : Type} [FragmentSink σ] {rules : RuleSet}
    (h : rules.NeverFails) {d : Nat} {sink : σ} {events events' : List Event}
    (hd : DifferInside rules (Editor.new d) sink events events')
    (ha : Accepts rules (Editor.new d) sink events)
    (ha' : Accepts rules (Editor.new d) sink events') :
    let r := (Editor.new d).run rules sink #[] events
    let r' := (Editor.new d).run rules sink #[] events'
    r.sink = r'.sink ∧ r.calls = r'.calls ∧ r.editor.stats.outside = r'.editor.stats.outside := by
  obtain ⟨last, sink', calls, hr, hr'⟩ := hd.agree h ha ha'
  obtain ⟨ed₁, ht, he⟩ := hr.takes
  obtain ⟨ed₂, ht', he'⟩ := hr'.takes
  have hstats : ed₁.stats.outside = ed₂.stats.outside :=
    congrArg Editor.stats (he.trans he'.symm)
  rw [ht, ht']
  exact ⟨rfl, rfl, hstats⟩

/-- The first element is dropped, whichever object it is. -/
theorem dropped_element_never_leaks :
    let rules : RuleSet := [⟨.predicate "first" fun path => path.keys == ["0"], .always .remove⟩]
    let secret : List Event := [.startObject (some "a"), .scalar .null, .endObject]
    let other : List Event :=
      [.startObject (some "b"), .startArray, .endArray, .key "c", .scalar (.bool true), .endObject]
    let events (element : List Event) : List Event :=
      .startArray :: (element ++ [.scalar .null, .endArray, .finish])
    let r := (Editor.new 3).run rules (#[] : Array String) #[] (events secret)
    let r' := (Editor.new 3).run rules (#[] : Array String) #[] (events other)
    r.sink = r'.sink ∧ r.calls = r'.calls ∧ r.editor.stats.outside = r'.editor.stats.outside := by
  intro rules secret other events
  have hsecret : IsContainer .object secret := .objectWith "a" (.scalar .null) .nil
  have hother : IsContainer .object other :=
    .objectWith "b" (.array .nil) (.cons "c" (.scalar (.bool true)) .nil)
  refine withheld_content_never_leaks (RuleSet.neverFails_nil.cons_always _ _)
    (.same .startArray (.inside ?_ hsecret hother ?_)) rfl rfl
  · exact ⟨_, _, rfl, rfl⟩
  · exact .same _ (.same _ (.same _ (.nil _ _)))

end Editor

end JsonEdit
