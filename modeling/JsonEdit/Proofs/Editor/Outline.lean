import JsonEdit.Proofs.Editor.Feed

/-!
# The outline of an editor

Whether an event fits depends on which containers are open and on nothing else: not on keys, not
on counters, and not on what the rules have made of the nodes. The outline of an editor is what
that takes, and it has steps of its own.

* `Shape`, `Outline`, `Editor.outline`: the containers that are open, the phase, the depth limit;
* `Outline.perform`, `Outline.handle`, `Outline.run`: steps, events and streams without rules;
* **`outline_handle`**: with handlers and a sink that never fail, the editor keeps to its outline;
* `replies_outline`, `accepts_iff_outline`: the same for streams.
-/

namespace JsonEdit

/-- The containers of the frames, innermost first; a frame that is due has none. -/
abbrev Shape : Type := List (Option ContainerKind)

/-- The containers of a stack. -/
def Stack.shape (s : Stack) : Shape := s.frames.map Frame.container

/-- The shape of the node that begins, on its own: a scalar leaves none. -/
def NodeKind.shape (kind : NodeKind) : Shape := (kind.container?.map some).toList

/-- What decides whether an event fits. -/
structure Outline where
  shape : Shape
  phase : Phase
  maxDepth : Nat
deriving DecidableEq, Repr

/-- The outline of an editor. -/
def Editor.outline (ed : Editor) : Outline := ⟨ed.stack.shape, ed.phase, ed.maxDepth⟩

namespace Outline

/-! ## Steps of an outline -/

/-- The shape with a frame for the next node. -/
def prepare : Shape → Except Imbalance Shape
  | [] => .ok [none]
  | some .array :: shape => .ok (none :: some .array :: shape)
  | some .object :: _ => .error .valueWithoutName
  | none :: shape => .ok (none :: shape)

/-- The first error stops an outline. -/
def halt (o : Outline) (shape : Shape) (e : EditError) : Outline × Except EditError Unit :=
  ({ o with shape, phase := .halted }, .error e)

/-- A frame has been added; if there are not too many, the shape becomes another one. -/
def within (o : Outline) (shape settled : Shape) : Outline × Except EditError Unit :=
  if shape.length > o.maxDepth then
    o.halt shape (.depthLimitExceeded shape.length o.maxDepth)
  else ({ o with shape := settled }, .ok ())

/-- One step. -/
def perform (o : Outline) : Step → Outline × Except EditError Unit
  | .node kind _ =>
    match prepare o.shape with
    | .error reason => o.halt o.shape (.unbalanced kind.eventName reason)
    | .ok shape => o.within shape (kind.shape ++ shape.tail)
  | .key _ =>
    match o.shape with
    | some .object :: _ => o.within (none :: o.shape) (none :: o.shape)
    | _ => o.halt o.shape (.unbalanced "key" .nameOutsideObject)
  | .close kind =>
    match o.shape with
    | [] => o.halt [] (.unbalanced kind.endName .nothingOpen)
    | container :: shape =>
      if container = some kind then ({ o with shape }, .ok ())
      else o.halt shape (.unbalanced kind.endName (.innermost container))
  | .fail message => o.halt o.shape (.malformedInput message)
  | .finish =>
    if o.shape.isEmpty then ({ o with phase := .finished }, .ok ())
    else o.halt o.shape (.unexpectedEnd (o.shape.countP Option.isSome))

/-- Steps in turn, up to the first error. -/
def performAll (o : Outline) : List Step → Outline × Except EditError Unit
  | [] => (o, .ok ())
  | step :: steps =>
    match o.perform step with
    | (o, .ok _) => o.performAll steps
    | (o, .error e) => (o, .error e)

/-- One event. -/
def handle (o : Outline) (event : Event) : Outline × Except EditError Unit :=
  match o.phase with
  | .running => o.performAll event.steps
  | phase => (o, .error (.closed phase))

/-- Events in turn, up to the first error. -/
def run (o : Outline) : List Event → Outline × Except EditError Unit
  | [] => (o, .ok ())
  | event :: events =>
    match o.handle event with
    | (o, .ok _) => o.run events
    | (o, .error e) => (o, .error e)

/-- The result of each event and the number of frames after it. -/
def results (o : Outline) : List Event → List (Except EditError Unit × Nat)
  | [] => []
  | event :: events =>
    let r := o.handle event
    (r.2, r.1.shape.length) :: r.1.results events

/-- The outline after events in turn, the ones after an error too. -/
def feed (o : Outline) : List Event → Outline
  | [] => o
  | event :: events => (o.handle event).1.feed events

theorem run_append (rest : List Event) : ∀ (events : List Event) (o : Outline),
    o.run (events ++ rest) =
      match o.run events with
      | (o, .ok _) => o.run rest
      | (o, .error e) => (o, .error e)
  | [], _ => rfl
  | event :: events, o => by
    rw [List.cons_append, run, run]
    rcases o.handle event with ⟨o', _ | _⟩
    · rfl
    · exact run_append rest events o'

end Outline

/-! ## The editor keeps to its outline -/

theorem prepare_shape (s : Stack) :
    s.prepare.map Stack.shape = Outline.prepare s.shape := by
  obtain ⟨frames, n⟩ := s
  match frames with
  | [] => rfl
  | ⟨_, some .array, _, _⟩ :: _ => rfl
  | ⟨_, some .object, _, _⟩ :: _ => rfl
  | ⟨_, none, _, _⟩ :: _ => rfl

theorem openContainers_eq (s : Stack) : s.openContainers = s.shape.countP Option.isSome := by
  rw [Stack.openContainers, Stack.shape, List.countP_map]
  rfl

theorem settle_shape (action : Action) (top : Frame) (around : List Frame) (n : Nat)
    (kind : NodeKind) :
    (action.settle (top.become kind) around n kind).shape =
      kind.shape ++ around.map Frame.container := by
  cases kind <;> by_cases hd : action.drops <;>
    simp [Action.settle, Stack.shape, NodeKind.shape, NodeKind.isContainer, NodeKind.container?,
      Frame.become, hd]

theorem withhold_shape (ed : Editor) (top : Frame) (around : List Frame) (n : Nat)
    (kind : NodeKind) :
    ((ed.enter top around n kind).withhold kind).stack.shape =
      kind.shape ++ around.map Frame.container := by
  cases kind <;> rfl

/-- The outline that an effect leaves; the first error stops it. -/
def Effect.outline (effect : Effect) : Outline × Except EditError Unit :=
  match effect.result with
  | .ok _ => (effect.editor.outline, .ok ())
  | .error e => effect.editor.outline.halt effect.editor.stack.shape e

namespace Editor

variable {σ : Type} [FragmentSink σ] {rules : RuleSet}

theorem outline_perform_eq (hσ : FragmentSink.NeverFails σ) (ed : Editor) (sink : σ)
    (step : Step) :
    let r := ed.perform rules sink step
    (r.editor.outline, r.result) = (ed.advance rules step).outline := by
  rcases h : ed.advance rules step with ⟨ed', calls, e | fragment⟩
  · rw [perform_of_error h]
    rfl
  · rw [perform_of_ok hσ h]
    simp [outline, Effect.outline]

theorem outline_beginNode {ed : Editor} {kind : NodeKind} {value : Option Json}
    (h : ∀ top around, ed.stack.prepare = .ok ⟨top :: around, 0⟩ → around.length < ed.maxDepth →
      rules.Answers (nodeOf top around kind value)) :
    (ed.beginNode rules kind value).outline = ed.outline.perform (.node kind value) := by
  have hshape := prepare_shape ed.stack
  simp only [Outline.perform, outline, ← hshape]
  rcases hp : ed.stack.prepare with reason | stack
  · rw [beginNode_of_not_prepared hp]
    rfl
  obtain ⟨top, around, rfl, hc⟩ := Stack.prepare_top hp
  simp only [Except.map, Stack.shape, List.map_cons, Outline.within, List.length_cons,
    List.length_map, List.tail_cons]
  by_cases hd : around.length < ed.maxDepth
  · rw [if_neg (by omega)]
    by_cases hn : 0 < ed.stack.suppression
    · rw [beginNode_of_withheld hp hd hn]
      simp only [Effect.outline, outline, withhold_shape]
      cases kind <;> rfl
    · rw [show ed.stack.suppression = 0 by omega] at hp
      rw [beginNode_of_answers hp hd (h top around hp hd)]
      simp only [Effect.outline, outline, settle, settle_shape]
      rfl
  · rw [if_pos (by omega), beginNode_of_too_deep hp (by omega)]
    rfl

theorem outline_pushKey (ed : Editor) (name : String) :
    (ed.pushKey name).outline = ed.outline.perform (.key name) := by
  rcases hs : ed.stack with ⟨_ | ⟨top, around⟩, n⟩
  · rw [pushKey_of_not_object (by simp [hs])]
    simp [Effect.outline, Outline.perform, outline, Stack.shape, hs]
  · rcases ht : top.container with _ | _ | _
    · rw [pushKey_of_not_object (by simp [hs, ht])]
      simp [Effect.outline, Outline.perform, outline, Stack.shape, hs, ht]
    · rw [pushKey_of_object hs ht]
      simp only [Outline.perform, outline, Stack.shape, hs, List.map_cons, ht, Outline.within,
        List.length_cons, List.length_map]
      by_cases hd : around.length + 1 < ed.maxDepth
      · rw [if_pos hd, if_neg (by omega)]
        simp [Effect.outline, outline, Stack.shape, ht, Frame.pending]
      · rw [if_neg hd, if_pos (by omega)]
        simp [Effect.outline, outline, Stack.shape, ht, Frame.pending, Outline.halt]
    · rw [pushKey_of_not_object (by simp [hs, ht])]
      simp [Effect.outline, Outline.perform, outline, Stack.shape, hs, ht]

theorem outline_close (ed : Editor) (kind : ContainerKind) :
    (ed.close kind).outline = ed.outline.perform (.close kind) := by
  rcases hs : ed.stack with ⟨_ | ⟨top, around⟩, n⟩
  · simp [close, Stack.top?, Effect.outline, Outline.perform, outline, Stack.shape, hs]
  · rw [close_eq hs]
    by_cases ht : top.container = some kind <;>
      simp [Effect.outline, Outline.perform, outline, Stack.shape, hs, ht, Outline.halt]

theorem outline_finish (ed : Editor) :
    ed.finish.outline = ed.outline.perform .finish := by
  rcases hs : ed.stack with ⟨_ | ⟨top, around⟩, n⟩
  · simp [finish, Effect.outline, Outline.perform, outline, Stack.isEmpty, Stack.shape, hs]
  · simp [finish, Effect.outline, Outline.perform, outline, Stack.isEmpty, openContainers_eq,
      Stack.shape, hs]

theorem outline_perform (hσ : FragmentSink.NeverFails σ) (h : rules.NeverFails) (ed : Editor)
    (sink : σ) (step : Step) :
    let r := ed.perform rules sink step
    (r.editor.outline, r.result) = ed.outline.perform step := by
  have he : ((ed.perform rules sink step).editor.outline, _) = _ :=
    outline_perform_eq hσ ed sink step
  cases step with
  | node kind value => exact he.trans (outline_beginNode fun _ _ _ _ => h.answers _)
  | key name => exact he.trans (outline_pushKey ed name)
  | close kind => exact he.trans (outline_close ed kind)
  | fail message => exact he
  | finish => exact he.trans (outline_finish ed)

/-! ## Events and streams -/

theorem outline_performAll (hσ : FragmentSink.NeverFails σ) (h : rules.NeverFails) :
    ∀ (steps : List Step) (ed : Editor) (sink : σ) (calls : Array Call),
      let r := ed.performAll rules sink calls steps
      (r.editor.outline, r.result) = ed.outline.performAll steps
  | [], _, _, _ => rfl
  | step :: steps, ed, sink, calls => by
    have hs := outline_perform hσ h ed sink step
    simp only at hs
    rw [performAll, Outline.performAll, ← hs]
    rcases ed.perform rules sink step with ⟨ed', sink', more, _ | _⟩
    · rfl
    · exact outline_performAll hσ h steps ed' sink' _

/-- **One event keeps to the outline.** -/
theorem outline_handle (hσ : FragmentSink.NeverFails σ) (h : rules.NeverFails) (ed : Editor)
    (sink : σ) (event : Event) :
    let r := ed.handle rules sink event
    (r.editor.outline, r.result) = ed.outline.handle event := by
  cases hp : ed.phase with
  | running =>
    simp only [handle_running hp, Outline.handle, outline, hp]
    exact outline_performAll hσ h event.steps ed.tick sink #[] |>.trans (by rw [← hp]; rfl)
  | halted => simp [handle, Outline.handle, outline, hp]
  | finished => simp [handle, Outline.handle, outline, hp]

theorem outline_run (hσ : FragmentSink.NeverFails σ) (h : rules.NeverFails) :
    ∀ (events : List Event) (ed : Editor) (sink : σ) (calls : Array Call),
      let r := ed.run rules sink calls events
      (r.editor.outline, r.result) = ed.outline.run events
  | [], _, _, _ => rfl
  | event :: events, ed, sink, calls => by
    have hs := outline_handle hσ h ed sink event
    simp only at hs
    rw [run, Outline.run, ← hs]
    rcases ed.handle rules sink event with ⟨ed', sink', more, _ | _⟩
    · rfl
    · exact outline_run hσ h events ed' sink' _

theorem accepts_iff_outline (hσ : FragmentSink.NeverFails σ) (h : rules.NeverFails) (ed : Editor)
    (sink : σ) (events : List Event) :
    Accepts rules ed sink events ↔ (ed.outline.run events).2 = .ok () := by
  rw [Accepts, ← outline_run hσ h events ed sink #[]]

theorem depth_eq (ed : Editor) : ed.depth = ed.outline.shape.length :=
  (List.length_map _).symm

/-- **The results of a stream and the depths after its events are those of its outline.** -/
theorem replies_outline (hσ : FragmentSink.NeverFails σ) (h : rules.NeverFails) :
    ∀ (events : List Event) (ed : Editor) (sink : σ),
      (ed.replies rules sink events).map (fun r => (r.result, r.editor.depth)) =
        ed.outline.results events
  | [], _, _ => rfl
  | event :: events, ed, sink => by
    have hs := outline_handle hσ h ed sink event
    simp only at hs
    rw [replies, List.map_cons, Outline.results, ← hs, replies_outline hσ h events, depth_eq]

theorem feed_outline (hσ : FragmentSink.NeverFails σ) (h : rules.NeverFails) :
    ∀ (events : List Event) (ed : Editor) (sink : σ),
      (ed.feed rules sink events).1.outline = ed.outline.feed events
  | [], _, _ => rfl
  | event :: events, ed, sink => by
    have hs := outline_handle hσ h ed sink event
    rw [feed, Outline.feed, ← hs]
    exact feed_outline hσ h events _ _

end Editor

end JsonEdit
