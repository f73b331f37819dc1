import JsonEdit.Proofs.Editor.Step

/-!
# Feeding an editor

Steps, events and streams of events with a sink. A sink that never fails is handed each fragment
in turn and has no other part in a run.

* `FragmentSink.NeverFails`, `FragmentSink.put`: such sinks, and what one more fragment makes of
  them;
* `Editor.perform_of_result_ok`, `Editor.handle_node`: a step that succeeds, whatever the sink;
* `Editor.Accepts`, `Editor.Takes`: a stream all of whose events succeed, and what it comes to;
  `Takes.append`, `Accepts.left`, `Accepts.right`: streams in a row;
* `Editor.replies`, `Editor.feed`: all events, the ones after an error too;
* `Editor.Keeps`, `run_keeps`: what every step keeps;
* **`exists_feed`**: the same fragments reach every sink that never fails.
-/

namespace JsonEdit

/-! ## Sinks -/

namespace FragmentSink

/-- Every fragment is taken. -/
def NeverFails (σ : Type) [FragmentSink σ] : Prop :=
  ∀ (sink : σ) (fragment : String), (emit sink fragment).1 = .ok ()

/-- The sink after a fragment. An empty one is not handed over. -/
def put {σ : Type} [FragmentSink σ] (sink : σ) (fragment : String) : σ :=
  if fragment.isEmpty then sink else (emit sink fragment).2

theorem neverFails_text : NeverFails String := fun _ _ => rfl

theorem put_text (text fragment : String) : put text fragment = text ++ fragment := by
  rw [put, emit_text]
  split_ifs with h
  · rw [String.isEmpty_iff.mp h, String.append_empty]
  · rfl

/-- The sink after fragments in turn. -/
def emitAll {σ : Type} [FragmentSink σ] (sink : σ) (fragments : List String) : σ :=
  fragments.foldl (fun sink fragment => (emit sink fragment).2) sink

theorem emitAll_append {σ : Type} [FragmentSink σ] (sink : σ) (fragments more : List String) :
    emitAll sink (fragments ++ more) = emitAll (emitAll sink fragments) more :=
  List.foldl_append

theorem put_eq_emitAll {σ : Type} [FragmentSink σ] (sink : σ) (fragment : String) :
    put sink fragment = emitAll sink (if fragment.isEmpty then [] else [fragment]) := by
  rw [put]
  split_ifs <;> rfl

theorem emitAll_text : ∀ (fragments : List String) (text : String),
    emitAll text fragments = text ++ String.join fragments
  | [], text => by rw [String.join_nil, String.append_empty]; rfl
  | fragment :: fragments, text => by
    rw [String.join_cons, ← String.append_assoc, ← emitAll_text fragments]
    rfl

end FragmentSink

open FragmentSink

namespace Editor

variable {σ : Type} [FragmentSink σ] {rules : RuleSet}

/-! ## Steps -/

/-- The editor once a fragment is on its way. An empty one is not counted. -/
def sent (ed : Editor) (fragment : String) : Editor :=
  if fragment.isEmpty then ed else ed.countFragment fragment

@[simp] theorem sent_empty (ed : Editor) : ed.sent "" = ed := rfl

@[simp] theorem sent_stack (ed : Editor) (fragment : String) :
    (ed.sent fragment).stack = ed.stack := by
  unfold sent; split_ifs <;> rfl

@[simp] theorem sent_phase (ed : Editor) (fragment : String) :
    (ed.sent fragment).phase = ed.phase := by
  unfold sent; split_ifs <;> rfl

@[simp] theorem sent_maxDepth (ed : Editor) (fragment : String) :
    (ed.sent fragment).maxDepth = ed.maxDepth := by
  unfold sent; split_ifs <;> rfl

theorem perform_of_error {ed ed' : Editor} {step : Step} {calls : List Call} {e : EditError}
    (h : ed.advance rules step = ⟨ed', calls, .error e⟩) (sink : σ) :
    ed.perform rules sink step = ⟨ed'.halt, sink, calls.toArray, .error e⟩ := by
  rw [perform, h]

theorem perform_of_ok (hσ : NeverFails σ) {ed ed' : Editor} {step : Step} {calls : List Call}
    {fragment : String} (h : ed.advance rules step = ⟨ed', calls, .ok fragment⟩) (sink : σ) :
    ed.perform rules sink step =
      ⟨ed'.sent fragment, put sink fragment, calls.toArray, .ok ()⟩ := by
  rw [perform, h]
  simp only [sent, put]
  split_ifs
  · rfl
  · have := hσ sink fragment
    rcases he : FragmentSink.emit sink fragment with ⟨result, sink'⟩
    rw [he] at this
    cases this
    rfl

theorem perform_of_result_ok {ed : Editor} {sink : σ} {step : Step}
    (h : (ed.perform rules sink step).result = .ok ()) :
    ∃ ed' calls fragment, ed.advance rules step = ⟨ed', calls, .ok fragment⟩ ∧
      ed.perform rules sink step =
        ⟨ed'.sent fragment, put sink fragment, calls.toArray, .ok ()⟩ := by
  rcases ha : ed.advance rules step with ⟨ed', calls, _ | fragment⟩
  · rw [perform_of_error ha] at h
    cases h
  · refine ⟨ed', calls, fragment, rfl, ?_⟩
    rw [perform, ha] at h ⊢
    simp only [sent, put] at h ⊢
    split_ifs at h ⊢
    · rfl
    · rcases he : FragmentSink.emit sink fragment with ⟨_ | _, sink'⟩
      · rw [he] at h; cases h
      · rfl

theorem perform_ok_or_halted (rules : RuleSet) (ed : Editor) (sink : σ) (step : Step) :
    (ed.perform rules sink step).result = .ok () ∨
      (ed.perform rules sink step).editor.phase = .halted := by
  unfold perform
  rcases ed.advance rules step with ⟨ed', calls, e | fragment⟩
  · exact .inr rfl
  simp only
  split
  · exact .inl rfl
  · rcases FragmentSink.emit sink fragment with ⟨_ | _, sink'⟩
    · exact .inr rfl
    · exact .inl rfl

theorem perform_result_of_running {ed : Editor} {sink : σ} {step : Step}
    (h : (ed.perform rules sink step).editor.phase = .running) :
    (ed.perform rules sink step).result = .ok () := by
  refine (perform_ok_or_halted rules ed sink step).resolve_right fun hh => ?_
  rw [hh] at h
  cases h

theorem phase_of_perform_node {ed : Editor} {sink : σ} {kind : NodeKind} {value : Option Json}
    (h : (ed.perform rules sink (.node kind value)).result = .ok ()) :
    (ed.perform rules sink (.node kind value)).editor.phase = ed.phase := by
  obtain ⟨ed', calls, fragment, ha, hp⟩ := perform_of_result_ok h
  have hb := beginNode_phase rules ed kind value
  rw [show ed.beginNode rules kind value = _ from ha] at hb
  rw [hp, sent_phase, ← hb]

theorem performAll_cons (ed : Editor) (sink : σ) (calls : Array Call) (step : Step)
    (steps : List Step) :
    ed.performAll rules sink calls (step :: steps) =
      let r := ed.perform rules sink step
      match r.result with
      | .ok _ => r.editor.performAll rules r.sink (calls ++ r.calls) steps
      | .error e => ⟨r.editor, r.sink, calls ++ r.calls, .error e⟩ := by
  rw [performAll]
  rcases ed.perform rules sink step with ⟨ed', sink', more, _ | _⟩ <;> rfl

theorem performAll_singleton (ed : Editor) (sink : σ) (calls : Array Call) (step : Step) :
    ed.performAll rules sink calls [step] =
      let r := ed.perform rules sink step
      ⟨r.editor, r.sink, calls ++ r.calls, r.result⟩ := by
  rw [performAll]
  rcases ed.perform rules sink step with ⟨ed', sink', more, _ | _⟩ <;> rfl

/-! ## Events -/

/-- The editor with one more event counted. -/
def tick (ed : Editor) : Editor := ed.count fun s => { s with events := s.events + 1 }

theorem handle_running {ed : Editor} (h : ed.phase = .running) (sink : σ) (event : Event) :
    ed.handle rules sink event = ed.tick.performAll rules sink #[] event.steps := by
  rw [handle, h]
  rfl

theorem handle_stopped {ed : Editor} (h : ed.phase ≠ .running) (sink : σ) (event : Event) :
    ed.handle rules sink event = ⟨ed, sink, #[], .error (.closed ed.phase)⟩ := by
  rw [handle]
  split
  · next hp => exact absurd hp h
  · rfl

theorem handle_step {ed : Editor} (h : ed.phase = .running) (sink : σ) {event : Event}
    {step : Step} (hs : event.steps = [step]) :
    ed.handle rules sink event = ed.tick.perform rules sink step := by
  rw [handle_running h, hs, performAll_singleton]
  simp only [Array.empty_append]

theorem handle_node {ed : Editor} {top : Frame} {around : List Frame} {event : Event}
    {kind : NodeKind} {value : Option Json} {sink : σ} (h : ed.phase = .running)
    (hs : event.steps = [.node kind value]) (hp : ed.stack.prepare = .ok ⟨top :: around, 0⟩)
    (ha : rules.Answers (nodeOf top around kind value))
    (hok : (ed.handle rules sink event).result = .ok ()) :
    let node := nodeOf top around kind value
    let action := rules.actionAt node
    let fragment := action.text (ed.separator ed.stack.isEmpty) around top.key kind value
    ed.handle rules sink event =
      ⟨(ed.tick.settle top around kind (rules.callsAt node) action).sent fragment,
        put sink fragment, (rules.callsAt node).toArray, .ok ()⟩ := by
  have hpt : ed.tick.stack.prepare = .ok ⟨top :: around, 0⟩ := hp
  rw [handle_step h sink hs] at hok ⊢
  obtain ⟨ed', calls, fragment, hadv, hperform⟩ := perform_of_result_ok hok
  by_cases hd : around.length < ed.tick.maxDepth
  · have hb : ed.tick.advance rules (.node kind value) = _ := beginNode_of_answers hpt hd ha
    rw [hb] at hadv
    cases hadv
    exact hperform
  · have hb : ed.tick.advance rules (.node kind value) = _ :=
      beginNode_of_too_deep hpt (by omega) rules kind value
    rw [hb] at hadv
    cases hadv

theorem handle_startObject {ed : Editor} (h : ed.phase = .running) (sink : σ) (name : String) :
    ed.handle rules sink (.startObject (some name)) =
      match ed.handle rules sink (.startObject none) with
      | ⟨ed, sink, calls, .ok _⟩ =>
        let r := ed.perform rules sink (.key name)
        ⟨r.editor, r.sink, calls ++ r.calls, r.result⟩
      | ⟨ed, sink, calls, .error e⟩ => ⟨ed, sink, calls, .error e⟩ := by
  rw [handle_step h sink (rfl : (Event.startObject none).steps = [.node .object none]),
    handle_running h]
  simp only [Event.steps]
  rw [performAll]
  rcases ed.tick.perform rules sink (.node .object none) with ⟨ed', sink', calls, _ | _⟩
  · simp only [Array.empty_append]
  · simp only [Array.empty_append, performAll_singleton]

/-! ## Streams of events -/

theorem run_cons (ed : Editor) (sink : σ) (calls : Array Call) (event : Event)
    (events : List Event) :
    ed.run rules sink calls (event :: events) =
      let r := ed.handle rules sink event
      match r.result with
      | .ok _ => r.editor.run rules r.sink (calls ++ r.calls) events
      | .error e => ⟨r.editor, r.sink, calls ++ r.calls, .error e⟩ := by
  rw [run]
  rcases ed.handle rules sink event with ⟨ed', sink', more, _ | _⟩ <;> rfl

/-- **Streams in a row**: the second is fed to what the first has left. -/
theorem run_append (rest : List Event) : ∀ (events : List Event) (ed : Editor) (sink : σ)
    (calls : Array Call), ed.run rules sink calls (events ++ rest) =
      let r := ed.run rules sink calls events
      match r.result with
      | .ok _ => r.editor.run rules r.sink r.calls rest
      | .error e => ⟨r.editor, r.sink, r.calls, .error e⟩
  | [], _, _, _ => rfl
  | event :: events, ed, sink, calls => by
    simp only [List.cons_append, run_cons]
    cases (ed.handle rules sink event).result with
    | error e => rfl
    | ok _ => exact run_append rest events _ _ _

theorem run_calls (calls : Array Call) : ∀ (events : List Event) (ed : Editor) (sink : σ)
    (before : Array Call), ed.run rules sink (calls ++ before) events =
      let r := ed.run rules sink before events
      ⟨r.editor, r.sink, calls ++ r.calls, r.result⟩
  | [], _, _, _ => rfl
  | event :: events, ed, sink, before => by
    simp only [run_cons]
    cases (ed.handle rules sink event).result with
    | error e => simp only [Array.append_assoc]
    | ok _ =>
      simp only [Array.append_assoc]
      exact run_calls calls events _ _ _

/-- Every event of the stream succeeds. -/
def Accepts (rules : RuleSet) (ed : Editor) (sink : σ) (events : List Event) : Prop :=
  (ed.run rules sink #[] events).result = .ok ()

/-- Every event of the stream succeeds; this is what becomes of the editor and the sink, and these
handlers are called. -/
def Takes (rules : RuleSet) (ed : Editor) (sink : σ) (events : List Event) (ed' : Editor)
    (sink' : σ) (calls : List Call) : Prop :=
  ed.run rules sink #[] events = ⟨ed', sink', calls.toArray, .ok ()⟩

section Takes

variable {ed ed₁ ed₂ : Editor} {sink sink₁ sink₂ : σ} {events rest : List Event}
  {event : Event} {calls₁ calls₂ : List Call}

theorem Takes.run (h : Takes rules ed sink events ed₁ sink₁ calls₁) (before : Array Call) :
    ed.run rules sink before events = ⟨ed₁, sink₁, before ++ calls₁.toArray, .ok ()⟩ := by
  have hr : ed.run rules sink (before ++ #[]) events = _ := run_calls before events ed sink #[]
  rw [Array.append_empty, h] at hr
  exact hr

theorem Takes.append (h : Takes rules ed sink events ed₁ sink₁ calls₁)
    (hr : Takes rules ed₁ sink₁ rest ed₂ sink₂ calls₂) :
    Takes rules ed sink (events ++ rest) ed₂ sink₂ (calls₁ ++ calls₂) := by
  rw [Takes, run_append, h]
  simp only
  rw [hr.run, List.append_toArray]

theorem Takes.of_handle (h : ed.handle rules sink event = ⟨ed₁, sink₁, calls₁.toArray, .ok ()⟩) :
    Takes rules ed sink [event] ed₁ sink₁ calls₁ := by
  rw [Takes, run_cons, h]
  simp only [Editor.run, Array.empty_append]

theorem accepts_iff :
    Accepts rules ed sink events ↔
      ∃ ed' sink' calls, Takes rules ed sink events ed' sink' calls := by
  constructor
  · intro h
    rw [Accepts] at h
    rcases hr : ed.run rules sink #[] events with ⟨ed', sink', calls, result⟩
    rw [hr] at h
    cases h
    exact ⟨ed', sink', calls.toList, by rw [Takes, hr, Array.toArray_toList]⟩
  · rintro ⟨ed', sink', calls, h⟩
    rw [Accepts, h]

theorem Accepts.left (h : Accepts rules ed sink (events ++ rest)) :
    Accepts rules ed sink events := by
  simp only [Accepts, run_append] at h
  rw [Accepts]
  cases hr : (ed.run rules sink #[] events).result with
  | ok _ => rfl
  | error e => rw [hr] at h; cases h

theorem Accepts.right (h : Accepts rules ed sink (events ++ rest))
    (ht : Takes rules ed sink events ed₁ sink₁ calls₁) : Accepts rules ed₁ sink₁ rest := by
  obtain ⟨ed', sink', calls, hr⟩ := accepts_iff.mp h
  rw [Takes, run_append, ht] at hr
  have hc : ed₁.run rules sink₁ (calls₁.toArray ++ #[]) rest = _ := run_calls _ rest ed₁ sink₁ #[]
  rw [Array.append_empty] at hc
  simp only at hr
  rw [hc] at hr
  exact congrArg Reply.result hr

theorem Accepts.head (h : Accepts rules ed sink (event :: rest)) :
    (ed.handle rules sink event).result = .ok () := by
  simp only [Accepts, run_cons] at h
  cases hr : (ed.handle rules sink event).result with
  | ok _ => rfl
  | error e => rw [hr] at h; cases h

theorem Accepts.running (h : Accepts rules ed sink (event :: rest)) : ed.phase = .running := by
  refine Decidable.byContradiction fun hp => ?_
  have hr := h.head
  rw [handle_stopped hp] at hr
  cases hr

end Takes

/-! ## All events, the ones after an error too -/

/-- The replies to events in turn. An editor that has stopped goes on refusing. -/
def replies (rules : RuleSet) (ed : Editor) (sink : σ) : List Event → List (Reply σ)
  | [] => []
  | event :: events =>
    let r := ed.handle rules sink event
    r :: r.editor.replies rules r.sink events

/-- The editor and the sink after events in turn. -/
def feed (rules : RuleSet) (ed : Editor) (sink : σ) : List Event → Editor × σ
  | [] => (ed, sink)
  | event :: events =>
    let r := ed.handle rules sink event
    r.editor.feed rules r.sink events

theorem feed_of_stopped {rules : RuleSet} {ed : Editor} (hp : ed.phase ≠ .running) (sink : σ)
    (events : List Event) : ed.feed rules sink events = (ed, sink) := by
  induction events with
  | nil => rfl
  | cons event events ih =>
    rw [feed, handle_stopped hp]
    exact ih

/-! ## What every step keeps -/

/-- Counting an event keeps this, and so does every step. -/
structure Keeps (rules : RuleSet) (holds : Editor → σ → Prop) : Prop where
  tick : ∀ ed sink, holds ed sink → holds ed.tick sink
  perform : ∀ ed sink step, holds ed sink →
    holds (ed.perform rules sink step).editor (ed.perform rules sink step).sink

section Keeps

variable {holds : Editor → σ → Prop} (h : Keeps rules holds)
include h

theorem performAll_keeps : ∀ (steps : List Step) (ed : Editor) (sink : σ) (calls : Array Call),
    holds ed sink → holds (ed.performAll rules sink calls steps).editor
      (ed.performAll rules sink calls steps).sink
  | [], _, _, _, hs => hs
  | step :: steps, ed, sink, calls, hs => by
    have hp := h.perform ed sink step hs
    rw [performAll_cons]
    cases hr : (ed.perform rules sink step).result with
    | ok _ =>
      simp only [hr]
      exact performAll_keeps steps _ _ _ hp
    | error e =>
      simp only [hr]
      exact hp

theorem handle_keeps (ed : Editor) (sink : σ) (event : Event) (hs : holds ed sink) :
    holds (ed.handle rules sink event).editor (ed.handle rules sink event).sink := by
  by_cases hp : ed.phase = .running
  · rw [handle_running hp]
    exact performAll_keeps h _ _ _ _ (h.tick ed sink hs)
  · rw [handle_stopped hp]
    exact hs

theorem run_keeps : ∀ (events : List Event) (ed : Editor) (sink : σ) (calls : Array Call),
    holds ed sink → holds (ed.run rules sink calls events).editor
      (ed.run rules sink calls events).sink
  | [], _, _, _, hs => hs
  | event :: events, ed, sink, calls, hs => by
    have hh := handle_keeps h ed sink event hs
    rw [run_cons]
    cases hr : (ed.handle rules sink event).result with
    | ok _ =>
      simp only [hr]
      exact run_keeps events _ _ _ hh
    | error e =>
      simp only [hr]
      exact hh

end Keeps

theorem perform_sink (rules : RuleSet) (ed : Editor) (sink : σ) (step : Step) :
    (ed.perform rules sink step).sink = sink ∨
      ∃ fragment, (ed.perform rules sink step).sink = (FragmentSink.emit sink fragment).2 := by
  unfold perform
  rcases ed.advance rules step with ⟨ed', calls, e | fragment⟩
  · exact .inl rfl
  simp only
  split
  · exact .inl rfl
  · right
    refine ⟨fragment, ?_⟩
    split <;> next h => rw [h]

theorem keeps_sink {holds : σ → Prop}
    (h : ∀ sink fragment, holds sink → holds (FragmentSink.emit sink fragment).2) :
    Keeps rules fun _ sink => holds sink where
  tick _ _ hs := hs
  perform ed sink step hs := by
    rcases perform_sink rules ed sink step with he | ⟨fragment, he⟩
    · rw [he]
      exact hs
    · rw [he]
      exact h sink fragment hs

/-! ## What goes out -/

section Fragments

variable (rules : RuleSet)

/-- What a step comes to does not depend on the sink: the same fragments reach every one. -/
theorem exists_perform (ed : Editor) (step : Step) : ∃ ed' fragments calls result,
    ∀ (σ : Type) [FragmentSink σ], NeverFails σ → ∀ sink : σ,
      ed.perform rules sink step = ⟨ed', emitAll sink fragments, calls, result⟩ := by
  rcases ha : ed.advance rules step with ⟨ed', calls, e | fragment⟩
  · exact ⟨ed'.halt, [], calls.toArray, .error e, fun σ _ _ sink => perform_of_error ha sink⟩
  · refine ⟨ed'.sent fragment, if fragment.isEmpty then [] else [fragment], calls.toArray, .ok (),
      fun σ _ hσ sink => ?_⟩
    rw [perform_of_ok hσ ha sink, put_eq_emitAll]

theorem exists_performAll : ∀ (steps : List Step) (ed : Editor) (calls : Array Call),
    ∃ ed' fragments calls' result, ∀ (σ : Type) [FragmentSink σ], NeverFails σ → ∀ sink : σ,
      ed.performAll rules sink calls steps = ⟨ed', emitAll sink fragments, calls', result⟩
  | [], ed, calls => ⟨ed, [], calls, .ok (), fun _ _ _ _ => rfl⟩
  | step :: steps, ed, calls => by
    obtain ⟨ed₁, fragments, more, result, hp⟩ := exists_perform rules ed step
    cases result with
    | error e =>
      refine ⟨ed₁, fragments, calls ++ more, .error e, fun σ _ hσ sink => ?_⟩
      rw [performAll, hp σ hσ sink]
    | ok _ =>
      obtain ⟨ed₂, rest, calls', result, hr⟩ := exists_performAll steps ed₁ (calls ++ more)
      refine ⟨ed₂, fragments ++ rest, calls', result, fun σ _ hσ sink => ?_⟩
      rw [performAll, hp σ hσ sink]
      simp only
      rw [hr σ hσ, emitAll_append]

theorem exists_handle (ed : Editor) (event : Event) : ∃ ed' fragments calls result,
    ∀ (σ : Type) [FragmentSink σ], NeverFails σ → ∀ sink : σ,
      ed.handle rules sink event = ⟨ed', emitAll sink fragments, calls, result⟩ := by
  by_cases hr : ed.phase = .running
  · obtain ⟨ed', fragments, calls, result, hp⟩ := exists_performAll rules event.steps ed.tick #[]
    exact ⟨ed', fragments, calls, result, fun σ _ hσ sink =>
      (handle_running hr sink event).trans (hp σ hσ sink)⟩
  · exact ⟨ed, [], #[], _, fun σ _ _ sink => handle_stopped hr sink event⟩

/-- **The same fragments reach every sink that never fails**, whatever the events. -/
theorem exists_feed : ∀ (events : List Event) (ed : Editor), ∃ ed' fragments,
    ∀ (σ : Type) [FragmentSink σ], NeverFails σ → ∀ sink : σ,
      ed.feed rules sink events = (ed', emitAll sink fragments)
  | [], ed => ⟨ed, [], fun _ _ _ _ => rfl⟩
  | event :: events, ed => by
    obtain ⟨ed₁, fragments, calls, result, hh⟩ := exists_handle rules ed event
    obtain ⟨ed₂, rest, hr⟩ := exists_feed events ed₁
    refine ⟨ed₂, fragments ++ rest, fun σ _ hσ sink => ?_⟩
    rw [feed, hh σ hσ sink]
    simp only
    rw [hr σ hσ, emitAll_append]

end Fragments

end Editor

end JsonEdit
