import JsonEdit.Proofs.Editor.Alike
import JsonEdit.Proofs.Editor.HandlerFailure

/-!
# The first name of an object

The start of an object that carries its first member name is short for the start alone and the name
after it. An editor cannot tell the two apart, but that it counts one event in place of two.

* `Editor.withEvents`, **`advance_withEvents`**: how many events there were has no part in a step;
* `SpelledOut`: events with some starts of objects written out;
  **`run_split`**: one such start, **`run_spelledOut`**: the runs of both;
* `Editor.outcome`: all events, the ones after an error too;
  **`outcome_eq_run`**: they come to what the run up to the first error comes to;
* **`first_name_abbreviates`**: nothing but the number of events changes.
-/

namespace JsonEdit

/-! ## The number of events -/

/-- The editor after another number of events. -/
def Editor.withEvents (ed : Editor) (n : Nat) : Editor := ed.count fun s => { s with events := n }

/-- What a step comes to, after another number of events. -/
def Effect.withEvents (e : Effect) (n : Nat) : Effect := { e with editor := e.editor.withEvents n }

namespace Editor

variable {rules : RuleSet}

theorem apply_withEvents (ed : Editor) (n : Nat) (fresh : Bool) (kind : NodeKind)
    (value : Option Json) (action : Action) :
    (ed.withEvents n).apply fresh kind value action =
      ((ed.apply fresh kind value action).1.withEvents n,
        (ed.apply fresh kind value action).2) := by
  cases action <;> cases kind <;> rfl

theorem visit_withEvents (ed : Editor) (n : Nat) (fresh : Bool) (kind : NodeKind)
    (value : Option Json) :
    (ed.withEvents n).visit rules fresh kind value =
      (ed.visit rules fresh kind value).withEvents n :=
  visit_of_change (withEvents · n) (fun _ _ _ => rfl) (fun _ => rfl)
    (apply_withEvents · n) rules ed fresh kind value

theorem beginNode_withEvents (ed : Editor) (n : Nat) (kind : NodeKind) (value : Option Json) :
    (ed.withEvents n).beginNode rules kind value =
      (ed.beginNode rules kind value).withEvents n := by
  rcases hp : ed.stack.prepare with reason | stack
  · have hp' : (ed.withEvents n).stack.prepare = .error reason := hp
    rw [beginNode_of_not_prepared hp, beginNode_of_not_prepared hp']
    rfl
  obtain ⟨top, around, rfl, -⟩ := Stack.prepare_top hp
  have hp' : (ed.withEvents n).stack.prepare = .ok ⟨top :: around, ed.stack.suppression⟩ := hp
  by_cases hd : around.length < ed.maxDepth
  · have henter : (ed.withEvents n).enter top around ed.stack.suppression kind =
        (ed.enter top around ed.stack.suppression kind).withEvents n := rfl
    rw [beginNode_eq hp hd, beginNode_eq hp' hd, henter, visit_withEvents]
    split_ifs
    · cases kind <;> rfl
    · rfl
  · rw [beginNode_of_too_deep hp (by omega), beginNode_of_too_deep hp' (Nat.not_lt.mp hd)]
    rfl

/-- **How many events there were has no part in a step.** -/
theorem advance_withEvents (ed : Editor) (n : Nat) (step : Step) :
    (ed.withEvents n).advance rules step = (ed.advance rules step).withEvents n := by
  have hs : (ed.withEvents n).stack = ed.stack := rfl
  cases step with
  | node kind value => exact beginNode_withEvents ed n kind value
  | key name =>
    simp only [advance, pushKey, hs]
    rcases ed.stack.pushKey name with reason | stack <;> rfl
  | close kind =>
    simp only [advance, close, hs]
    rcases ed.stack.top? with _ | frame
    · rfl
    · simp only
      split_ifs <;> rfl
  | fail message => rfl
  | finish =>
    simp only [advance, finish, hs]
    split_ifs <;> rfl

end Editor

/-! ## Starts of objects written out -/

/-- Some starts of objects with a first name are written out: the start, and then the name. -/
inductive SpelledOut : List Event → List Event → Prop
  | nil : SpelledOut [] []
  | keep (event : Event) {events spelled : List Event} :
    SpelledOut events spelled → SpelledOut (event :: events) (event :: spelled)
  | split (name : String) {events spelled : List Event} :
    SpelledOut events spelled →
      SpelledOut (.startObject (some name) :: events) (.startObject none :: .key name :: spelled)

/-- The error of a reply. -/
def Reply.fault? {σ : Type} (r : Reply σ) : Option EditError :=
  match r.result with
  | .error e => some e
  | .ok _ => none

/-- The replies are the same, but for the number of events that the editors have counted. -/
structure Reply.SameButEvents {σ : Type} (r r' : Reply σ) : Prop where
  editor : r'.editor = { r.editor with
    stats := { r.editor.stats with events := r'.editor.stats.events } }
  sink : r'.sink = r.sink
  calls : r'.calls = r.calls
  result : r'.result = r.result

namespace Editor

/-- The editors are the same but for the events they have counted, and so are the sinks. -/
def Recounts {σ : Type} (ed : Editor) (sink : σ) (ed' : Editor) (sink' : σ) : Prop :=
  (∃ n, ed' = ed.withEvents n) ∧ sink' = sink

/-- Replies of such editors, with the same calls and the same result. -/
abbrev AgreesWith {σ : Type} : Reply σ → Reply σ → Prop :=
  Reply.InStep Recounts fun calls calls' => calls' = calls

section Recounts

variable {σ : Type} {ed ed' : Editor} {sink sink' : σ}

theorem recounts_refl (ed : Editor) (sink : σ) : ed.Recounts sink ed sink :=
  ⟨⟨ed.stats.events, rfl⟩, rfl⟩

theorem Recounts.tick_right (h : ed.Recounts sink ed' sink') :
    ed.Recounts sink ed'.tick sink' := by
  obtain ⟨⟨n, rfl⟩, hs⟩ := h
  exact ⟨⟨n + 1, rfl⟩, hs⟩

end Recounts

variable {σ : Type} [FragmentSink σ] {rules : RuleSet} {ed ed' : Editor} {sink sink' : σ}

theorem lockstep_recounts (rules : RuleSet) :
    Lockstep rules rules (Recounts (σ := σ)) fun calls calls' => calls' = calls where
  phase := by
    rintro ed sink _ sink' ⟨⟨n, rfl⟩, -⟩
    rfl
  tick := by
    rintro ed sink _ sink' ⟨⟨n, rfl⟩, hs⟩
    exact ⟨⟨n + 1, rfl⟩, hs⟩
  perform := by
    rintro ed sink _ _ ⟨⟨n, rfl⟩, rfl⟩ step
    simp only [perform, advance_withEvents, Effect.withEvents]
    rcases ed.advance rules step with ⟨ed', calls, e | fragment⟩
    · exact ⟨⟨⟨n, rfl⟩, rfl⟩, rfl, rfl⟩
    simp only
    split_ifs
    · exact ⟨⟨⟨n, rfl⟩, rfl⟩, rfl, rfl⟩
    · split <;> exact ⟨⟨⟨n, rfl⟩, rfl⟩, rfl, rfl⟩
  nothing := rfl
  append hc hmore := by rw [hc, hmore]

/-- **The start of an object with a name, and the start and then the name.** -/
theorem run_split (name : String) (h : ed.Recounts sink ed' sink') (calls : Array Call) :
    AgreesWith (ed.run rules sink calls [.startObject (some name)])
      (ed'.run rules sink' calls [.startObject none, .key name]) := by
  have hl := lockstep_recounts (σ := σ) rules
  have hphase := hl.phase h
  by_cases hp : ed.phase = .running
  · have hnode : ed'.handle rules sink' (.startObject none) =
        ed'.tick.perform rules sink' (.node .object none) := handle_step (hphase.trans hp) sink' rfl
    obtain ⟨hstate, hcalls, hresult⟩ := handle_inStep hl h (.startObject none)
    rcases hr : ed.handle rules sink (.startObject none) with ⟨ed₁, sink₁, more, result⟩
    rcases hr' : ed'.handle rules sink' (.startObject none) with ⟨ed₁', sink₁', more', result'⟩
    rw [hr, hr'] at hstate hcalls hresult
    cases hcalls
    cases hresult
    simp only [run_cons, handle_startObject hp, hr, hr']
    cases result with
    | error e => exact ⟨hstate, rfl, rfl⟩
    | ok _ =>
      -- the object has begun, and so the name is looked at
      have hrunning : ed₁'.phase = .running := by
        have hbegun := phase_of_perform_node (by rw [← hnode, hr'])
        rw [← hnode, hr'] at hbegun
        exact hbegun.trans (hphase.trans hp)
      obtain ⟨hs, hc, hres⟩ := hl.perform hstate.tick_right (.key name)
      simp only [handle_step hrunning sink₁' (rfl : (Event.key name).steps = [.key name]), hres, hc,
        Array.append_assoc]
      split <;> exact ⟨hs, rfl, rfl⟩
  · have hp' : ed'.phase ≠ .running := fun he => hp (hphase.symm.trans he)
    simp only [run_cons, handle_stopped hp, handle_stopped hp', hphase]
    exact ⟨h, rfl, rfl⟩

theorem AgreesWith.run_append {first first' rest rest' : List Event} {calls : Array Call}
    (h : AgreesWith (ed.run rules sink calls first) (ed'.run rules sink' calls first'))
    (hrest : ∀ {ed ed' : Editor} {sink sink' : σ} (calls : Array Call),
      ed.Recounts sink ed' sink' →
        AgreesWith (ed.run rules sink calls rest) (ed'.run rules sink' calls rest')) :
    AgreesWith (ed.run rules sink calls (first ++ rest))
      (ed'.run rules sink' calls (first' ++ rest')) := by
  obtain ⟨hstate, hcalls, hresult⟩ := h
  simp only [Editor.run_append, hresult, hcalls]
  split
  · exact hrest _ hstate
  · exact ⟨hstate, rfl, rfl⟩

/-- **Runs of events with some starts written out**, one event after the other. -/
theorem run_spelledOut (rules : RuleSet) {events spelled : List Event}
    (hs : SpelledOut events spelled) :
    ∀ {ed ed' : Editor} {sink sink' : σ} (calls : Array Call), ed.Recounts sink ed' sink' →
      AgreesWith (ed.run rules sink calls events) (ed'.run rules sink' calls spelled) := by
  induction hs with
  | nil => exact fun _ h => ⟨h, rfl, rfl⟩
  | keep event hs ih =>
    intro ed ed' sink sink' calls h
    have hone := run_inStep (lockstep_recounts rules) [event] h (rfl : calls = calls)
    exact AgreesWith.run_append hone ih
  | split name hs ih =>
    intro ed ed' sink sink' calls h
    exact (run_split name h calls).run_append ih

/-! ## All events -/

/-- What all events come to, the ones after an error too: all calls, and the first error. -/
def outcome (rules : RuleSet) (ed : Editor) (sink : σ) (events : List Event) : Reply σ :=
  let replies := ed.replies rules sink events
  ⟨(ed.feed rules sink events).1, (ed.feed rules sink events).2,
    (replies.flatMap fun r => r.calls.toList).toArray,
    match replies.findSome? Reply.fault? with
    | some e => .error e
    | none => .ok ()⟩

theorem phase_of_error {event : Event} {calls : Array Call} {e : EditError}
    (hr : ed.handle rules sink event = ⟨ed', sink', calls, .error e⟩) : ed'.phase ≠ .running := by
  by_cases hp : ed.phase = .running
  · have hends : (ed.handle rules sink event).Ends rules .halted := ends_of_error hp (by rw [hr])
    rw [hr] at hends
    rw [hends.stopped]
    decide
  · rw [handle_stopped hp] at hr
    cases hr
    exact hp

theorem outcome_cons (rules : RuleSet) (ed : Editor) (sink : σ) (event : Event)
    (events : List Event) :
    ed.outcome rules sink (event :: events) =
      let r := ed.handle rules sink event
      let rest := r.editor.outcome rules r.sink events
      ⟨rest.editor, rest.sink, r.calls ++ rest.calls,
        match r.result with
        | .error e => .error e
        | .ok _ => rest.result⟩ := by
  rcases hr : ed.handle rules sink event with ⟨ed₁, sink₁, calls, e | _⟩ <;>
    simp [outcome, replies, feed, hr, List.findSome?_cons, Reply.fault?]

theorem outcome_of_stopped (rules : RuleSet) (hp : ed.phase ≠ .running) (sink : σ)
    (events : List Event) : ∃ result, ed.outcome rules sink events = ⟨ed, sink, #[], result⟩ := by
  simp [outcome, feed_of_stopped hp, replies_of_stopped hp]

/-- **What comes after an error changes nothing**: all events come to what the run up to the first
error comes to. -/
theorem outcome_eq_run (rules : RuleSet) (events : List Event) : ∀ (ed : Editor) (sink : σ),
    ed.outcome rules sink events = ed.run rules sink #[] events := by
  induction events with
  | nil => exact fun _ _ => rfl
  | cons event events ih =>
    intro ed sink
    rw [run_cons, outcome_cons]
    rcases hr : ed.handle rules sink event with ⟨ed₁, sink₁, calls, e | _⟩
    · obtain ⟨result, h⟩ := outcome_of_stopped rules (phase_of_error hr) sink₁ events
      simp only [h, Array.append_empty, Array.empty_append]
    · have hrun : ed₁.run rules sink₁ (calls ++ #[]) events = _ :=
        run_calls calls events ed₁ sink₁ #[]
      rw [Array.append_empty] at hrun
      simp only [ih, Array.empty_append, hrun]

/-- **The start of an object with its first name is short for the start and then the name.** -/
theorem first_name_abbreviates {events spelled : List Event} (hs : SpelledOut events spelled)
    (rules : RuleSet) (ed : Editor) (sink : σ) :
    (ed.outcome rules sink events).SameButEvents (ed.outcome rules sink spelled) := by
  obtain ⟨⟨⟨n, he⟩, hsink⟩, hcalls, hresult⟩ :=
    run_spelledOut rules hs #[] (recounts_refl ed sink)
  rw [outcome_eq_run, outcome_eq_run]
  refine ⟨?_, hsink, hcalls, hresult⟩
  rw [he]
  rfl

/-- One object is removed, and in another one the name is already too deep. -/
theorem first_name_abbreviates_too_deep :
    let rules : RuleSet := [⟨.predicate "a" fun path => path.keys == ["a"], .always .remove⟩]
    let events : List Event :=
      [.startObject (some "a"), .startObject (some "x"), .scalar .null, .endObject, .key "b",
        .startObject (some "c"), .startObject (some "d"), .scalar .null]
    let spelled : List Event :=
      [.startObject none, .key "a", .startObject none, .key "x", .scalar .null, .endObject,
        .key "b", .startObject (some "c"), .startObject none, .key "d", .scalar .null]
    let r := (Editor.new 3).outcome rules (#[] : Array String) events
    SpelledOut events spelled ∧
      r.SameButEvents ((Editor.new 3).outcome rules (#[] : Array String) spelled) ∧
      r.sink = #["\x7b", "\"b\":\x7b", "\"c\":\x7b"] ∧
      r.result = .error (.depthLimitExceeded 4 3) := by
  intro rules events spelled r
  have hs : SpelledOut events spelled :=
    .split "a" (.split "x" (.keep _ (.keep _ (.keep _ (.keep _ (.split "d" (.keep _ .nil)))))))
  exact ⟨hs, first_name_abbreviates hs rules (Editor.new 3) #[], by decide +kernel,
    by decide +kernel⟩

end Editor

end JsonEdit
