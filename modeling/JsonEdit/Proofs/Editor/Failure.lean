import JsonEdit.Proofs.Editor.Outline

/-!
# What can stop an editor

Handlers and sinks may fail. Apart from that an editor keeps to its outline, whatever the rules and
whatever the sink.

* `EditError.IsForeign`: the errors of handlers and sinks;
* `advance_foreign`, **`perform_foreign`**: a step keeps to the outline, or one of these errors
  stops it; `handle_foreign`, **`run_foreign`**: so do events.
-/

namespace JsonEdit

/-- The error comes from a handler or from the sink. -/
def EditError.IsForeign : EditError → Prop
  | .handler _ _ _ | .transfer _ => True
  | _ => False

namespace Editor

variable {σ : Type} [FragmentSink σ] {rules : RuleSet}

/-! ## Steps -/

theorem visit_foreign {ed : Editor} {fresh : Bool} {kind : NodeKind} {value : Option Json}
    {e : EditError} (h : (ed.visit rules fresh kind value).result = .error e) : e.IsForeign := by
  simp only [visit] at h
  split at h
  · cases h
  · split at h
    · next index rule _ e' ha =>
      cases h
      unfold Rule.apply at ha
      split at ha
      · cases ha
      · cases ha
        trivial
    · cases h

theorem beginNode_foreign (rules : RuleSet) (ed : Editor) (kind : NodeKind) (value : Option Json) :
    (ed.beginNode rules kind value).outline = ed.outline.perform (.node kind value) ∨
      ∃ e, e.IsForeign ∧ (ed.beginNode rules kind value).result = .error e := by
  by_cases h : ∃ top around, ed.stack.prepare = .ok ⟨top :: around, 0⟩ ∧
      around.length < ed.maxDepth ∧ ¬ rules.Answers (nodeOf top around kind value)
  case neg =>
    refine .inl (outline_beginNode fun top around hp hd => ?_)
    exact Classical.byContradiction fun ha => h ⟨top, around, hp, hd, ha⟩
  case pos =>
    obtain ⟨top, around, hp, hd, ha⟩ := h
    obtain ⟨e, he⟩ := beginNode_of_not_answers hp hd ha
    refine .inr ⟨e, ?_, by rw [he]⟩
    rw [beginNode_eq hp hd, if_neg (by omega)] at he
    exact visit_foreign (by rw [he])

theorem advance_foreign (rules : RuleSet) (ed : Editor) (step : Step) :
    (ed.advance rules step).outline = ed.outline.perform step ∨
      ∃ e, e.IsForeign ∧ (ed.advance rules step).result = .error e := by
  cases step with
  | node kind value => exact beginNode_foreign rules ed kind value
  | key name => exact .inl (outline_pushKey ed name)
  | close kind => exact .inl (outline_close ed kind)
  | fail message => exact .inl rfl
  | finish => exact .inl (outline_finish ed)

/-- **A step keeps to the outline**, or a handler or the sink fails. -/
theorem perform_foreign (rules : RuleSet) (ed : Editor) (sink : σ) (step : Step) :
    let r := ed.perform rules sink step
    (r.editor.outline, r.result) = ed.outline.perform step ∨
      ∃ e, e.IsForeign ∧ r.result = .error e := by
  have hadv := advance_foreign rules ed step
  rcases ha : ed.advance rules step with ⟨ed', calls, e | fragment⟩
  · rw [ha] at hadv
    rw [perform_of_error ha]
    rcases hadv with he | ⟨_, hf, he⟩
    · exact .inl he
    · cases he
      exact .inr ⟨e, hf, rfl⟩
  rw [ha] at hadv
  have he := hadv.resolve_right (by rintro ⟨e, -, he⟩; cases he)
  by_cases hok : (ed.perform rules sink step).result = .ok ()
  · left
    obtain ⟨_, _, _, ha', hr⟩ := perform_of_result_ok hok
    rw [ha] at ha'
    cases ha'
    rw [hr, ← he]
    simp [outline, Effect.outline]
  · right
    unfold perform at hok ⊢
    rw [ha] at hok ⊢
    simp only at hok ⊢
    split at hok
    · exact absurd rfl hok
    · next hf =>
      rw [if_neg hf]
      rcases hem : FragmentSink.emit sink fragment with ⟨message | _, sink'⟩
      · exact ⟨.transfer message, trivial, rfl⟩
      · rw [hem] at hok
        exact absurd rfl hok

/-! ## Events -/

theorem performAll_foreign (rules : RuleSet) (steps : List Step) : ∀ (ed : Editor) (sink : σ)
    (calls : Array Call),
    let r := ed.performAll rules sink calls steps
    (r.editor.outline, r.result) = ed.outline.performAll steps ∨
      ∃ e, e.IsForeign ∧ r.result = .error e := by
  induction steps with
  | nil => exact fun _ _ _ => .inl rfl
  | cons step steps ih =>
    intro ed sink calls
    simp only
    rcases perform_foreign rules ed sink step with hs | ⟨e, hf, he⟩
    · rw [performAll, Outline.performAll, ← hs]
      rcases ed.perform rules sink step with ⟨ed', sink', more, _ | _⟩
      · exact .inl rfl
      · exact ih ed' sink' _
    · simp only [performAll_cons, he]
      exact .inr ⟨e, hf, rfl⟩

theorem handle_foreign (rules : RuleSet) (ed : Editor) (sink : σ) (event : Event) :
    let r := ed.handle rules sink event
    (r.editor.outline, r.result) = ed.outline.handle event ∨
      ∃ e, e.IsForeign ∧ r.result = .error e := by
  by_cases hp : ed.phase = .running
  · have ho : ed.outline.handle event = ed.tick.outline.performAll event.steps := by
      rw [Outline.handle, show ed.outline.phase = .running from hp]
      rfl
    rw [handle_running hp, ho]
    exact performAll_foreign rules event.steps ed.tick sink #[]
  · left
    rw [handle_stopped hp, Outline.handle]
    cases h : ed.phase with
    | running => exact absurd h hp
    | halted => simp [outline, h]
    | finished => simp [outline, h]

/-- **Events keep to the outline**, or a handler or the sink fails. -/
theorem run_foreign (rules : RuleSet) (events : List Event) : ∀ (ed : Editor) (sink : σ)
    (calls : Array Call),
    let r := ed.run rules sink calls events
    (r.editor.outline, r.result) = ed.outline.run events ∨
      ∃ e, e.IsForeign ∧ r.result = .error e := by
  induction events with
  | nil => exact fun _ _ _ => .inl rfl
  | cons event events ih =>
    intro ed sink calls
    simp only
    rcases handle_foreign rules ed sink event with hs | ⟨e, hf, he⟩
    · rw [run, Outline.run, ← hs]
      rcases ed.handle rules sink event with ⟨ed', sink', more, _ | _⟩
      · exact .inl rfl
      · exact ih ed' sink' _
    · simp only [run_cons, he]
      exact .inr ⟨e, hf, rfl⟩

end Editor

end JsonEdit
