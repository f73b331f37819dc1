import JsonEdit.Proofs.Editor.Feed

/-!
# Runs side by side

Two runs that keep some relation from step to step come to the same result. In particular, what an
editor does depends on its sink only through the failures: where one sink stands for another, so
that both take the same fragments, the runs agree in everything else.

* `Reply.InStep`, `Editor.Lockstep`: replies that agree, and what steps have to keep for that;
  **`run_inStep`**: then runs keep it;
* `FragmentSink.Alike`: a relation of sinks that fragments keep;
* `Reply.Alike`: replies that differ in related sinks only;
* **`run_alike`**: runs with related sinks.
-/

namespace JsonEdit

variable {σ σ' : Type}

/-! ## Two runs in step -/

/-- The results are the same, the editors with their sinks are related, and so are the calls. -/
structure Reply.InStep (state : Editor → σ → Editor → σ' → Prop)
    (called : Array Call → Array Call → Prop) (r : Reply σ) (r' : Reply σ') : Prop where
  state : state r.editor r.sink r'.editor r'.sink
  calls : called r.calls r'.calls
  result : r'.result = r.result

namespace Editor

variable [FragmentSink σ] [FragmentSink σ']

/-- Related editors stay related, step by step, and their calls add up to related ones. -/
structure Lockstep (rules rules' : RuleSet) (state : Editor → σ → Editor → σ' → Prop)
    (called : Array Call → Array Call → Prop) : Prop where
  phase : ∀ {ed sink ed' sink'}, state ed sink ed' sink' → ed'.phase = ed.phase
  tick : ∀ {ed sink ed' sink'}, state ed sink ed' sink' → state ed.tick sink ed'.tick sink'
  perform : ∀ {ed sink ed' sink'}, state ed sink ed' sink' → ∀ step : Step,
    (ed.perform rules sink step).InStep state called (ed'.perform rules' sink' step)
  nothing : called #[] #[]
  append : ∀ {calls calls' more more'}, called calls calls' → called more more' →
    called (calls ++ more) (calls' ++ more')

section Lockstep

variable {rules rules' : RuleSet} {state : Editor → σ → Editor → σ' → Prop}
  {called : Array Call → Array Call → Prop} (h : Lockstep rules rules' state called)
include h

theorem performAll_inStep (steps : List Step) : ∀ {ed : Editor} {sink : σ} {ed' : Editor}
    {sink' : σ'} {calls calls' : Array Call}, state ed sink ed' sink' → called calls calls' →
      (ed.performAll rules sink calls steps).InStep state called
        (ed'.performAll rules' sink' calls' steps) := by
  induction steps with
  | nil => exact fun hs hc => ⟨hs, hc, rfl⟩
  | cons step steps ih =>
    intro ed sink ed' sink' calls calls' hs hc
    obtain ⟨hs', hmore, hr⟩ := h.perform hs step
    have hcalls := h.append hc hmore
    simp only [performAll_cons, hr]
    split
    · exact ih hs' hcalls
    · exact ⟨hs', hcalls, rfl⟩

theorem handle_inStep {ed ed' : Editor} {sink : σ} {sink' : σ'} (hs : state ed sink ed' sink')
    (event : Event) :
    (ed.handle rules sink event).InStep state called (ed'.handle rules' sink' event) := by
  have hphase := h.phase hs
  by_cases hp : ed.phase = .running
  · rw [handle_running hp, handle_running (hphase.trans hp)]
    exact performAll_inStep h event.steps (h.tick hs) h.nothing
  · rw [handle_stopped hp, handle_stopped fun hp' => hp (hphase.symm.trans hp'), hphase]
    exact ⟨hs, h.nothing, rfl⟩

/-- **Runs that start in step stay so.** -/
theorem run_inStep (events : List Event) : ∀ {ed : Editor} {sink : σ} {ed' : Editor} {sink' : σ'}
    {calls calls' : Array Call}, state ed sink ed' sink' → called calls calls' →
      (ed.run rules sink calls events).InStep state called
        (ed'.run rules' sink' calls' events) := by
  induction events with
  | nil => exact fun hs hc => ⟨hs, hc, rfl⟩
  | cons event events ih =>
    intro ed sink ed' sink' calls calls' hs hc
    obtain ⟨hs', hmore, hr⟩ := handle_inStep h hs event
    have hcalls := h.append hc hmore
    simp only [run_cons, hr]
    split
    · exact ih hs' hcalls
    · exact ⟨hs', hcalls, rfl⟩

end Lockstep

end Editor

/-! ## Two sinks -/

/-- Related sinks take the same fragments, and stay related. -/
def FragmentSink.Alike [FragmentSink σ] [FragmentSink σ'] (related : σ → σ' → Prop) : Prop :=
  ∀ sink sink' fragment, related sink sink' →
    (emit sink fragment).1 = (emit sink' fragment).1 ∧
      related (emit sink fragment).2 (emit sink' fragment).2

/-- The replies differ in their sinks only, which are related. -/
structure Reply.Alike (related : σ → σ' → Prop) (r : Reply σ) (r' : Reply σ') : Prop where
  editor : r.editor = r'.editor
  calls : r.calls = r'.calls
  result : r.result = r'.result
  sink : related r.sink r'.sink

namespace Editor

variable [FragmentSink σ] [FragmentSink σ'] (rules : RuleSet) {related : σ → σ' → Prop}

theorem perform_alike (h : FragmentSink.Alike related) (ed : Editor) {sink : σ} {sink' : σ'}
    (hs : related sink sink') (step : Step) :
    (ed.perform rules sink step).Alike related (ed.perform rules sink' step) := by
  rcases ha : ed.advance rules step with ⟨ed', calls, e | fragment⟩
  · rw [perform_of_error ha, perform_of_error ha]
    exact ⟨rfl, rfl, rfl, hs⟩
  · unfold perform
    simp only [ha]
    obtain ⟨hr, hs'⟩ := h sink sink' fragment hs
    split
    · exact ⟨rfl, rfl, rfl, hs⟩
    rcases hem : FragmentSink.emit sink fragment with ⟨result, sink₁⟩
    rcases hem' : FragmentSink.emit sink' fragment with ⟨result', sink₁'⟩
    rw [hem, hem'] at hr hs'
    cases hr
    cases result <;> exact ⟨rfl, rfl, rfl, hs'⟩

theorem lockstep_alike (h : FragmentSink.Alike related) :
    Lockstep rules rules (fun ed sink ed' sink' => ed' = ed ∧ related sink sink')
      fun calls calls' => calls' = calls where
  phase hs := congrArg phase hs.1
  tick hs := ⟨congrArg tick hs.1, hs.2⟩
  perform := by
    rintro ed sink _ sink' ⟨rfl, hs⟩ step
    obtain ⟨he, hc, hr, hs'⟩ := perform_alike rules h _ hs step
    exact ⟨⟨he.symm, hs'⟩, hc.symm, hr.symm⟩
  nothing := rfl
  append hc hmore := by rw [hc, hmore]

/-- **Runs with related sinks** agree in everything but the sinks. -/
theorem run_alike (h : FragmentSink.Alike related) (events : List Event) (ed : Editor) {sink : σ}
    {sink' : σ'} (calls : Array Call) (hs : related sink sink') :
    (ed.run rules sink calls events).Alike related (ed.run rules sink' calls events) := by
  obtain ⟨⟨he, hs'⟩, hc, hr⟩ := run_inStep (lockstep_alike rules h) events ⟨rfl, hs⟩ rfl
  exact ⟨he.symm, hc.symm, hr.symm, hs'⟩

end Editor

end JsonEdit
