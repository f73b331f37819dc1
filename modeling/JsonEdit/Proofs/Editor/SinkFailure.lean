import JsonEdit.Proofs.Editor.EarlyEnd

/-!
# A sink that fails on the way

A sink may fail where another one takes the fragment. Up to there the two runs agree; then one of
them has stopped, and the other may go on.

* `FragmentSink.Follows`: one sink acts like another until it fails;
* `Reply.StopsShort`: a run that its sink has stopped, beside one that went on;
* **`run_follows`**: runs with two such sinks.
-/

namespace JsonEdit

variable {σ σ' : Type}

/-- The second sink takes every fragment. The first takes it too, and they stay related, or it
fails; what has become of it then agrees with the second one, however much that still takes. -/
structure FragmentSink.Follows [FragmentSink σ] [FragmentSink σ'] (related lost : σ → σ' → Prop) :
    Prop where
  emit : ∀ sink sink' fragment, related sink sink' →
    (emit sink' fragment).1 = .ok () ∧
      ((emit sink fragment).1 = .ok () ∧ related (emit sink fragment).2 (emit sink' fragment).2 ∨
        (∃ message, (emit sink fragment).1 = .error message) ∧
          lost (emit sink fragment).2 (emit sink' fragment).2)
  goesOn : ∀ sink sink' fragment, lost sink sink' → lost sink (FragmentSink.emit sink' fragment).2

/-- The sink of one run has failed, and the other has gone on from there. -/
structure Reply.StopsShort (lost : σ → σ' → Prop) (r : Reply σ) (r' : Reply σ') : Prop where
  result : ∃ message, r.result = .error (.transfer message)
  calls : r.calls.toList <+: r'.calls.toList
  sink : lost r.sink r'.sink

namespace Editor

variable [FragmentSink σ] [FragmentSink σ'] (rules : RuleSet)

theorem append_calls_prefix (before : Array Call) {calls calls' : Array Call}
    (h : calls.toList <+: calls'.toList) :
    (before ++ calls).toList <+: (before ++ calls').toList := by
  simp only [Array.toList_append]
  exact (List.prefix_append_right_inj _).mpr h

theorem performAll_calls_prefix (steps : List Step) : ∀ (ed : Editor) (sink : σ)
    (calls : Array Call), calls.toList <+: (ed.performAll rules sink calls steps).calls.toList := by
  induction steps with
  | nil => exact fun _ _ _ => List.prefix_rfl
  | cons step steps ih =>
    intro ed sink calls
    have hmore : calls.toList <+: (calls ++ (ed.perform rules sink step).calls).toList := by
      rw [Array.toList_append]
      exact List.prefix_append _ _
    simp only [performAll_cons]
    split
    · exact hmore.trans (ih _ _ _)
    · exact hmore

/-! ## Two sinks -/

variable {related lost : σ → σ' → Prop}

theorem perform_follows (h : FragmentSink.Follows related lost) (ed : Editor) {sink : σ}
    {sink' : σ'} (hs : related sink sink') (step : Step) :
    (ed.perform rules sink step).Alike related (ed.perform rules sink' step) ∨
      (ed.perform rules sink step).StopsShort lost (ed.perform rules sink' step) := by
  rcases ha : ed.advance rules step with ⟨ed', calls, e | fragment⟩
  · rw [perform_of_error ha, perform_of_error ha]
    exact .inl ⟨rfl, rfl, rfl, hs⟩
  unfold perform
  simp only [ha]
  split
  · exact .inl ⟨rfl, rfl, rfl, hs⟩
  obtain ⟨hok', hcases⟩ := h.emit sink sink' fragment hs
  rcases hem : FragmentSink.emit sink fragment with ⟨result, sink₁⟩
  rcases hem' : FragmentSink.emit sink' fragment with ⟨result', sink₁'⟩
  rw [hem'] at hok'
  rw [hem, hem'] at hcases
  cases hok'
  rcases hcases with ⟨hok, hs'⟩ | ⟨⟨message, herror⟩, hl⟩
  · cases hok
    exact .inl ⟨rfl, rfl, rfl, hs'⟩
  · cases herror
    exact .inr ⟨⟨message, rfl⟩, List.prefix_rfl, hl⟩

theorem performAll_follows (h : FragmentSink.Follows related lost) (steps : List Step) :
    ∀ (ed : Editor) {sink : σ} {sink' : σ'} (calls : Array Call), related sink sink' →
      (ed.performAll rules sink calls steps).Alike related
          (ed.performAll rules sink' calls steps) ∨
        (ed.performAll rules sink calls steps).StopsShort lost
          (ed.performAll rules sink' calls steps) := by
  induction steps with
  | nil => exact fun ed _ _ calls hs => .inl ⟨rfl, rfl, rfl, hs⟩
  | cons step steps ih =>
    intro ed sink sink' calls hs
    simp only [performAll_cons]
    rcases perform_follows rules h ed hs step with ⟨he, hc, hr, hs'⟩ | ⟨⟨message, hr⟩, hc, hl⟩
    · simp only [he, hc, hr]
      split
      · exact ih _ _ hs'
      · exact .inl ⟨rfl, rfl, rfl, hs'⟩
    · -- the first run ends here, and what the other does adds to it
      have hcalls : (calls ++ (ed.perform rules sink step).calls).toList <+:
          (calls ++ (ed.perform rules sink' step).calls).toList := append_calls_prefix calls hc
      simp only [hr]
      right
      split
      · exact ⟨⟨message, rfl⟩, hcalls.trans <| performAll_calls_prefix rules steps _ _ _,
          performAll_keeps (keeps_sink (h.goesOn _)) steps _ _ _ hl⟩
      · exact ⟨⟨message, rfl⟩, hcalls, hl⟩

theorem handle_follows (h : FragmentSink.Follows related lost) (ed : Editor) {sink : σ}
    {sink' : σ'} (hs : related sink sink') (event : Event) :
    (ed.handle rules sink event).Alike related (ed.handle rules sink' event) ∨
      (ed.handle rules sink event).StopsShort lost (ed.handle rules sink' event) := by
  by_cases hp : ed.phase = .running
  · rw [handle_running hp, handle_running hp]
    exact performAll_follows rules h event.steps ed.tick #[] hs
  · rw [handle_stopped hp, handle_stopped hp]
    exact .inl ⟨rfl, rfl, rfl, hs⟩

/-- **Runs with a sink that may fail and with one that does not** agree in everything but the
sinks, or the first has stopped short of the second. -/
theorem run_follows (h : FragmentSink.Follows related lost) (events : List Event) :
    ∀ (ed : Editor) {sink : σ} {sink' : σ'} (calls : Array Call), related sink sink' →
      (ed.run rules sink calls events).Alike related (ed.run rules sink' calls events) ∨
        (ed.run rules sink calls events).StopsShort lost (ed.run rules sink' calls events) := by
  induction events with
  | nil => exact fun ed _ _ calls hs => .inl ⟨rfl, rfl, rfl, hs⟩
  | cons event events ih =>
    intro ed sink sink' calls hs
    simp only [run_cons]
    rcases handle_follows rules h ed hs event with ⟨he, hc, hr, hs'⟩ | ⟨⟨message, hr⟩, hc, hl⟩
    · simp only [he, hc, hr]
      split
      · exact ih _ _ hs'
      · exact .inl ⟨rfl, rfl, rfl, hs'⟩
    · have hcalls : (calls ++ (ed.handle rules sink event).calls).toList <+:
          (calls ++ (ed.handle rules sink' event).calls).toList := append_calls_prefix calls hc
      simp only [hr]
      right
      split
      · exact ⟨⟨message, rfl⟩, hcalls.trans <| run_calls_prefix rules events _ _ _,
          run_keeps (keeps_sink (h.goesOn _)) events _ _ _ hl⟩
      · exact ⟨⟨message, rfl⟩, hcalls, hl⟩

end Editor

end JsonEdit
