import JsonEdit.Proofs.Editor.SinkFailure

/-!
# Another depth limit

The depth limit has no part in an edit until it is passed, and then the edit is over. With a larger
limit an editor does the same up to there.

* `Editor.limitedTo`: an editor with another limit;
* `Editor.Exceeds`: a step that passes the limit;
* **`advance_deeper`**: a step with a larger limit;
* **`run_calls_deeper`**: the calls of a run are the first ones of the run with a larger limit.
-/

namespace JsonEdit

/-- The editor with another depth limit. -/
def Editor.limitedTo (ed : Editor) (d : Nat) : Editor := { ed with maxDepth := d }

/-- What a step comes to, with another depth limit. -/
def Effect.limitedTo (e : Effect) (d : Nat) : Effect := { e with editor := e.editor.limitedTo d }

/-- What events come to, with another depth limit. -/
def Reply.limitedTo {σ : Type} (r : Reply σ) (d : Nat) : Reply σ :=
  { r with editor := r.editor.limitedTo d }

namespace Editor

variable (rules : RuleSet) {ed : Editor} {d : Nat}

/-! ## Steps -/

theorem apply_limitedTo (ed : Editor) (d : Nat) (fresh : Bool) (kind : NodeKind)
    (value : Option Json) (action : Action) :
    (ed.limitedTo d).apply fresh kind value action =
      ((ed.apply fresh kind value action).1.limitedTo d,
        (ed.apply fresh kind value action).2) := by
  cases action <;> cases kind <;> rfl

theorem visit_limitedTo (ed : Editor) (d : Nat) (fresh : Bool) (kind : NodeKind)
    (value : Option Json) :
    (ed.limitedTo d).visit rules fresh kind value =
      (ed.visit rules fresh kind value).limitedTo d :=
  visit_of_change (limitedTo · d) (fun _ _ _ => rfl) (fun _ => rfl)
    (apply_limitedTo · d) rules ed fresh kind value

/-- The step passes the depth limit, which ends it before any handler is called. -/
def Exceeds (ed : Editor) (e : Effect) : Prop :=
  e.calls = [] ∧ ∃ depth, e.result = .error (.depthLimitExceeded depth ed.maxDepth)

theorem beginNode_deeper (h : ed.maxDepth ≤ d) (kind : NodeKind) (value : Option Json) :
    (ed.limitedTo d).beginNode rules kind value = (ed.beginNode rules kind value).limitedTo d ∨
      ed.Exceeds (ed.beginNode rules kind value) := by
  rcases hp : ed.stack.prepare with reason | stack
  · left
    have hp' : (ed.limitedTo d).stack.prepare = .error reason := hp
    rw [beginNode_of_not_prepared hp, beginNode_of_not_prepared hp']
    rfl
  obtain ⟨top, around, rfl, -⟩ := Stack.prepare_top hp
  have hp' : (ed.limitedTo d).stack.prepare = .ok ⟨top :: around, ed.stack.suppression⟩ := hp
  by_cases hd : around.length < ed.maxDepth
  · left
    have hd' : around.length < (ed.limitedTo d).maxDepth := Nat.lt_of_lt_of_le hd h
    have henter : (ed.limitedTo d).enter top around ed.stack.suppression kind =
        (ed.enter top around ed.stack.suppression kind).limitedTo d := rfl
    rw [beginNode_eq hp hd, beginNode_eq hp' hd', henter, visit_limitedTo]
    split_ifs
    · cases kind <;> rfl
    · rfl
  · right
    rw [beginNode_of_too_deep hp (Nat.not_lt.mp hd)]
    exact ⟨rfl, _, rfl⟩

theorem pushKey_deeper (h : ed.maxDepth ≤ d) (name : String) :
    (ed.limitedTo d).pushKey name = (ed.pushKey name).limitedTo d ∨
      ed.Exceeds (ed.pushKey name) := by
  have hs : (ed.limitedTo d).stack = ed.stack := rfl
  rcases hk : ed.stack.pushKey name with reason | stack
  · left
    simp only [pushKey, hs, hk]
    rfl
  let keyed : Editor := { ed with stack }
  have hpush : ed.pushKey name = ⟨keyed, [], keyed.checkDepth.map fun _ => ""⟩ := by
    simp only [pushKey, hk, keyed]
  by_cases hd : keyed.depth > keyed.maxDepth
  · right
    have hc : keyed.checkDepth = .error (.depthLimitExceeded keyed.depth keyed.maxDepth) :=
      if_pos hd
    rw [hpush, hc]
    exact ⟨rfl, _, rfl⟩
  · left
    have hc : keyed.checkDepth = .ok () := if_neg hd
    have hc' : (keyed.limitedTo d).checkDepth = .ok () :=
      if_neg fun hgt => hd (Nat.lt_of_le_of_lt h hgt)
    have hpush' : (ed.limitedTo d).pushKey name =
        ⟨keyed.limitedTo d, [], (keyed.limitedTo d).checkDepth.map fun _ => ""⟩ := by
      simp only [pushKey, hs, hk]
      rfl
    rw [hpush, hpush', hc, hc']
    rfl

theorem close_limitedTo (ed : Editor) (d : Nat) (kind : ContainerKind) :
    (ed.limitedTo d).close kind = (ed.close kind).limitedTo d := by
  have hs : (ed.limitedTo d).stack = ed.stack := rfl
  simp only [close, hs]
  rcases ed.stack.top? with _ | frame
  · rfl
  · simp only
    split_ifs <;> rfl

/-- **A step with a larger limit** comes to the same, unless it passes the smaller one. -/
theorem advance_deeper (h : ed.maxDepth ≤ d) (step : Step) :
    (ed.limitedTo d).advance rules step = (ed.advance rules step).limitedTo d ∨
      ed.Exceeds (ed.advance rules step) := by
  cases step with
  | node kind value => exact beginNode_deeper rules h kind value
  | key name => exact pushKey_deeper h name
  | close kind => exact .inl (close_limitedTo ed d kind)
  | fail message => exact .inl rfl
  | finish =>
    left
    have hs : (ed.limitedTo d).stack = ed.stack := rfl
    simp only [advance, finish, hs]
    split_ifs <;> rfl

theorem advance_maxDepth {step : Step} {ed' : Editor} {calls : List Call} {fragment : String}
    (h : ed.advance rules step = ⟨ed', calls, .ok fragment⟩) : ed'.maxDepth = ed.maxDepth := by
  have hself : ed.limitedTo ed.maxDepth = ed := rfl
  rcases advance_deeper rules (Nat.le_refl ed.maxDepth) step with hs | ⟨-, depth, he⟩
  · rw [hself, h] at hs
    exact congrArg (fun e => e.editor.maxDepth) hs
  · rw [h] at he
    cases he

end Editor

/-! ## Runs -/

/-- One run is the other but for the limit, or it has failed with the first calls of the other. -/
def Reply.ContinuedAt {σ : Type} (d : Nat) (r r' : Reply σ) : Prop :=
  r.editor.maxDepth ≤ d ∧ r' = r.limitedTo d ∨
    (∃ e, r.result = .error e) ∧ r.calls.toList <+: r'.calls.toList

namespace Editor

section Runs

variable (rules : RuleSet) {ed : Editor} {d : Nat} {σ : Type} [FragmentSink σ]

theorem perform_deeper (h : ed.maxDepth ≤ d) (sink : σ) (step : Step) :
    (ed.perform rules sink step).ContinuedAt d ((ed.limitedTo d).perform rules sink step) := by
  rcases ha : ed.advance rules step with ⟨ed', calls, e | fragment⟩
  · right
    rw [perform_of_error ha]
    refine ⟨⟨e, rfl⟩, ?_⟩
    rcases advance_deeper rules h step with hs | ⟨hcalls, -⟩
    · rw [ha] at hs
      exact perform_of_error hs sink ▸ List.prefix_rfl
    · rw [ha] at hcalls
      cases hcalls
      exact List.nil_prefix
  · left
    have hmax : ed'.maxDepth ≤ d := advance_maxDepth rules ha ▸ h
    rcases advance_deeper rules h step with hs | ⟨-, depth, he⟩
    · rw [perform, perform, hs, ha]
      simp only [Effect.limitedTo]
      split_ifs
      · exact ⟨hmax, rfl⟩
      · rcases FragmentSink.emit sink fragment with ⟨_ | _, sink'⟩ <;> exact ⟨hmax, rfl⟩
    · rw [ha] at he
      cases he

theorem performAll_deeper (steps : List Step) : ∀ (ed : Editor) (sink : σ) (calls : Array Call),
    ed.maxDepth ≤ d → (ed.performAll rules sink calls steps).ContinuedAt d
      ((ed.limitedTo d).performAll rules sink calls steps) := by
  induction steps with
  | nil => exact fun ed _ _ h => .inl ⟨h, rfl⟩
  | cons step steps ih =>
    intro ed sink calls h
    simp only [performAll_cons]
    rcases perform_deeper rules h sink step with ⟨hmax, hs⟩ | ⟨⟨e, he⟩, hcalls⟩
    · simp only [hs, Reply.limitedTo]
      split
      · exact ih _ _ _ hmax
      · exact .inl ⟨hmax, rfl⟩
    · right
      simp only [he]
      refine ⟨⟨e, rfl⟩, ?_⟩
      have hgrown := append_calls_prefix calls hcalls
      split
      · exact hgrown.trans <| performAll_calls_prefix rules steps _ _ _
      · exact hgrown

theorem handle_deeper (h : ed.maxDepth ≤ d) (sink : σ) (event : Event) :
    (ed.handle rules sink event).ContinuedAt d ((ed.limitedTo d).handle rules sink event) := by
  by_cases hp : ed.phase = .running
  · have hp' : (ed.limitedTo d).phase = .running := hp
    rw [handle_running hp, handle_running hp']
    exact performAll_deeper rules event.steps ed.tick sink #[] h
  · have hp' : (ed.limitedTo d).phase ≠ .running := hp
    rw [handle_stopped hp, handle_stopped hp']
    exact .inl ⟨h, rfl⟩

theorem run_deeper (events : List Event) : ∀ (ed : Editor) (sink : σ) (calls : Array Call),
    ed.maxDepth ≤ d → (ed.run rules sink calls events).ContinuedAt d
      ((ed.limitedTo d).run rules sink calls events) := by
  induction events with
  | nil => exact fun ed _ _ h => .inl ⟨h, rfl⟩
  | cons event events ih =>
    intro ed sink calls h
    simp only [run_cons]
    rcases handle_deeper rules h sink event with ⟨hmax, hs⟩ | ⟨⟨e, he⟩, hcalls⟩
    · simp only [hs, Reply.limitedTo]
      split
      · exact ih _ _ _ hmax
      · exact .inl ⟨hmax, rfl⟩
    · right
      simp only [he]
      refine ⟨⟨e, rfl⟩, ?_⟩
      have hgrown := append_calls_prefix calls hcalls
      split
      · exact hgrown.trans <| run_calls_prefix rules events _ _ _
      · exact hgrown

/-- **The calls of a run are the first ones of the run with a larger limit.** -/
theorem run_calls_deeper (h : ed.maxDepth ≤ d) (sink : σ) (calls : Array Call)
    (events : List Event) :
    (ed.run rules sink calls events).calls.toList <+:
      ((ed.limitedTo d).run rules sink calls events).calls.toList := by
  rcases run_deeper rules events ed sink calls h with ⟨-, hs⟩ | ⟨-, hcalls⟩
  · rw [hs]
    exact List.prefix_rfl
  · exact hcalls

end Runs

end Editor

end JsonEdit
