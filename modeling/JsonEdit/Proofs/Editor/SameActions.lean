import JsonEdit.Proofs.Editor.EarlyEnd
import JsonEdit.Proofs.Editor.TreeEdit

/-!
# Rules that say the same

What an editor makes of a document depends on what its rules say, not on which of them says it.
Two rule sets that say the same about every node are asked about the same nodes; each calls its own
handlers there, and nothing else tells the two runs apart but how many nodes had a handler called.

* `RuleSet.SameActions`: two rule sets that never fail and say the same;
* `Editor.withMatched`, `Reply.AskedAlike`: runs that were asked about the same nodes;
* **`advance_asked`**, **`run_asked`**: a step and a run with either rule set;
* `editAt_calls_of_pass`: rules that keep everything are asked about all nodes of a value.
-/

namespace JsonEdit

/-- Neither rule set ever fails, and they say the same about every node. -/
structure RuleSet.SameActions (rules rules' : RuleSet) : Prop where
  neverFails : rules.NeverFails
  neverFails' : rules'.NeverFails
  actionAt : ∀ node, rules.actionAt node = rules'.actionAt node

/-- The handlers called for some nodes. -/
def RuleSet.callsOf (rules : RuleSet) (nodes : List Node) : Array Call :=
  (nodes.flatMap rules.callsAt).toArray

theorem RuleSet.callsOf_append (rules : RuleSet) (nodes more : List Node) :
    rules.callsOf (nodes ++ more) = rules.callsOf nodes ++ rules.callsOf more := by
  simp only [RuleSet.callsOf, List.flatMap_append, List.append_toArray]

/-- The editor with another count of the nodes that a rule has answered for. -/
def Editor.withMatched (ed : Editor) (n : Nat) : Editor := ed.count fun s => { s with matched := n }

/-- Two steps with either rule set, asked about the same nodes. -/
def Effect.AskedAlike (rules rules' : RuleSet) (e e' : Effect) : Prop :=
  ∃ (nodes : List Node) (n : Nat), e.calls = nodes.flatMap rules.callsAt ∧
    e' = ⟨e.editor.withMatched n, nodes.flatMap rules'.callsAt, e.result⟩

/-- Two runs with either rule set, asked about the same nodes. -/
def Reply.AskedAlike {σ : Type} (rules rules' : RuleSet) (r r' : Reply σ) : Prop :=
  ∃ (nodes : List Node) (n : Nat), r.calls = rules.callsOf nodes ∧
    r' = ⟨r.editor.withMatched n, r.sink, rules'.callsOf nodes, r.result⟩

namespace Editor

variable {rules rules' : RuleSet}

/-! ## Steps -/

theorem beginNode_asked (h : rules.SameActions rules') (ed : Editor) (n : Nat) (kind : NodeKind)
    (value : Option Json) :
    (ed.beginNode rules kind value).AskedAlike rules rules'
      ((ed.withMatched n).beginNode rules' kind value) := by
  rcases hp : ed.stack.prepare with reason | stack
  · have hp' : (ed.withMatched n).stack.prepare = .error reason := hp
    rw [beginNode_of_not_prepared hp, beginNode_of_not_prepared hp']
    exact ⟨[], n, rfl, rfl⟩
  obtain ⟨top, around, rfl, -⟩ := Stack.prepare_top hp
  have hp' : (ed.withMatched n).stack.prepare = .ok ⟨top :: around, ed.stack.suppression⟩ := hp
  by_cases hd : around.length < ed.maxDepth
  · by_cases hs : 0 < ed.stack.suppression
    · rw [beginNode_of_withheld hp hd hs, beginNode_of_withheld hp' hd hs]
      exact ⟨[], n, rfl, by cases kind <;> rfl⟩
    · rw [show ed.stack.suppression = 0 by omega] at hp hp'
      rw [beginNode_of_answers hp hd (h.neverFails.answers _),
        beginNode_of_answers hp' hd (h.neverFails'.answers _)]
      simp only [← h.actionAt]
      exact ⟨[nodeOf top around kind value], n + _, (List.flatMap_singleton _ _).symm, by
        rw [List.flatMap_singleton]; rfl⟩
  · have hd : ed.maxDepth ≤ around.length := by omega
    rw [beginNode_of_too_deep hp hd, beginNode_of_too_deep hp' hd]
    exact ⟨[], n, rfl, rfl⟩

/-- **A step with either rule set.** -/
theorem advance_asked (h : rules.SameActions rules') (ed : Editor) (n : Nat) (step : Step) :
    (ed.advance rules step).AskedAlike rules rules' ((ed.withMatched n).advance rules' step) := by
  have hs : (ed.withMatched n).stack = ed.stack := rfl
  cases step with
  | node kind value => exact beginNode_asked h ed n kind value
  | key name =>
    simp only [advance, pushKey, hs]
    split <;> exact ⟨[], n, rfl, rfl⟩
  | close kind =>
    simp only [advance, close, hs]
    split
    · exact ⟨[], n, rfl, rfl⟩
    · split_ifs <;> exact ⟨[], n, rfl, rfl⟩
  | fail message => exact ⟨[], n, rfl, rfl⟩
  | finish =>
    simp only [advance, finish, hs]
    split_ifs <;> exact ⟨[], n, rfl, rfl⟩

/-! ## Runs -/

section Runs

variable {σ : Type} [FragmentSink σ]

theorem perform_asked (h : rules.SameActions rules') (ed : Editor) (n : Nat) (sink : σ)
    (step : Step) : (ed.perform rules sink step).AskedAlike rules rules'
      ((ed.withMatched n).perform rules' sink step) := by
  obtain ⟨nodes, m, hcalls, hadv⟩ := advance_asked h ed n step
  rcases ha : ed.advance rules step with ⟨ed', calls, e | fragment⟩ <;> rw [ha] at hcalls hadv
  · rw [perform_of_error ha, perform_of_error hadv]
    exact ⟨nodes, m, congrArg List.toArray hcalls, rfl⟩
  · unfold perform
    simp only [ha, hadv]
    split
    · exact ⟨nodes, m, congrArg List.toArray hcalls, rfl⟩
    · rcases FragmentSink.emit sink fragment with ⟨_ | _, sink'⟩ <;>
        exact ⟨nodes, m, congrArg List.toArray hcalls, rfl⟩

theorem lockstep_asked (h : rules.SameActions rules') :
    Lockstep rules rules'
      (fun (ed : Editor) (sink : σ) (ed' : Editor) (sink' : σ) =>
        (∃ n, ed' = ed.withMatched n) ∧ sink' = sink)
      fun calls calls' => ∃ nodes, calls = rules.callsOf nodes ∧ calls' = rules'.callsOf nodes where
  phase := by
    rintro ed _ _ _ ⟨⟨n, rfl⟩, rfl⟩
    rfl
  tick := by
    rintro ed _ _ _ ⟨⟨n, rfl⟩, rfl⟩
    exact ⟨⟨n, rfl⟩, rfl⟩
  perform := by
    rintro ed _ _ sink ⟨⟨n, rfl⟩, rfl⟩ step
    obtain ⟨nodes, m, hcalls, hperform⟩ := perform_asked h ed n sink step
    rw [hperform]
    exact ⟨⟨⟨m, rfl⟩, rfl⟩, ⟨nodes, hcalls, rfl⟩, rfl⟩
  nothing := ⟨[], rfl, rfl⟩
  append := by
    rintro _ _ _ _ ⟨nodes, rfl, rfl⟩ ⟨more, rfl, rfl⟩
    exact ⟨nodes ++ more, (rules.callsOf_append nodes more).symm,
      (rules'.callsOf_append nodes more).symm⟩

/-- **A run with either rule set**: both are asked about the same nodes, and come to the same. -/
theorem run_asked (h : rules.SameActions rules') (ed : Editor) (sink : σ) (events : List Event) :
    (ed.run rules sink #[] events).AskedAlike rules rules' (ed.run rules' sink #[] events) := by
  have hstep : (ed.run rules sink #[] events).InStep _ _ (ed.run rules' sink #[] events) :=
    run_inStep (lockstep_asked h) events ⟨⟨ed.stats.matched, rfl⟩, rfl⟩ ⟨[], rfl, rfl⟩
  obtain ⟨⟨⟨n, he⟩, hs⟩, ⟨nodes, hcalls, hcalls'⟩, hr⟩ := hstep
  exact ⟨nodes, n, hcalls, by rw [← he, ← hs, ← hcalls', ← hr]⟩

end Runs

end Editor

/-! ## Rules that keep everything -/

namespace Json

variable {rules : RuleSet}

theorem editNode_calls_of_pass (h : ∀ node, rules.actionAt node = .pass) (path : List String)
    (value : Json) (inside : List String → List Call × Json) :
    (rules.editNode path value inside).calls =
      rules.callsAt (value.asNode path) ++ (inside path).1 := by
  simp only [RuleSet.editNode, h]
  rfl

mutual

/-- **Rules that keep everything are asked about all nodes of a value**, in their order. -/
theorem editAt_calls_of_pass (h : ∀ node, rules.actionAt node = .pass) :
    ∀ (value : Json) (path : List String),
      (value.editAt rules path).calls = (value.nodesAt path).flatMap rules.callsAt
  | .null, _ | .bool _, _ | .num _, _ | .str _, _ => by
    simp only [editAt, editNode_calls_of_pass h, nodesAt, List.flatMap_singleton, List.append_nil]
  | .arr items, path => by
    simp only [editAt, editNode_calls_of_pass h, nodesAt, List.flatMap_cons,
      editItems_calls_of_pass h items]
  | .obj members, path => by
    simp only [editAt, editNode_calls_of_pass h, nodesAt, List.flatMap_cons,
      editMembers_calls_of_pass h members]

theorem editItems_calls_of_pass (h : ∀ node, rules.actionAt node = .pass) :
    ∀ (items : List Json) (path : List String) (index : Nat),
      (editItems rules path index items).1 = (nodesOfItems path index items).flatMap rules.callsAt
  | [], _, _ => rfl
  | item :: items, path, index => by
    simp only [editItems, nodesOfItems, List.flatMap_append, editAt_calls_of_pass h item,
      editItems_calls_of_pass h items]

theorem editMembers_calls_of_pass (h : ∀ node, rules.actionAt node = .pass) :
    ∀ (members : List (String × Json)) (path : List String),
      (editMembers rules path members).1 = (nodesOfMembers path members).flatMap rules.callsAt
  | [], _ => rfl
  | (name, value) :: members, path => by
    simp only [editMembers, nodesOfMembers, List.flatMap_append, editAt_calls_of_pass h value,
      editMembers_calls_of_pass h members]

end

end Json

end JsonEdit
