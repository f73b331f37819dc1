import JsonEdit.Proofs.Editor.Alike
import JsonEdit.Proofs.Scanner.Cut

/-!
# Events that break off early

An editor whose events break off has done the first part of what it does with all of them: an end
or an error sends nothing out and calls no handler.

* `Reply.Shortens`: one run has done the first part of another;
* `run_grows`: more events only add to what a run has done;
* **`run_endsEarly`**: events that break off early;
* `Call.blind`, `run_scalar_sites`: with another scalar at the end, handlers are called at the same
  places.
-/

namespace JsonEdit

/-- What one run has sent out and called is the first part of what the other has. -/
structure Reply.Shortens (r r' : Reply String) : Prop where
  text : ∃ more, r'.sink = r.sink ++ more
  calls : r.calls.toList <+: r'.calls.toList

/-- A call with the value of the node forgotten. -/
def Call.blind (call : Call) : Call := { call with node := { call.node with value := none } }

namespace Editor

variable {rules : RuleSet}

/-! ## More events -/

theorem run_text (rules : RuleSet) (events : List Event) (ed : Editor) (text : String)
    (calls : Array Call) : ∃ more, (ed.run rules text calls events).sink = text ++ more := by
  have halike : FragmentSink.Alike fun long short : String => long = text ++ short := by
    rintro long short fragment rfl
    exact ⟨rfl, String.append_assoc⟩
  exact ⟨_, (run_alike rules halike events ed calls (String.append_empty).symm).sink⟩

theorem run_calls_prefix {σ : Type} [FragmentSink σ] (rules : RuleSet) (events : List Event)
    (ed : Editor) (sink : σ) (calls : Array Call) :
    calls.toList <+: (ed.run rules sink calls events).calls.toList := by
  have h : ed.run rules sink (calls ++ #[]) events = _ := run_calls calls events ed sink #[]
  rw [Array.append_empty] at h
  rw [h, Array.toList_append]
  exact List.prefix_append _ _

theorem run_calls_grow {σ : Type} [FragmentSink σ] (rules : RuleSet) (events rest : List Event)
    (ed : Editor) (sink : σ) (calls : Array Call) :
    (ed.run rules sink calls events).calls.toList <+:
      (ed.run rules sink calls (events ++ rest)).calls.toList := by
  rw [run_append]
  simp only
  split
  · exact run_calls_prefix rules rest _ _ _
  · exact List.prefix_rfl

/-- **More events only add to what a run has done.** -/
theorem run_grows (rules : RuleSet) (events rest : List Event) (ed : Editor) (text : String)
    (calls : Array Call) :
    (ed.run rules text calls events).Shortens (ed.run rules text calls (events ++ rest)) := by
  refine ⟨?_, run_calls_grow rules events rest ed text calls⟩
  rw [run_append]
  simp only
  split
  · exact run_text rules rest _ _ _
  · exact ⟨"", String.append_empty.symm⟩

theorem Accepts.faultless {σ : Type} [FragmentSink σ] {ed : Editor} {sink : σ}
    {events : List Event} (h : Accepts rules ed sink events) : Faultless events := by
  intro message hm
  obtain ⟨before, after, rfl⟩ := List.append_of_mem hm
  obtain ⟨ed', sink', calls, ht⟩ := accepts_iff.mp h.left
  have hr := h.right ht
  have hok := hr.head
  rw [handle_step hr.running sink' rfl, perform_of_error rfl] at hok
  cases hok

/-! ## An end or an error -/

section Last

variable {σ : Type} [FragmentSink σ]

theorem handle_last (rules : RuleSet) {event : Event} (h : event.IsLast) (ed : Editor) (sink : σ) :
    (ed.handle rules sink event).sink = sink ∧ (ed.handle rules sink event).calls = #[] := by
  by_cases hp : ed.phase = .running
  · cases event with
    | error message =>
      rw [handle_step hp sink rfl, perform_of_error rfl]
      exact ⟨rfl, rfl⟩
    | finish =>
      rw [handle_step hp sink rfl]
      by_cases he : ed.tick.stack.isEmpty = true
      · have ha : ed.tick.advance rules .finish =
            ⟨{ ed.tick with phase := .finished }, [], .ok ""⟩ := if_pos he
        rw [perform, ha]
        exact ⟨rfl, rfl⟩
      · have ha : ed.tick.advance rules .finish =
            ⟨ed.tick, [], .error (.unexpectedEnd ed.tick.stack.openContainers)⟩ := if_neg he
        rw [perform_of_error ha]
        exact ⟨rfl, rfl⟩
    | key | scalar | startObject | endObject | startArray | endArray => exact h.elim
  · rw [handle_stopped hp]
    exact ⟨rfl, rfl⟩

theorem run_last (last : List Event) : (∀ event ∈ last, event.IsLast) →
    ∀ (ed : Editor) (sink : σ) (calls : Array Call),
      (ed.run rules sink calls last).sink = sink ∧
        (ed.run rules sink calls last).calls = calls := by
  induction last with
  | nil => exact fun _ _ _ _ => ⟨rfl, rfl⟩
  | cons event last ih =>
    intro h ed sink calls
    obtain ⟨hs, hc⟩ := handle_last rules (h event List.mem_cons_self) ed sink
    simp only [run_cons, hs, hc, Array.append_empty]
    split
    · exact ih (fun event hm => h event (List.mem_cons_of_mem _ hm)) _ _ _
    · exact ⟨rfl, rfl⟩

theorem run_append_last (rules : RuleSet) (events : List Event) {last : List Event}
    (h : ∀ event ∈ last, event.IsLast) (ed : Editor) (sink : σ) (calls : Array Call) :
    (ed.run rules sink calls (events ++ last)).sink = (ed.run rules sink calls events).sink ∧
      (ed.run rules sink calls (events ++ last)).calls =
        (ed.run rules sink calls events).calls := by
  rw [run_append]
  simp only
  split
  · exact run_last last h _ _ _
  · exact ⟨rfl, rfl⟩

end Last

theorem run_calls_endsEarly {σ : Type} [FragmentSink σ] {short long : List Event}
    (h : EndsEarly short long) (rules : RuleSet) (ed : Editor) (sink : σ) (calls : Array Call) :
    (ed.run rules sink calls short).calls.toList <+:
      (ed.run rules sink calls long).calls.toList := by
  obtain ⟨common, last, more, rfl, rfl, hl⟩ := h
  rw [(run_append_last rules common hl ed sink calls).2]
  exact run_calls_grow rules common more ed sink calls

/-- **Events that break off early** lead to the first part of the whole run. -/
theorem run_endsEarly {short long : List Event} (h : EndsEarly short long) (rules : RuleSet)
    (ed : Editor) (text : String) (calls : Array Call) :
    (ed.run rules text calls short).Shortens (ed.run rules text calls long) := by
  refine ⟨?_, run_calls_endsEarly h rules ed text calls⟩
  obtain ⟨common, last, more, rfl, rfl, hl⟩ := h
  rw [(run_append_last rules common hl ed text calls).1]
  exact (run_grows rules common more ed text calls).text

/-! ## Another scalar -/

theorem perform_calls {σ : Type} [FragmentSink σ] (ed : Editor) (sink : σ) (step : Step) :
    (ed.perform rules sink step).calls = (ed.advance rules step).calls.toArray := by
  unfold perform
  rcases ed.advance rules step with ⟨ed', calls, e | fragment⟩
  · rfl
  · simp only
    split
    · rfl
    · split <;> rfl

theorem visit_calls (rules : RuleSet) (ed : Editor) (fresh : Bool) (kind : NodeKind)
    (value : Option Json) :
    (ed.visit rules fresh kind value).calls = rules.callsAt (ed.currentNode kind value) := by
  by_cases h : rules.Answers (ed.currentNode kind value)
  · rw [visit_eq h]
  · obtain ⟨e, he⟩ := visit_of_not_answers h fresh
    rw [he]

theorem beginNode_calls_blind (rules : RuleSet) (ed : Editor) (kind : NodeKind)
    (value value' : Option Json) :
    (ed.beginNode rules kind value).calls.map Call.blind =
      (ed.beginNode rules kind value').calls.map Call.blind := by
  rcases hp : ed.stack.prepare with reason | stack
  · rw [beginNode_of_not_prepared hp, beginNode_of_not_prepared hp]
  obtain ⟨top, around, rfl, -⟩ := Stack.prepare_top hp
  by_cases hd : around.length < ed.maxDepth
  · rw [beginNode_eq hp hd, beginNode_eq hp hd]
    split
    · rfl
    · simp only [visit_calls, currentNode_enter, RuleSet.callsAt, nodeOf]
      split <;> rfl
  · rw [beginNode_of_too_deep hp (by omega), beginNode_of_too_deep hp (by omega)]

theorem handle_scalar_blind {σ : Type} [FragmentSink σ] (rules : RuleSet) (ed : Editor) (sink : σ)
    (value value' : Json) :
    (ed.handle rules sink (.scalar value)).calls.toList.map Call.blind =
      (ed.handle rules sink (.scalar value')).calls.toList.map Call.blind := by
  by_cases hp : ed.phase = .running
  · rw [handle_step hp sink rfl, handle_step hp sink rfl, perform_calls, perform_calls]
    exact beginNode_calls_blind rules ed.tick .scalar (some value) (some value')
  · rw [handle_stopped hp, handle_stopped hp]

theorem run_singleton_calls {σ : Type} [FragmentSink σ] (ed : Editor) (sink : σ)
    (calls : Array Call) (event : Event) :
    (ed.run rules sink calls [event]).calls = calls ++ (ed.handle rules sink event).calls := by
  rw [run_cons]
  simp only
  split <;> rfl

/-- **With another scalar at the end, handlers are called at the same places.** -/
theorem run_scalar_sites {σ : Type} [FragmentSink σ] (rules : RuleSet) (given : List Event)
    (value value' : Json) {last : List Event} (hl : ∀ event ∈ last, event.IsLast)
    (tail : List Event) (ed : Editor) (sink : σ) :
    (ed.run rules sink #[] (given ++ .scalar value :: last)).calls.toList.map Call.blind <+:
      (ed.run rules sink #[] (given ++ .scalar value' :: tail)).calls.toList.map Call.blind := by
  have hlast : given ++ .scalar value :: last = given ++ [.scalar value] ++ last := by simp
  have htail : given ++ .scalar value' :: tail = given ++ [.scalar value'] ++ tail := by simp
  have hsame : (ed.run rules sink #[] (given ++ [.scalar value])).calls.toList.map Call.blind =
      (ed.run rules sink #[] (given ++ [.scalar value'])).calls.toList.map Call.blind := by
    simp only [run_append]
    split
    · simp only [run_singleton_calls, Array.toList_append, List.map_append]
      rw [handle_scalar_blind rules _ _ value value']
    · rfl
  rw [hlast, htail, (run_append_last rules _ hl ed sink #[]).2, hsame]
  exact (run_calls_grow rules _ tail ed sink #[]).map Call.blind

end Editor

end JsonEdit
