import JsonEdit.Proofs.Editor.Documents
import JsonEdit.Proofs.Editor.Survey
import JsonEdit.Proofs.Text.Utf8

/-!
# What an editor counts

Nine counters change at different points of an event. After any events that succeed they say
exactly how many there were of everything: events, nodes, documents, answers of each sort, and
fragments with their bytes.

* `Stats.tally`, `Stats.tally_add`: counters for some events, which add up;
* `Editor.handed`: the fragments of each event;
* `Survey.Accounts`: an editor before and after some steps, with what a survey says of them;
  **`Survey.Tracks.advance`**: one step, `Survey.Tracks.handle`, `Survey.Tracks.run`: one event,
  and any number of them;
* **`stats_exact`**: all counters after a run.
-/

namespace JsonEdit

/-! ## Counters that add up -/

namespace Stats

instance : Add Stats where
  add s t := ⟨s.events + t.events, s.nodes + t.nodes, s.matched + t.matched,
    s.renamed + t.renamed, s.removed + t.removed, s.replaced + t.replaced,
    s.fragments + t.fragments, s.bytesEmitted + t.bytesEmitted, s.documents + t.documents⟩

theorem add_def (s t : Stats) : s + t = ⟨s.events + t.events, s.nodes + t.nodes,
    s.matched + t.matched, s.renamed + t.renamed, s.removed + t.removed, s.replaced + t.replaced,
    s.fragments + t.fragments, s.bytesEmitted + t.bytesEmitted, s.documents + t.documents⟩ := rfl

theorem add_assoc (s t u : Stats) : s + t + u = s + (t + u) := by
  simp only [add_def, Nat.add_assoc]

theorem zero_add (s : Stats) : zero + s = s := by
  simp only [add_def, zero, Nat.zero_add]

/-- The counters for so many events, nodes and documents, for the nodes that the rules have been
asked about, and for the fragments that have gone out. -/
def tally (rules : RuleSet) (events nodes documents : Nat) (visited : List Node)
    (output : List String) : Stats where
  events := events
  nodes := nodes
  matched := visited.countP fun node => (rules.first? node.path).isSome
  renamed := visited.countP fun node => (rules.actionAt node).newKey?.isSome
  removed := visited.countP fun node => (rules.actionAt node).drops
  replaced := visited.countP fun node => (rules.actionAt node).newValue?.isSome
  fragments := output.length
  bytesEmitted := (String.join output).utf8ByteSize
  documents := documents

theorem tally_add (rules : RuleSet) (events nodes documents events' nodes' documents' : Nat)
    (visited visited' : List Node) (output output' : List String) :
    tally rules events nodes documents visited output +
        tally rules events' nodes' documents' visited' output' =
      tally rules (events + events') (nodes + nodes') (documents + documents')
        (visited ++ visited') (output ++ output') := by
  simp only [tally, add_def, List.countP_append, List.length_append, String.join_append,
    String.utf8ByteSize_append]

end Stats

/-! ## What goes out -/

open FragmentSink

theorem FragmentSink.neverFails_array : NeverFails (Array String) := fun _ _ => rfl

theorem FragmentSink.emitAll_array : ∀ (output : List String) (fragments : Array String),
    emitAll fragments output = fragments ++ output.toArray
  | [], fragments => by simp [emitAll]
  | first :: output, fragments => by
    have hrest := emitAll_array output (fragments.push first)
    rw [emitAll, List.foldl_cons]
    exact hrest.trans (by simp)

namespace Editor

/-- The fragments that each of these events hands to the sink. -/
def handed (rules : RuleSet) (ed : Editor) : List Event → List (List String)
  | [] => []
  | event :: events =>
    let r := ed.handle rules (#[] : Array String) event
    r.sink.toList :: r.editor.handed rules events

theorem length_handed (rules : RuleSet) : ∀ (events : List Event) (ed : Editor),
    (ed.handed rules events).length = events.length
  | [], _ => rfl
  | _ :: events, _ => congrArg (· + 1) (length_handed rules events _)

theorem handle_eq_handed {σ : Type} [FragmentSink σ] (hσ : NeverFails σ) (rules : RuleSet)
    (ed : Editor) (sink : σ) (event : Event) :
    let r := ed.handle rules (#[] : Array String) event
    ed.handle rules sink event = ⟨r.editor, emitAll sink r.sink.toList, r.calls, r.result⟩ := by
  obtain ⟨ed', fragments, calls, result, hh⟩ := exists_handle rules ed event
  rw [hh σ hσ sink, hh _ neverFails_array, emitAll_array]
  simp

end Editor

/-! ## Steps -/

/-- **Steps that lead from one editor to another**, with what a survey says of them: the nodes asked
about, the handlers called for them, the counters and the fragments that have gone out. -/
structure Survey.Accounts (rules : RuleSet) (s : Survey) (steps : List Step) (ed ed' : Editor)
    (events : Nat) (calls : List Call) (output : List String) : Prop where
  tracks : (s.after rules steps).Tracks ed'.stack
  calls_eq : calls = (s.visited rules steps).flatMap rules.callsAt
  answers : ∀ node ∈ s.visited rules steps, rules.Answers node
  stats : ∃ documents, ed'.stats = ed.stats + Stats.tally rules events
    (steps.countP Step.begins) documents (s.visited rules steps) output
  nonempty : "" ∉ output
  length : output.length =
    (s.visited rules steps).countP (fun node => !(rules.actionAt node).drops) +
      s.ends rules steps

namespace Survey

section Accounts

variable {rules : RuleSet} {s : Survey} {steps rest : List Step} {ed ed₁ ed₂ ed' : Editor}
  {m n : Nat} {calls calls' : List Call} {output output' : List String} {fragment : String}

theorem Tracks.accounts_nil (h : s.Tracks ed.stack) : s.Accounts rules [] ed ed 0 [] [] where
  tracks := h
  calls_eq := rfl
  answers _ hm := by cases hm
  stats := ⟨0, rfl⟩
  nonempty := List.not_mem_nil
  length := rfl

theorem Accounts.append (h : s.Accounts rules steps ed ed₁ m calls output)
    (hr : (s.after rules steps).Accounts rules rest ed₁ ed₂ n calls' output') :
    s.Accounts rules (steps ++ rest) ed ed₂ (m + n) (calls ++ calls') (output ++ output') where
  tracks := by
    rw [after_append]
    exact hr.tracks
  calls_eq := by rw [visited_append, List.flatMap_append, h.calls_eq, hr.calls_eq]
  answers node hm := by
    rw [visited_append] at hm
    exact (List.mem_append.mp hm).elim (h.answers node) (hr.answers node)
  stats := by
    obtain ⟨documents, hs⟩ := h.stats
    obtain ⟨documents', hs'⟩ := hr.stats
    refine ⟨documents + documents', ?_⟩
    rw [hs', hs, Stats.add_assoc, Stats.tally_add, visited_append, List.countP_append]
  nonempty hm := (List.mem_append.mp hm).elim h.nonempty hr.nonempty
  length := by
    rw [List.length_append, h.length, hr.length, visited_append, List.countP_append, ends_append]
    omega

theorem Accounts.of_tick (h : s.Accounts rules steps ed.tick ed' m calls output) :
    s.Accounts rules steps ed ed' (1 + m) calls output where
  tracks := h.tracks
  calls_eq := h.calls_eq
  answers := h.answers
  stats := by
    obtain ⟨documents, hs⟩ := h.stats
    refine ⟨documents, ?_⟩
    have htick : ed.tick.stats = ed.stats + Stats.tally rules 1 0 0 [] [] := rfl
    rw [hs, htick, Stats.add_assoc, Stats.tally_add]
    simp only [Nat.zero_add, List.nil_append]
  nonempty := h.nonempty
  length := h.length

/-! ### One step -/

theorem settle_stats (ed : Editor) (top : Frame) (around : List Frame) (kind : NodeKind)
    (rules : RuleSet) (node : Node) :
    (ed.settle top around kind (rules.callsAt node) (rules.actionAt node)).stats =
      ed.stats + Stats.tally rules 0 1 ed.stack.isEmpty.toNat [node] [] := by
  have hmatched : (rules.callsAt node).length = (rules.first? node.path).isSome.toNat := by
    rw [RuleSet.callsAt]
    cases rules.first? node.path <;> rfl
  have hcount : ∀ p : Node → Bool, [node].countP p = (p node).toNat := fun p => by
    cases hp : p node <;> simp [hp]
  simp only [Editor.settle, Editor.countMatched, Editor.enter, Editor.count, Stats.settle,
    Stats.tally, Stats.add_def, hcount, hmatched, Nat.add_zero, List.length_nil, String.join_nil,
    String.utf8ByteSize_empty]

theorem withhold_stats (ed : Editor) (top : Frame) (around : List Frame) (n : Nat)
    (kind : NodeKind) (rules : RuleSet) :
    ((ed.enter top around n kind).withhold kind).stats =
      ed.stats + Stats.tally rules 0 1 ed.stack.isEmpty.toNat [] [] := rfl

theorem sent_stats (ed : Editor) (fragment : String) (rules : RuleSet) :
    (ed.sent fragment).stats = ed.stats + Stats.tally rules 0 0 0 []
      (if fragment.isEmpty then [] else [fragment]) := by
  unfold Editor.sent
  split_ifs
  · rfl
  · simp [Editor.countFragment, Editor.count, Stats.tally, Stats.add_def]

theorem Tracks.beginNode (h : s.Tracks ed.stack) {kind : NodeKind} {value : Option Json}
    {calls : List Call} {fragment : String}
    (he : ed.beginNode rules kind value = ⟨ed', calls, .ok fragment⟩) :
    (s.next rules (.node kind value)).Tracks ed'.stack ∧
      calls = (s.visits (.node kind value)).flatMap rules.callsAt ∧
      (∀ node ∈ s.visits (.node kind value), rules.Answers node) ∧
      ed'.stats = ed.stats +
        Stats.tally rules 0 1 ed.stack.isEmpty.toNat (s.visits (.node kind value)) [] ∧
      (!fragment.isEmpty).toNat =
        (s.visits (.node kind value)).countP fun node => !(rules.actionAt node).drops := by
  have hcases := Editor.beginNode_cases rules ed kind value
  rw [he] at hcases
  cases hcases with
  | withheld hp hd hn =>
    obtain ⟨hhidden, htracks⟩ := h.withhold hp hn rules kind value
    have hvisits : s.visits (.node kind value) = [] := by simp [visits, hhidden]
    rw [hvisits]
    exact ⟨htracks, rfl, List.forall_mem_nil _, withhold_stats _ _ _ _ _ _, rfl⟩
  | @answered top around node action hp hd ha hnode haction =>
    obtain ⟨hhidden, htracks⟩ := h.settle hp rules kind value
    rw [h.nodeOf_eq hp] at hnode
    have hvisits : s.visits (.node kind value) = [node] := by
      simp [visits, hhidden, hnode]
    rw [hvisits]
    refine ⟨?_, ?_, ?_, ?_, ?_⟩
    · rw [haction, hnode]
      exact htracks
    · simp
    · simpa using ha
    · rw [haction]
      exact settle_stats _ _ _ _ _ _
    · rw [Action.text_isEmpty, haction]
      cases hdrops : (rules.actionAt node).drops <;> simp [hdrops]

theorem accounts_single {step : Step} (htracks : (s.next rules step).Tracks ed'.stack)
    (hcalls : calls = (s.visits step).flatMap rules.callsAt)
    (hanswers : ∀ node ∈ s.visits step, rules.Answers node)
    (hstats : ∃ documents, ed'.stats =
      ed.stats + Stats.tally rules 0 step.begins.toNat documents (s.visits step) [])
    (hlength : (!fragment.isEmpty).toNat =
      (s.visits step).countP (fun node => !(rules.actionAt node).drops) +
        (s.endsKept step).toNat) :
    s.Accounts rules [step] ed (ed'.sent fragment) 0 calls
      (if fragment.isEmpty then [] else [fragment]) := by
  have hvisited : s.visited rules [step] = s.visits step := List.append_nil _
  have hcount : [step].countP Step.begins = step.begins.toNat := by
    cases hb : step.begins <;> simp [hb]
  constructor
  case tracks =>
    rw [Editor.sent_stack]
    exact htracks
  case calls_eq => rw [hvisited, hcalls]
  case answers => rwa [hvisited]
  case stats =>
    obtain ⟨documents, hs⟩ := hstats
    refine ⟨documents, ?_⟩
    rw [sent_stats ed' fragment rules, hs, Stats.add_assoc, Stats.tally_add, hvisited, hcount]
    simp only [Nat.add_zero, List.append_nil, List.nil_append]
  case nonempty =>
    split_ifs with hf
    · exact List.not_mem_nil
    · rw [List.mem_singleton]
      rintro rfl
      exact hf rfl
  case length =>
    rw [hvisited]
    refine Eq.trans ?_ hlength
    cases hf : fragment.isEmpty <;> simp

/-- **One step that succeeds.** -/
theorem Tracks.advance (h : s.Tracks ed.stack) {step : Step}
    (he : ed.advance rules step = ⟨ed', calls, .ok fragment⟩) :
    s.Accounts rules [step] ed (ed'.sent fragment) 0 calls
      (if fragment.isEmpty then [] else [fragment]) := by
  cases step with
  | node kind value =>
    obtain ⟨htracks, hcalls, hanswers, hstats, hlength⟩ := h.beginNode he
    exact accounts_single htracks hcalls hanswers ⟨_, hstats⟩ hlength
  | key name =>
    obtain ⟨stack, rfl, rfl, rfl⟩ := Editor.pushKey_quiet he
    exact accounts_single (h.pushKey rules he) rfl (List.forall_mem_nil _) ⟨0, rfl⟩ rfl
  | close kind =>
    obtain ⟨htracks, rfl, hstats, hlength⟩ := h.close rules he
    refine accounts_single htracks rfl (List.forall_mem_nil _) ⟨0, hstats⟩ ?_
    rw [hlength]
    exact (Nat.zero_add _).symm
  | fail message => cases he
  | finish =>
    rw [Editor.advance, Editor.finish] at he
    split_ifs at he
    · cases he
      exact accounts_single h rfl (List.forall_mem_nil _) ⟨0, rfl⟩ rfl
    · cases he

/-! ### Events -/

section Run

variable {σ : Type} [FragmentSink σ] {sink : σ} {event : Event}

theorem Tracks.performAll : ∀ (steps : List Step) {s : Survey} {ed : Editor} {sink : σ}
    (before : Array Call), s.Tracks ed.stack →
    (ed.performAll rules sink before steps).result = .ok () →
    let r := ed.performAll rules sink before steps
    ∃ calls output, s.Accounts rules steps ed r.editor 0 calls output ∧
      r.calls = before ++ calls.toArray ∧ r.sink = emitAll sink output
  | [], _, _, _, _, h, _ => ⟨[], [], h.accounts_nil, by simp [Editor.performAll], rfl⟩
  | step :: steps, s, ed, sink, before, h, hok => by
    rw [Editor.performAll_cons] at hok ⊢
    cases hr : (ed.perform rules sink step).result with
    | error e =>
      simp only [hr] at hok
      cases hok
    | ok _ =>
      obtain ⟨ed', calls, fragment, ha, hp⟩ := Editor.perform_of_result_ok hr
      have hfirst := h.advance ha
      simp only [hp] at hok ⊢
      obtain ⟨more, output, hrest, hcalls, hsink⟩ := performAll steps _ hfirst.tracks hok
      refine ⟨_, _, hfirst.append hrest, ?_, ?_⟩
      · rw [hcalls]
        simp
      · rw [hsink, put_eq_emitAll, emitAll_append]

theorem Tracks.handle (h : s.Tracks ed.stack) (hok : (ed.handle rules sink event).result = .ok ()) :
    let r := ed.handle rules sink event
    ∃ calls output, s.Accounts rules event.steps ed r.editor 1 calls output ∧
      r.calls = calls.toArray ∧ r.sink = emitAll sink output := by
  by_cases hp : ed.phase = .running
  · rw [Editor.handle_running hp] at hok ⊢
    have htick : s.Tracks ed.tick.stack := h
    obtain ⟨calls, output, hsteps, hcalls, hsink⟩ := Tracks.performAll event.steps #[] htick hok
    exact ⟨calls, output, hsteps.of_tick, by rw [hcalls, Array.empty_append], hsink⟩
  · rw [Editor.handle_stopped hp] at hok
    cases hok

theorem Accounts.output_le (h : s.Accounts rules event.steps ed ed' n calls output) :
    output.length ≤ 1 := by
  have hvisits : ∀ kind value, (s.visits (.node kind value)).countP
      (fun node => !(rules.actionAt node).drops) ≤ 1 := fun kind value => by
    refine Nat.le_trans List.countP_le_length ?_
    simp only [visits]
    split_ifs <;> simp
  rw [h.length]
  cases event with
  | startObject name =>
    cases name with
    | none => simpa [Event.steps, visited, ends, endsKept] using hvisits .object none
    | some name => simpa [Event.steps, visited, ends, endsKept, visits] using hvisits .object none
  | scalar value => simpa [Event.steps, visited, ends, endsKept] using hvisits .scalar (some value)
  | startArray => simpa [Event.steps, visited, ends, endsKept] using hvisits .array none
  | endObject | endArray =>
    simpa [Event.steps, visited, ends, visits] using Bool.toNat_le _
  | key | error | finish => simp [Event.steps, visited, ends, endsKept, visits]

theorem Tracks.run (hσ : NeverFails σ) : ∀ (events : List Event) {s : Survey} {ed : Editor}
    (sink : σ) (before : Array Call), s.Tracks ed.stack →
    (ed.run rules sink before events).result = .ok () →
    let r := ed.run rules sink before events
    let output := ed.handed rules events
    ∃ calls, s.Accounts rules (events.flatMap Event.steps) ed r.editor events.length calls
        output.flatten ∧
      r.calls = before ++ calls.toArray ∧ r.sink = emitAll sink output.flatten ∧
      ∀ fragments ∈ output, fragments.length ≤ 1
  | [], _, _, _, _, h, _ =>
    ⟨[], h.accounts_nil, by simp [Editor.run], rfl, List.forall_mem_nil _⟩
  | event :: events, s, ed, sink, before, h, hok => by
    have hsame := Editor.handle_eq_handed hσ rules ed sink event
    rw [Editor.run_cons] at hok ⊢
    cases hr : (ed.handle rules sink event).result with
    | error e =>
      simp only [hr] at hok
      cases hok
    | ok _ =>
      simp only [hr] at hok ⊢
      rw [hsame] at hr
      obtain ⟨calls, output, hfirst, hcalls, hsink⟩ := h.handle hr
      have houtput : (ed.handle rules (#[] : Array String) event).sink.toList = output := by
        rw [hsink, emitAll_array]
        simp
      rw [← houtput] at hfirst
      rw [hsame] at hok ⊢
      obtain ⟨more, hrest, hmore, hput, hone⟩ := Tracks.run hσ events _ _ hfirst.tracks hok
      refine ⟨calls ++ more, ?_, ?_, ?_, ?_⟩
      · have hall := hfirst.append hrest
        rw [Nat.add_comm] at hall
        exact hall
      · rw [hmore, hcalls]
        simp
      · rw [hput, ← emitAll_append]
        rfl
      · exact List.forall_mem_cons.mpr ⟨hfirst.output_le, hone⟩

end Run

end Accounts

end Survey

/-! ## A whole run -/

theorem Event.countP_begins (event : Event) :
    event.steps.countP Step.begins = event.begins.toNat := by
  cases event with
  | startObject name => cases name <;> rfl
  | key | scalar | endObject | startArray | endArray | error | finish => rfl

theorem countP_begins : ∀ events : List Event,
    (events.flatMap Event.steps).countP Step.begins = events.countP Event.begins
  | [] => rfl
  | event :: events => by
    rw [List.flatMap_cons, List.countP_append, event.countP_begins, countP_begins events,
      List.countP_cons, Nat.add_comm]
    cases event.begins <;> rfl

namespace Editor

/-- **The counters are exact.** After any events that succeed with a sink that never fails, each
counter is the number of what it counts: the events, those of them that begin a node, the documents
among these; of the nodes asked about, those that a rule has accepted and those that have got a new
name, been removed, or been replaced; the fragments handed to the sink and their bytes. An event
hands over one fragment at most, and none is empty: there is one for each node asked about that is
not removed, and one for each container that is kept to its end. -/
theorem stats_exact {σ : Type} [FragmentSink σ] (hσ : NeverFails σ) {rules : RuleSet} {d : Nat}
    {sink : σ} {events : List Event} (ha : Accepts rules (Editor.new d) sink events) :
    let r := (Editor.new d).run rules sink #[] events
    let visited := visitedNodes rules events
    let handed := (Editor.new d).handed rules events
    let output := handed.flatten
    r.editor.stats =
        { events := events.length
          nodes := events.countP Event.begins
          matched := visited.countP fun node => (rules.first? node.path).isSome
          renamed := visited.countP fun node => (rules.actionAt node).newKey?.isSome
          removed := visited.countP fun node => (rules.actionAt node).drops
          replaced := visited.countP fun node => (rules.actionAt node).newValue?.isSome
          fragments := output.length
          bytesEmitted := (utf8 (String.join output)).length
          documents := documentsIn [] events } ∧
      r.calls.toList = visited.flatMap rules.callsAt ∧
      (∀ node ∈ visited, rules.Answers node) ∧
      r.sink = emitAll sink output ∧
      handed.length = events.length ∧
      (∀ fragments ∈ handed, fragments.length ≤ 1 ∧ "" ∉ fragments) ∧
      output.length = visited.countP (fun node => !(rules.actionAt node).drops) +
        keptEnds rules events := by
  intro r visited handed output
  obtain ⟨calls, haccounts, hcalls, hsink, hone⟩ :=
    Survey.Tracks.run hσ events sink #[] (Survey.tracks_empty : Survey.start.Tracks _) ha
  obtain ⟨documents, hstats⟩ := haccounts.stats
  have hdocuments : r.editor.stats.documents = documentsIn [] events := by
    rw [run_documents events sink #[] (Outline.within_nil d) ha]
    exact Nat.zero_add _
  refine ⟨?_, ?_, haccounts.answers, hsink, length_handed rules events _, ?_, haccounts.length⟩
  · have hzero : (Editor.new d).stats = Stats.zero := rfl
    rw [hzero, Stats.zero_add] at hstats
    rw [hstats] at hdocuments
    rw [hstats, ← hdocuments, length_utf8, ← countP_begins]
    rfl
  · rw [hcalls, haccounts.calls_eq, Array.empty_append]
    rfl
  · exact fun fragments hm => ⟨hone fragments hm, fun he =>
      haccounts.nonempty (List.mem_flatten.mpr ⟨fragments, hm, he⟩)⟩

/-- One member is renamed, one removed and one replaced: seven nodes begin, and two of them inside
containers that nothing is asked about any more. -/
theorem stats_exact_members :
    let rules : RuleSet :=
      [⟨.predicate "renamed" fun path => path.keys == ["a"], .always (.rename "x")⟩,
        ⟨.predicate "removed" fun path => path.keys == ["b"], .always .remove⟩,
        ⟨.predicate "replaced" fun path => path.keys == ["c"], .always (.replace .null)⟩]
    let value : Json :=
      .obj [("a", .arr [.null]), ("b", .arr [.bool true]), ("c", .obj [("p", .null)])]
    let r := (Editor.new 3).run rules "" #[] value.documentEvents
    Accepts rules (Editor.new 3) "" value.documentEvents ∧
      (visitedNodes rules value.documentEvents).map (fun node => node.path.keys) =
          [[], ["a"], ["x", "0"], ["b"], ["c"]] ∧
        r.editor.stats = ⟨14, 7, 3, 1, 1, 1, 6, 21, 1⟩ := by
  intro rules value r
  have hrules : rules.NeverFails :=
    ((RuleSet.neverFails_nil.cons_always _ _).cons_always _ _).cons_always _ _
  have ha : Accepts rules (Editor.new 3) "" value.documentEvents :=
    accepts_documentEvents neverFails_text hrules "" (by decide)
  refine ⟨ha, by decide +kernel, ?_⟩
  rw [(stats_exact neverFails_text ha).1]
  decide +kernel

end Editor

end JsonEdit
