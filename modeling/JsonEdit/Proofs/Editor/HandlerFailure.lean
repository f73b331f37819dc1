import JsonEdit.Proofs.Editor.Positions
import Mathlib.Data.List.Induction

/-!
# A handler that fails

Up to the first node at which a handler fails, a run is one in which no handler does. The event of
that node comes to nothing but the call and the error, and with it, as with any other error and
with the end, the work of the editor is over.

* `RuleSet.MendedBy`, `RuleSet.mended`: rules that never fail, in place of rules that may;
* `Json.editAt_congr`: an edit of a value depends on the answers of the rules alone;
* `RuleSet.FailsAt`, `Editor.FailsOn`: a node at which a handler fails, and the event it begins with;
* `run_mended`: both rule sets side by side;
* `Reply.Ends`, `ends_of_error`, `ends_of_finish`: what comes after an error, and after the end;
* **`handler_failure_stops`**: a run in which a handler fails.
-/

namespace JsonEdit

/-! ## Rules that never fail in place of rules that may -/

/-- The other rule makes the same test, and answers wherever this one does, in the same way. -/
structure Rule.MendedBy (rule rule' : Rule) : Prop where
  matcher : rule'.matcher = rule.matcher
  handler : ∀ {node : Node} {action : Action}, rule.handler node = .ok action →
    rule'.handler node = .ok action

/-- The other rules never fail, and answer wherever these do, in the same way. -/
structure RuleSet.MendedBy (rules mended : RuleSet) : Prop where
  each : List.Forall₂ Rule.MendedBy rules mended
  neverFails : mended.NeverFails

/-- The rule that lets a node pass where this one fails. -/
def Rule.mended (rule : Rule) : Rule :=
  ⟨rule.matcher, fun node => .ok ((rule.handler node).toOption.getD .pass)⟩

/-- The rules that let a node pass where these fail. -/
def RuleSet.mended (rules : RuleSet) : RuleSet := rules.map Rule.mended

theorem Rule.mendedBy_mended (rule : Rule) : rule.MendedBy rule.mended where
  matcher := rfl
  handler {node action} h := by simp only [Rule.mended, h, Except.toOption, Option.getD_some]

namespace RuleSet

variable {rules mended : RuleSet}

theorem mendedBy_mended : ∀ rules : RuleSet, rules.MendedBy rules.mended
  | [] => ⟨.nil, neverFails_nil⟩
  | rule :: rules => by
    refine ⟨.cons rule.mendedBy_mended (mendedBy_mended rules).each, fun rule' hm node => ?_⟩
    obtain ⟨rule, -, rfl⟩ := List.mem_map.mp hm
    exact ⟨_, rfl⟩

theorem firstFrom?_mendedBy (h : List.Forall₂ Rule.MendedBy rules mended) (path : Path) :
    ∀ start : Nat, Option.Rel (fun found found' => found.1 = found'.1 ∧ found.2.MendedBy found'.2)
      (rules.firstFrom? path start) (firstFrom? path start mended) := by
  induction h with
  | nil => exact fun _ => .none
  | @cons rule rule' rules mended hr _ ih =>
    intro start
    simp only [firstFrom?, hr.matcher]
    split_ifs
    · exact .some ⟨rfl, hr⟩
    · exact ih (start + 1)

theorem MendedBy.callsAt (h : rules.MendedBy mended) (node : Node) :
    mended.callsAt node = rules.callsAt node := by
  have hf := firstFrom?_mendedBy h.each node.path 0
  simp only [RuleSet.callsAt, first?]
  generalize rules.firstFrom? node.path 0 = found, mended.firstFrom? node.path 0 = found' at hf
  cases hf with
  | none => rfl
  | some hr => simp only [hr.1]

theorem MendedBy.actionAt (h : rules.MendedBy mended) {node : Node} (ha : rules.Answers node) :
    mended.actionAt node = rules.actionAt node := by
  have hf := firstFrom?_mendedBy h.each node.path 0
  simp only [RuleSet.actionAt, first?]
  simp only [Answers, first?] at ha
  generalize rules.firstFrom? node.path 0 = found, mended.firstFrom? node.path 0 = found' at hf ha
  cases hf with
  | none => rfl
  | @some found found' hr =>
    obtain ⟨action, hok⟩ := ha found.1 found.2 rfl
    simp only [hok, hr.2.handler hok]

theorem actionAt_mended (rules : RuleSet) (node : Node) :
    rules.mended.actionAt node = rules.actionAt node := by
  have hfirst : ∀ (rules : RuleSet) (start : Nat), firstFrom? node.path start rules.mended =
      (rules.firstFrom? node.path start).map fun (index, rule) => (index, rule.mended) := by
    intro rules
    induction rules with
    | nil => exact fun _ => rfl
    | cons rule rules ih =>
      intro start
      simp only [mended, List.map_cons, firstFrom?, Rule.mended] at ih ⊢
      split_ifs
      · rfl
      · exact ih (start + 1)
  simp only [actionAt, first?, hfirst]
  cases rules.firstFrom? node.path 0 <;> rfl

end RuleSet

/-! ## Edits of a value -/

/-- The two rule sets call the same handlers and say the same. -/
structure RuleSet.SameAnswers (rules rules' : RuleSet) : Prop where
  callsAt : ∀ node, rules.callsAt node = rules'.callsAt node
  actionAt : ∀ node, rules.actionAt node = rules'.actionAt node

section SameAnswers

variable {rules rules' : RuleSet}

theorem RuleSet.SameAnswers.editNode (h : rules.SameAnswers rules') :
    rules.editNode = rules'.editNode := by
  funext path value inside
  simp only [RuleSet.editNode, h.callsAt, h.actionAt]

mutual

/-- **What becomes of a value depends on the answers of the rules alone.** -/
theorem Json.editAt_congr (h : rules.SameAnswers rules') : ∀ (value : Json) (path : List String),
    value.editAt rules path = value.editAt rules' path
  | .null, _ | .bool _, _ | .num _, _ | .str _, _ => by simp only [Json.editAt, h.editNode]
  | .arr items, _ => by simp only [Json.editAt, h.editNode, Json.editItems_congr h items]
  | .obj members, _ => by simp only [Json.editAt, h.editNode, Json.editMembers_congr h members]

theorem Json.editItems_congr (h : rules.SameAnswers rules') : ∀ (items : List Json)
    (path : List String) (index : Nat),
    Json.editItems rules path index items = Json.editItems rules' path index items
  | [], _, _ => rfl
  | item :: items, _, _ => by
    simp only [Json.editItems, Json.editAt_congr h item, Json.editItems_congr h items]

theorem Json.editMembers_congr (h : rules.SameAnswers rules') :
    ∀ (members : List (String × Json)) (path : List String),
    Json.editMembers rules path members = Json.editMembers rules' path members
  | [], _ => rfl
  | (name, value) :: members, _ => by
    simp only [Json.editMembers, Json.editAt_congr h value, Json.editMembers_congr h members]

end

end SameAnswers

theorem Json.edit_mended (rules : RuleSet) (value : Json) :
    value.edit rules.mended = value.edit rules :=
  Json.editAt_congr ⟨rules.mendedBy_mended.callsAt, rules.actionAt_mended⟩ value []

/-! ## A node at which a handler fails -/

/-- The first rule that accepts the node has its handler called, and that fails: this is the error
that comes of it. -/
def RuleSet.FailsAt (rules : RuleSet) (call : Call) (e : EditError) : Prop :=
  ∃ rule message, rules.first? call.node.path = some (call.rule, rule) ∧
    rule.handler call.node = .error message ∧
    e = .handler rule.matcher.label call.node.path.display message

/-- All these handlers answer. -/
def RuleSet.AnswersAll (rules : RuleSet) (calls : List Call) : Prop :=
  ∀ call ∈ calls, rules.Answers call.node

section FailsAt

variable {rules mended : RuleSet} {call : Call} {e : EditError}

theorem RuleSet.FailsAt.not_answers (h : rules.FailsAt call e) : ¬ rules.Answers call.node := by
  obtain ⟨rule, message, hf, hh, -⟩ := h
  intro ha
  obtain ⟨action, hok⟩ := ha _ rule hf
  rw [hh] at hok
  cases hok

theorem RuleSet.exists_failsAt {node : Node} (h : ¬ rules.Answers node) :
    ∃ call e, call.node = node ∧ rules.FailsAt call e := by
  simp only [Answers, not_forall, not_exists] at h
  obtain ⟨index, rule, hf, hno⟩ := h
  cases hh : rule.handler node with
  | ok action => exact absurd hh (hno action)
  | error message => exact ⟨⟨index, node⟩, _, rfl, rule, message, hf, hh, rfl⟩

theorem RuleSet.FailsAt.unique {e' : EditError} (h : rules.FailsAt call e)
    (h' : rules.FailsAt call e') : e = e' := by
  obtain ⟨rule, message, hf, hh, rfl⟩ := h
  obtain ⟨rule', message', hf', hh', rfl⟩ := h'
  obtain ⟨-, rfl⟩ := Prod.mk.inj (Option.some.inj (hf.symm.trans hf'))
  rw [Except.error.inj (hh.symm.trans hh')]

theorem RuleSet.FailsAt.callsAt (h : rules.FailsAt call e) : rules.callsAt call.node = [call] := by
  obtain ⟨rule, message, hf, -, -⟩ := h
  rw [RuleSet.callsAt, hf]

theorem RuleSet.answersAll_callsAt {node : Node} (h : rules.Answers node) :
    rules.AnswersAll (rules.callsAt node) := by
  intro call hm
  rw [RuleSet.callsAt] at hm
  split at hm
  · cases hm
  · rw [List.mem_singleton.mp hm]
    exact h

theorem RuleSet.AnswersAll.split_unique {before before' after after' : List Call} {call' : Call}
    (h : rules.AnswersAll before) (h' : rules.AnswersAll before')
    (hcall : ¬ rules.Answers call.node) (hcall' : ¬ rules.Answers call'.node)
    (hs : before ++ call :: after = before' ++ call' :: after') :
    before = before' ∧ call = call' := by
  induction before generalizing before' with
  | nil =>
    cases before' with
    | nil => exact ⟨rfl, (List.cons.inj hs).1⟩
    | cons first rest =>
      obtain ⟨rfl, -⟩ := List.cons.inj hs
      exact absurd (h' call List.mem_cons_self) hcall
  | cons first rest ih =>
    cases before' with
    | nil =>
      obtain ⟨rfl, -⟩ := List.cons.inj hs
      exact absurd (h first List.mem_cons_self) hcall'
    | cons first' rest' =>
      obtain ⟨rfl, hrest⟩ := List.cons.inj hs
      obtain ⟨rfl, hc⟩ := ih (fun c hm => h c (List.mem_cons_of_mem _ hm))
        (fun c hm => h' c (List.mem_cons_of_mem _ hm)) hrest
      exact ⟨rfl, hc⟩

namespace Editor

theorem visit_of_failsAt {ed : Editor} {kind : NodeKind} {value : Option Json}
    (h : rules.FailsAt call e) (hn : call.node = ed.currentNode kind value) (fresh : Bool) :
    ed.visit rules fresh kind value = ⟨ed, [call], .error e⟩ := by
  obtain ⟨rule, message, hf, hh, rfl⟩ := h
  simp only [visit, ← hn, hf, Rule.apply, hh]

/-! ## Both rule sets side by side -/

theorem visit_mended (h : rules.MendedBy mended) (ed : Editor) (fresh : Bool) (kind : NodeKind)
    (value : Option Json) :
    (ed.visit mended fresh kind value = ed.visit rules fresh kind value ∧
        rules.AnswersAll (ed.visit rules fresh kind value).calls) ∨
      ∃ call e, rules.FailsAt call e ∧ call.node = ed.currentNode kind value ∧
        ed.visit rules fresh kind value = ⟨ed, [call], .error e⟩ ∧
        (ed.visit mended fresh kind value).calls = [call] := by
  by_cases ha : rules.Answers (ed.currentNode kind value)
  · left
    rw [visit_eq ha, visit_eq (h.neverFails.answers _)]
    simp only [h.callsAt, h.actionAt ha, true_and]
    exact RuleSet.answersAll_callsAt ha
  · right
    obtain ⟨call, e, hn, hf⟩ := RuleSet.exists_failsAt ha
    refine ⟨call, e, hf, hn, visit_of_failsAt hf hn fresh, ?_⟩
    rw [visit_calls, h.callsAt, ← hn, hf.callsAt]

theorem advance_calls_eq_nil (rules : RuleSet) (ed : Editor) {step : Step}
    (h : ∀ kind value, step ≠ .node kind value) : (ed.advance rules step).calls = [] := by
  cases step with
  | node kind value => exact absurd rfl (h kind value)
  | key name =>
    simp only [advance, pushKey]
    split <;> rfl
  | close kind =>
    simp only [advance, close]
    split
    · rfl
    · split_ifs <;> rfl
  | fail message => rfl
  | finish =>
    simp only [advance, finish]
    split_ifs <;> rfl

theorem advance_mended (h : rules.MendedBy mended) (ed : Editor) (step : Step) :
    (ed.advance mended step = ed.advance rules step ∧
        rules.AnswersAll (ed.advance rules step).calls) ∨
      ∃ call e ed', rules.FailsAt call e ∧ step = .node call.node.kind call.node.value ∧
        ed.advance rules step = ⟨ed', [call], .error e⟩ ∧
        (ed.advance mended step).calls = [call] := by
  have hnil : rules.AnswersAll [] := fun _ hm => by cases hm
  cases step with
  | node kind value =>
    simp only [advance]
    rcases hp : ed.stack.prepare with reason | stack
    · rw [beginNode_of_not_prepared hp, beginNode_of_not_prepared hp]
      exact .inl ⟨rfl, hnil⟩
    obtain ⟨top, around, rfl, -⟩ := Stack.prepare_top hp
    by_cases hd : around.length < ed.maxDepth
    · rw [beginNode_eq hp hd, beginNode_eq hp hd]
      split_ifs
      · exact .inl ⟨rfl, hnil⟩
      rcases visit_mended h (ed.enter top around ed.stack.suppression kind) ed.stack.isEmpty kind
        value with hsame | ⟨call, e, hf, hn, hv, hc⟩
      · exact .inl hsame
      · exact .inr ⟨call, e, _, hf, by rw [hn]; rfl, hv, hc⟩
    · have hd : ed.maxDepth ≤ around.length := by omega
      rw [beginNode_of_too_deep hp hd, beginNode_of_too_deep hp hd]
      exact .inl ⟨rfl, hnil⟩
  | key | close | fail | finish =>
    refine .inl ⟨rfl, ?_⟩
    rw [advance_calls_eq_nil rules ed (by simp)]
    exact hnil

section Run

variable {σ : Type} [FragmentSink σ]

theorem perform_mended (h : rules.MendedBy mended) (ed : Editor) (sink : σ) (step : Step) :
    (ed.perform mended sink step = ed.perform rules sink step ∧
        rules.AnswersAll (ed.perform rules sink step).calls.toList) ∨
      ∃ call e ed', rules.FailsAt call e ∧ step = .node call.node.kind call.node.value ∧
        ed.perform rules sink step = ⟨ed', sink, #[call], .error e⟩ ∧
        (ed.perform mended sink step).calls = #[call] := by
  rw [perform_calls, perform_calls]
  rcases advance_mended h ed step with ⟨hsame, ha⟩ | ⟨call, e, ed', hf, hs, hadv, hc⟩
  · exact .inl ⟨by rw [perform, perform, hsame], ha⟩
  · exact .inr ⟨call, e, _, hf, hs, perform_of_error hadv sink, by rw [hc]⟩

/-- The event begins a node at which a handler fails: nothing comes of it but the call and the
error. -/
structure FailsOn (rules : RuleSet) (ed : Editor) (sink : σ) (event : Event) (call : Call)
    (e : EditError) : Prop where
  node : event.steps.head? = some (.node call.node.kind call.node.value)
  fails : rules.FailsAt call e
  reply : ∃ ed', ed.handle rules sink event = ⟨ed', sink, #[call], .error e⟩

theorem FailsOn.reply_fields {ed : Editor} {sink : σ} {event : Event}
    (h : FailsOn rules ed sink event call e) :
    (ed.handle rules sink event).sink = sink ∧ (ed.handle rules sink event).calls = #[call] ∧
      (ed.handle rules sink event).result = .error e := by
  obtain ⟨ed', hreply⟩ := h.reply
  rw [hreply]
  exact ⟨rfl, rfl, rfl⟩

theorem FailsOn.running {ed : Editor} {sink : σ} {event : Event}
    (h : FailsOn rules ed sink event call e) : ed.phase = .running := by
  obtain ⟨ed', hreply⟩ := h.reply
  refine Decidable.byContradiction fun hp => ?_
  rw [handle_stopped hp] at hreply
  cases hreply

theorem handle_mended_step (h : rules.MendedBy mended) {ed : Editor} (hp : ed.phase = .running)
    (sink : σ) {event : Event} {step : Step} (hs : event.steps = [step]) :
    (ed.handle mended sink event = ed.handle rules sink event ∧
        rules.AnswersAll (ed.handle rules sink event).calls.toList) ∨
      ∃ call e, FailsOn rules ed sink event call e ∧
        [call] <+: (ed.handle mended sink event).calls.toList := by
  rw [handle_step hp sink hs, handle_step hp sink hs]
  rcases perform_mended h ed.tick sink step with hsame | ⟨call, e, ed', hf, rfl, hp', hc⟩
  · exact .inl hsame
  · refine .inr ⟨call, e, ⟨by rw [hs]; rfl, hf, ed', ?_⟩, by simp [hc]⟩
    rw [handle_step hp sink hs, hp']

theorem handle_mended_startObject (h : rules.MendedBy mended) {ed : Editor}
    (hp : ed.phase = .running) (sink : σ) (name : String) :
    (ed.handle mended sink (.startObject (some name)) =
          ed.handle rules sink (.startObject (some name)) ∧
        rules.AnswersAll (ed.handle rules sink (.startObject (some name))).calls.toList) ∨
      ∃ call e, FailsOn rules ed sink (.startObject (some name)) call e ∧
        [call] <+: (ed.handle mended sink (.startObject (some name))).calls.toList := by
  have hs : (Event.startObject none).steps = [.node .object none] := rfl
  rcases handle_mended_step h hp sink hs with ⟨hsame, ha⟩ | ⟨call, e, hfails, hc⟩
  · left
    rw [handle_startObject hp, handle_startObject hp, hsame]
    generalize ed.handle rules sink (.startObject none) = begun at ha ⊢
    obtain ⟨ed₁, sink₁, calls, _ | _⟩ := begun
    · exact ⟨rfl, ha⟩
    · have hquiet : (ed₁.perform rules sink₁ (.key name)).calls = #[] := by
        rw [perform_calls, advance_calls_eq_nil rules ed₁ (by simp)]
      refine ⟨rfl, ?_⟩
      simp only [hquiet, Array.append_empty]
      exact ha
  · right
    obtain ⟨ed', hreply⟩ := hfails.reply
    refine ⟨call, e, ⟨hfails.node, hfails.fails, ed', ?_⟩, ?_⟩
    · rw [handle_startObject hp, hreply]
    · rw [handle_startObject hp]
      generalize ed.handle mended sink (.startObject none) = begun at hc ⊢
      obtain ⟨ed₁, sink₁, calls, _ | _⟩ := begun
      · exact hc
      · simp only [Array.toList_append]
        exact hc.trans (List.prefix_append _ _)

theorem handle_mended (h : rules.MendedBy mended) (ed : Editor) (sink : σ) (event : Event) :
    (ed.handle mended sink event = ed.handle rules sink event ∧
        rules.AnswersAll (ed.handle rules sink event).calls.toList) ∨
      ∃ call e, FailsOn rules ed sink event call e ∧
        [call] <+: (ed.handle mended sink event).calls.toList := by
  by_cases hp : ed.phase = .running
  · cases event with
    | startObject name =>
      cases name with
      | none => exact handle_mended_step h hp sink rfl
      | some name => exact handle_mended_startObject h hp sink name
    | key | scalar | endObject | startArray | endArray | error | finish =>
      exact handle_mended_step h hp sink rfl
  · rw [handle_stopped hp, handle_stopped hp]
    exact .inl ⟨rfl, fun _ hm => by cases hm⟩

/-- Events that are accepted with all handlers answering, and then one that begins a node at which
a handler fails. -/
structure FailsAfter (rules : RuleSet) (ed : Editor) (sink : σ) (given : List Event)
    (event : Event) (call : Call) (e : EditError) : Prop where
  accepts : Accepts rules ed sink given
  answers : rules.AnswersAll (ed.run rules sink #[] given).calls.toList
  fails : FailsOn rules (ed.run rules sink #[] given).editor (ed.run rules sink #[] given).sink
    event call e

/-- **A run with either rule set.** They come to the same, or a handler fails on the way, and the
rules that never fail go on from there. -/
theorem run_mended (h : rules.MendedBy mended) (ed : Editor) (sink : σ) (events : List Event) :
    (ed.run mended sink #[] events = ed.run rules sink #[] events ∧
        rules.AnswersAll (ed.run rules sink #[] events).calls.toList) ∨
      ∃ given event rest call e, events = given ++ event :: rest ∧
        FailsAfter rules ed sink given event call e ∧
        (ed.run rules sink #[] given).calls.toList ++ [call] <+:
          (ed.run mended sink #[] events).calls.toList := by
  -- from the end: what has been fed before is the same, whatever comes
  induction events using List.reverseRecOn with
  | nil => exact .inl ⟨rfl, fun _ hm => by cases hm⟩
  | append_singleton events event ih =>
    rcases ih with ⟨hsame, ha⟩ | ⟨given, first, rest, call, e, rfl, hfails, hc⟩
    · rcases hr : (ed.run rules sink #[] events).result with e | _
      · left
        rw [run_append, run_append, hsame]
        simp only [hr, true_and]
        exact ha
      · rcases handle_mended h (ed.run rules sink #[] events).editor
          (ed.run rules sink #[] events).sink event with ⟨hone, hcalls⟩ | ⟨call, e, hf, hc⟩
        · left
          rw [run_append, run_append, hsame]
          simp only [hr, run_singleton_calls, Array.toList_append]
          exact ⟨by simp only [run_cons, hone]; rfl, List.forall_mem_append.mpr ⟨ha, hcalls⟩⟩
        · right
          refine ⟨events, event, [], call, e, rfl, ⟨hr, ha, hf⟩, ?_⟩
          rw [run_append, hsame]
          simp only [hr, run_singleton_calls, Array.toList_append]
          exact (List.prefix_append_right_inj _).mpr hc
    · right
      refine ⟨given, first, rest ++ [event], call, e, by simp, hfails, ?_⟩
      exact hc.trans (run_calls_grow mended _ [event] ed sink #[])

theorem Accepts.run_mended {ed : Editor} {sink : σ} {events : List Event}
    (ha : Accepts rules ed sink events) (h : rules.MendedBy mended) :
    ed.run mended sink #[] events = ed.run rules sink #[] events := by
  rcases Editor.run_mended h ed sink events with
    ⟨hsame, -⟩ | ⟨given, event, rest, call, e, rfl, hfails, -⟩
  · exact hsame
  · obtain ⟨ed', sink', calls, ht⟩ := accepts_iff.mp ha.left
    have hok := (ha.right ht).head
    obtain ⟨ed'', hreply⟩ := hfails.fails.reply
    rw [ht] at hreply
    rw [hreply] at hok
    cases hok

end Run

end Editor

end FailsAt

/-! ## The end of an editor's work -/

/-- All later events are refused, with this phase for a reason, and leave everything as it is. -/
structure Reply.Ends {σ : Type} [FragmentSink σ] (rules : RuleSet) (r : Reply σ) (phase : Phase) :
    Prop where
  stopped : r.editor.phase = phase
  later : ∀ events : List Event, r.editor.replies rules r.sink events =
    events.map fun _ => ⟨r.editor, r.sink, #[], .error (.closed phase)⟩

namespace Editor

section Ends

variable {σ : Type} [FragmentSink σ] {rules : RuleSet} {ed : Editor}

theorem replies_of_stopped (hp : ed.phase ≠ .running) (sink : σ) (events : List Event) :
    ed.replies rules sink events =
      events.map fun _ => ⟨ed, sink, #[], .error (.closed ed.phase)⟩ := by
  induction events with
  | nil => rfl
  | cons event events ih =>
    rw [replies, handle_stopped hp]
    simp only [ih, List.map_cons]

theorem ends_of_stopped {r : Reply σ} {phase : Phase} (h : r.editor.phase = phase)
    (hp : phase ≠ .running) : r.Ends rules phase := by
  subst h
  exact ⟨rfl, replies_of_stopped hp r.sink⟩

theorem performAll_ok_or_halted (steps : List Step) : ∀ (ed : Editor) (sink : σ)
    (calls : Array Call), (ed.performAll rules sink calls steps).result = .ok () ∨
      (ed.performAll rules sink calls steps).editor.phase = .halted := by
  induction steps with
  | nil => exact fun _ _ _ => .inl rfl
  | cons step steps ih =>
    intro ed sink calls
    have hfirst := perform_ok_or_halted rules ed sink step
    simp only [performAll_cons]
    split
    · exact ih _ _ _
    · next he =>
      rw [he] at hfirst
      exact .inr (hfirst.resolve_left fun h => by cases h)

/-- **An error is the end**, whatever the event and the sink. -/
theorem ends_of_error (hp : ed.phase = .running) {sink : σ} {event : Event} {e : EditError}
    (h : (ed.handle rules sink event).result = .error e) :
    (ed.handle rules sink event).Ends rules .halted := by
  refine ends_of_stopped ?_ (by decide)
  rw [handle_running hp] at h ⊢
  refine (performAll_ok_or_halted event.steps ed.tick sink #[]).resolve_left fun hok => ?_
  rw [h] at hok
  cases hok

theorem ends_of_finish (hp : ed.phase = .running) {sink : σ}
    (h : (ed.handle rules sink .finish).result = .ok ()) :
    (ed.handle rules sink .finish).Ends rules .finished := by
  refine ends_of_stopped ?_ (by decide)
  rw [handle_step hp sink rfl] at h ⊢
  obtain ⟨ed', calls, fragment, ha, hperform⟩ := perform_of_result_ok h
  rw [hperform, sent_phase]
  rw [advance, finish] at ha
  split_ifs at ha <;> cases ha
  rfl

end Ends

/-! ## A document with a node at which a handler fails -/

section Document

variable {σ : Type} [FragmentSink σ] {rules : RuleSet}

section Reached

variable {doc : Document} {d : Nat} {sink : σ} {before after : List Call} {call : Call}
  {e : EditError} (hcalls : (doc.value.edit rules).calls = before ++ call :: after)
  (hbefore : rules.AnswersAll before) (hfails : rules.FailsAt call e)
include hcalls

/-- A run of rules that let nodes pass calls handlers for the first nodes of a whole edit, and for
enough of them if it gets as far as some node. -/
theorem run_mended_reaches (hreach : FragmentSink.NeverFails σ ∧ doc.value.depth ≤ d ∨
      before.length < ((Editor.new d).run rules.mended sink #[] doc.allEvents).calls.size) :
    before ++ [call] <+:
        ((Editor.new d).run rules.mended sink #[] doc.allEvents).calls.toList ∧
      ((Editor.new d).run rules.mended sink #[] doc.allEvents).calls.toList <+:
        before ++ call :: after := by
  have hnever : rules.mended.NeverFails := rules.mendedBy_mended.neverFails
  have hprefix : ((Editor.new d).run rules.mended sink #[] doc.allEvents).calls.toList <+:
      before ++ call :: after := by
    rw [← hcalls, ← Json.edit_mended]
    exact run_calls_prefix_edit hnever doc d sink
  have hlong : (before ++ [call]).length ≤
      ((Editor.new d).run rules.mended sink #[] doc.allEvents).calls.toList.length := by
    rcases hreach with ⟨hσ, hd⟩ | hsize
    · rw [run_calls_eq_edit hσ hnever hd, Json.edit_mended, hcalls]
      simp
    · have hsize := Nat.succ_le_of_lt hsize
      simpa using hsize
  have hin : before ++ [call] <+: before ++ call :: after := ⟨after, by simp⟩
  exact ⟨List.prefix_of_prefix_length_le hin hprefix hlong, hprefix⟩

include hbefore hfails

theorem exists_failsAfter (hreach : FragmentSink.NeverFails σ ∧ doc.value.depth ≤ d ∨
      before.length < ((Editor.new d).run rules.mended sink #[] doc.allEvents).calls.size) :
    ∃ given event rest, doc.allEvents = given ++ event :: rest ∧
      ((Editor.new d).run rules sink #[] given).calls.toList = before ∧
      FailsAfter rules (Editor.new d) sink given event call e := by
  obtain ⟨hin, hprefix⟩ := run_mended_reaches hcalls hreach
  rcases run_mended rules.mendedBy_mended (Editor.new d) sink doc.allEvents with
    ⟨hsame, hall⟩ | ⟨given, event, rest, call', e', hevents, hafter, hc⟩
  · rw [hsame] at hin
    exact absurd (hall call (hin.subset (by simp))) hfails.not_answers
  · obtain ⟨after', hsplit⟩ := hc.trans hprefix
    rw [List.append_assoc, List.singleton_append] at hsplit
    obtain ⟨hb, rfl⟩ := hafter.answers.split_unique hbefore hafter.fails.fails.not_answers
      hfails.not_answers hsplit
    rw [hafter.fails.fails.unique hfails] at hafter
    exact ⟨given, event, rest, hevents, hb, hafter⟩

end Reached

/-- **A handler that fails ends the run.** Let a node be the first of an edit of the whole value at
which the handler of the deciding rule fails. If the depth limit and the sink let a run get that
far, the events before the one that begins the node come to what they come to with any rules that
never fail in place of these; that one event calls the one handler, hands nothing to the sink and
comes to the handler's error; and all later events are refused. After any other error, and after the
end, they are refused in the same way. -/
theorem handler_failure_stops {doc : Document} {d : Nat} {sink : σ} {before after : List Call}
    {call : Call} {rule : Rule} {message : String}
    (hcalls : (doc.value.edit rules).calls = before ++ call :: after)
    (hbefore : ∀ earlier ∈ before, rules.Answers earlier.node)
    (hfirst : rules.first? call.node.path = some (call.rule, rule))
    (hfail : rule.handler call.node = .error message)
    (hreach : FragmentSink.NeverFails σ ∧ doc.value.depth ≤ d ∨
      before.length < ((Editor.new d).run rules.mended sink #[] doc.allEvents).calls.size) :
    (∃ given event rest, doc.allEvents = given ++ event :: rest ∧
      event.steps.head? = some (.node call.node.kind call.node.value) ∧
      let reached := (Editor.new d).run rules sink #[] given
      let failed := reached.editor.handle rules reached.sink event
      reached.result = .ok () ∧ reached.calls.toList = before ∧
        (∀ mended : RuleSet, rules.MendedBy mended →
          (Editor.new d).run mended sink #[] given = reached) ∧
        failed.sink = reached.sink ∧ failed.calls = #[call] ∧
        failed.result =
          .error (.handler rule.matcher.label call.node.path.display message) ∧
        failed.Ends rules .halted) ∧
    ∀ (τ : Type) [FragmentSink τ] (others : RuleSet) (ed : Editor) (sink' : τ) (event : Event),
      ed.phase = .running →
      let r := ed.handle others sink' event
      (∀ e, r.result = .error e → r.Ends others .halted) ∧
        (event = .finish → r.result = .ok () → r.Ends others .finished) := by
  constructor
  · have hfails : rules.FailsAt call _ := ⟨rule, message, hfirst, hfail, rfl⟩
    obtain ⟨given, event, rest, hevents, hb, hafter⟩ :=
      exists_failsAfter hcalls hbefore hfails hreach
    obtain ⟨hsink, hcall, hresult⟩ := hafter.fails.reply_fields
    refine ⟨given, event, rest, hevents, hafter.fails.node, ?_⟩
    intro reached failed
    exact ⟨hafter.accepts, hb, fun mended hm => hafter.accepts.run_mended hm, hsink, hcall,
      hresult, ends_of_error hafter.fails.running hresult⟩
  · intro τ _ others ed sink' event hp r
    refine ⟨fun e he => ends_of_error hp he, ?_⟩
    rintro rfl hok
    exact ends_of_finish hp hok

/-- A member gets a name, and the handler fails at its second element. The first one has gone out
by then, and what comes after is not looked at. -/
theorem handler_failure_stops_inside :
    let rules : RuleSet :=
      [⟨.predicate "member" fun path => path.keys == ["a"], .always (.rename "x")⟩,
        ⟨.predicate "second" fun path => path.keys == ["x", "1"], .fail "no"⟩,
        ⟨.predicate "every" fun _ => true, .always .pass⟩]
    let doc : Document := .ofValue (.obj [("a", .arr [.null, .bool true]), ("b", .null)])
    doc.value.depth ≤ 3 ∧
      ∃ given event rest, doc.allEvents = given ++ event :: rest ∧
        let reached := (Editor.new 3).run rules "" #[] given
        let failed := reached.editor.handle rules reached.sink event
        reached.calls.toList.map (fun call => call.node.path.keys) = [[], ["a"], ["x", "0"]] ∧
          failed.result = .error (.handler "second" "$.x[1]" "no") ∧
          failed.Ends rules .halted := by
  intro rules doc
  let node : Node := ⟨.scalar, some "1", ⟨["x", "1"]⟩, some (.bool true)⟩
  let before : List Call :=
    [⟨2, ⟨.object, none, ⟨[]⟩, none⟩⟩, ⟨0, ⟨.array, some "a", ⟨["a"]⟩, none⟩⟩,
      ⟨2, ⟨.scalar, some "0", ⟨["x", "0"]⟩, some .null⟩⟩]
  have hcalls : (doc.value.edit rules).calls =
      before ++ ⟨1, node⟩ :: [⟨2, ⟨.scalar, some "b", ⟨["b"]⟩, some .null⟩⟩] := rfl
  have hbefore : ∀ earlier ∈ before, rules.Answers earlier.node := by
    intro earlier hm index rule hf
    simp only [before, List.mem_cons, List.not_mem_nil, or_false] at hm
    rcases hm with rfl | rfl | rfl <;> cases hf <;> exact ⟨_, rfl⟩
  have hdepth : doc.value.depth ≤ 3 := by decide
  have hdisplay : node.path.display = "$.x[1]" := by decide +kernel
  obtain ⟨⟨given, event, rest, hevents, -, -, hb, -, -, -, hresult, hends⟩, -⟩ :=
    handler_failure_stops hcalls hbefore
      (rfl : rules.first? node.path = some (1, ⟨_, .fail "no"⟩)) rfl
      (.inl ⟨FragmentSink.neverFails_text, hdepth⟩)
  rw [hdisplay] at hresult
  exact ⟨hdepth, given, event, rest, hevents, by rw [hb]; rfl, hresult, hends⟩

end Document

end Editor

end JsonEdit
