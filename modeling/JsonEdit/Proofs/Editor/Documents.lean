import JsonEdit.Proofs.Editor.Completable
import JsonEdit.Proofs.Editor.Failure
import JsonEdit.Proofs.Editor.TreeEdit
import JsonEdit.Proofs.Event.Depth
import JsonEdit.Proofs.Json.OneLine

/-!
# Documents in a row

One editor may be fed any number of documents. Between two of them all that it remembers is
whether anything has gone out, so that each is edited as if it were alone, in a line of its own.

* `documentsIn`: how many documents begin among some events; `counts_told`: one of them if they
  tell a value;
* `handle_documents`, `run_documents`: the editor counts them;
* `keeps_fragments`: no fragment has gone out as long as the text is empty;
* `Between`: an editor between two documents; **`Between.document`**: the next document;
  **`Between.documents_in_row`**: any number of them;
* **`run_documents_in_row`**: the documents on their own and in a row.
-/

namespace JsonEdit

/-! ## Counting documents -/

/-- The event begins a node. -/
def Event.begins : Event → Bool
  | .scalar _ | .startArray | .startObject _ => true
  | .key _ | .endArray | .endObject | .error _ | .finish => false

/-- How many documents begin among the events, if these containers are open before them. -/
def documentsIn (opens : List ContainerKind) : List Event → Nat
  | [] => 0
  | event :: events =>
    (opens.isEmpty && event.begins).toNat + documentsIn (event.nest opens) events

theorem nesting_append (opens : List ContainerKind) (events rest : List Event) :
    nesting opens (events ++ rest) = nesting (nesting opens events) rest := List.foldl_append

theorem documentsIn_append (rest : List Event) : ∀ (events : List Event)
    (opens : List ContainerKind), documentsIn opens (events ++ rest) =
      documentsIn opens events + documentsIn (nesting opens events) rest
  | [], _ => (Nat.zero_add _).symm
  | event :: events, opens => by
    rw [List.cons_append, documentsIn, documentsIn_append rest events, documentsIn, Nat.add_assoc]
    rfl

/-- The events lead from these open containers to those, and so many documents begin on the way. -/
def Counts (opens : List ContainerKind) (events : List Event) (opens' : List ContainerKind)
    (count : Nat) : Prop := nesting opens events = opens' ∧ documentsIn opens events = count

section Counts

variable {opens opens₁ opens₂ : List ContainerKind} {event : Event} {events rest : List Event}

theorem Counts.append {m n : Nat} (h : Counts opens events opens₁ m)
    (hr : Counts opens₁ rest opens₂ n) : Counts opens (events ++ rest) opens₂ (m + n) :=
  ⟨by rw [nesting_append, h.1, hr.1], by rw [documentsIn_append, h.1, h.2, hr.2]⟩

theorem counts_nil (opens : List ContainerKind) : Counts opens [] opens 0 := ⟨rfl, rfl⟩

theorem counts_begin (opens : List ContainerKind) (event : Event) (hb : event.begins = true) :
    Counts opens [event] (event.nest opens) opens.isEmpty.toNat :=
  ⟨rfl, by rw [documentsIn, hb, Bool.and_true]; rfl⟩

theorem counts_other (opens : List ContainerKind) (event : Event) (hb : event.begins = false) :
    Counts opens [event] (event.nest opens) 0 :=
  ⟨rfl, by rw [documentsIn, hb, Bool.and_false]; rfl⟩

mutual

/-- **Events that tell a value** are one document if nothing is open, and none otherwise. -/
theorem counts_told {events : List Event} : ∀ {value : Json}, value.ToldBy events →
    ∀ opens, Counts opens events opens opens.isEmpty.toNat
  | _, .scalar _, opens => counts_begin opens (.scalar _) rfl
  | _, .array hi, opens =>
    ((counts_begin opens .startArray rfl).append (counts_itemsTold hi opens)).append
      (counts_other (.array :: opens) .endArray rfl)
  | _, .object hm, opens =>
    ((counts_begin opens (.startObject none) rfl).append (counts_membersTold hm opens)).append
      (counts_other (.object :: opens) .endObject rfl)
  | _, .objectWith name hv hm, opens =>
    (((counts_begin opens (.startObject (some name)) rfl).append (counts_told hv _)).append
      (counts_membersTold hm opens)).append (counts_other (.object :: opens) .endObject rfl)

theorem counts_itemsTold {events : List Event} : ∀ {items : List Json},
    Json.ItemsToldBy items events → ∀ opens, Counts (.array :: opens) events (.array :: opens) 0
  | _, .nil, _ => counts_nil _
  | _, .cons hi his, opens =>
    (counts_told hi (.array :: opens)).append (counts_itemsTold his opens)

theorem counts_membersTold {events : List Event} : ∀ {members : List (String × Json)},
    Json.MembersToldBy members events →
      ∀ opens, Counts (.object :: opens) events (.object :: opens) 0
  | _, .nil, _ => counts_nil _
  | _, .cons name hv hm, opens =>
    ((counts_other (.object :: opens) (.key name) rfl).append (counts_told hv _)).append
      (counts_membersTold hm opens)

end

end Counts

/-- The step begins a node. -/
def Step.begins : Step → Bool
  | .node _ _ => true
  | .key _ | .close _ | .fail _ | .finish => false

namespace Editor

section Documents

variable {σ : Type} [FragmentSink σ] {rules : RuleSet} {ed ed' : Editor} {sink : σ} {step : Step}
  {calls : List Call} {fragment : String}

theorem advance_documents (h : ed.advance rules step = ⟨ed', calls, .ok fragment⟩) :
    ed'.stats.documents = ed.stats.documents + (ed.stack.isEmpty && step.begins).toNat := by
  have hother : step.begins = false →
      (ed.advance rules step).editor.stats.documents = ed.stats.documents := by
    intro hb
    cases step with
    | node kind value => cases hb
    | key name =>
      simp only [advance, pushKey]
      split <;> rfl
    | close kind =>
      simp only [advance, close]
      split
      · rfl
      · split_ifs <;> rfl
    | fail message => rfl
    | finish =>
      simp only [advance, finish]
      split_ifs <;> rfl
  cases hb : step.begins with
  | false =>
    rw [Bool.and_false, ← hother hb, h]
    rfl
  | true =>
    cases step with
    | node kind value =>
      have hcases := beginNode_cases rules ed kind value
      rw [show ed.beginNode rules kind value = _ from h] at hcases
      rw [Bool.and_true]
      cases hcases with
      | withheld => cases kind <;> rfl
      | answered => rfl
    | key name | close kind | fail message | finish => cases hb

theorem perform_documents (h : (ed.perform rules sink step).result = .ok ()) :
    (ed.perform rules sink step).editor.stats.documents =
      ed.stats.documents + (ed.stack.isEmpty && step.begins).toNat := by
  obtain ⟨ed', calls, fragment, ha, hp⟩ := perform_of_result_ok h
  have hsent : (ed'.sent fragment).stats.documents = ed'.stats.documents := by
    unfold sent; split_ifs <;> rfl
  rw [hp, hsent, advance_documents ha]

theorem handle_step_documents {event : Event} (hs : event.steps = [step])
    (hb : event.begins = step.begins) (h : (ed.handle rules sink event).result = .ok ()) :
    (ed.handle rules sink event).editor.stats.documents =
      ed.stats.documents + (ed.stack.isEmpty && event.begins).toNat := by
  by_cases hp : ed.phase = .running
  · rw [handle_step hp sink hs] at h ⊢
    rw [hb]
    exact perform_documents h
  · rw [handle_stopped hp] at h
    cases h

theorem handle_documents {event : Event} (h : (ed.handle rules sink event).result = .ok ()) :
    (ed.handle rules sink event).editor.stats.documents =
      ed.stats.documents + (ed.stack.isEmpty && event.begins).toNat := by
  cases event with
  | key name | scalar value | startArray | endArray | endObject | error message | finish =>
    exact handle_step_documents rfl rfl h
  | startObject first =>
    cases first with
    | none => exact handle_step_documents rfl rfl h
    | some name =>
      by_cases hp : ed.phase = .running
      · rw [handle_startObject hp] at h ⊢
        rcases hr : ed.handle rules sink (.startObject none) with ⟨ed₁, sink₁, calls₁, e | _⟩
        · rw [hr] at h
          cases h
        · rw [hr] at h
          have hfirst : ed₁.stats.documents =
              ed.stats.documents + (ed.stack.isEmpty && true).toNat := by
            have := handle_step_documents rfl rfl (congrArg Reply.result hr)
            rwa [hr] at this
          have hkey : (ed₁.perform rules sink₁ (.key name)).editor.stats.documents = _ :=
            perform_documents h
          rw [Step.begins, Bool.and_false, hfirst] at hkey
          exact hkey
      · rw [handle_stopped hp] at h
        cases h

/-- **The editor counts the documents** that begin among events that succeed. -/
theorem run_documents : ∀ (events : List Event) {opens : List ContainerKind} {ed : Editor}
    (sink : σ) (calls : Array Call), ed.outline.Within opens →
    (ed.run rules sink calls events).result = .ok () →
    (ed.run rules sink calls events).editor.stats.documents =
      ed.stats.documents + documentsIn opens events
  | [], _, _, _, _, _, _ => rfl
  | event :: events, opens, ed, sink, calls, hw, hok => by
    have hempty : ed.stack.isEmpty = opens.isEmpty := by
      rw [← hw.isEmpty, outline, Stack.shape, List.isEmpty_map, Stack.isEmpty]
    have hanswer := hw.handle event
    rw [run_cons] at hok ⊢
    cases hr : (ed.handle rules sink event).result with
    | error e =>
      simp only [hr] at hok
      cases hok
    | ok _ =>
      simp only [hr] at hok ⊢
      have hout := (handle_foreign rules ed sink event).resolve_right <| by
        rintro ⟨e, -, he⟩
        rw [hr] at he
        cases he
      rw [← hout, hr] at hanswer
      cases hanswer with
      | taken _ hnext _ =>
        rw [run_documents events _ _ hnext hok, handle_documents hr, hempty, documentsIn,
          Nat.add_assoc]

end Documents

/-! ## Between two documents -/

theorem keeps_fragments (rules : RuleSet) :
    Keeps rules fun (ed : Editor) (text : String) => ed.stats.fragments = 0 ↔ text = "" where
  tick _ _ h := h
  perform ed text step h := by
    have hf := (advance_unchanged rules ed step).2.1
    rcases ha : ed.advance rules step with ⟨ed', calls, e | fragment⟩ <;> rw [ha] at hf
    · rw [perform_of_error ha]
      exact (iff_of_eq (congrArg (· = 0) hf)).trans h
    · rw [perform_of_ok FragmentSink.neverFails_text ha, FragmentSink.put_text]
      exact fragments_sent h hf fragment

end Editor

/-- One more text, in a line of its own unless it is empty. -/
def addLine (text more : String) : String := if more = "" then text else text ++ lineFeed text ++ more

theorem addLine_intercalate {lines : List String} (hl : ∀ line ∈ lines, line ≠ "") (more : String) :
    addLine ("\n".intercalate lines) more =
      "\n".intercalate (lines ++ [more].filter (· ≠ "")) := by
  by_cases hm : more = ""
  · simp [addLine, hm]
  · have hfilter : [more].filter (· ≠ "") = [more] := by simp [hm]
    rw [addLine, if_neg hm, hfilter]
    cases lines with
    | nil => simp [lineFeed]
    | cons line lines =>
      have hne := intercalate_ne_empty "\n" (hl line List.mem_cons_self) lines
      rw [lineFeed, if_neg hne, String.intercalate_append_of_ne_nil (by simp) (by simp),
        String.intercalate_singleton]

theorem append_written (text : String) (e : Edited) :
    text ++ e.written (lineFeed text) [] none = addLine text e.text := by
  obtain ⟨calls, _ | ⟨new, value⟩⟩ := e
  · simp [Edited.written, Edited.text, addLine]
  · simp [Edited.written, Edited.text, addLine, owed, value.compact_ne_empty, String.append_assoc]

theorem Edited.oneLine_text (e : Edited) : OneLine e.text := by
  obtain ⟨calls, _ | ⟨new, value⟩⟩ := e
  · exact List.not_mem_nil
  · exact value.oneLine_compact

/-- What is left of documents, without those of which nothing is left. -/
def linesOf (rules : RuleSet) (documents : List Document) : List String :=
  (documents.map fun doc => (doc.value.edit rules).text).filter (· ≠ "")

theorem linesOf_nil (rules : RuleSet) : linesOf rules [] = [] := rfl

theorem linesOf_cons (rules : RuleSet) (doc : Document) (documents : List Document) :
    linesOf rules (doc :: documents) =
      [(doc.value.edit rules).text].filter (· ≠ "") ++ linesOf rules documents :=
  List.filter_append [_] _

namespace Editor

/-- An editor between two documents: so many have begun, and this text has gone out. -/
structure Between (d count : Nat) (text : String) (ed : Editor) : Prop where
  phase : ed.phase = .running
  stack : ed.stack = .empty
  maxDepth : ed.maxDepth = d
  documents : ed.stats.documents = count
  fragments : ed.stats.fragments = 0 ↔ text = ""

section Between

variable {rules : RuleSet} {d count : Nat} {text : String} {ed : Editor}

theorem between_new (d : Nat) : (Editor.new d).Between d 0 "" :=
  ⟨rfl, rfl, rfl, rfl, iff_of_true rfl rfl⟩

theorem Between.outline (hb : ed.Between d count text) : ed.outline = Outline.running d [] := by
  rw [Editor.outline, hb.stack, hb.phase, hb.maxDepth]
  rfl

/-- **The next document** is edited as if it were alone, and goes in a line of its own. -/
theorem Between.document (h : rules.NeverFails) (hb : ed.Between d count text) {doc : Document}
    (hd : doc.value.depth ≤ d) :
    let e := doc.value.edit rules
    ∃ ed' : Editor, Takes rules ed text doc.events ed' (addLine text e.text) e.calls ∧
      ed'.Between d (count + 1) (addLine text e.text) := by
  intro e
  have hroom : (Outline.running d []).Accepts doc.events :=
    (Outline.accepts_told doc.told rfl).mpr (by rwa [List.length_nil, Nat.zero_add])
  have ha : Accepts rules ed text doc.events := by
    rw [accepts_iff_outline FragmentSink.neverFails_text h, hb.outline]
    exact hroom
  obtain ⟨ed₁, hpass, -, hs⟩ :=
    edits_told h doc.told ed text none [] hb.phase (by rw [hb.stack]; rfl) rfl ha
  obtain ⟨ed', ht, he⟩ := hpass.takes
  have hempty : ed.stack.isEmpty = true := by rw [hb.stack]; rfl
  rw [separator_eq hb.fragments hempty, append_written] at ht
  have hstack : ed'.stack = .empty :=
    (congrArg Editor.stack he).trans (hs.trans (congrArg (Stack.mk · 0) (Edited.around_nil _)))
  have hout : (ed'.outline, _) = Outline.run _ doc.events :=
    ht ▸ outline_run FragmentSink.neverFails_text h doc.events ed text #[]
  rw [hb.outline, (Outline.fits_document doc.told.isDocument rfl).run_of_accepts hroom] at hout
  have hcount := run_documents doc.events text #[]
    (hb.outline ▸ Outline.within_nil d) ha
  have hfragments := run_keeps (keeps_fragments rules) doc.events ed text #[] hb.fragments
  rw [ht] at hcount hfragments
  rw [hb.documents, (counts_told doc.told []).2] at hcount
  have hed : ed'.outline = Outline.running d [] := congrArg Prod.fst hout
  exact ⟨ed', ht, congrArg Outline.phase hed, hstack, congrArg Outline.maxDepth hed, hcount,
    hfragments⟩

/-- **Any number of documents**, after some lines of text. -/
theorem Between.documents_in_row (h : rules.NeverFails) : ∀ (documents : List Document)
    {count : Nat} {lines : List String} {ed : Editor}, (∀ line ∈ lines, line ≠ "") →
    ed.Between d count ("\n".intercalate lines) → (∀ doc ∈ documents, doc.value.depth ≤ d) →
    ∃ ed' : Editor, Takes rules ed ("\n".intercalate lines) (documents.flatMap Document.events) ed'
      ("\n".intercalate (lines ++ linesOf rules documents))
      (documents.flatMap fun doc => (doc.value.edit rules).calls) ∧
      ed'.Between d (count + documents.length)
        ("\n".intercalate (lines ++ linesOf rules documents))
  | [], count, lines, ed, _, hb, _ => by
    rw [linesOf_nil, List.append_nil]
    exact ⟨ed, rfl, hb⟩
  | doc :: documents, count, lines, ed, hl, hb, hd => by
    obtain ⟨ed₁, ht₁, hb₁⟩ := hb.document h (hd doc List.mem_cons_self)
    rw [addLine_intercalate hl] at ht₁ hb₁
    have hl₁ : ∀ line ∈ lines ++ [(doc.value.edit rules).text].filter (· ≠ ""), line ≠ "" := by
      intro line hm
      rcases List.mem_append.mp hm with hm | hm
      · exact hl line hm
      · exact of_decide_eq_true (List.mem_filter.mp hm).2
    obtain ⟨ed₂, ht₂, hb₂⟩ := Between.documents_in_row h documents hl₁ hb₁ fun doc hm =>
      hd doc (List.mem_cons_of_mem _ hm)
    rw [List.append_assoc, ← linesOf_cons] at ht₂ hb₂
    rw [Nat.add_assoc, Nat.add_comm 1] at hb₂
    exact ⟨ed₂, ht₁.append ht₂, hb₂⟩

theorem Between.finish (hb : ed.Between d count text) (rules : RuleSet) :
    ∃ last, ed.handle rules text .finish = ⟨last, text, #[], .ok ()⟩ ∧ last.phase = .finished := by
  have hstack : ed.tick.stack = .empty := hb.stack
  have hf : ed.tick.advance rules .finish = ⟨{ ed.tick with phase := .finished }, [], .ok ""⟩ := by
    rw [advance, Editor.finish, if_pos (by rw [hstack]; rfl)]
  have hp := perform_of_ok FragmentSink.neverFails_text hf text
  rw [FragmentSink.put_text, String.append_empty, sent_empty] at hp
  exact ⟨_, (handle_step hb.phase text rfl).trans hp, rfl⟩

end Between

/-! ## Documents on their own and in a row -/

theorem text_eq_empty_iff (rules : RuleSet) (value : Json) :
    (value.edit rules).text = "" ↔ (rules.actionAt (value.asNode [])).drops = true := by
  obtain ⟨inside, he⟩ : ∃ inside, value.edit rules = rules.editNode [] value inside := by
    cases value <;> simp only [Json.edit, Json.editAt] <;> exact ⟨_, rfl⟩
  rw [he]
  simp only [RuleSet.editNode]
  split_ifs with hd
  · exact iff_of_true rfl hd
  · refine iff_of_false ?_ hd
    split <;> exact Json.compact_ne_empty _

/-- **Documents in a row are edited as each on its own.** What one editor gives out for all of them
is what is left of each, in a line of its own unless its root is dropped; the handlers called are
those called for each in turn, and the documents are counted. -/
theorem run_documents_in_row {rules : RuleSet} (h : rules.NeverFails) {d : Nat}
    {documents : List Document} (hd : ∀ doc ∈ documents, doc.value.depth ≤ d) :
    let alone (doc : Document) := (Editor.new d).run rules "" #[] doc.allEvents
    let together := (Editor.new d).run rules "" #[] (documents.flatMap Document.events)
    (∀ doc ∈ documents, (alone doc).result = .ok () ∧ (alone doc).editor.phase = .finished ∧
      '\n' ∉ (alone doc).sink.toList ∧
      ((alone doc).sink = "" ↔ (rules.actionAt (doc.value.asNode [])).drops = true)) ∧
    together.result = .ok () ∧
    together.sink =
      "\n".intercalate ((documents.map fun doc => (alone doc).sink).filter (· ≠ "")) ∧
    together.calls.toList = documents.flatMap (fun doc => (alone doc).calls.toList) ∧
    together.editor.stats.documents = documents.length ∧
    ∃ last, together.editor.handle rules together.sink .finish =
      ⟨last, together.sink, #[], .ok ()⟩ ∧ last.phase = .finished := by
  intro alone together
  have halone : ∀ doc ∈ documents, ∃ ed, alone doc = ⟨ed, (doc.value.edit rules).text,
      (doc.value.edit rules).calls.toArray, .ok ()⟩ ∧ ed.phase = .finished := fun doc hm =>
    run_allEvents h ((accepts_allEvents FragmentSink.neverFails_text h "" doc).mpr (hd doc hm))
  have hsinks : documents.map (fun doc => (alone doc).sink) =
      documents.map fun doc => (doc.value.edit rules).text :=
    List.map_congr_left fun doc hm => by
      obtain ⟨ed, hrun, -⟩ := halone doc hm
      rw [hrun]
  have hcalls : documents.flatMap (fun doc => (alone doc).calls.toList) =
      documents.flatMap fun doc => (doc.value.edit rules).calls :=
    congrArg List.flatten <| List.map_congr_left fun doc hm => by
      obtain ⟨ed, hrun, -⟩ := halone doc hm
      rw [hrun]
  have hstart : (Editor.new d).Between d 0 ("\n".intercalate []) := between_new d
  obtain ⟨ed, htakes, hb⟩ := hstart.documents_in_row h documents (fun _ hm => by cases hm) hd
  have htogether : together = _ := htakes
  rw [hsinks, hcalls, htogether]
  refine ⟨fun doc hm => ?_, rfl, rfl, rfl, ?_, hb.finish rules⟩
  · obtain ⟨ed, hrun, hphase⟩ := halone doc hm
    rw [hrun]
    exact ⟨rfl, hphase, (doc.value.edit rules).oneLine_text, text_eq_empty_iff rules doc.value⟩
  · exact hb.documents.trans (Nat.zero_add _)

/-- The second of three documents is dropped; the first name of the first one is told apart. -/
theorem run_documents_in_row_dropped :
    let rules : RuleSet :=
      [⟨.predicate "root" fun path => path.keys.isEmpty, .onKind .scalar (.always .remove)⟩]
    let member : Document :=
      ⟨.obj [("a", .null)], [.startObject none, .key "a", .scalar .null, .endObject],
        .object (.cons "a" (.scalar rfl) .nil)⟩
    let documents := [member, .ofValue (.bool true), .ofValue (.arr [])]
    let together := (Editor.new 2).run rules "" #[] (documents.flatMap Document.events)
    (rules.NeverFails ∧ ∀ doc ∈ documents, doc.value.depth ≤ 2) ∧
      together.sink = "\x7b\"a\":null\x7d\n[]" ∧ together.editor.stats.documents = 3 := by
  intro rules member documents together
  have hrules : rules.NeverFails := by
    intro rule hm node
    rw [List.mem_singleton.mp hm]
    simp only [Handler.onKind]
    split_ifs <;> exact ⟨_, rfl⟩
  have hdepth : ∀ doc ∈ documents, doc.value.depth ≤ 2 := by
    simp [documents, member, Document.ofValue, Json.depth, Json.depthItems, Json.depthMembers]
  obtain ⟨-, -, htext, -, hcount, -⟩ := run_documents_in_row hrules hdepth
  refine ⟨⟨hrules, hdepth⟩, htext.trans ?_, hcount⟩
  decide +kernel

end Editor

end JsonEdit
