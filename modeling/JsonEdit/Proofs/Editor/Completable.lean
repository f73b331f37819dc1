import JsonEdit.Proofs.Editor.Outline
import JsonEdit.Proofs.Json.OpenText

/-!
# What goes out can always be completed

At every moment the text that has gone out lacks nothing but the closing brackets of the containers
that are open and not withheld. That holds for any events, fitting or not, and for handlers that
fail as well.

* `opensOf`, `Stack.opens`, `Stack.closers`: the containers that are open in the text;
* `Nested`: which frames a running editor can have;
* `Sound`: an editor and the text that has gone out fit each other; `Sound.prepare`: where a node
  can begin, `Sound.advance`: one step;
* `feed_eq_emitAll`: the sink has no part in what goes out;
* **`output_completable`**: any events at all.
-/

namespace JsonEdit

/-! ## Containers that are open in the text -/

/-- The containers among the frames, with the number of children written in each. -/
def opensOf (frames : List Frame) : List (ContainerKind × Nat) :=
  frames.filterMap fun f => f.container.map (·, f.childCount)

/-- The containers that are open in the text: the innermost ones are not if they are withheld. -/
def Stack.opens (s : Stack) : List (ContainerKind × Nat) := (opensOf s.frames).drop s.suppression

/-- The closing brackets of the containers that are open and not withheld, innermost first. -/
def Stack.closers (s : Stack) : String :=
  String.join (((s.frames.filterMap Frame.container).drop s.suppression).map closeToken)

theorem Stack.closers_eq (s : Stack) :
    s.closers = String.join (s.opens.map fun o => closeToken o.1) := by
  have hfst : (opensOf s.frames).map Prod.fst = s.frames.filterMap Frame.container := by
    rw [opensOf, List.map_filterMap]
    simp [Function.comp_def]
  rw [closers, opens, ← hfst, ← List.map_drop, List.map_map]
  rfl

theorem opensOf_cons_some {f : Frame} {kind : ContainerKind} (h : f.container = some kind)
    (frames : List Frame) : opensOf (f :: frames) = (kind, f.childCount) :: opensOf frames := by
  simp [opensOf, h]

theorem opensOf_cons_none {f : Frame} (h : f.container = none) (frames : List Frame) :
    opensOf (f :: frames) = opensOf frames := by
  simp [opensOf, h]

/-! ## Frames of a running editor -/

/-- All frames are open containers; only the innermost may be due instead, in an object. -/
def Nested : Shape → Prop
  | [] => True
  | none :: shape => shape.head? = some (some .object) ∧ none ∉ shape
  | some _ :: shape => none ∉ shape

theorem nested_of_not_mem : ∀ {shape : Shape}, none ∉ shape → Nested shape
  | [], _ => trivial
  | none :: _, h => absurd List.mem_cons_self h
  | some _ :: _, h => fun hm => h (List.mem_cons_of_mem _ hm)

theorem nested_begin {shape : Shape} (h : none ∉ shape) (kind : NodeKind) :
    Nested (kind.shape ++ shape) := by
  cases kind with
  | scalar => exact nested_of_not_mem h
  | object | array => exact h

theorem Nested.tail {container : Option ContainerKind} {shape : Shape}
    (h : Nested (container :: shape)) : none ∉ shape := by
  cases container with
  | none => exact h.2
  | some kind => exact h

namespace Editor

/-- What a running editor and the text that has gone out have to do with each other. -/
structure Sound (ed : Editor) (text : String) : Prop where
  nested : Nested ed.stack.shape
  openText : OpenText ed.stack.opens text
  fragments : ed.stats.fragments = 0 ↔ text = ""

section Sound

variable {ed : Editor} {text : String} {top : Frame} {around : List Frame} {n : Nat}

theorem sound_new (d : Nat) : Sound (Editor.new d) "" :=
  ⟨trivial, isTexts_empty, iff_of_true rfl rfl⟩

theorem Sound.isTexts (h : Sound ed text) : IsTexts (text ++ ed.stack.closers) := by
  rw [Stack.closers_eq]
  exact h.openText.isTexts

/-- Around a node that begins all frames are open containers, and they are what is open. -/
theorem Sound.place (h : Sound ed text) (hp : ed.stack.prepare = .ok ⟨top :: around, n⟩) :
    none ∉ around.map Frame.container ∧ ed.stack.opens = (opensOf around).drop n ∧
      (ed.stack.isEmpty = true ∧ around = [] ∨ ed.stack.isEmpty = false ∧
        ∃ parent rest kind, around = parent :: rest ∧ parent.container = some kind) := by
  have hn := h.nested
  rcases Stack.prepare_cases hp with ⟨hf, ht⟩ | ⟨array, rest, hf, hc, ht⟩ | ⟨top', rest, hf, hc, ht⟩
  · cases ht
    refine ⟨List.not_mem_nil, ?_, .inl ⟨by rw [Stack.isEmpty, hf]; rfl, rfl⟩⟩
    rw [Stack.opens, hf]
  · cases ht
    rw [Stack.shape, hf, List.map_cons, hc] at hn
    refine ⟨?_, ?_, .inr ⟨by rw [Stack.isEmpty, hf]; rfl, _, rest, _, rfl, hc⟩⟩
    · rw [List.map_cons, List.mem_cons, hc]
      exact fun hm => hm.elim (fun he => by cases he) hn
    · simp only [Stack.opens, hf, opensOf, List.filterMap_cons, hc, Option.map_some]
  · -- a name has come before, so that the frame around is its object
    rw [← ht] at hf hn ⊢
    cases hf
    rw [Stack.shape, List.map_cons, hc] at hn
    refine ⟨hn.2, ?_, .inr ⟨rfl, ?_⟩⟩
    · rw [Stack.opens, opensOf_cons_none hc]
    · cases around with
      | nil => cases hn.1
      | cons parent rest => exact ⟨parent, rest, .object, rfl, by simpa using hn.1⟩

theorem separator_eq (hf : ed.stats.fragments = 0 ↔ text = "") (he : ed.stack.isEmpty = true) :
    ed.separator ed.stack.isEmpty = lineFeed text := by
  by_cases htext : text = ""
  · simp [separator, he, lineFeed, htext, hf.mpr htext]
  · have hpos : 0 < ed.stats.fragments := Nat.pos_of_ne_zero (mt hf.mp htext)
    simp [separator, he, lineFeed, htext, hpos]

/-- **Where a node can begin**, any value may stand, with what is owed to it. -/
theorem Sound.prepare (h : Sound ed text) (hp : ed.stack.prepare = .ok ⟨top :: around, 0⟩)
    (key : Option String) (value : Json) :
    OpenText (opensOf (charged around))
      (text ++ (ed.separator ed.stack.isEmpty ++ owed around key) ++ value.compact) := by
  obtain ⟨-, hopens, ⟨he, rfl⟩ | ⟨he, parent, rest, kind, rfl, hc⟩⟩ := h.place hp
  · have hu : IsTexts text := by
      have := h.openText
      rw [hopens] at this
      exact this
    rw [separator_eq h.fragments he, owed, String.append_empty]
    exact hu.next value
  · have hu := h.openText
    rw [hopens, List.drop_zero, opensOf_cons_some hc] at hu
    have hsep : ed.separator ed.stack.isEmpty = "" := by rw [he]; rfl
    rw [hsep, String.empty_append]
    rw [charged, opensOf_cons_some (show parent.countChild.container = _ from hc)]
    exact hu.child hc key value

theorem fragments_sent {ed' : Editor} (h : ed.stats.fragments = 0 ↔ text = "")
    (he : ed'.stats.fragments = ed.stats.fragments) (fragment : String) :
    (ed'.sent fragment).stats.fragments = 0 ↔ text ++ fragment = "" := by
  rw [String.append_eq_empty_iff, ← h, ← he, sent]
  split_ifs with hf
  · rw [String.isEmpty_iff] at hf
    simp [hf]
  · have hne : fragment ≠ "" := fun hs => hf (String.isEmpty_iff.mpr hs)
    simp [countFragment, count, hne]

theorem Action.settle_cases (action : Action) (separator : String) (top : Frame)
    (around : List Frame) (kind : NodeKind) (value : Option Json) :
    let text := action.text separator around top.key kind value
    let opens := (action.settle (top.become kind) around 0 kind).opens
    let before := separator ++ owed around (action.newKey?.or top.key)
    (text = "" ∧ opens = opensOf around) ∨
    (∃ whole : Json, text = before ++ whole.compact ∧ opens = opensOf (charged around)) ∨
    ∃ container : ContainerKind, text = before ++ container.openToken ∧
      opens = (container, 0) :: opensOf (charged around) := by
  intro text opens before
  cases action with
  | remove => exact .inl ⟨rfl, by cases kind <;> rfl⟩
  | replace new | renameReplace key new =>
    exact .inr (.inl ⟨new, by cases kind <;> rfl, by cases kind <;> rfl⟩)
  | pass | rename key =>
    cases kind with
    | scalar => exact .inr (.inl ⟨value.getD .null, by cases value <;> rfl, rfl⟩)
    | object => exact .inr (.inr ⟨.object, rfl, rfl⟩)
    | array => exact .inr (.inr ⟨.array, rfl, rfl⟩)

theorem Sound.settle (h : Sound ed text) (hp : ed.stack.prepare = .ok ⟨top :: around, 0⟩)
    (action : Action) (kind : NodeKind) (value : Option Json) :
    OpenText (action.settle (top.become kind) around 0 kind).opens
      (text ++ action.text (ed.separator ed.stack.isEmpty) around top.key kind value) := by
  have hplace := h.prepare hp (action.newKey?.or top.key)
  rcases Action.settle_cases action (ed.separator ed.stack.isEmpty) top around kind value with
    ⟨ht, ho⟩ | ⟨whole, ht, ho⟩ | ⟨container, ht, ho⟩
  · have hu := h.openText
    rw [(h.place hp).2.1] at hu
    rw [ht, ho, String.append_empty]
    exact hu
  · rw [ht, ho, ← String.append_assoc]
    exact hplace whole
  · rw [ht, ho, ← String.append_assoc]
    exact OpenText.opening hplace container

theorem withhold_opens (ed : Editor) (top : Frame) (around : List Frame) (n : Nat)
    (kind : NodeKind) :
    ((ed.enter top around n kind).withhold kind).stack.opens = (opensOf around).drop n := by
  cases kind <;> rfl

theorem Sound.beginNode (h : Sound ed text) {rules : RuleSet} {kind : NodeKind}
    {value : Option Json} {ed' : Editor} {calls : List Call} {fragment : String}
    (he : ed.beginNode rules kind value = ⟨ed', calls, .ok fragment⟩) :
    Sound (ed'.sent fragment) (text ++ fragment) := by
  have hcases := beginNode_cases rules ed kind value
  rw [he] at hcases
  cases hcases with
  | @withheld top around n hp hd hn =>
    obtain ⟨hopen, hopens, -⟩ := h.place hp
    have hu := h.openText
    rw [hopens, ← withhold_opens ed top around _ kind] at hu
    refine ⟨?_, ?_, fragments_sent h.fragments (by rfl) ""⟩
    · rw [sent_stack, withhold_shape]
      exact nested_begin hopen kind
    · rw [sent_stack, String.append_empty]
      exact hu
  | @answered top around node action hp hd ha hnode haction =>
    refine ⟨?_, ?_, fragments_sent h.fragments (by rfl) _⟩
    · rw [sent_stack]
      exact (settle_shape _ _ _ _ _).symm ▸ nested_begin (h.place hp).1 kind
    · rw [sent_stack]
      exact h.settle hp _ kind value

theorem Sound.pushKey (h : Sound ed text) {name : String} {ed' : Editor} {calls : List Call}
    {fragment : String} (he : ed.pushKey name = ⟨ed', calls, .ok fragment⟩) :
    Sound (ed'.sent fragment) (text ++ fragment) := by
  rcases hs : ed.stack with ⟨frames, n⟩
  have hn := h.nested
  have hu := h.openText
  rw [hs] at hn hu
  cases frames with
  | nil =>
    rw [pushKey_of_not_object (by simp [hs])] at he
    cases he
  | cons top around =>
    by_cases ht : top.container = some .object
    · rw [pushKey_of_object hs ht] at he
      split_ifs at he with hd
      · cases he
        rw [sent_empty, String.append_empty]
        refine ⟨?_, hu, h.fragments⟩
        rw [Stack.shape, List.map_cons, ht] at hn
        refine ⟨by simp [ht], ?_⟩
        rw [List.map_cons, ht, List.mem_cons]
        exact fun hm => hm.elim (fun he => by cases he) hn
      · cases he
    · rw [pushKey_of_not_object (by simp [hs, ht])] at he
      cases he

theorem Sound.close (h : Sound ed text) {kind : ContainerKind} {ed' : Editor} {calls : List Call}
    {fragment : String} (he : ed.close kind = ⟨ed', calls, .ok fragment⟩) :
    Sound (ed'.sent fragment) (text ++ fragment) := by
  rcases hs : ed.stack with ⟨frames, n⟩
  have hn := h.nested
  have hu := h.openText
  rw [hs] at hn hu
  cases frames with
  | nil =>
    rw [Editor.close, Stack.top?, hs] at he
    cases he
  | cons top around =>
    rw [close_eq hs] at he
    by_cases ht : top.container = some kind
    · rw [if_pos ht] at he
      cases he
      rw [Stack.opens, opensOf_cons_some ht] at hu
      refine ⟨?_, ?_, fragments_sent h.fragments (by rfl) _⟩
      · rw [sent_stack]
        exact nested_of_not_mem hn.tail
      · rw [sent_stack]
        cases n with
        | zero => exact hu.close
        | succ n =>
          rw [if_pos (by omega), String.append_empty]
          exact hu
    · rw [if_neg ht] at he
      cases he

/-- **One step keeps the text sound**, if it succeeds. -/
theorem Sound.advance (h : Sound ed text) {rules : RuleSet} {step : Step} {ed' : Editor}
    {calls : List Call} {fragment : String}
    (he : ed.advance rules step = ⟨ed', calls, .ok fragment⟩) :
    Sound (ed'.sent fragment) (text ++ fragment) := by
  cases step with
  | node kind value => exact h.beginNode he
  | key name => exact h.pushKey he
  | close kind => exact h.close he
  | fail message => cases he
  | finish =>
    rw [Editor.advance, finish] at he
    split_ifs at he with hempty
    · cases he
      rw [sent_empty, String.append_empty]
      exact ⟨h.nested, h.openText, h.fragments⟩
    · cases he

end Sound

/-! ## Events -/

/-- The text that has gone out is part of whole texts, and closing brackets complete it unless an
error has stopped the editor. -/
def Completable (ed : Editor) (text : String) : Prop :=
  (ed.phase ≠ .halted → Sound ed text) ∧ ∃ rest, IsTexts (text ++ rest)

section Completable

variable {rules : RuleSet}

theorem Sound.completable {ed : Editor} {text : String} (h : Sound ed text) :
    Completable ed text := ⟨fun _ => h, _, h.isTexts⟩

theorem completable_performAll : ∀ (steps : List Step) {ed : Editor} {text : String}
    {calls : Array Call}, Sound ed text →
    let r := ed.performAll rules text calls steps
    Completable r.editor r.sink
  | [], _, _, _, h => h.completable
  | step :: steps, ed, text, calls, h => by
    rcases ha : ed.advance rules step with ⟨ed', more, e | fragment⟩
    · rw [performAll, perform_of_error ha]
      exact ⟨fun hne => absurd rfl hne, _, h.isTexts⟩
    · rw [performAll, perform_of_ok FragmentSink.neverFails_text ha, FragmentSink.put_text]
      exact completable_performAll steps (h.advance ha)

theorem completable_handle {ed : Editor} {text : String} (h : Completable ed text)
    (event : Event) :
    let r := ed.handle rules text event
    Completable r.editor r.sink := by
  by_cases hr : ed.phase = .running
  · have hs : Sound ed text := h.1 (by rw [hr]; exact Phase.noConfusion)
    rw [handle_running hr]
    exact completable_performAll event.steps ⟨hs.nested, hs.openText, hs.fragments⟩
  · rw [handle_stopped hr]
    exact h

theorem completable_feed : ∀ (events : List Event) {ed : Editor} {text : String},
    Completable ed text →
    let r := ed.feed rules text events
    Completable r.1 r.2
  | [], _, _, h => h
  | event :: events, _, _, h => completable_feed events (completable_handle h event)

end Completable

/-! ## The text of any events -/

/-- **What goes out can always be completed.** Whatever the rules and the events, these fragments
and no others reach every sink that never fails; together they are part of whole texts, and while
no error has stopped the editor, the closing brackets of the containers that are open and not
withheld complete them. -/
theorem output_completable (rules : RuleSet) (d : Nat) (events : List Event) :
    ∃ (ed : Editor) (fragments : List String),
      (∀ (σ : Type) [FragmentSink σ], FragmentSink.NeverFails σ → ∀ sink : σ,
        (Editor.new d).feed rules sink events = (ed, FragmentSink.emitAll sink fragments)) ∧
      (ed.phase ≠ .halted → IsTexts (String.join fragments ++ ed.stack.closers)) ∧
      ∃ rest, IsTexts (String.join fragments ++ rest) := by
  obtain ⟨ed, fragments, hfeed⟩ := exists_feed rules events (Editor.new d)
  have hc : Completable (Editor.new d) "" := (sound_new d).completable
  have htext : Completable ((Editor.new d).feed rules "" events).1 _ := completable_feed events hc
  rw [hfeed String FragmentSink.neverFails_text "", FragmentSink.emitAll_text,
    String.empty_append] at htext
  exact ⟨ed, fragments, hfeed, fun hr => (htext.1 hr).isTexts, htext.2⟩

end Editor

end JsonEdit
