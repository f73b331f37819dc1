import JsonEdit.Proofs.Editor.Feed
import JsonEdit.Proofs.Json.Compact
import Mathlib.Data.List.Forall2

/-!
# What the stack of a running editor stands for

The stack is what an editor remembers of the events it has taken. From outside a record of the open
containers can be kept: whether a handler has had one removed or replaced, how many children have
begun in it, and for how many of them something has gone out. The stack of a running editor agrees
with this record.

* `Seen`, `Editor.seen`: what is seen of events from outside;
* `Opened`, `Opened.after`: the record of the open containers;
* `Withholds`: the containers from one that is withheld up to the innermost;
* `Lines`, `Represents`: frames and a stack that agree with a record;
* `Lines.place`, `Represents.withhold`, `Represents.settle`: a node that begins;
  **`Represents.advance`**: one step;
* `Represents.handle`, **`running_stack_represents`**: one event, and any number of them.
-/

namespace JsonEdit

/-! ## A record from outside -/

/-- What is seen of an event. -/
structure Seen where
  event : Event
  calls : Array Call
  /-- A fragment has gone out. -/
  wrote : Bool

/-- A fragment has gone out between these two. -/
def Editor.wrote (ed ed' : Editor) : Bool := ed.stats.fragments < ed'.stats.fragments

/-- Events in turn, and what is seen of them. -/
def Editor.seen {σ : Type} [FragmentSink σ] (rules : RuleSet) (ed : Editor) (sink : σ) :
    List Event → List Seen
  | [] => []
  | event :: events =>
    let r := ed.handle rules sink event
    ⟨event, r.calls, ed.wrote r.editor⟩ :: r.editor.seen rules r.sink events

/-- What is answered where these handlers are called. -/
def RuleSet.answer (rules : RuleSet) (calls : Array Call) : Action :=
  match calls.toList with
  | [] => .pass
  | call :: _ => rules.actionAt call.node

/-- An open container. -/
structure Opened where
  kind : ContainerKind
  /-- It has been removed or replaced. -/
  withheld : Bool
  /-- How many children have begun. -/
  begun : Nat
  /-- For how many of them a fragment has gone out. -/
  written : Nat
deriving DecidableEq, Repr

namespace Opened

/-- One more child of the innermost container. -/
def child (wrote : Bool) : List Opened → List Opened
  | [] => []
  | parent :: outer =>
    { parent with begun := parent.begun + 1, written := parent.written + wrote.toNat } :: outer

/-- The record, innermost container first, after a step. -/
def step (action : Action) (wrote : Bool) (record : List Opened) : Step → List Opened
  | .node kind _ =>
    (kind.container?.map fun container => ⟨container, action.withholds, 0, 0⟩).toList ++
      child wrote record
  | .close _ => record.tail
  | .key _ | .fail _ | .finish => record

/-- The record after an event. -/
def after (rules : RuleSet) (record : List Opened) (seen : Seen) : List Opened :=
  seen.event.steps.foldl (step (rules.answer seen.calls) seen.wrote) record

@[simp] theorem child_withheld (wrote : Bool) (record : List Opened) :
    (child wrote record).map withheld = record.map withheld := by
  cases record <;> rfl

end Opened

theorem RuleSet.answer_callsAt (rules : RuleSet) (node : Node) :
    rules.answer (rules.callsAt node).toArray = rules.actionAt node := by
  rw [answer, callsAt]
  cases hf : rules.first? node.path with
  | none => simp [actionAt, hf]
  | some found => rfl

/-! ## Containers that are withheld -/

/-- How many of these containers, innermost first, are withheld: those from the one that has been
removed or replaced up to the innermost. -/
inductive Withholds : List Bool → Nat → Prop
  | nothing {flags : List Bool} : true ∉ flags → Withholds flags 0
  | upTo (inside outside : List Bool) : true ∉ inside → true ∉ outside →
    Withholds (inside ++ true :: outside) (inside.length + 1)

namespace Withholds

variable {flags : List Bool} {flag : Bool} {n : Nat}

theorem le_length (h : Withholds flags n) : n ≤ flags.length := by
  cases h with
  | nothing => exact Nat.zero_le _
  | upTo => simp

theorem eq_zero_iff (h : Withholds flags n) : n = 0 ↔ true ∉ flags := by
  cases h with
  | nothing hf => exact iff_of_true rfl hf
  | upTo => simp

theorem opening (h : Withholds flags 0) (withheld : Bool) :
    Withholds (withheld :: flags) withheld.toNat := by
  have hf := h.eq_zero_iff.mp rfl
  cases withheld with
  | false => exact .nothing (by simpa using hf)
  | true => exact .upTo [] flags List.not_mem_nil hf

theorem deeper (h : Withholds flags n) (hn : 0 < n) : Withholds (false :: flags) (n + 1) := by
  cases h with
  | nothing => cases hn
  | upTo inside outside hi ho => exact .upTo (false :: inside) outside (by simpa using hi) ho

theorem tail (h : Withholds (flag :: flags) n) : Withholds flags (n - 1) := by
  generalize hc : flag :: flags = all at h
  cases h with
  | nothing hf =>
    subst hc
    exact .nothing fun hm => hf (List.mem_cons_of_mem _ hm)
  | upTo inside outside hi ho =>
    -- the container that ends is the one that is withheld, or it is inside of that one
    cases inside with
    | nil =>
      cases hc
      exact .nothing ho
    | cons b inside =>
      cases hc
      exact .upTo inside outside (fun hm => hi (List.mem_cons_of_mem _ hm)) ho

end Withholds

/-! ## Frames that agree with a record -/

/-- The frame of an open container. -/
structure Opened.Matches (opened : Opened) (f : Frame) : Prop where
  container : f.container = some opened.kind
  index : opened.kind = .array → f.nextIndex = opened.begun
  count : f.childCount = opened.written
  le : opened.written ≤ opened.begun

/-- **The frames are those of the open containers**, with one more on top when a member of the
innermost object is due. -/
inductive Lines : List Opened → List Frame → Prop
  | settled {record : List Opened} {frames : List Frame} :
    List.Forall₂ Opened.Matches record frames → Lines record frames
  | due {parent : Opened} {record : List Opened} {frames : List Frame} (name : String) :
    parent.kind = .object → List.Forall₂ Opened.Matches (parent :: record) frames →
    Lines (parent :: record) (.pending (some name) :: frames)

/-- Every frame but the outermost has a key. -/
def Keyed (frames : List Frame) : Prop := none ∉ (frames.map Frame.key).dropLast

/-- **A stack that agrees with a record**, and is not too deep. -/
structure Represents (d : Nat) (record : List Opened) (s : Stack) : Prop where
  depth : s.depth ≤ d
  lines : Lines record s.frames
  keyed : Keyed s.frames
  suppression : Withholds (record.map Opened.withheld) s.suppression

section Frames

variable {record : List Opened} {frames around : List Frame} {f g top : Frame} {n : Nat}

theorem Keyed.tail (h : Keyed (f :: frames)) : Keyed frames := by
  cases frames with
  | nil => exact List.not_mem_nil
  | cons g frames => exact fun hm => h (List.mem_cons_of_mem _ hm)

theorem Keyed.rename (h : Keyed (f :: frames)) (hk : g.key = none → f.key = none) :
    Keyed (g :: frames) := by
  cases frames with
  | nil => exact List.not_mem_nil
  | cons g' frames =>
    simp only [Keyed, List.map_cons, List.dropLast_cons_cons, List.mem_cons, not_or] at h ⊢
    exact ⟨fun hn => h.1 (hk hn.symm).symm, h.2⟩

theorem Keyed.cons (h : Keyed frames) (hk : f.key ≠ none) : Keyed (f :: frames) := by
  cases frames with
  | nil => exact List.not_mem_nil
  | cons g frames =>
    simp only [Keyed, List.map_cons, List.dropLast_cons_cons, List.mem_cons, not_or] at h ⊢
    exact ⟨hk.symm, h⟩

theorem keyed_congr (h : frames.map Frame.key = around.map Frame.key) :
    Keyed frames ↔ Keyed around := by
  rw [Keyed, Keyed, h]

theorem openContainers_of_matches (h : List.Forall₂ Opened.Matches record frames) :
    frames.countP (fun f => f.container.isSome) = record.length := by
  induction h with
  | nil => rfl
  | cons hm _ ih => simp [ih, hm.container]

theorem Lines.openContainers (h : Lines record frames) :
    frames.countP (fun f => f.container.isSome) = record.length := by
  cases h with
  | settled hm => exact openContainers_of_matches hm
  | due name hk hm =>
    rw [List.countP_cons, openContainers_of_matches hm]
    rfl

theorem Lines.matches (h : Lines record (f :: frames)) (hc : f.container ≠ none) :
    List.Forall₂ Opened.Matches record (f :: frames) := by
  cases h with
  | settled hm => exact hm
  | due name hk hm => exact absurd rfl hc

theorem Opened.Matches.child {parent : Opened} {wrote : Bool} (h : parent.Matches f)
    (hc : g.container = f.container) (hi : parent.kind = .array → g.nextIndex = f.nextIndex + 1)
    (hw : g.childCount = f.childCount + wrote.toNat) :
    Opened.Matches
      { parent with begun := parent.begun + 1, written := parent.written + wrote.toNat } g where
  container := hc.trans h.container
  index hk := by rw [hi hk, h.index hk]
  count := by rw [hw, h.count]
  le := by
    have hle := h.le
    have hone : wrote.toNat ≤ 1 := Bool.toNat_le wrote
    show parent.written + wrote.toNat ≤ parent.begun + 1
    omega

/-- **Where a node can begin**: it is one more child of the innermost container, with a frame of
its own. -/
theorem Lines.place {s : Stack} (h : Lines record s.frames) (hk : Keyed s.frames)
    (hp : s.prepare = .ok ⟨top :: around, n⟩) (drops : Bool) :
    List.Forall₂ Opened.Matches (Opened.child (!drops) record)
        (if drops then around else charged around) ∧
      top.container = none ∧ top.nextIndex = 0 ∧ Keyed (top :: around) := by
  rcases Stack.prepare_cases hp with ⟨hf, ht⟩ | ⟨array, rest, hf, hc, ht⟩ | ⟨top', rest, hf, hc, ht⟩
  · cases ht
    rw [hf] at h
    cases h with
    | settled hm =>
      cases hm
      exact ⟨by cases drops <;> exact .nil, rfl, rfl, List.not_mem_nil⟩
  · cases ht
    rw [hf] at h hk
    cases h.matches (by rw [hc]; exact Option.some_ne_none _) with
    | cons hm hrest =>
      refine ⟨?_, rfl, rfl, ?_⟩
      · cases drops <;> exact .cons (hm.child rfl (fun _ => rfl) rfl) hrest
      · exact Keyed.cons (hk.rename fun hn => hn) (Option.some_ne_none _)
  · -- a name has come before, so that the frame around is its object
    rw [← ht] at hf h hk
    cases hf
    cases h with
    | settled hm =>
      cases hm with
      | cons hm hrest => exact absurd (hm.container.symm.trans hc) (Option.some_ne_none _)
    | @due parent _ _ name hkind hm =>
      have hno : parent.kind ≠ .array := by rw [hkind]; decide
      refine ⟨?_, rfl, rfl, hk⟩
      cases hm with
      | cons hm hrest =>
        cases drops <;> exact .cons (hm.child rfl (fun he => absurd he hno) rfl) hrest

end Frames

/-! ## Steps -/

section Steps

variable {record : List Opened} {ed ed' : Editor} {calls : List Call} {fragment : String}
  {rules : RuleSet} {d : Nat}

theorem Action.text_isEmpty (action : Action) (separator : String) (around : List Frame)
    (key : Option String) (kind : NodeKind) (value : Option Json) :
    (action.text separator around key kind value).isEmpty = action.drops := by
  unfold text
  split_ifs with hd
  · exact hd.symm
  rw [Bool.eq_false_iff.mpr hd, Bool.eq_false_iff, ne_eq, String.isEmpty_iff,
    String.append_eq_empty_iff, not_and]
  intro _
  split
  · next token ht _ => cases kind <;> cases ht <;> decide
  · exact Json.compact_ne_empty _

theorem represents_begun {around : List Frame} {f : Frame} {kind : NodeKind} {withheld : Bool}
    {n m : Nat} (hd : around.length < d) (hlines : List.Forall₂ Opened.Matches record around)
    (hkeyed : Keyed (f :: around))
    (hf : ∀ container, kind.container? = some container →
      f.container = some container ∧ f.childCount = 0 ∧ f.nextIndex = 0)
    (hn : Withholds (record.map Opened.withheld) n)
    (hm : Withholds (withheld :: record.map Opened.withheld) m) :
    Represents d
      ((kind.container?.map fun container => ⟨container, withheld, 0, 0⟩).toList ++ record)
      (if kind.isContainer then ⟨f :: around, m⟩ else ⟨around, n⟩) := by
  cases hc : kind.container? with
  | none =>
    rw [if_neg (by simp [NodeKind.isContainer, hc])]
    exact ⟨Nat.le_of_lt hd, .settled hlines, hkeyed.tail, hn⟩
  | some container =>
    rw [if_pos (by simp [NodeKind.isContainer, hc])]
    obtain ⟨hfc, hcount, hindex⟩ := hf container hc
    exact ⟨hd, .settled (.cons ⟨hfc, fun _ => hindex, hcount, Nat.le_refl 0⟩ hlines), hkeyed, hm⟩

theorem Frame.become_fresh {top : Frame} (hi : top.nextIndex = 0) {kind : NodeKind}
    (container : ContainerKind) (hc : kind.container? = some container) :
    (top.become kind).container = some container ∧ (top.become kind).childCount = 0 ∧
      (top.become kind).nextIndex = 0 := by
  rw [become, hc]
  exact ⟨rfl, rfl, hi⟩

theorem Represents.withhold {top : Frame} {around : List Frame} {n : Nat}
    (h : Represents d record ed.stack) (hp : ed.stack.prepare = .ok ⟨top :: around, n⟩)
    (hd : around.length < d) (hn : 0 < n) (kind : NodeKind) (value : Option Json) :
    Represents d (Opened.step .pass false record (.node kind value))
      ((ed.enter top around n kind).withhold kind).stack := by
  obtain ⟨hlines, -, hi, hkeyed⟩ := h.lines.place h.keyed hp true
  obtain ⟨_, _, hs, -⟩ := Stack.prepare_top hp
  cases hs
  have hstack : ((ed.enter top around ed.stack.suppression kind).withhold kind).stack =
      if kind.isContainer then ⟨top.become kind :: around, ed.stack.suppression + 1⟩
      else ⟨around, ed.stack.suppression⟩ := by
    cases kind <;> rfl
  rw [hstack]
  refine represents_begun hd hlines (hkeyed.rename (by simp)) (Frame.become_fresh hi) ?_ ?_
  · rw [Opened.child_withheld]
    exact h.suppression
  · rw [Opened.child_withheld]
    exact h.suppression.deeper hn

theorem Represents.settle {top : Frame} {around : List Frame} (h : Represents d record ed.stack)
    (hp : ed.stack.prepare = .ok ⟨top :: around, 0⟩) (hd : around.length < d) (action : Action)
    (kind : NodeKind) (value : Option Json) :
    Represents d (Opened.step action (!action.drops) record (.node kind value))
      (action.settle (top.become kind) around 0 kind) := by
  obtain ⟨hlines, -, hi, hkeyed⟩ := h.lines.place h.keyed hp action.drops
  obtain ⟨_, _, hs, -⟩ := Stack.prepare_top hp
  have hzero : Withholds (record.map Opened.withheld) 0 := by
    rw [(Stack.mk.inj hs).2]
    exact h.suppression
  have hkeys : (if action.drops then around else charged around).map Frame.key =
      around.map Frame.key := by
    split_ifs
    · rfl
    · exact charged_keys around
  have hlength : (if action.drops then around else charged around).length = around.length := by
    simpa using congrArg List.length hkeys
  have hleft : Keyed (top :: if action.drops then around else charged around) :=
    (keyed_congr (by rw [List.map_cons, List.map_cons, hkeys])).mpr hkeyed
  refine represents_begun (by rw [hlength]; exact hd) hlines (hleft.rename fun hn => ?_)
    (Frame.become_fresh hi) ?_ ?_
  · rw [Option.or_eq_none_iff] at hn
    simpa using hn.2
  · rw [Opened.child_withheld]
    exact hzero
  · rw [Opened.child_withheld, Nat.zero_add]
    exact hzero.opening _

theorem Represents.beginNode (h : Represents d record ed.stack) (hd : ed.maxDepth = d)
    {kind : NodeKind} {value : Option Json}
    (he : ed.beginNode rules kind value = ⟨ed', calls, .ok fragment⟩) :
    Represents d (Opened.step (rules.answer calls.toArray) (!fragment.isEmpty) record
      (.node kind value)) ed'.stack := by
  have hcases := Editor.beginNode_cases rules ed kind value
  rw [he] at hcases
  cases hcases with
  | withheld hp hlt hn => exact h.withhold hp (hd ▸ hlt) hn kind value
  | answered hp hlt ha hnode haction =>
    rw [rules.answer_callsAt, ← haction, Action.text_isEmpty]
    exact h.settle hp (hd ▸ hlt) _ kind value

theorem Represents.pushKey (h : Represents d record ed.stack) (hd : ed.maxDepth = d)
    {name : String} (he : ed.pushKey name = ⟨ed', calls, .ok fragment⟩) :
    Represents d record ed'.stack := by
  obtain ⟨hdepth, hlines, hkeyed, hsup⟩ := h
  rcases hs : ed.stack with ⟨frames, n⟩
  rw [hs] at hlines hkeyed hsup
  cases frames with
  | nil =>
    rw [Editor.pushKey_of_not_object (by simp [hs])] at he
    cases he
  | cons top around =>
    by_cases ht : top.container = some .object
    · rw [Editor.pushKey_of_object hs ht] at he
      split_ifs at he with hlt
      · cases he
        cases hlines.matches (by rw [ht]; exact Option.some_ne_none _) with
        | cons hm hrest =>
          have hkind := Option.some_inj.mp (hm.container.symm.trans ht)
          exact ⟨hd ▸ hlt, .due name hkind (.cons hm hrest),
            hkeyed.cons (Option.some_ne_none name), hsup⟩
      · cases he
    · rw [Editor.pushKey_of_not_object (by simp [hs, ht])] at he
      cases he

theorem Represents.close (h : Represents d record ed.stack) {kind : ContainerKind}
    (he : ed.close kind = ⟨ed', calls, .ok fragment⟩) : Represents d record.tail ed'.stack := by
  obtain ⟨hdepth, hlines, hkeyed, hsup⟩ := h
  rcases hs : ed.stack with ⟨frames, n⟩
  rw [hs] at hdepth hlines hkeyed hsup
  cases frames with
  | nil =>
    rw [Editor.close, Stack.top?, hs] at he
    cases he
  | cons top around =>
    rw [Editor.close_eq hs] at he
    by_cases ht : top.container = some kind
    · rw [if_pos ht] at he
      cases he
      cases hlines.matches (by rw [ht]; exact Option.some_ne_none _) with
      | cons hm hrest =>
        exact ⟨Nat.le_of_succ_le hdepth, .settled hrest, hkeyed.tail, hsup.tail⟩
    · rw [if_neg ht] at he
      cases he

/-- **One step keeps the stack and the record in agreement**, if it succeeds. -/
theorem Represents.advance (h : Represents d record ed.stack) (hd : ed.maxDepth = d) {step : Step}
    (he : ed.advance rules step = ⟨ed', calls, .ok fragment⟩) :
    Represents d (Opened.step (rules.answer calls.toArray) (!fragment.isEmpty) record step)
      ed'.stack := by
  cases step with
  | node kind value => exact h.beginNode hd he
  | key name => exact h.pushKey hd he
  | close kind => exact h.close he
  | fail message => cases he
  | finish =>
    rw [Editor.advance, Editor.finish] at he
    split_ifs at he
    · cases he
      exact h
    · cases he

end Steps

/-! ## Events -/

section Events

variable {σ : Type} [FragmentSink σ] {rules : RuleSet} {record : List Opened} {ed : Editor}
  {sink : σ} {event : Event} {step : Step} {d : Nat}

theorem Editor.wrote_sent {ed' : Editor} (h : ed'.stats.fragments = ed.stats.fragments)
    (fragment : String) :
    ed.wrote (ed'.sent fragment) = !fragment.isEmpty := by
  unfold wrote sent
  split_ifs with hf
  · simp [h, hf]
  · simp [h, hf, countFragment, count]

theorem Represents.perform (h : Represents d record ed.stack) (hd : ed.maxDepth = d)
    (hr : (ed.perform rules sink step).editor.phase = .running) :
    let r := ed.perform rules sink step
    Represents d (Opened.step (rules.answer r.calls) (ed.wrote r.editor) record step)
        r.editor.stack ∧
      r.editor.maxDepth = d := by
  obtain ⟨ed', calls, fragment, ha, hp⟩ :=
    Editor.perform_of_result_ok (Editor.perform_result_of_running hr)
  obtain ⟨hmax, hcount, -⟩ := Editor.advance_unchanged rules ed step
  rw [ha] at hmax hcount
  rw [hp]
  simp only [Editor.wrote_sent hcount, Editor.sent_stack, Editor.sent_maxDepth]
  exact ⟨h.advance hd ha, hmax.trans hd⟩

theorem Represents.handle_step (h : Represents d record ed.stack) (hd : ed.maxDepth = d)
    (hp : ed.phase = .running) {event : Event} (hs : event.steps = [step])
    (hr : (ed.handle rules sink event).editor.phase = .running) :
    let r := ed.handle rules sink event
    Represents d (Opened.after rules record ⟨event, r.calls, ed.wrote r.editor⟩) r.editor.stack ∧
      r.editor.maxDepth = d := by
  simp only [Opened.after, hs, List.foldl_cons, List.foldl_nil]
  rw [Editor.handle_step hp sink hs] at hr ⊢
  have htick : Represents d record ed.tick.stack := h
  exact htick.perform hd hr

theorem Editor.pushKey_quiet {name : String} {ed' : Editor} {calls : List Call} {fragment : String}
    (h : ed.pushKey name = ⟨ed', calls, .ok fragment⟩) :
    ∃ stack, ed' = { ed with stack } ∧ calls = [] ∧ fragment = "" := by
  unfold pushKey checkDepth at h
  split at h
  · cases h
  · dsimp only at h
    split_ifs at h
    · cases h
    · cases h
      exact ⟨_, rfl, rfl, rfl⟩

/-- **One event keeps the stack and the record in agreement**, if the editor goes on. -/
theorem Represents.handle (h : Represents d record ed.stack) (hd : ed.maxDepth = d)
    (hp : ed.phase = .running) (hr : (ed.handle rules sink event).editor.phase = .running) :
    let r := ed.handle rules sink event
    Represents d (Opened.after rules record ⟨event, r.calls, ed.wrote r.editor⟩) r.editor.stack ∧
      r.editor.maxDepth = d := by
  cases event with
  | startObject name =>
    cases name with
    | none => exact h.handle_step hd hp rfl hr
    | some name =>
      -- the object begins as without the name, and then its first member is due
      have hs : (Event.startObject none).steps = [.node .object none] := rfl
      have hfirst := Editor.perform_ok_or_halted rules ed.tick sink (.node .object none)
      rw [← Editor.handle_step hp sink hs] at hfirst
      have hbegin := @Represents.handle_step σ _ rules record ed sink _ d h hd hp _ hs
      rw [Editor.handle_startObject hp] at hr ⊢
      generalize ed.handle rules sink (.startObject none) = begun at hbegin hfirst hr ⊢
      obtain ⟨ed₁, sink₁, calls₁, e | _⟩ := begun
      · rcases hfirst with hok | hhalted
        · cases hok
        · rw [show ed₁.phase = _ from hhalted] at hr
          cases hr
      · simp only at hr ⊢
        obtain ⟨ed₂, calls₂, fragment, ha, hperform⟩ :=
          Editor.perform_of_result_ok (Editor.perform_result_of_running hr)
        obtain ⟨stack, rfl, rfl, rfl⟩ := Editor.pushKey_quiet ha
        rw [hperform] at hr ⊢
        obtain ⟨hrep, hmax⟩ := hbegin hr
        simp only [Array.append_empty]
        exact ⟨hrep.pushKey hmax ha, hmax⟩
  | key name => exact h.handle_step hd hp rfl hr
  | scalar value => exact h.handle_step hd hp rfl hr
  | endObject => exact h.handle_step hd hp rfl hr
  | startArray => exact h.handle_step hd hp rfl hr
  | endArray => exact h.handle_step hd hp rfl hr
  | error message => exact h.handle_step hd hp rfl hr
  | finish => exact h.handle_step hd hp rfl hr

theorem Represents.feed (events : List Event) : ∀ {ed : Editor} {sink : σ} {record : List Opened},
    Represents d record ed.stack → ed.maxDepth = d →
    (ed.feed rules sink events).1.phase = .running →
    Represents d ((ed.seen rules sink events).foldl (Opened.after rules) record)
      (ed.feed rules sink events).1.stack := by
  induction events with
  | nil => exact fun h _ _ => h
  | cons event events ih =>
    intro ed sink record h hd hr
    -- what has stopped stays so: the editor still runs before this event and after it
    by_cases hp : ed.phase = .running
    · by_cases hr' : (ed.handle rules sink event).editor.phase = .running
      · obtain ⟨hrep, hmax⟩ := h.handle hd hp hr'
        exact ih hrep hmax hr
      · rw [Editor.feed, Editor.feed_of_stopped hr'] at hr
        exact absurd hr hr'
    · rw [Editor.feed_of_stopped hp] at hr
      exact absurd hr hp

end Events

/-! ## Running editors -/

theorem Lines.childCount_le {record : List Opened} {frames : List Frame} (h : Lines record frames) :
    ∀ f ∈ frames, f.container = some .array → f.childCount ≤ f.nextIndex := by
  have hmatches : ∀ {record : List Opened} {frames : List Frame},
      List.Forall₂ Opened.Matches record frames → ∀ f ∈ frames,
        f.container = some .array → f.childCount ≤ f.nextIndex := by
    intro record frames hm
    induction hm with
    | nil => exact fun f hf => absurd hf List.not_mem_nil
    | cons hm _ ih =>
      intro f hf hc
      rcases List.mem_cons.mp hf with rfl | hf
      · rw [hm.count, hm.index (Option.some_inj.mp (hm.container.symm.trans hc))]
        exact hm.le
      · exact ih f hf hc
  cases h with
  | settled hm => exact hmatches hm
  | due name hk hm =>
    intro f hf hc
    rcases List.mem_cons.mp hf with rfl | hf
    · cases hc
    · exact hmatches hm f hf hc

/-- **The stack of a running editor agrees with what is seen from outside**, whatever the rules and
the events. It is never too deep, and what it counts as withheld are the open containers from one
that has been removed or replaced up to the innermost. -/
theorem running_stack_represents {σ : Type} [FragmentSink σ] (rules : RuleSet) (d : Nat) (sink : σ)
    (events : List Event) (hr : ((Editor.new d).feed rules sink events).1.phase = .running) :
    let stack := ((Editor.new d).feed rules sink events).1.stack
    let record := ((Editor.new d).seen rules sink events).foldl (Opened.after rules) []
    Represents d record stack ∧ stack.suppression ≤ stack.openContainers ∧
      (stack.suppression = 0 ↔ ∀ opened ∈ record, opened.withheld = false) ∧
      (stack.isEmpty = true → stack.suppression = 0) ∧
      ∀ f ∈ stack.frames, f.container = some .array → f.childCount ≤ f.nextIndex := by
  intro stack record
  have hnew : Represents d [] (Editor.new d).stack :=
    ⟨Nat.zero_le d, .settled .nil, List.not_mem_nil, .nothing List.not_mem_nil⟩
  have h : Represents d record stack := hnew.feed events rfl hr
  have hle : stack.suppression ≤ stack.openContainers := by
    have hlen := h.suppression.le_length
    rw [List.length_map] at hlen
    rw [Stack.openContainers, h.lines.openContainers]
    exact hlen
  refine ⟨h, hle, ?_, fun hempty => ?_, h.lines.childCount_le⟩
  · rw [h.suppression.eq_zero_iff]
    simp
  · rw [Stack.isEmpty, List.isEmpty_iff] at hempty
    rw [Stack.openContainers, hempty] at hle
    exact Nat.le_zero.mp hle

/-- Inside of a member that is removed, the second of its object. -/
theorem running_stack_represents_removed :
    let rules : RuleSet := [⟨.predicate "b" fun path => path.keys == ["b"], .always .remove⟩]
    let events : List Event :=
      [.startObject (some "a"), .scalar .null, .key "b", .startArray, .scalar .null]
    let stack := ((Editor.new 3).feed rules "" events).1.stack
    ((Editor.new 3).feed rules "" events).1.phase = .running ∧ stack.suppression = 1 ∧
      Represents 3 [⟨.array, true, 1, 0⟩, ⟨.object, false, 2, 1⟩] stack := by
  intro rules events stack
  have hr : ((Editor.new 3).feed rules "" events).1.phase = .running := by decide +kernel
  have hs : stack.suppression = 1 := by decide +kernel
  have hrecord : ((Editor.new 3).seen rules "" events).foldl (Opened.after rules) [] =
      [⟨.array, true, 1, 0⟩, ⟨.object, false, 2, 1⟩] := by decide +kernel
  have h := (running_stack_represents rules 3 "" events hr).1
  rw [hrecord] at h
  exact ⟨hr, hs, h⟩

end JsonEdit
