import JsonEdit.Proofs.Editor.Withheld
import JsonEdit.Proofs.Json.Compact
import JsonEdit.Proofs.Json.Events

/-!
# Editing events is editing the value

An editor sees a value as events and settles the fate of a node while the rest of the value is not
there yet. What it gives out is nevertheless the text of what the rules make of the whole value.

* `Edited.written`, `Edited.around`: the text that is left of a node in its parent, and the frames
  around it once it is over;
* `EditsNode`, `EditsInside`: events that come to what rules make of one node, and of the children
  of one container;
* `edits_told`, `edits_itemsTold`, `edits_membersTold`: so do events that tell a value;
* **`run_documentEvents_eq_edit`**: a whole document.
-/

namespace JsonEdit

/-! ## What is left of a node -/

/-- The text that is left of a node, with what its parent owes it. -/
def Edited.written (e : Edited) (separator : String) (around : List Frame) (key : Option String) :
    String :=
  match e.kept with
  | none => ""
  | some (new, value) => separator ++ owed around (new.or key) ++ value.compact

/-- The frames around a node once it is over. -/
def Edited.around (e : Edited) (frames : List Frame) : List Frame :=
  if e.kept.isSome then charged frames else frames

theorem Edited.written_item (e : Edited) {parent : Frame} (hc : parent.container = some .array)
    (around : List Frame) (key : Option String) :
    e.written "" (parent :: around) key =
      ((e.kept.map Prod.snd).map Json.compact).elim "" (comma parent.childCount ++ ·) := by
  obtain ⟨calls, _ | ⟨new, value⟩⟩ := e
  · rfl
  · simp [Edited.written, owed, childPrefix_array hc]

theorem Edited.written_member (e : Edited) {parent : Frame} (hc : parent.container = some .object)
    (around : List Frame) (name : String) :
    e.written "" (parent :: around) (some name) =
      ((e.kept.map fun (new, value) => (new.getD name, value)).map Json.memberText).elim ""
        (comma parent.childCount ++ ·) := by
  obtain ⟨calls, _ | ⟨new, value⟩⟩ := e
  · rfl
  · have hor : new.or (some name) = some (new.getD name) := by cases new <;> rfl
    simp [Edited.written, owed, hor, childPrefix_object hc]

/-- A frame with more children written. -/
def Frame.grow (f : Frame) (more : Nat) : Frame := { f with childCount := f.childCount + more }

theorem pathOf_grow (f : Frame) (more : Nat) (around : List Frame) :
    pathOf (f.grow more :: around) = pathOf (f :: around) := pathOf_congr rfl

theorem Edited.around_nil (e : Edited) : e.around [] = [] := by
  unfold Edited.around
  split_ifs <;> rfl

theorem Edited.around_cons (e : Edited) (parent : Frame) (around : List Frame) :
    e.around (parent :: around) = parent.grow e.kept.isSome.toNat :: around := by
  obtain ⟨calls, _ | kept⟩ := e <;> rfl

section EditNode

variable {rules : RuleSet} {path : List String} {value : Json}

theorem editNode_of_settled {inside : List String → List Call × Json} {kind : NodeKind}
    {scalar : Option Json} (hw : (rules.actionAt (value.asNode path)).withholds = false →
      openToken? kind = none ∧ scalar = some value ∧ inside = fun _ => ([], value))
    (separator : String) (around : List Frame) (key : Option String) :
    let action := rules.actionAt (value.asNode path)
    let e := rules.editNode path value inside
    e.calls = rules.callsAt (value.asNode path) ∧
      e.written separator around key = action.text separator around key kind scalar ∧
      e.around around = if action.drops then around else charged around := by
  intro action e
  simp only [e, RuleSet.editNode]
  change action.withholds = false → _ at hw
  cases ha : action with
  | pass | rename name =>
    obtain ⟨ht, rfl, rfl⟩ := hw (by rw [ha]; rfl)
    simp [action, ha, Action.drops, Action.newValue?, Action.newKey?, Action.text, Edited.written,
      Edited.around, ht]
  | remove | replace new | renameReplace name new =>
    cases kind <;> simp [action, ha, Action.drops, Action.newValue?, Action.newKey?, Action.text,
      Edited.written, Edited.around, openToken?]

theorem editNode_of_not_withholds (hw : (rules.actionAt (value.asNode path)).withholds = false)
    (inside : List String → List Call × Json) :
    let action := rules.actionAt (value.asNode path)
    let r := inside (renamePath path action.newKey?)
    rules.editNode path value inside =
      ⟨rules.callsAt (value.asNode path) ++ r.1, some (action.newKey?, r.2)⟩ := by
  intro action
  simp only [RuleSet.editNode]
  change action.withholds = false at hw
  cases ha : action <;> rw [ha] at hw <;> cases hw <;>
    simp [action, ha, Action.drops, Action.newValue?]

end EditNode

/-! ## Paths -/

theorem nodeOf_eq_asNode {key : Option String} {around : List Frame}
    (hk : key = (pathOf (.pending key :: around)).getLast?) (value : Json) :
    Editor.nodeOf (.pending key) around value.kind value.scalar? =
      value.asNode (pathOf (.pending key :: around)) :=
  congrArg (Node.mk value.kind · ⟨pathOf (.pending key :: around)⟩ value.scalar?) hk

theorem pathOf_renamed (frame : Frame) (around : List Frame) (new : Option String) :
    pathOf ({ frame with key := new.or frame.key } :: around) =
      renamePath (pathOf (frame :: around)) new := by
  match around with
  | [] => cases new <;> rfl
  | parent :: rest =>
    rw [pathOf_cons, pathOf_cons]
    cases new <;> simp [renamePath]

/-! ## No rules -/

theorem RuleSet.editNode_nil (path : List String) (value : Json)
    (inside : List String → List Call × Json) :
    RuleSet.editNode [] path value inside = ⟨(inside path).1, some (none, (inside path).2)⟩ := rfl

namespace Json

mutual

theorem editAt_nil : ∀ (path : List String) (value : Json),
    editAt [] path value = ⟨[], some (none, value)⟩
  | _, .null | _, .bool _ | _, .num _ | _, .str _ => rfl
  | path, .arr items => by
    rw [editAt, RuleSet.editNode_nil, editItems_nil path 0 items]
  | path, .obj members => by
    rw [editAt, RuleSet.editNode_nil, editMembers_nil path members]

theorem editItems_nil : ∀ (path : List String) (index : Nat) (items : List Json),
    editItems [] path index items = ([], items)
  | _, _, [] => rfl
  | path, index, item :: items => by
    simp [editItems, editAt_nil (path ++ [indexKey index]) item,
      editItems_nil path (index + 1) items]

theorem editMembers_nil : ∀ (path : List String) (members : List (String × Json)),
    editMembers [] path members = ([], members)
  | _, [] => rfl
  | path, (name, value) :: members => by
    simp [editMembers, editAt_nil (path ++ [name]) value, editMembers_nil path members]

end

/-- **Without rules a document stays as it is.** -/
theorem edit_nil (value : Json) : value.edit [] = ⟨[], some (none, value)⟩ := editAt_nil [] value

end Json

namespace Editor

/-! ## Events that come to an edit -/

/-- The events are those of one node, and wherever it begins they come to what is left of it. -/
def EditsNode (rules : RuleSet) (events : List Event) (edit : List String → Edited) : Prop :=
  ∀ (ed : Editor) (text : String) (key : Option String) (around : List Frame),
    ed.phase = .running → ed.stack.prepare = .ok ⟨.pending key :: around, 0⟩ →
    key = (pathOf (.pending key :: around)).getLast? → Accepts rules ed text events →
    let e := edit (pathOf (.pending key :: around))
    ∃ ed', Passes rules ed text events ed'
        (text ++ e.written (ed.separator ed.stack.isEmpty) around key) e.calls ∧
      ed'.phase = .running ∧ ed'.stack = ⟨e.around around, 0⟩

/-- The events are those of children of one container, and they come to the calls and texts that
are given with the position of the first and the path of the container. -/
def EditsInside (rules : RuleSet) (kind : ContainerKind) (events : List Event)
    (edit : Nat → List String → List Call × List String) : Prop :=
  ∀ (ed : Editor) (text : String) (top : Frame) (around : List Frame),
    ed.phase = .running → ed.stack = ⟨top :: around, 0⟩ → top.container = some kind →
    Accepts rules ed text events →
    let r := edit top.nextIndex (pathOf (top :: around))
    ∃ ed' top', Passes rules ed text events ed' (text ++ further top.childCount r.2) r.1 ∧
      ed'.phase = .running ∧ ed'.stack = ⟨top' :: around, 0⟩ ∧ top'.container = some kind

section Node

variable {rules : RuleSet} {ed : Editor} {text : String} {top : Frame} {around : List Frame}
  {event start stop : Event} {inner : List Event} {value : Json} {kind : ContainerKind}

theorem passes_end (hr : ed.phase = .running) (hs : ed.stack = ⟨top :: around, 0⟩)
    (ht : top.container = some kind) (he : event.steps = [.close kind]) :
    ∃ ed', Passes rules ed text [event] ed' (text ++ closeToken kind) [] ∧
      ed'.phase = .running ∧ ed'.stack = ⟨around, 0⟩ := by
  have hc : ed.tick.advance rules (.close kind) = _ :=
    close_eq (show ed.tick.stack = _ from hs) kind
  rw [if_pos ht, if_neg (by omega)] at hc
  have hp := perform_of_ok FragmentSink.neverFails_text hc text
  rw [FragmentSink.put_text, ← handle_step hr text he] at hp
  exact ⟨_, (Takes.of_handle hp).passes, (sent_phase _ _).trans hr, sent_stack _ _⟩

theorem edits_scalar (h : rules.NeverFails) (hk : value.kind = .scalar)
    (hv : value.scalar? = some value) :
    EditsNode rules [.scalar value] fun path => rules.editNode path value fun _ => ([], value) := by
  intro ed text key around hr hp hkey ha e
  have hnode := nodeOf_eq_asNode hkey value
  rw [hk, hv] at hnode
  have hsettled : (rules.actionAt (value.asNode (pathOf (.pending key :: around)))).withholds =
      false → openToken? .scalar = none ∧ some value = some value ∧
        (fun _ : List String => (([] : List Call), value)) = fun _ => ([], value) :=
    fun _ => ⟨rfl, rfl, rfl⟩
  obtain ⟨hcalls, hwritten, haround⟩ :=
    editNode_of_settled hsettled (ed.separator ed.stack.isEmpty) around key
  have hh := handle_node hr rfl hp (h.answers _) ha.head
  simp only [hnode, FragmentSink.put_text] at hh
  refine ⟨_, by rw [hwritten, hcalls]; exact (Takes.of_handle hh).passes, ?_, ?_⟩
  · exact (sent_phase _ _).trans hr
  · rw [haround, sent_stack]
    rfl

theorem text_of_not_withholds {action : Action} (hw : action.withholds = false)
    (separator : String) (around : List Frame) (key : Option String) (kind : ContainerKind)
    (scalar : Option Json) : action.text separator around key kind.node scalar =
      separator ++ owed around (action.newKey?.or key) ++ kind.openToken := by
  cases action <;> cases hw <;>
    simp [Action.text, Action.drops, Action.newValue?, kind.openToken?_node]

theorem settle_of_not_withholds {action : Action} (hw : action.withholds = false) (top : Frame)
    (around : List Frame) (kind : ContainerKind) :
    action.settle (top.become kind.node) around 0 kind.node =
      ⟨{ top.become kind.node with key := action.newKey?.or top.key } :: charged around, 0⟩ := by
  cases action <;> cases hw <;> cases kind <;> rfl

/-- The frame of a container that has begun, with its new key. -/
def opened (key : Option String) (kind : ContainerKind) (new : Option String) : Frame :=
  ⟨new.or key, some kind, 0, 0⟩

theorem passes_begin (h : rules.NeverFails) {key : Option String}
    (hr : ed.phase = .running) (hp : ed.stack.prepare = .ok ⟨.pending key :: around, 0⟩)
    (hs : start.steps = [.node kind.node none]) (ha : Accepts rules ed text [start]) :
    let node := nodeOf (.pending key) around kind.node none
    let new := (rules.actionAt node).newKey?
    (rules.actionAt node).withholds = false →
    ∃ ed', Passes rules ed text [start] ed'
        (text ++ (ed.separator ed.stack.isEmpty ++ owed around (new.or key) ++ kind.openToken))
        (rules.callsAt node) ∧
      ed'.phase = .running ∧ ed'.stack = ⟨opened key kind new :: charged around, 0⟩ := by
  intro node new hw
  have hpass := (Takes.of_handle (handle_node hr hs hp (h.answers _) ha.head)).passes
  rw [text_of_not_withholds hw, FragmentSink.put_text] at hpass
  refine ⟨_, hpass, ?_, ?_⟩
  · exact (sent_phase _ _).trans hr
  · refine (sent_stack _ _).trans ((settle_of_not_withholds hw _ _ _).trans ?_)
    cases kind <;> rfl

theorem pathOf_opened (key : Option String) (around : List Frame) (kind : ContainerKind)
    (new : Option String) : pathOf (opened key kind new :: charged around) =
      renamePath (pathOf (.pending key :: around)) new := by
  rw [← pathOf_renamed (.pending key) around]
  exact pathOf_congr (by simp [opened, Frame.pending])

theorem passes_kept (h : rules.NeverFails) {key : Option String}
    (hr : ed.phase = .running) (hp : ed.stack.prepare = .ok ⟨.pending key :: around, 0⟩)
    (hs : start.steps = [.node kind.node none]) (he : stop.steps = [.close kind])
    {edit : Nat → List String → List Call × List String}
    (hedit : EditsInside rules kind inner edit)
    (ha : Accepts rules ed text (start :: inner ++ [stop])) :
    let node := nodeOf (.pending key) around kind.node none
    let new := (rules.actionAt node).newKey?
    let r := edit 0 (renamePath (pathOf (.pending key :: around)) new)
    (rules.actionAt node).withholds = false →
    ∃ ed', Passes rules ed text (start :: inner ++ [stop]) ed'
        (text ++ (ed.separator ed.stack.isEmpty ++ owed around (new.or key) ++
          (kind.openToken ++ further 0 r.2 ++ closeToken kind))) (rules.callsAt node ++ r.1) ∧
      ed'.phase = .running ∧ ed'.stack = ⟨charged around, 0⟩ := by
  intro node new r hw
  have ha : Accepts rules ed text ([start] ++ inner ++ [stop]) := ha
  obtain ⟨ed₁, hbegin, hr₁, hs₁⟩ := passes_begin h hr hp hs ha.left.left hw
  obtain ⟨ed₂, top, hinner, hr₂, hs₂, hc⟩ := hedit ed₁ _ _ _ hr₁ hs₁ rfl (ha.left.after h hbegin)
  obtain ⟨ed₃, hend, hr₃, hs₃⟩ := passes_end hr₂ hs₂ hc he
  refine ⟨ed₃, ?_, hr₃, hs₃⟩
  have hall := (hbegin.append h hinner).append h hend
  rw [pathOf_opened, List.append_nil] at hall
  simp only [String.append_assoc] at hall ⊢
  exact hall

theorem EditsNode.ofContainer (h : rules.NeverFails) (hk : value.kind = kind.node)
    (hv : value.scalar? = none) (hs : start.steps = [.node kind.node none])
    (he : stop.steps = [.close kind])
    (hskip : SkippedInside rules String kind inner)
    {edit : Nat → List String → List Call × List String}
    (hedit : EditsInside rules kind inner edit) {inside : List String → List Call × Json}
    (hinside : ∀ path, (inside path).1 = (edit 0 path).1 ∧
      (inside path).2.compact = kind.openToken ++ further 0 (edit 0 path).2 ++ closeToken kind) :
    EditsNode rules (start :: inner ++ [stop]) fun path => rules.editNode path value inside := by
  intro ed text key around hr hp hkey ha e
  have hnode := nodeOf_eq_asNode hkey value
  rw [hk, hv] at hnode
  cases hw : (rules.actionAt (value.asNode (pathOf (.pending key :: around)))).withholds with
  | true =>
    have hsettled : (rules.actionAt (value.asNode (pathOf (.pending key :: around)))).withholds =
        false → openToken? kind.node = none ∧ none = some value ∧
          inside = fun _ => ([], value) := fun hf => by rw [hw] at hf; cases hf
    obtain ⟨hcalls, hwritten, haround⟩ :=
      editNode_of_settled hsettled (ed.separator ed.stack.isEmpty) around key
    have hpass := passes_withheld h hr hp (by rw [hnode]; exact hw) hs he hskip ha
    rw [hnode, FragmentSink.put_text] at hpass
    refine ⟨_, by rw [hwritten, hcalls]; exact hpass, ?_, ?_⟩
    · exact (sent_phase _ _).trans hr
    · rw [haround]
      simp only [afterWithheld, moved, hnode]
  | false =>
    obtain ⟨ed', hpass, hr', hs'⟩ := passes_kept h hr hp hs he hedit ha (by rw [hnode]; exact hw)
    rw [hnode, ← (hinside _).1, ← (hinside _).2] at hpass
    have hedited : e = _ := editNode_of_not_withholds hw inside
    rw [hedited]
    exact ⟨ed', hpass, hr', hs'⟩

theorem EditsNode.startObject (h : rules.NeverFails) (name : String)
    {edit : List String → Edited} {events : List Event}
    (hs : EditsNode rules (.startObject none :: .key name :: events) edit) :
    EditsNode rules (.startObject (some name) :: events) edit := by
  intro ed text key around hr hp hkey ha e
  have hrun := run_startObject h ed text #[] name events
  have ha' : Accepts rules ed text (.startObject none :: .key name :: events) :=
    (congrArg Reply.result hrun).symm.trans ha
  obtain ⟨ed', hpass, hr', hs'⟩ := hs ed text key around hr hp hkey ha'
  exact ⟨ed', hrun.trans hpass, hr', hs'⟩

end Node

/-! ## Children -/

/-- What is left of elements: the calls and the texts. -/
def itemTexts (rules : RuleSet) (items : List Json) (index : Nat) (path : List String) :
    List Call × List String :=
  let r := Json.editItems rules path index items
  (r.1, r.2.map Json.compact)

/-- What is left of members: the calls and the texts. -/
def memberTexts (rules : RuleSet) (members : List (String × Json)) (_ : Nat)
    (path : List String) : List Call × List String :=
  let r := Json.editMembers rules path members
  (r.1, r.2.map Json.memberText)

theorem itemTexts_cons (rules : RuleSet) (item : Json) (items : List Json) (index : Nat)
    (path : List String) :
    let e := item.editAt rules (path ++ [indexKey index])
    let r := itemTexts rules items (index + 1) path
    itemTexts rules (item :: items) index path =
      (e.calls ++ r.1, ((e.kept.map Prod.snd).map Json.compact).toList ++ r.2) := by
  simp [itemTexts, Json.editItems, Option.toList_map]

theorem memberTexts_cons (rules : RuleSet) (name : String) (value : Json)
    (members : List (String × Json)) (index : Nat) (path : List String) :
    let e := value.editAt rules (path ++ [name])
    let r := memberTexts rules members index path
    memberTexts rules ((name, value) :: members) index path =
      (e.calls ++ r.1,
        ((e.kept.map fun (new, value) => (new.getD name, value)).map Json.memberText).toList ++
          r.2) := by
  simp [memberTexts, Json.editMembers, Option.toList_map]

section Children

variable {rules : RuleSet} {first rest : List Event}

theorem editsInside_nil {kind : ContainerKind} {edit : Nat → List String → List Call × List String}
    (he : ∀ index path, edit index path = ([], [])) : EditsInside rules kind [] edit := by
  intro ed text top around hr hs hc _ r
  refine ⟨ed, top, ?_, hr, hs, hc⟩
  simp only [r, he, further, String.append_empty]
  exact passes_nil ed text

theorem EditsInside.item (h : rules.NeverFails) {item : Json} {items : List Json}
    (hi : EditsNode rules first (Json.editAt rules · item))
    (his : EditsInside rules .array rest (itemTexts rules items)) :
    EditsInside rules .array (first ++ rest) (itemTexts rules (item :: items)) := by
  intro ed text top around hr hs hc ha r
  obtain ⟨key, _, count, index⟩ := top
  cases hc
  -- positions are those of the input: the next one counts up even if the element is dropped
  let parent : Frame := ⟨key, some .array, count, index + 1⟩
  have hp : ed.stack.prepare = .ok ⟨.pending (some (indexKey index)) :: parent :: around, 0⟩ := by
    rw [hs]; rfl
  have hpath : pathOf (.pending (some (indexKey index)) :: parent :: around) =
      pathOf (parent :: around) ++ [indexKey index] := pathOf_cons _ _ _
  obtain ⟨ed₁, hfirst, hr₁, hs₁⟩ := hi ed text _ _ hr hp (by simp [hpath]) ha.left
  have hsep : ed.separator ed.stack.isEmpty = "" := by rw [hs]; rfl
  rw [hsep, Edited.written_item _ rfl, hpath] at hfirst
  rw [Edited.around_cons, hpath] at hs₁
  obtain ⟨ed₂, top', hrest, hr₂, hs₂, hc₂⟩ := his ed₁ _ _ _ hr₁ hs₁ rfl (ha.after h hfirst)
  refine ⟨ed₂, top', ?_, hr₂, hs₂, hc₂⟩
  have hall := hfirst.append h hrest
  have hkeys : pathOf (⟨key, some .array, count, index⟩ :: around) = pathOf (parent :: around) :=
    pathOf_congr rfl
  have hr : r = _ := itemTexts_cons rules item items index _
  rw [hr, further_option, ← String.append_assoc, hkeys, Option.isSome_map, Option.isSome_map]
  rw [pathOf_grow] at hall
  exact hall

theorem EditsInside.member (h : rules.NeverFails) (name : String) {value : Json}
    {members : List (String × Json)} (hv : EditsNode rules first (Json.editAt rules · value))
    (hm : EditsInside rules .object rest (memberTexts rules members)) :
    EditsInside rules .object (.key name :: first ++ rest)
      (memberTexts rules ((name, value) :: members)) := by
  intro ed text top around hr hs hc ha r
  have ha : Accepts rules ed text ([.key name] ++ first ++ rest) := ha
  let keyed := ed.moved ⟨.pending (some name) :: top :: around, 0⟩
  have hkey : Passes rules ed text [.key name] keyed text [] :=
    passes_key hr hs hc name ha.left.left
  have hpath : pathOf (.pending (some name) :: top :: around) = pathOf (top :: around) ++ [name] :=
    pathOf_cons _ _ _
  obtain ⟨ed₁, hfirst, hr₁, hs₁⟩ :=
    hv keyed text _ (top :: around) hr rfl (by simp [hpath]) (ha.left.after h hkey)
  have hsep : keyed.separator keyed.stack.isEmpty = "" := rfl
  rw [hsep, Edited.written_member _ hc, hpath] at hfirst
  rw [Edited.around_cons, hpath] at hs₁
  have hboth := hkey.append h hfirst
  obtain ⟨ed₂, top', hrest, hr₂, hs₂, hc₂⟩ := hm ed₁ _ _ _ hr₁ hs₁ hc (ha.after h hboth)
  refine ⟨ed₂, top', ?_, hr₂, hs₂, hc₂⟩
  have hall := hboth.append h hrest
  have hr : r = _ := memberTexts_cons rules name value members _ _
  rw [hr, further_option, ← String.append_assoc, Option.isSome_map, Option.isSome_map]
  rw [pathOf_grow] at hall
  exact hall

end Children

/-! ## Values -/

section Values

variable {rules : RuleSet}

theorem EditsNode.array (h : rules.NeverFails) {items : List Json} {events : List Event}
    (ht : AreItems events) (hi : EditsInside rules .array events (itemTexts rules items)) :
    EditsNode rules (.startArray :: events ++ [.endArray]) (Json.editAt rules · (.arr items)) := by
  have hs : SkippedInside rules String .array events := skip_items h ht
  have hk : (Json.arr items).kind = ContainerKind.array.node := rfl
  exact .ofContainer h hk rfl rfl rfl hs hi fun _ => ⟨rfl, Json.compact_arr _⟩

theorem EditsNode.object (h : rules.NeverFails) {members : List (String × Json)}
    {events : List Event} (ht : AreMembers events)
    (hm : EditsInside rules .object events (memberTexts rules members)) :
    EditsNode rules (.startObject none :: events ++ [.endObject])
      (Json.editAt rules · (.obj members)) := by
  have hs : SkippedInside rules String .object events := skip_members h ht
  have hk : (Json.obj members).kind = ContainerKind.object.node := rfl
  exact .ofContainer h hk rfl rfl rfl hs hm fun _ => ⟨rfl, Json.compact_obj _⟩

mutual

/-- **The events that tell a value** come to what the rules make of it, wherever it stands. -/
theorem edits_told (h : rules.NeverFails) {events : List Event} : ∀ {value : Json},
    value.ToldBy events → EditsNode rules events (Json.editAt rules · value)
  | .null, .scalar _ | .bool _, .scalar _ | .num _, .scalar _ | .str _, .scalar _ =>
    edits_scalar h rfl rfl
  | .arr _, .array hi => .array h hi.areItems (edits_itemsTold h hi)
  | .obj _, .object hm => .object h hm.areMembers (edits_membersTold h hm)
  | .obj _, .objectWith name hv hm =>
    .startObject h name <| .object h (.cons name hv.isDocument hm.areMembers) <|
      .member h name (edits_told h hv) (edits_membersTold h hm)

theorem edits_itemsTold (h : rules.NeverFails) {events : List Event} : ∀ {items : List Json},
    Json.ItemsToldBy items events → EditsInside rules .array events (itemTexts rules items)
  | _, .nil => editsInside_nil fun _ _ => rfl
  | _, .cons hi his => .item h (edits_told h hi) (edits_itemsTold h his)

theorem edits_membersTold (h : rules.NeverFails) {events : List Event} :
    ∀ {members : List (String × Json)}, Json.MembersToldBy members events →
      EditsInside rules .object events (memberTexts rules members)
  | _, .nil => editsInside_nil fun _ _ => rfl
  | _, .cons name hv hm => .member h name (edits_told h hv) (edits_membersTold h hm)

end

/-! ## Documents -/

theorem passes_finish {ed : Editor} (hr : ed.phase = .running) (hs : ed.stack = .empty)
    (text : String) :
    ∃ ed', Passes rules ed text [.finish] ed' text [] ∧ ed'.phase = .finished := by
  have hf : ed.tick.advance rules .finish = ⟨{ ed.tick with phase := .finished }, [], .ok ""⟩ := by
    have hst : ed.tick.stack = .empty := hs
    rw [advance, finish, if_pos (by rw [hst]; rfl)]
  exact ⟨_, passes_step hr rfl hf, rfl⟩

theorem written_root (e : Edited) : e.written "" [] none = e.text := by
  obtain ⟨calls, _ | ⟨new, value⟩⟩ := e
  · rfl
  · simp [Edited.written, Edited.text, owed]

/-- Where a document on its own is accepted, what goes out is the text of what the rules make of its
value from the root down, and the handlers called are those of that edit. -/
theorem run_allEvents (h : rules.NeverFails) {doc : Document} {d : Nat}
    (ha : Accepts rules (Editor.new d) "" doc.allEvents) :
    ∃ ed, (Editor.new d).run rules "" #[] doc.allEvents = ⟨ed, (doc.value.edit rules).text,
      (doc.value.edit rules).calls.toArray, .ok ()⟩ ∧ ed.phase = .finished := by
  obtain ⟨ed₁, hpass, hr₁, hs₁⟩ := edits_told h doc.told (Editor.new d) "" none [] rfl rfl rfl ha.left
  have hsep : (Editor.new d).separator (Editor.new d).stack.isEmpty = "" := rfl
  have htext : "" ++ Edited.written (doc.value.edit rules) "" [] none =
      (doc.value.edit rules).text := by
    rw [written_root, String.empty_append]
  obtain ⟨ed₂, hfinish, hp₂⟩ := passes_finish hr₁
    (hs₁.trans (congrArg (Stack.mk · 0) (Edited.around_nil _))) (doc.value.edit rules).text
  have hpass : Passes rules (Editor.new d) "" doc.events ed₁ (doc.value.edit rules).text
      (doc.value.edit rules).calls := by
    rw [← htext]
    exact hpass
  obtain ⟨ed, ht, he⟩ := (hpass.append h hfinish).takes
  rw [List.append_nil] at ht
  exact ⟨ed, ht, (congrArg Editor.phase he).trans hp₂⟩

theorem run_documentEvents (h : rules.NeverFails) {value : Json} {d : Nat}
    (ha : Accepts rules (Editor.new d) "" value.documentEvents) :
    ∃ ed, (Editor.new d).run rules "" #[] value.documentEvents =
        ⟨ed, (value.edit rules).text, (value.edit rules).calls.toArray, .ok ()⟩ ∧
      ed.phase = .finished := by
  have ha : Accepts rules (Editor.new d) "" (Document.ofValue value).allEvents := ha
  exact run_allEvents h ha

/-- **Editing events is editing the value.** With handlers that never fail and enough depth, the
events of a value all succeed; what goes out is the text of what the rules make of the value from
its root down, and the handlers called are those of that edit. -/
theorem run_documentEvents_eq_edit (h : rules.NeverFails) {value : Json} {d : Nat}
    (hd : value.depth ≤ d) :
    ∃ ed, (Editor.new d).run rules "" #[] value.documentEvents =
        ⟨ed, (value.edit rules).text, (value.edit rules).calls.toArray, .ok ()⟩ ∧
      ed.phase = .finished :=
  run_documentEvents h (accepts_documentEvents FragmentSink.neverFails_text h "" hd)

/-- One member is renamed, and its first element, found under the new name, is dropped. -/
theorem run_documentEvents_renamed :
    let rules : RuleSet :=
      [⟨.predicate "member" fun path => path.keys == ["a"], .always (.rename "b")⟩,
        ⟨.predicate "element" fun path => path.keys == ["b", "0"], .always .remove⟩]
    let value : Json := .obj [("a", .arr [.null, .bool true]), ("c", .arr [])]
    value.depth ≤ 3 ∧
      ∃ ed, (Editor.new 3).run rules "" #[] value.documentEvents =
          ⟨ed, "\x7b\"b\":[true],\"c\":[]\x7d", (value.edit rules).calls.toArray, .ok ()⟩ ∧
        ed.phase = .finished := by
  intro rules value
  have hrules : rules.NeverFails := (RuleSet.neverFails_nil.cons_always _ _).cons_always _ _
  have hdepth : value.depth ≤ 3 := by decide
  have htext : (value.edit rules).text = "\x7b\"b\":[true],\"c\":[]\x7d" := by decide +kernel
  rw [← htext]
  exact ⟨hdepth, run_documentEvents_eq_edit hrules hdepth⟩

end Values

end Editor

end JsonEdit
