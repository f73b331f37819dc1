import JsonEdit.Proofs.Editor.Representation
import JsonEdit.Proofs.Editor.TreeEdit

/-!
# The nodes that rules are asked about

Which nodes the rules are asked about, and at which paths, can be read off the events and the
answers given so far: a node is passed over if it stands inside a container that has been removed
or replaced. An editor asks about these nodes and no others.

* `Survey`, `Survey.next`: what has to be kept of the events for that, and one step;
* `Survey.visited`, `Survey.ends`: the nodes asked about, and the containers kept to their end;
  `visitedNodes`, `keptEnds`: the same for events from the start;
* `Encloses`, `Survey.Stands`: frames that agree with a survey;
* **`Survey.Tracks.advance`**: a step that succeeds.
-/

namespace JsonEdit

/-! ## What is kept of the events -/

/-- An open container. -/
structure Enclosing where
  /-- The keys on the way to it, as the nodes inside see them. -/
  path : List String
  /-- How many children have begun. -/
  begun : Nat
  /-- It has been removed or replaced. -/
  withheld : Bool

/-- The open containers, innermost first, and the name of the member that is due. -/
structure Survey where
  around : List Enclosing
  due : Option String

namespace Survey

/-- Nothing is open. -/
def start : Survey := ⟨[], none⟩

/-- The next node stands inside a container that has been removed or replaced. -/
def hidden (s : Survey) : Bool := s.around.any Enclosing.withheld

/-- The keys on the way to the next node. -/
def path (s : Survey) : List String :=
  match s.around with
  | [] => []
  | parent :: _ => parent.path ++ [s.due.getD (indexKey parent.begun)]

/-- The next node, as a handler sees it. -/
def node (s : Survey) (kind : NodeKind) (value : Option Json) : Node :=
  ⟨kind, s.path.getLast?, ⟨s.path⟩, value⟩

/-- What becomes of the next node on its own account. -/
def action (rules : RuleSet) (s : Survey) (kind : NodeKind) (value : Option Json) : Action :=
  if s.hidden then .pass else rules.actionAt (s.node kind value)

/-- One more child of the innermost container. -/
def child : List Enclosing → List Enclosing
  | [] => []
  | parent :: outer => { parent with begun := parent.begun + 1 } :: outer

/-- The survey after a step. -/
def next (rules : RuleSet) (s : Survey) : Step → Survey
  | .node kind value =>
    let action := s.action rules kind value
    let opened := kind.container?.map fun _ =>
      ⟨renamePath s.path action.newKey?, 0, action.withholds⟩
    ⟨opened.toList ++ child s.around, none⟩
  | .key name => ⟨s.around, some name⟩
  | .close _ => ⟨s.around.tail, none⟩
  | .fail _ | .finish => s

/-- The node that the rules are asked about in a step, if any. -/
def visits (s : Survey) : Step → List Node
  | .node kind value => if s.hidden then [] else [s.node kind value]
  | .key _ | .close _ | .fail _ | .finish => []

/-- A container ends that has been neither removed nor replaced, nor anything around it. -/
def endsKept (s : Survey) : Step → Bool
  | .close _ => !s.hidden
  | .node _ _ | .key _ | .fail _ | .finish => false

/-- The survey after steps in turn. -/
def after (rules : RuleSet) (s : Survey) (steps : List Step) : Survey := steps.foldl (next rules) s

/-- The nodes that the rules are asked about. -/
def visited (rules : RuleSet) (s : Survey) : List Step → List Node
  | [] => []
  | step :: steps => s.visits step ++ (s.next rules step).visited rules steps

/-- How many containers end that are kept with all that is around them. -/
def ends (rules : RuleSet) (s : Survey) : List Step → Nat
  | [] => 0
  | step :: steps => (s.endsKept step).toNat + (s.next rules step).ends rules steps

theorem visited_append (rules : RuleSet) (rest : List Step) : ∀ (steps : List Step) (s : Survey),
    s.visited rules (steps ++ rest) =
      s.visited rules steps ++ (s.after rules steps).visited rules rest
  | [], _ => rfl
  | step :: steps, s => by
    simp only [List.cons_append, visited, visited_append rules rest steps, List.append_assoc]
    rfl

theorem ends_append (rules : RuleSet) (rest : List Step) : ∀ (steps : List Step) (s : Survey),
    s.ends rules (steps ++ rest) = s.ends rules steps + (s.after rules steps).ends rules rest
  | [], _ => (Nat.zero_add _).symm
  | step :: steps, s => by
    simp only [List.cons_append, ends, ends_append rules rest steps, Nat.add_assoc]
    rfl

theorem after_append (rules : RuleSet) (s : Survey) (steps rest : List Step) :
    s.after rules (steps ++ rest) = (s.after rules steps).after rules rest := List.foldl_append

@[simp] theorem child_withheld (around : List Enclosing) :
    (child around).map Enclosing.withheld = around.map Enclosing.withheld := by
  cases around <;> rfl

theorem hidden_iff (s : Survey) : s.hidden = true ↔ true ∈ s.around.map Enclosing.withheld := by
  simp [hidden]

end Survey

/-- The nodes that rules are asked about in the course of some events. -/
def visitedNodes (rules : RuleSet) (events : List Event) : List Node :=
  Survey.start.visited rules (events.flatMap Event.steps)

/-- How many containers end in the course of some events that are neither removed nor replaced, nor
inside one that is. -/
def keptEnds (rules : RuleSet) (events : List Event) : Nat :=
  Survey.start.ends rules (events.flatMap Event.steps)

/-! ## Frames that agree with a survey -/

/-- **The frames are those of the open containers.** -/
inductive Encloses : List Enclosing → List Frame → Prop
  | nil : Encloses [] []
  | cons {enclosing : Enclosing} {around : List Enclosing} {f : Frame} {frames : List Frame}
    {kind : ContainerKind} : f.container = some kind →
    (kind = .array → f.nextIndex = enclosing.begun) → enclosing.path = pathOf (f :: frames) →
    Encloses around frames → Encloses (enclosing :: around) (f :: frames)

/-- **Frames and a survey that agree**: there is one more frame when a member is due. -/
inductive Survey.Stands : Survey → List Frame → Prop
  | settled {around : List Enclosing} {frames : List Frame} : Encloses around frames →
    Stands ⟨around, none⟩ frames
  | due {around : List Enclosing} {f : Frame} {frames : List Frame} (name : String) :
    f.container = some .object → Encloses around (f :: frames) →
    Stands ⟨around, some name⟩ (.pending (some name) :: f :: frames)

/-- **A stack that agrees with a survey.** -/
structure Survey.Tracks (s : Survey) (stack : Stack) : Prop where
  stands : s.Stands stack.frames
  suppression : Withholds (s.around.map Enclosing.withheld) stack.suppression

section Frames

variable {s : Survey} {around : List Enclosing} {frames outer : List Frame} {f g top : Frame}
  {stack : Stack} {n : Nat}

theorem Survey.tracks_empty : Survey.start.Tracks .empty :=
  ⟨.settled .nil, .nothing List.not_mem_nil⟩

theorem Survey.Tracks.hidden_eq (h : s.Tracks stack) :
    s.hidden = decide (0 < stack.suppression) := by
  rw [Bool.eq_iff_iff, s.hidden_iff, decide_eq_true_iff, Nat.pos_iff_ne_zero, ne_eq,
    h.suppression.eq_zero_iff, Classical.not_not]

theorem Survey.Stands.settled_of_container (h : s.Stands (f :: frames))
    (hc : f.container ≠ none) : s.due = none ∧ Encloses s.around (f :: frames) := by
  cases h with
  | settled he => exact ⟨rfl, he⟩
  | due => exact absurd rfl hc

theorem Encloses.child (h : Encloses around (f :: frames)) {kind : ContainerKind}
    (hf : f.container = some kind) (hc : g.container = some kind) (hk : g.key = f.key)
    (hi : kind = .array → g.nextIndex = f.nextIndex + 1) :
    Encloses (Survey.child around) (g :: frames) := by
  cases h with
  | cons hf' hindex hpath hrest =>
    cases hf'.symm.trans hf
    refine .cons hc (fun ha => ?_) ?_ hrest
    · rw [hi ha, hindex ha]
    · exact hpath.trans (pathOf_congr (by rw [List.map_cons, List.map_cons, hk]))

theorem Survey.Stands.place (h : s.Stands stack.frames)
    (hp : stack.prepare = .ok ⟨top :: outer, n⟩) (drops : Bool) :
    Encloses (child s.around) (if drops then outer else charged outer) ∧
      pathOf (top :: outer) = s.path ∧ top.key = s.path.getLast? ∧ top.nextIndex = 0 := by
  rcases Stack.prepare_cases hp with ⟨hf, ht⟩ | ⟨array, rest, hf, hc, ht⟩ | ⟨top', rest, hf, hc, ht⟩
  · cases ht
    rw [hf] at h
    cases h with
    | settled he =>
      cases he
      exact ⟨by cases drops <;> exact .nil, rfl, rfl, rfl⟩
  · cases ht
    rw [hf] at h
    obtain ⟨hdue, he⟩ := h.settled_of_container (by rw [hc]; exact Option.some_ne_none _)
    obtain ⟨around, due⟩ := s
    cases hdue
    have hchild : ∀ g : Frame, g.container = some .array → g.key = array.key →
        g.nextIndex = array.nextIndex + 1 → Encloses (child around) (g :: rest) :=
      fun g hg hk hi => he.child hc hg hk fun _ => hi
    cases he with
    | cons hf' hindex hpath hrest =>
      cases hf'.symm.trans hc
      have hkey : pathOf (.pending (some (toString array.nextIndex)) ::
          { array with nextIndex := array.nextIndex + 1 } :: rest) = _ ++ [_] := pathOf_cons _ _ _
      have hsame : pathOf ({ array with nextIndex := array.nextIndex + 1 } :: rest) =
          pathOf (array :: rest) := pathOf_congr rfl
      rw [hsame, ← hpath] at hkey
      refine ⟨?_, ?_, ?_, rfl⟩
      · cases drops <;> exact hchild _ hc rfl rfl
      · rw [hkey, hindex rfl]
        rfl
      · simp [path, Frame.pending, indexKey, hindex rfl]
  · rw [← ht] at hf h
    cases hf
    cases h with
    | settled he =>
      cases he with
      | cons hf' => exact absurd (hf'.symm.trans hc) (Option.some_ne_none _)
    | @due around f frames name hobj he =>
      have hno : ContainerKind.object ≠ .array := by decide
      have hchild : ∀ g : Frame, g.container = some .object → g.key = f.key →
          Encloses (child around) (g :: frames) :=
        fun g hg hk => he.child hobj hg hk fun ha => absurd ha hno
      refine ⟨by cases drops <;> exact hchild _ hobj rfl, ?_, ?_, rfl⟩
      · cases he with
        | cons hf' hindex hpath hrest =>
          rw [pathOf_cons, ← hpath]
          rfl
      · cases he
        simp [path, Frame.pending]

end Frames

/-! ## Steps -/

section Steps

variable {s : Survey} {outer : List Frame} {top : Frame} {n m : Nat} {ed ed' : Editor}
  {kind : NodeKind} {calls : List Call} {fragment : String}

theorem Survey.tracks_begun {around : List Enclosing} {f : Frame} {path : List String}
    {withheld : Bool} (hin : Encloses (child around) outer)
    (hf : ∀ container, kind.container? = some container → f.container = some container ∧
      f.nextIndex = 0 ∧ pathOf (f :: outer) = path)
    (hn : Withholds (around.map Enclosing.withheld) n)
    (hm : Withholds (withheld :: around.map Enclosing.withheld) m) :
    Survey.Tracks
      ⟨(kind.container?.map fun _ => ⟨path, 0, withheld⟩).toList ++ child around, none⟩
      (if kind.isContainer then ⟨f :: outer, m⟩ else ⟨outer, n⟩) := by
  rw [← child_withheld] at hn hm
  cases hc : kind.container? with
  | none =>
    rw [if_neg (by simp [NodeKind.isContainer, hc])]
    exact ⟨.settled hin, hn⟩
  | some container =>
    rw [if_pos (by simp [NodeKind.isContainer, hc])]
    obtain ⟨hfc, hindex, hpath⟩ := hf container hc
    exact ⟨.settled (.cons hfc (fun _ => hindex) hpath.symm hin), hm⟩

theorem Survey.Tracks.nodeOf_eq (h : s.Tracks ed.stack)
    (hp : ed.stack.prepare = .ok ⟨top :: outer, n⟩) (kind : NodeKind) (value : Option Json) :
    Editor.nodeOf top outer kind value = s.node kind value := by
  obtain ⟨-, hpath, hkey, -⟩ := h.stands.place hp true
  rw [Editor.nodeOf, hkey, hpath, Survey.node]

theorem Survey.Tracks.withhold (h : s.Tracks ed.stack)
    (hp : ed.stack.prepare = .ok ⟨top :: outer, n⟩) (hn : 0 < n) (rules : RuleSet)
    (kind : NodeKind) (value : Option Json) :
    s.hidden = true ∧ (s.next rules (.node kind value)).Tracks
      ((ed.enter top outer n kind).withhold kind).stack := by
  obtain ⟨hin, hpath, -, hindex⟩ := h.stands.place hp true
  obtain ⟨_, _, hs, hnone⟩ := Stack.prepare_top hp
  cases hs
  have hhidden : s.hidden = true := by rw [h.hidden_eq, decide_eq_true hn]
  have hstack : ((ed.enter top outer ed.stack.suppression kind).withhold kind).stack =
      if kind.isContainer then ⟨top.become kind :: outer, ed.stack.suppression + 1⟩
      else ⟨outer, ed.stack.suppression⟩ := by
    cases kind <;> rfl
  refine ⟨hhidden, ?_⟩
  simp only [next, action, hhidden, if_true, hstack]
  refine tracks_begun hin (fun container hc => ?_) h.suppression (h.suppression.deeper hn)
  obtain ⟨hfc, -, hfi⟩ := Frame.become_fresh hindex container hc
  exact ⟨hfc, hfi, (pathOf_congr (by simp)).trans hpath⟩

theorem Survey.Tracks.settle (h : s.Tracks ed.stack)
    (hp : ed.stack.prepare = .ok ⟨top :: outer, 0⟩) (rules : RuleSet) (kind : NodeKind)
    (value : Option Json) :
    s.hidden = false ∧ (s.next rules (.node kind value)).Tracks
      ((rules.actionAt (s.node kind value)).settle (top.become kind) outer 0 kind) := by
  let action := rules.actionAt (s.node kind value)
  obtain ⟨hin, hpath, -, hindex⟩ := h.stands.place hp action.drops
  obtain ⟨_, _, hs, -⟩ := Stack.prepare_top hp
  have hzero : ed.stack.suppression = 0 := (Stack.mk.inj hs).2.symm
  have hhidden : s.hidden = false := by rw [h.hidden_eq, hzero]; rfl
  have hnone : Withholds (s.around.map Enclosing.withheld) 0 := hzero ▸ h.suppression
  refine ⟨hhidden, ?_⟩
  simp only [next, Survey.action, hhidden, Bool.false_eq_true, if_false]
  refine tracks_begun hin (fun container hc => ?_) hnone
    (by rw [Nat.zero_add]; exact hnone.opening action.withholds)
  obtain ⟨hfc, -, hfi⟩ := Frame.become_fresh hindex container hc
  refine ⟨hfc, hfi, (pathOf_renamed _ _ _).trans ?_⟩
  rw [← hpath]
  refine congrArg (renamePath · action.newKey?) (pathOf_congr ?_)
  cases action.drops <;> simp

theorem Survey.Tracks.pushKey (h : s.Tracks ed.stack) (rules : RuleSet) {name : String}
    (he : ed.pushKey name = ⟨ed', calls, .ok fragment⟩) :
    (s.next rules (.key name)).Tracks ed'.stack := by
  obtain ⟨hstands, hsup⟩ := h
  rcases hs : ed.stack with ⟨frames, n⟩
  rw [hs] at hstands hsup
  cases frames with
  | nil =>
    rw [Editor.pushKey_of_not_object (by simp [hs])] at he
    cases he
  | cons top outer =>
    by_cases ht : top.container = some .object
    · rw [Editor.pushKey_of_object hs ht] at he
      split_ifs at he
      · cases he
        obtain ⟨-, hin⟩ := hstands.settled_of_container (by rw [ht]; exact Option.some_ne_none _)
        exact ⟨.due name ht hin, hsup⟩
      · cases he
    · rw [Editor.pushKey_of_not_object (by simp [hs, ht])] at he
      cases he

theorem Survey.Tracks.close (h : s.Tracks ed.stack) (rules : RuleSet) {kind : ContainerKind}
    (he : ed.close kind = ⟨ed', calls, .ok fragment⟩) :
    (s.next rules (.close kind)).Tracks ed'.stack ∧ calls = [] ∧ ed'.stats = ed.stats ∧
      (!fragment.isEmpty) = !s.hidden := by
  have hhidden := h.hidden_eq
  obtain ⟨hstands, hsup⟩ := h
  rcases hs : ed.stack with ⟨frames, n⟩
  rw [hs] at hstands hsup hhidden
  cases frames with
  | nil =>
    rw [Editor.close, Stack.top?, hs] at he
    cases he
  | cons top outer =>
    rw [Editor.close_eq hs] at he
    by_cases ht : top.container = some kind
    · rw [if_pos ht] at he
      cases he
      obtain ⟨-, hin⟩ := hstands.settled_of_container (by rw [ht]; exact Option.some_ne_none _)
      obtain ⟨around, due⟩ := s
      cases hin with
      | cons _ _ _ hrest =>
        refine ⟨⟨.settled hrest, hsup.tail⟩, rfl, rfl, ?_⟩
        rw [hhidden]
        by_cases hn : 0 < n
        · simp [hn]
        · cases kind <;> simp [hn] <;> decide
    · rw [if_neg ht] at he
      cases he

end Steps

end JsonEdit
