import JsonEdit.Proofs.Json.Events

/-!
# Names and elements that are too deep

The depth limit counts frames, and a frame is pushed in more than one place. What comes to the same
can be read off the events alone: at which depth each of them introduces a name or an element.

* `Event.nest`, `Event.introduces`, `nesting`, `introduced`: the containers that are open, and the
  depths of names and elements;
* `Within`, `Answer`: an outline with these containers open, and what it makes of names and elements
  at some depths; `Within.node`, `Within.key`, `Within.close`: one step, **`Within.handle`**: one
  event;
* **`Within.exceeds_at_first`**: a stream that goes too deep fails at the first event that does.
-/

namespace JsonEdit

/-! ## Names and elements -/

/-- The containers that are open after an event, innermost first. -/
def Event.nest (opens : List ContainerKind) : Event → List ContainerKind
  | .startArray => .array :: opens
  | .startObject _ => .object :: opens
  | .endArray | .endObject => opens.tail
  | .key _ | .scalar _ | .error _ | .finish => opens

/-- The depth of a node that begins in these containers, if it is an element or a document. The
value of a member is introduced by its name. -/
def elementDepth (opens : List ContainerKind) : List Nat :=
  if opens.head? = some .object then [] else [opens.length + 1]

/-- The depths of the names and elements that an event introduces in these containers. -/
def Event.introduces (opens : List ContainerKind) : Event → List Nat
  | .key _ => [opens.length + 1]
  | .scalar _ | .startArray | .startObject none => elementDepth opens
  | .startObject (some _) => elementDepth opens ++ [opens.length + 2]
  | .endArray | .endObject | .error _ | .finish => []

/-- The containers that are open after events in turn. -/
def nesting (opens : List ContainerKind) (events : List Event) : List ContainerKind :=
  events.foldl Event.nest opens

/-- The depths of the names and elements that events in turn introduce. -/
def introduced (opens : List ContainerKind) : List Event → List Nat
  | [] => []
  | event :: events => event.introduces opens ++ introduced (event.nest opens) events

namespace Outline

/-- An outline with these containers open, none of its frames too deep. Besides the containers it
has at most the frame of a member whose value is due. -/
structure Within (opens : List ContainerKind) (o : Outline) : Prop where
  shape : o.shape = opens.map some ∨
    opens.head? = some .object ∧ o.shape = none :: opens.map some
  fits : o.shape.length ≤ o.maxDepth

/-- **What comes of names and elements at these depths**, after which these containers are open. -/
inductive Answer (o : Outline) (depths : List Nat) (opens : List ContainerKind) :
    Outline × Except EditError Unit → Prop
  | taken {o' : Outline} : o.maxDepth + 1 ∉ depths → o'.Within opens →
    o'.maxDepth = o.maxDepth → Answer o depths opens (o', .ok ())
  | tooDeep {o' : Outline} : o.maxDepth + 1 ∈ depths →
    Answer o depths opens (o', .error (.depthLimitExceeded (o.maxDepth + 1) o.maxDepth))
  | refused {o' : Outline} {e : EditError} :
    (∀ depth maxDepth, e ≠ .depthLimitExceeded depth maxDepth) →
    Answer o depths opens (o', .error e)

section Answer

variable {o : Outline} {opens : List ContainerKind} {depths : List Nat} {shape settled : Shape}

theorem within_nil (d : Nat) : (running d []).Within [] := ⟨.inl rfl, Nat.zero_le d⟩

theorem Within.isEmpty (h : o.Within opens) : o.shape.isEmpty = opens.isEmpty := by
  rcases h.shape with hs | ⟨hobj, hs⟩
  · rw [hs, List.isEmpty_map]
  · cases opens with
    | nil => cases hobj
    | cons kind rest => rw [hs]; rfl

/-- A frame that has been added is the only one that can be too deep. -/
theorem answer_within (hlen : shape.length ≤ o.maxDepth + 1)
    (hmem : shape.length = o.maxDepth + 1 ↔ o.maxDepth + 1 ∈ depths)
    (hw : shape.length ≤ o.maxDepth → Outline.Within opens { o with shape := settled }) :
    o.Answer depths opens (o.within shape settled) := by
  unfold within
  split_ifs with hd
  · have hlen : shape.length = o.maxDepth + 1 := by omega
    rw [hlen]
    exact .tooDeep (hmem.mp hlen)
  · exact .taken (mt hmem.mpr (by omega)) (hw (by omega)) rfl

theorem Within.place (h : o.Within opens) : (∃ reason, prepare o.shape = .error reason) ∨
    prepare o.shape = .ok (none :: opens.map some) ∧ opens.length ≤ o.maxDepth ∧
      (opens.length = o.maxDepth ↔ o.maxDepth + 1 ∈ elementDepth opens) := by
  obtain ⟨hshape, hfits⟩ := h
  rcases hshape with hs | ⟨hobj, hs⟩ <;> rw [hs] at hfits ⊢
  · rw [List.length_map] at hfits
    match opens with
    | [] => exact .inr ⟨rfl, hfits, by simp [elementDepth, eq_comm]⟩
    | .array :: rest => exact .inr ⟨rfl, hfits, by simp [elementDepth, eq_comm]⟩
    | .object :: rest => exact .inl ⟨_, rfl⟩
  · rw [List.length_cons, List.length_map] at hfits
    refine .inr ⟨rfl, by omega, iff_of_false (by omega) ?_⟩
    simp [elementDepth, hobj]

theorem Within.node (h : o.Within opens) (kind : NodeKind) (value : Option Json) :
    o.Answer (elementDepth opens) (kind.container?.toList ++ opens)
      (o.perform (.node kind value)) := by
  rw [perform]
  rcases h.place with ⟨reason, hp⟩ | ⟨hp, hlen, hmem⟩
  · rw [hp]
    exact .refused fun _ _ he => by cases he
  · rw [hp]
    refine answer_within ?_ ?_ fun hd => ⟨.inl ?_, ?_⟩
    · simpa using hlen
    · simpa using hmem
    · cases kind <;> rfl
    · rw [List.length_cons] at hd
      cases kind <;> simp [NodeKind.shape, NodeKind.container?] at hd ⊢ <;> omega

theorem Within.key (h : o.Within opens) (name : String) :
    o.Answer [opens.length + 1] opens (o.perform (.key name)) := by
  rcases h.shape with hs | ⟨hobj, hs⟩
  · have hlen : opens.length ≤ o.maxDepth := by
      have := h.fits
      rwa [hs, List.length_map] at this
    match opens with
    | .object :: rest =>
      simp only [perform, hs, List.map_cons]
      refine answer_within ?_ ?_ fun hd => ⟨.inr ⟨rfl, rfl⟩, hd⟩
      · simpa using hlen
      · simp [eq_comm]
    | [] | .array :: rest =>
      simp only [perform, hs, List.map_cons, List.map_nil]
      exact .refused fun _ _ he => by cases he
  · simp only [perform, hs]
    exact .refused fun _ _ he => by cases he

theorem Within.close (h : o.Within opens) (kind : ContainerKind) :
    o.Answer [] opens.tail (o.perform (.close kind)) := by
  have hrefused : ∀ {shape : Shape} {reason : Imbalance},
      o.Answer [] opens.tail (o.halt shape (.unbalanced kind.endName reason)) :=
    .refused fun _ _ he => by cases he
  rcases h.shape with hs | ⟨hobj, hs⟩
  · match opens with
    | [] =>
      simp only [perform, hs, List.map_nil]
      exact hrefused
    | container :: rest =>
      simp only [perform, hs, List.map_cons]
      split_ifs
      · have hfits := h.fits
        rw [hs, List.length_map, List.length_cons] at hfits
        have hlen : (rest.map some).length ≤ o.maxDepth := by
          rw [List.length_map]
          omega
        exact .taken List.not_mem_nil ⟨.inl rfl, hlen⟩ rfl
      · exact hrefused
  · simp only [perform, hs]
    rw [if_neg (by simp)]
    exact hrefused

theorem Within.finish (h : o.Within opens) : o.Answer [] opens (o.perform .finish) := by
  simp only [perform]
  split_ifs
  · exact .taken List.not_mem_nil ⟨h.shape, h.fits⟩ rfl
  · exact .refused fun _ _ he => by cases he

theorem answer_stopped (hp : o.phase ≠ .running) (event : Event) :
    o.Answer depths opens (o.handle event) := by
  rw [handle]
  split
  · next hr => exact absurd hr hp
  · exact .refused fun _ _ he => by cases he

theorem Answer.handle {event : Event} {step : Step} (hs : event.steps = [step])
    (h : o.Answer depths opens (o.perform step)) : o.Answer depths opens (o.handle event) := by
  by_cases hp : o.phase = .running
  · rwa [handle_step hp hs]
  · exact answer_stopped hp event

theorem Answer.after {o' : Outline} {before : List Nat} {r : Outline × Except EditError Unit}
    (hm : o.maxDepth + 1 ∉ before) (hd : o'.maxDepth = o.maxDepth)
    (h : o'.Answer depths opens r) : o.Answer (before ++ depths) opens r := by
  cases h with
  | taken hm' hw hd' =>
    refine .taken ?_ hw (hd'.trans hd)
    rw [hd] at hm'
    exact fun h => (List.mem_append.mp h).elim hm hm'
  | tooDeep hm' =>
    rw [hd] at hm' ⊢
    exact .tooDeep (List.mem_append_right _ hm')
  | refused he => exact .refused he

theorem Within.startObject (h : o.Within opens) (name : String) :
    o.Answer (elementDepth opens ++ [opens.length + 2]) (.object :: opens)
      (o.handle (.startObject (some name))) := by
  by_cases hp : o.phase = .running
  · have hfirst : o.Answer _ (.object :: opens) (o.handle (.startObject none)) :=
      (h.node .object none).handle rfl
    rw [handle_startObject name hp, run]
    generalize o.handle (.startObject none) = r at hfirst
    cases hfirst with
    | taken hm hw hd =>
      simp only [run_singleton]
      exact ((hw.key name).handle rfl).after hm hd
    | tooDeep hm => exact .tooDeep (List.mem_append_left _ hm)
    | refused he => exact .refused he
  · exact answer_stopped hp _

/-- **One event** answers for all that it introduces. -/
theorem Within.handle (h : o.Within opens) (event : Event) :
    o.Answer (event.introduces opens) (event.nest opens) (o.handle event) := by
  cases event with
  | key name => exact (h.key name).handle rfl
  | scalar value => exact (h.node .scalar (some value)).handle rfl
  | startArray => exact (h.node .array none).handle rfl
  | endArray => exact (h.close .array).handle rfl
  | endObject => exact (h.close .object).handle rfl
  | error message =>
    have hfail : o.Answer [] opens (o.perform (.fail message)) :=
      .refused fun _ _ he => by cases he
    exact hfail.handle rfl
  | finish => exact h.finish.handle rfl
  | startObject first =>
    cases first with
    | none => exact (h.node .object none).handle rfl
    | some name => exact h.startObject name

/-! ## Streams -/

/-- **A stream that goes too deep** fails at the first event that does. -/
theorem Within.exceeds_at_first : ∀ {events : List Event} {opens : List ContainerKind}
    {o : Outline}, o.Within opens → o.Exceeds events →
      ∃ before event after, events = before ++ event :: after ∧
        o.maxDepth + 1 ∉ introduced opens before ∧
        o.maxDepth + 1 ∈ event.introduces (nesting opens before) ∧
        ∃ reached, o.run before = (reached, .ok ()) ∧
          (reached.handle event).2 = .error (.depthLimitExceeded (o.maxDepth + 1) o.maxDepth)
  | [], _, _, _, ⟨_, _, he⟩ => by cases he
  | event :: events, opens, o, h, he => by
    have hevent := h.handle event
    simp only [Exceeds, Outline.run] at he
    rcases hh : o.handle event with ⟨o₁, result⟩
    rw [hh] at hevent he
    cases hevent with
    | taken hm hw hd =>
      obtain ⟨before, event', after, rfl, hbefore, hevent', reached, hrun, hfail⟩ :=
        Within.exceeds_at_first hw he
      rw [hd] at hbefore hevent' hfail
      refine ⟨event :: before, event', after, rfl, ?_, hevent', reached, ?_, hfail⟩
      · exact fun h => (List.mem_append.mp h).elim hm hbefore
      · rw [Outline.run, hh]
        exact hrun
    | tooDeep hm =>
      exact ⟨[], event, events, rfl, List.not_mem_nil, hm, o, rfl, congrArg Prod.snd hh⟩
    | refused hne =>
      obtain ⟨depth, maxDepth, he⟩ := he
      cases he
      exact absurd rfl (hne depth maxDepth)

end Answer

end Outline

end JsonEdit
