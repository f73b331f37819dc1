import JsonEdit.Proofs.Json.Events
import JsonEdit.Proofs.Scanner.Moves

/-!
# The events of any bytes

Whatever the bytes are, the events given for them are the first events of some value, and then
comes one more: the end, if the value is complete, or an error.

* `Outlook.EndsBy`: the events that end all that an outlook leaves open; `Moves.endsBy`: moves keep
  to them, so that `Moves.exists_value`, `Moves.exists_plain`: the events of a value come about;
* `Tracked`: depths that count the containers begun and not yet ended;
* `EmptyEnds`: the start of an object without a name is followed by its end;
* `Protocol`: all that is said about the events of a text; **`protocol_remaining`**: it holds of
  any bytes.
-/

namespace JsonEdit

/-! ## What may still come -/

/-- The events that end these containers, innermost first. -/
def EndsAll : List ContainerKind → List Event → Prop
  | [], events => events = []
  | .array :: around, events => ∃ items rest, Json.plainZerosOfItems items = items ∧
      events = Json.eventsOfItems items ++ .endArray :: rest ∧ EndsAll around rest
  | .object :: around, events => ∃ members rest, Json.plainZerosOfMembers members = members ∧
      events = Json.eventsOfMembers members ++ .endObject :: rest ∧ EndsAll around rest

/-- The events of one value without `-0`, and then of the ends of these containers. -/
def EndsWith (value : Json) (opened : List ContainerKind) (events : List Event) : Prop :=
  value.plainZeros = value ∧ ∃ rest, events = value.events ++ rest ∧ EndsAll opened rest

/-- The events that end all that an outlook leaves open. -/
def Outlook.EndsBy : Outlook → List Event → Prop
  | .value opened, events => ∃ value, EndsWith value opened events
  | .inside opened, events => EndsAll opened events
  | .start around, events => ∃ members, EndsWith (.obj members) around events

theorem exists_endsAll (opened : List ContainerKind) : ∃ events, EndsAll opened events := by
  induction opened with
  | nil => exact ⟨[], rfl⟩
  | cons kind around ih =>
    obtain ⟨rest, hr⟩ := ih
    cases kind with
    | object => exact ⟨_, [], rest, rfl, rfl, hr⟩
    | array => exact ⟨_, [], rest, rfl, rfl, hr⟩

theorem Outlook.exists_endsBy (x : Outlook) : ∃ events, x.EndsBy events := by
  cases x with
  | value opened =>
    obtain ⟨rest, hr⟩ := exists_endsAll opened
    exact ⟨_, .null, rfl, rest, rfl, hr⟩
  | inside opened => exact exists_endsAll opened
  | start around =>
    obtain ⟨rest, hr⟩ := exists_endsAll around
    exact ⟨_, [], rfl, rest, rfl, hr⟩

section EndsBy

variable {opened around : List ContainerKind} {value : Json} {rest : List Event} {name : String}

theorem EndsWith.item (h : EndsWith value (.array :: around) rest) :
    EndsAll (.array :: around) rest := by
  obtain ⟨hv, _, rfl, items, rest, hi, rfl, hr⟩ := h
  refine ⟨value :: items, rest, ?_, ?_, hr⟩
  · rw [Json.plainZerosOfItems, hv, hi]
  · rw [Json.eventsOfItems, List.append_assoc]

theorem EndsWith.member (name : String) (h : EndsWith value (.object :: around) rest) :
    EndsAll (.object :: around) (.key name :: rest) := by
  obtain ⟨hv, _, rfl, members, rest, hm, rfl, hr⟩ := h
  refine ⟨(name, value) :: members, rest, ?_, ?_, hr⟩
  · rw [Json.plainZerosOfMembers, hv, hm]
  · rw [Json.eventsOfMembers, List.cons_append, List.append_assoc]

theorem EndsWith.firstMember (name : String) (h : EndsWith value (.object :: around) rest) :
    ∃ members, EndsWith (.obj members) around (.startObject (some name) :: rest) := by
  obtain ⟨hv, _, rfl, members, rest, hm, rfl, hr⟩ := h
  refine ⟨(name, value) :: members, ?_, rest, ?_, hr⟩
  · rw [Json.plainZeros, Json.plainZerosOfMembers, hv, hm]
  · simp only [Json.events, List.cons_append, List.append_assoc, List.nil_append]

theorem EndsAll.array (h : EndsAll (.array :: around) rest) :
    ∃ value, EndsWith value around (.startArray :: rest) := by
  obtain ⟨items, rest, hi, rfl, hr⟩ := h
  refine ⟨.arr items, ?_, rest, ?_, hr⟩
  · rw [Json.plainZeros, hi]
  · simp only [Json.events, List.cons_append, List.append_assoc, List.nil_append]

theorem EndsAll.close (kind : ContainerKind) (h : EndsAll around rest) :
    EndsAll (kind :: around) (kind.endEvent :: rest) := by
  cases kind with
  | object => exact ⟨[], rest, rfl, rfl, h⟩
  | array => exact ⟨[], rest, rfl, rfl, h⟩

end EndsBy

theorem Move.endsBy {x y : Outlook} {given : List Scanned} (h : Move x given y) {rest : List Event}
    (hy : y.EndsBy rest) : x.EndsBy (told given ++ rest) := by
  cases h with
  | @scalar opened value hv => exact ⟨value, hv.2, rest, by rw [hv.1]; rfl, hy⟩
  | array opened => exact hy.array
  | object opened =>
    obtain ⟨members, hm⟩ := hy
    exact ⟨_, hm⟩
  | emptyObject around => exact ⟨[], rfl, rest, rfl, hy⟩
  | firstName around name =>
    obtain ⟨value, hv⟩ := hy
    exact hv.firstMember name
  | item opened =>
    obtain ⟨value, hv⟩ := hy
    exact hv.item
  | name around name =>
    obtain ⟨value, hv⟩ := hy
    exact hv.member name
  | close kind around => exact EndsAll.close kind hy

theorem Moves.endsBy {x y : Outlook} {given : List Scanned} (h : Moves x given y)
    {rest : List Event} (hy : y.EndsBy rest) : x.EndsBy (told given ++ rest) := by
  induction h with
  | nil => exact hy
  | cons hm _ ih =>
    rw [told, List.map_append, List.append_assoc]
    exact hm.endsBy (ih hy)

theorem Moves.exists_value {x : Outlook} {given : List Scanned}
    (h : Moves (.value []) given x) : ∃ value rest, told given ++ rest = Json.events value := by
  obtain ⟨rest, hr⟩ := x.exists_endsBy
  obtain ⟨value, -, rest', he, hn⟩ := h.endsBy hr
  cases hn
  exact ⟨value, rest, by rw [he, List.append_nil]⟩

/-- The events given when the document is over are those of a value without `-0`. -/
theorem Moves.exists_plain {given : List Scanned} (h : Moves (.value []) given (.inside [])) :
    ∃ value : Json, value.plainZeros = value ∧ told given = value.events := by
  have hclosed : (Outlook.inside []).EndsBy [] := rfl
  obtain ⟨value, hv, rest, he, hn⟩ := h.endsBy hclosed
  cases hn
  exact ⟨value, hv, by simpa using he⟩

/-! ## Depths -/

/-- The event begins a container. -/
def Event.opens : Event → Bool
  | .startObject _ | .startArray => true
  | _ => false

/-- The event ends a container. -/
def Event.closes : Event → Bool
  | .endObject | .endArray => true
  | _ => false

/-- How many containers have begun. -/
def openings (given : List Scanned) : Nat := (told given).countP Event.opens

/-- How many containers have ended. -/
def closings (given : List Scanned) : Nat := (told given).countP Event.closes

theorem openings_cons (x : Scanned) (given : List Scanned) :
    openings (x :: given) = x.event.opens.toNat + openings given := by
  cases h : x.event.opens <;> simp [openings, h, Nat.add_comm]

theorem closings_cons (x : Scanned) (given : List Scanned) :
    closings (x :: given) = x.event.closes.toNat + closings given := by
  cases h : x.event.closes <;> simp [closings, h, Nat.add_comm]

/-- The depths count the open containers, from one number to another. -/
def Tracked : Nat → List Scanned → Nat → Prop
  | d, [], d' => d = d'
  | d, x :: given, d' =>
    x.depth + x.event.closes.toNat = d + x.event.opens.toNat ∧ Tracked x.depth given d'

theorem Tracked.append {given more : List Scanned} : ∀ {d d' d'' : Nat}, Tracked d given d' →
    Tracked d' more d'' → Tracked d (given ++ more) d'' := by
  induction given with
  | nil => rintro d d' d'' rfl hr; exact hr
  | cons x given ih => exact fun h hr => ⟨h.1, ih h.2 hr⟩

/-- **After each event the depth is the number of containers begun and not ended.** -/
theorem Tracked.depth {x : Scanned} {after : List Scanned} (before : List Scanned) :
    ∀ {d d' : Nat}, Tracked d (before ++ x :: after) d' →
      x.depth + closings (before ++ [x]) = d + openings (before ++ [x]) := by
  induction before with
  | nil =>
    intro d d' h
    rw [List.nil_append, openings_cons, closings_cons]
    exact h.1
  | cons y before ih =>
    intro d d' h
    have hy := h.1
    have hb := ih h.2
    rw [List.cons_append, openings_cons, closings_cons]
    omega

/-- The number of containers that an outlook has told of. -/
def Outlook.depth : Outlook → Nat
  | .value opened | .inside opened | .start opened => opened.length

theorem Move.tracked {x y : Outlook} {given : List Scanned} (h : Move x given y) :
    Tracked x.depth given y.depth := by
  cases h with
  | scalar | array | firstName | name => exact ⟨rfl, rfl⟩
  | emptyObject => exact ⟨rfl, rfl, rfl⟩
  | object | item => rfl
  | close kind around => cases kind <;> exact ⟨rfl, rfl⟩

theorem Moves.tracked {x y : Outlook} {given : List Scanned} (h : Moves x given y) :
    Tracked x.depth given y.depth := by
  induction h with
  | nil => rfl
  | cons hm _ ih => exact hm.tracked.append ih

/-! ## Objects without a name -/

/-- After the start of an object without a name comes its end. -/
def EmptyEnds (events : List Event) : Prop :=
  ∀ before after, events = before ++ .startObject none :: after → ∃ rest, after = .endObject :: rest

theorem emptyEnds_of_not_mem {events : List Event} (h : .startObject none ∉ events) :
    EmptyEnds events := fun before _ he =>
  absurd (he ▸ List.mem_append_right before List.mem_cons_self) h

theorem EmptyEnds.append {events more : List Event} (h : EmptyEnds events) (hr : EmptyEnds more) :
    EmptyEnds (events ++ more) := by
  intro before after he
  rcases List.append_eq_append_iff.mp he with ⟨before', rfl, hm⟩ | ⟨between, hb, hm⟩
  · exact hr before' after hm
  -- the start is the last of the first events, or one before it
  cases between with
  | nil => exact hr [] after hm.symm
  | cons start between =>
    cases hm
    obtain ⟨rest, rfl⟩ := h before between hb
    exact ⟨rest ++ more, rfl⟩

theorem Move.emptyEnds {x y : Outlook} {given : List Scanned} (h : Move x given y) :
    EmptyEnds (told given) := by
  cases h with
  | scalar | array | object | firstName | item | name => exact emptyEnds_of_not_mem (by simp)
  | emptyObject around =>
    intro before after he
    cases before with
    | nil =>
      cases he
      exact ⟨[], rfl⟩
    | cons start before =>
      have htail : [Event.endObject] = before ++ .startObject none :: after := (List.cons.inj he).2
      have hmem : Event.startObject none ∈ [Event.endObject] := by rw [htail]; simp
      simp at hmem
  | close kind around =>
    cases kind <;> exact emptyEnds_of_not_mem (by simp [ContainerKind.endEvent])

theorem Moves.emptyEnds {x y : Outlook} {given : List Scanned} (h : Moves x given y) :
    EmptyEnds (told given) := by
  induction h with
  | nil => exact emptyEnds_of_not_mem List.not_mem_nil
  | cons hm _ ih =>
    rw [told, List.map_append]
    exact hm.emptyEnds.append ih

/-! ## All that is said -/

/-- The events that come last. -/
def Event.IsLast : Event → Prop
  | .finish | .error _ => True
  | _ => False

theorem Move.not_isLast {x y : Outlook} {given : List Scanned} (h : Move x given y) :
    ∀ event ∈ told given, ¬ event.IsLast := by
  cases h with
  | close kind around => cases kind <;> simp [ContainerKind.endEvent, Event.IsLast]
  | _ => simp [Event.IsLast]

theorem Moves.not_isLast {x y : Outlook} {given : List Scanned} (h : Moves x given y) :
    ∀ event ∈ told given, ¬ event.IsLast := by
  induction h with
  | nil => exact fun _ hm => absurd hm List.not_mem_nil
  | cons hm _ ih =>
    rw [told, List.map_append]
    exact fun event he => (List.mem_append.mp he).elim (hm.not_isLast event) (ih event)

/-- What holds of the events of a text of so many bytes. -/
structure Protocol (count : Nat) (scanned : List Scanned) : Prop where
  /-- There is at most one event for each byte, and one for the end. -/
  length_le : scanned.length ≤ count + 1
  /-- The events begin those of some value, and one more comes last: the end, when the value is
  complete, or else an error. -/
  ends : ∃ given last, scanned = given ++ [last] ∧ (∀ event ∈ told given, ¬ event.IsLast) ∧
    (∃ value rest, told given ++ rest = Json.events value) ∧
    (last.event = .finish ∧ (∃ value, told given = Json.events value) ∨
      ∃ message, last.event = .error message)
  /-- Only an object without members starts without a name. -/
  emptyEnds : EmptyEnds (told scanned)
  /-- After each event but an error, the depth is the number of containers begun and not ended. -/
  depth : ∀ before x after, scanned = before ++ x :: after →
    (∀ message, x.event ≠ .error message) →
    x.depth + closings (before ++ [x]) = openings (before ++ [x])

theorem Scanner.Ends.protocol {count : Nat} {scanned : List Scanned}
    (h : Scanner.Ends (.value []) (count + 1) scanned) : Protocol count scanned := by
  cases h with
  | @finish given hm hlen =>
    refine ⟨by simpa using hlen, ⟨given, _, rfl, hm.not_isLast, hm.exists_value, .inl ⟨rfl, ?_⟩⟩,
      ?_, ?_⟩
    · obtain ⟨value, -, hv⟩ := hm.exists_plain
      exact ⟨value, hv⟩
    · rw [told, List.map_append]
      exact hm.emptyEnds.append (emptyEnds_of_not_mem (by simp))
    · intro before x after he _
      have ht : Tracked 0 (given ++ [⟨.finish, 0⟩]) 0 := hm.tracked.append ⟨rfl, rfl⟩
      rw [he] at ht
      simpa using ht.depth before
  | @error given y message depth hm hlen =>
    refine ⟨by simpa using hlen, ⟨given, _, rfl, hm.not_isLast, hm.exists_value,
      .inr ⟨message, rfl⟩⟩, ?_, ?_⟩
    · rw [told, List.map_append]
      exact hm.emptyEnds.append (emptyEnds_of_not_mem (by simp))
    · intro before x after he hx
      rcases List.eq_nil_or_concat after with rfl | ⟨after', last, rfl⟩
      · -- the last event is the error
        have hlast := (List.append_inj' he rfl).2
        cases hlast
        exact absurd rfl (hx message)
      · have hgiven : given = before ++ x :: after' := by
          have : given ++ [⟨.error message, depth⟩] = (before ++ x :: after') ++ [last] := by
            simpa using he
          exact (List.append_inj' this rfl).1
        have ht := hm.tracked
        rw [hgiven] at ht
        simpa [Outlook.depth] using ht.depth before

/-- **The events of any bytes.** -/
theorem protocol_remaining (maxNesting : Option Nat) (ending : Ending) (bytes : List UInt8) :
    Protocol bytes.length ((Scanner.new maxNesting).remaining ending bytes) := by
  have h := Scanner.remaining_ends ending bytes (s := Scanner.new maxNesting) .document
  rw [show (Scanner.new maxNesting).mode.untold = 0 from rfl, Nat.zero_add] at h
  exact h.protocol

end JsonEdit
