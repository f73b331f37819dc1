import JsonEdit.Json.Parser
import JsonEdit.Proofs.Stream.Reading

/-!
# Reading values back

The compact text of a value is read as the value, as long as its containers are not nested too
deep. What is read is put into normal form, and a value that is data is in it already.

* `Builder.Adds`, `adds_events`: the events of a value add it where a value is due;
* `ofEvents?_documentEvents`, `read?_of_spells`: a value of its events, and of its texts;
* `Json.IsData`: names in order, and no object that stands for a number;
* **`normal?_of_isData`**, **`parse?_compact`**: data is read back as it is, but for `-0`.
-/

namespace JsonEdit

/-! ## Values from events -/

namespace Builder

/-- The events add the value where a value is due, whatever follows. -/
def Adds (events : List Event) (value : Json) : Prop :=
  ∀ (b b' : Builder), b.add value = some b' →
    ∀ rest, b.steps (events ++ rest) = b'.steps rest

/-- The events add these elements to the array that is open. -/
def AddsItems (events : List Event) (items : List Json) : Prop :=
  ∀ (before : List Json) (opened : List Unfinished) (value? : Option Json) (rest : List Event),
    steps ⟨.arr before :: opened, value?⟩ (events ++ rest) =
      steps ⟨.arr (items.reverse ++ before) :: opened, value?⟩ rest

/-- The events add these members to the object that is open. -/
def AddsMembers (events : List Event) (members : List (String × Json)) : Prop :=
  ∀ (before : List (String × Json)) (opened : List Unfinished) (value? : Option Json)
    (rest : List Event),
    steps ⟨.obj before none :: opened, value?⟩ (events ++ rest) =
      steps ⟨.obj (members.reverse ++ before) none :: opened, value?⟩ rest

theorem addsMembers_nil : AddsMembers [] [] := fun _ _ _ _ => rfl

theorem adds_scalar (value : Json) : Adds [.scalar value] value := by
  intro b b' h rest
  rw [List.singleton_append, steps, step, h]

theorem AddsItems.cons {item : Json} {items : List Json} {events more : List Event}
    (h : Adds events item) (hs : AddsItems more items) :
    AddsItems (events ++ more) (item :: items) := by
  intro before opened value? rest
  rw [List.append_assoc, h _ ⟨.arr (item :: before) :: opened, value?⟩ rfl, hs]
  simp

theorem AddsMembers.cons {name : String} {value : Json} {members : List (String × Json)}
    {events more : List Event} (h : Adds events value) (hs : AddsMembers more members) :
    AddsMembers (.key name :: (events ++ more)) ((name, value) :: members) := by
  intro before opened value? rest
  -- The name is kept with the open object until its value is there.
  have hvalue := h ⟨.obj before (some name) :: opened, value?⟩
    ⟨.obj ((name, value) :: before) none :: opened, value?⟩ rfl
  rw [List.cons_append, List.append_assoc, steps, step]
  simp only [hvalue]
  rw [hs]
  simp

theorem AddsItems.array {items : List Json} {events : List Event} (h : AddsItems events items) :
    Adds (.startArray :: (events ++ [.endArray])) (.arr items) := by
  rintro ⟨opened, value?⟩ b' hadd rest
  have hitems := h [] opened value? (.endArray :: rest)
  rw [List.append_nil] at hitems
  rw [List.cons_append, List.append_assoc, List.singleton_append]
  calc steps ⟨opened, value?⟩ (.startArray :: (events ++ .endArray :: rest))
      = steps ⟨.arr [] :: opened, value?⟩ (events ++ .endArray :: rest) := rfl
    _ = steps ⟨.arr items.reverse :: opened, value?⟩ (.endArray :: rest) := hitems
    _ = b'.steps rest := by simp only [steps, step, List.reverse_reverse, hadd]

theorem steps_startObject (b : Builder) (name : String) (events : List Event) :
    b.steps (.startObject (some name) :: events) =
      b.steps (.startObject none :: .key name :: events) := rfl

theorem AddsMembers.object {members : List (String × Json)} {events : List Event}
    (h : AddsMembers events members) :
    Adds (.startObject none :: (events ++ [.endObject])) (.obj members) := by
  rintro ⟨opened, value?⟩ b' hadd rest
  have hmembers := h [] opened value? (.endObject :: rest)
  rw [List.append_nil] at hmembers
  rw [List.cons_append, List.append_assoc, List.singleton_append]
  calc steps ⟨opened, value?⟩ (.startObject none :: (events ++ .endObject :: rest))
      = steps ⟨.obj [] none :: opened, value?⟩ (events ++ .endObject :: rest) := rfl
    _ = steps ⟨.obj members.reverse none :: opened, value?⟩ (.endObject :: rest) := hmembers
    _ = b'.steps rest := by simp only [steps, step, List.reverse_reverse, hadd]

mutual

/-- **The events of a value add it where a value is due.** -/
theorem adds_events : ∀ value : Json, Adds value.events value
  | .null | .bool _ | .num _ | .str _ => adds_scalar _
  | .arr items => (addsItems_events items).array
  | .obj [] => addsMembers_nil.object
  | .obj ((name, value) :: members) => by
    intro b b' hadd rest
    have hobject : Adds _ (.obj ((name, value) :: members)) :=
      (addsMembers_events ((name, value) :: members)).object
    rw [Json.events, List.cons_append, steps_startObject]
    exact hobject b b' hadd rest

theorem addsItems_events : ∀ items : List Json, AddsItems (Json.eventsOfItems items) items
  | [] => fun _ _ _ _ => rfl
  | item :: items => .cons (adds_events item) (addsItems_events items)

theorem addsMembers_events : ∀ members : List (String × Json),
    AddsMembers (Json.eventsOfMembers members) members
  | [] => addsMembers_nil
  | (_, value) :: members => .cons (adds_events value) (addsMembers_events members)

end

end Builder

namespace Json

/-- **A value is put together again from its events.** -/
theorem ofEvents?_documentEvents (value : Json) : ofEvents? value.documentEvents = some value := by
  rw [ofEvents?, documentEvents,
    Builder.adds_events value .start ⟨[], some value⟩ rfl [.finish]]
  rfl

/-- Every text of a value that is not nested too deep is read as the value, without `-0`. -/
theorem read?_of_spells {value : Json} {text : String} (h : SpellsDocument value text.toList)
    (hn : value.nesting ≤ maxNesting) : read? text = some value.plainZeros := by
  have hroom : HasRoom (some maxNesting) [] value.nesting := by
    intro most hm
    cases hm
    simpa using hn
  rw [read?, Scanner.scan_eq]
  exact (congrArg ofEvents? (told_of_spellsDocument h hroom)).trans (ofEvents?_documentEvents _)

/-! ## Data -/

mutual

/-- The value is data: the names of each object are in order, each once, and no object starts like
one that stands for a number. -/
def IsData : Json → Prop
  | .arr items => IsDataItems items
  | .obj members => IsDataMembers members ∧ (members.map Prod.fst).Pairwise (· < ·) ∧
      (members.map Prod.fst).head? ≠ some numberName
  | _ => True

/-- All elements are data. -/
def IsDataItems : List Json → Prop
  | [] => True
  | item :: items => item.IsData ∧ IsDataItems items

/-- All member values are data. -/
def IsDataMembers : List (String × Json) → Prop
  | [] => True
  | (_, value) :: members => value.IsData ∧ IsDataMembers members

end

theorem insertMember_last {name : String} {members : List (String × Json)}
    (h : ∀ m ∈ members, m.1 < name) (value : Json) :
    insertMember name value members = members ++ [(name, value)] := by
  induction members with
  | nil => rfl
  | cons member members ih =>
    obtain ⟨other, old⟩ := member
    obtain ⟨hlt, hrest⟩ := List.forall_mem_cons.mp h
    have hne : name ≠ other := fun he => String.lt_irrefl name (he ▸ hlt)
    rw [insertMember, if_neg (String.lt_asymm hlt), if_neg hne, ih hrest]
    rfl

mutual

/-- **Data is in normal form.** -/
theorem normal?_of_isData : ∀ {value : Json}, value.IsData → value.normal? = some value
  | .null, _ | .bool _, _ | .num _, _ | .str _, _ => rfl
  | .arr items, h => by
    rw [normal?, normalItems?_of_isData h]
    rfl
  | .obj [], _ => rfl
  | .obj ((name, value) :: members), ⟨⟨hv, hm⟩, hnames, hfirst⟩ => by
    have hname : name ≠ numberName := fun he => hfirst (congrArg some he)
    rw [normal?, if_neg hname, normal?_of_isData hv]
    exact congrArg (Option.map obj) (normalMembers?_of_isData hm hnames)

theorem normalItems?_of_isData : ∀ {items : List Json}, IsDataItems items →
    normalItems? items = some items
  | [], _ => rfl
  | item :: items, ⟨hi, his⟩ => by
    rw [normalItems?, normal?_of_isData hi, normalItems?_of_isData his]
    rfl

theorem normalMembers?_of_isData : ∀ {members ordered : List (String × Json)},
    IsDataMembers members → ((ordered ++ members).map Prod.fst).Pairwise (· < ·) →
      normalMembers? members ordered = some (ordered ++ members)
  | [], ordered, _, _ => by rw [normalMembers?, List.append_nil]
  | (name, value) :: members, ordered, ⟨hv, hm⟩, hnames => by
    -- `ordered` has the members before this one, and so smaller names only.
    have hlast : ∀ m ∈ ordered, m.1 < name := by
      rw [List.map_append, List.pairwise_append] at hnames
      exact fun m hmem => hnames.2.2 m.1 (List.mem_map_of_mem hmem) name List.mem_cons_self
    rw [← List.singleton_append, ← List.append_assoc] at hnames
    have hrest := normalMembers?_of_isData hm hnames
    rw [normalMembers?, normal?_of_isData hv]
    simp only [insertMember_last hlast, hrest]
    simp

end

theorem names_plainZerosOfMembers : ∀ members : List (String × Json),
    (plainZerosOfMembers members).map Prod.fst = members.map Prod.fst
  | [] => rfl
  | (name, _) :: members => congrArg (name :: ·) (names_plainZerosOfMembers members)

mutual

theorem IsData.plainZeros : ∀ {value : Json}, value.IsData → value.plainZeros.IsData
  | .null, h | .bool _, h | .str _, h | .num _, h => h
  | .arr _, h => isDataItems_plainZeros h
  | .obj members, ⟨hm, hnames, hfirst⟩ => by
    rw [← names_plainZerosOfMembers members] at hnames hfirst
    exact ⟨isDataMembers_plainZeros hm, hnames, hfirst⟩

theorem isDataItems_plainZeros : ∀ {items : List Json}, IsDataItems items →
    IsDataItems (plainZerosOfItems items)
  | [], h => h
  | _ :: _, ⟨hi, his⟩ => ⟨hi.plainZeros, isDataItems_plainZeros his⟩

theorem isDataMembers_plainZeros : ∀ {members : List (String × Json)}, IsDataMembers members →
    IsDataMembers (plainZerosOfMembers members)
  | [], h => h
  | (_, _) :: _, ⟨hv, hm⟩ => ⟨hv.plainZeros, isDataMembers_plainZeros hm⟩

end

/-- **Data is read back from its compact text**, without `-0`. -/
theorem parse?_compact {value : Json} (h : value.IsData) (hn : value.nesting ≤ maxNesting) :
    parse? value.compact = some value.plainZeros := by
  rw [parse?, read?_of_spells (spellsDocument_compact value) hn]
  exact normal?_of_isData h.plainZeros

end Json

end JsonEdit
