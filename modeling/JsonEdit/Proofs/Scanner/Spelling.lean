import JsonEdit.Json.Events
import JsonEdit.Proofs.Scanner.Tokens

/-!
# Reading values

Wherever a value may stand, a scanner tells the events of the value from any text of it. What comes
after the value then stands in the same containers.

* `Expect.TakesValue`, `StartsValue`: where a value may stand, and what it may start with;
* `tells_first`: the first character of a value; `tells_value_number`, …: whole scalars;
* `HasRoom`: how many more containers may open;
* `tells_open_array`, `tells_comma_item`, …: one lemma for each bracket, comma and colon;
* `ReadsValue`, `ReadsItems`, `ReadsMembers`: what is told of a value and of what is inside;
* **`reads_value`**: of every value;
* **`told_of_spellsDocument`**: a whole document.
-/

namespace JsonEdit

variable {limit : Option Nat} {opened : List ContainerKind} {mode : Mode} {c : Char}
  {text rest : List Char} {events : List Event} {expect : Expect} {place : Place}

/-! ## What ends a number -/

theorem separated_char (h : isSeparator c = true) (hc : c.toNat < 0x80) :
    Separated (utf8Chars (c :: rest)) := by
  rw [utf8Chars_ascii hc]
  exact separated_cons (by rwa [byteChar_ascii hc]) _

theorem separated_blanks {blanks : List Char} (h : AreBlanks blanks)
    (hs : Separated (utf8Chars rest)) : Separated (utf8Chars (blanks ++ rest)) := by
  cases blanks with
  | nil => exact hs
  | cons c blanks =>
    obtain ⟨hc, hb⟩ := blank_cases (h c List.mem_cons_self)
    exact separated_char (by simp [isSeparator, hb]) hc

/-! ## Where a value may stand -/

/-- A value may stand here. -/
def Expect.TakesValue : Expect → Prop
  | .document | .memberValue | .item .first | .item (.afterComma _) => True
  | _ => False

/-- A value may start with this character. -/
structure StartsValue (c : Char) : Prop where
  ascii : c.toNat < 0x80
  notBlank : isBlank c = false
  notComment : c ≠ '/'
  notEnd : c ≠ ']'

theorem pushBetween_value (he : expect.TakesValue) (hc : StartsValue c) (s : Scanner) :
    s.pushBetween expect c = s.beginValue false c := by
  have hitem : ∀ place ≠ .next, s.pushItem place c = s.beginValue false c := by
    intro place hp
    simp [Scanner.pushItem, hc.notEnd, hp]
  unfold Scanner.pushBetween
  rw [if_neg (by rw [hc.notBlank]; decide), if_neg hc.notComment]
  match expect, he with
  | .document, _ | .memberValue, _ => rfl
  | .item .first, _ | .item (.afterComma _), _ => exact hitem _ (by simp)

theorem tells_first (given : List Event) (he : expect.TakesValue) (hc : StartsValue c)
    (h : ∀ position,
      let r := (⟨position, opened, .between expect, limit⟩ : Scanner).beginValue false c
      told r.1 = given ∧ r.2.maxNesting = limit ∧ Tells limit r.2.opened r.2.mode text events) :
    Tells limit opened (.between expect) (c :: text) (given ++ events) := by
  refine .step given hc.ascii fun position => ?_
  rw [Scanner.push]
  simp only [byteChar_ascii hc.ascii, pushBetween_value he hc]
  exact h position

/-! ## Scalars -/

theorem Number.chars_ne_nil (n : Number) : n.chars ≠ [] := by
  intro h
  have := n.isText
  rw [h] at this
  cases this

theorem number_first {state : NumberState} (h : NumberState.start.step c = some state) :
    StartsValue c ∧ Scanner.literalOf? c = none ∧ c ≠ '[' ∧ c ≠ '{' ∧ c ≠ '"' := by
  have hne : ∀ d, NumberState.start.step d = none → c ≠ d := by
    rintro d hd rfl
    rw [hd] at h
    cases h
  have hblank : isBlank c = false := by
    rw [← Bool.not_eq_true]
    intro hb
    have hsep : isSeparator c = true := by simp [isSeparator, hb]
    rw [NumberState.step_of_separator hsep] at h
    cases h
  refine ⟨⟨ascii_of_step h, hblank, hne _ rfl, hne _ rfl⟩, ?_, hne _ rfl, hne _ rfl, hne _ rfl⟩
  rw [Scanner.literalOf?, if_neg (hne _ rfl), if_neg (hne _ rfl), if_neg (hne _ rfl)]

theorem tells_value_number (he : expect.TakesValue) (n : Number)
    (hsep : Separated (utf8Chars rest))
    (ht : Tells limit opened (.between (afterIn opened)) rest events) :
    Tells limit opened (.between expect) (n.chars ++ rest) (.scalar (.num n.normal) :: events) := by
  obtain ⟨c, chars, hn⟩ := List.exists_cons_of_ne_nil n.chars_ne_nil
  have htext : NumberPrefix.empty.reversed.reverse ++ c :: chars = n.chars := hn.symm
  obtain ⟨-, read, hpush, hread⟩ := NumberPrefix.push?_of_text htext
  have hstep : ∃ state, NumberState.start.step c = some state := by
    unfold NumberPrefix.push? at hpush
    split at hpush
    · next state hs => exact ⟨state, hs⟩
    · cases hpush
  obtain ⟨state, hstep⟩ := hstep
  obtain ⟨hfirst, hl, ha, ho, hq⟩ := number_first hstep
  rw [hn]
  refine tells_first [] he hfirst fun position => ?_
  have hb : (⟨position, opened, .between expect, limit⟩ : Scanner).beginValue false c =
      ([], ⟨position, opened, .number read, limit⟩) := by
    simp only [Scanner.beginValue, hl, ha, ho, hq, hpush]
    rfl
  rw [hb]
  exact ⟨rfl, rfl, tells_number hsep ht chars hread⟩

theorem tells_value_word (he : expect.TakesValue) (literal : Literal)
    (hsep : Separated (utf8Chars rest))
    (ht : Tells limit opened (.between (afterIn opened)) rest events) :
    Tells limit opened (.between expect) (literal.word ++ rest)
      (.scalar literal.value :: events) := by
  have hascii : (literal.word.tail.all fun c => c.toNat < 0x80) = true := by
    cases literal <;> rfl
  have hrest : Tells limit opened (.literal literal literal.word.tail false)
      (literal.word.tail ++ rest) (.scalar literal.value :: events) :=
    tells_word hsep ht _ (by simpa using hascii)
  cases literal with
  | null | true | false =>
    exact tells_first [] he ⟨by decide, rfl, by decide, by decide⟩
      fun position => ⟨rfl, rfl, hrest⟩

theorem tells_value_quoted (he : expect.TakesValue) {s : String} (h : SpellsString s text)
    (ht : Tells limit opened (.between (afterIn opened)) rest events) :
    Tells limit opened (.between expect) (text ++ rest) (.scalar (.str s) :: events) := by
  obtain ⟨hc⟩ := h
  rw [List.append_assoc]
  exact tells_first [] he ⟨by decide, rfl, by decide, by decide⟩
    fun position => ⟨rfl, rfl, tells_value_string hc ht⟩

/-! ## Brackets, commas and colons -/

/-- So many more containers may open inside of those that are open. -/
def HasRoom (limit : Option Nat) (opened : List ContainerKind) (count : Nat) : Prop :=
  ∀ most ∈ limit, opened.length + count ≤ most

theorem HasRoom.mono {count less : Nat} (h : HasRoom limit opened count) (hle : less ≤ count) :
    HasRoom limit opened less :=
  fun most hm => Nat.le_trans (Nat.add_le_add_left hle _) (h most hm)

theorem HasRoom.inside {count : Nat} (h : HasRoom limit opened (1 + count))
    (kind : ContainerKind) : HasRoom limit (kind :: opened) count := by
  intro most hm
  rw [List.length_cons, Nat.add_assoc]
  exact h most hm

theorem openContainer_eq (h : HasRoom limit opened 1) (position : Position) (mode : Mode)
    (kind : ContainerKind) (expect : Expect) :
    (⟨position, opened, mode, limit⟩ : Scanner).openContainer kind expect =
      .ok ⟨position.skip 1, kind :: opened, .between expect, limit⟩ := by
  cases limit with
  | none => rfl
  | some most =>
    have hlt : opened.length + 1 ≤ most := h most rfl
    exact if_neg (Nat.not_le.mpr hlt)

theorem tells_open_array (he : expect.TakesValue) (hroom : HasRoom limit opened 1)
    (ht : Tells limit (.array :: opened) (.between (.item .first)) rest events) :
    Tells limit opened (.between expect) ('[' :: rest) (.startArray :: events) := by
  refine tells_first [.startArray] he ⟨by decide, rfl, by decide, by decide⟩ fun position => ?_
  have hbegin : (⟨position, opened, .between expect, limit⟩ : Scanner).beginValue false '[' =
      ([⟨.startArray, opened.length + 1⟩],
        ⟨position.skip 1, .array :: opened, .between (.item .first), limit⟩) := by
    rw [Scanner.beginValue, openContainer_eq hroom position _ .array (.item .first)]
    rfl
  rw [hbegin]
  exact ⟨rfl, rfl, ht⟩

theorem tells_open_object (he : expect.TakesValue) (hroom : HasRoom limit opened 1)
    (ht : Tells limit (.object :: opened) (.between (.name .first)) rest events) :
    Tells limit opened (.between expect) ('{' :: rest) events := by
  refine tells_first [] he ⟨by decide, rfl, by decide, by decide⟩ fun position => ?_
  have hbegin : (⟨position, opened, .between expect, limit⟩ : Scanner).beginValue false '{' =
      ([], ⟨position.skip 1, .object :: opened, .between (.name .first), limit⟩) := by
    rw [Scanner.beginValue, openContainer_eq hroom position _ .object (.name .first)]
    rfl
  rw [hbegin]
  exact ⟨rfl, rfl, ht⟩

theorem closeContainer_eq (position : Position) (kind : ContainerKind) (mode : Mode)
    (event : Event) :
    (⟨position, kind :: opened, mode, limit⟩ : Scanner).closeContainer event =
      ([⟨event, opened.length⟩],
        ⟨position.skip 1, opened, .between (afterIn opened), limit⟩) := by
  simp only [Scanner.closeContainer, Scanner.skip, List.tail_cons, settle_eq]
  rfl

theorem tells_close_array (hp : place = .first ∨ place = .next)
    (ht : Tells limit opened (.between (afterIn opened)) rest events) :
    Tells limit (.array :: opened) (.between (.item place)) (']' :: rest)
      (.endArray :: events) := by
  refine Tells.step [.endArray] (by decide) fun position => ?_
  let s : Scanner := ⟨position, .array :: opened, .between (.item place), limit⟩
  have hpush : s.push (UInt8.ofNat ']'.toNat) = s.closeContainer .endArray := by
    rcases hp with rfl | rfl <;> rfl
  rw [hpush, closeContainer_eq]
  exact ⟨rfl, rfl, ht⟩

theorem tells_close_object (ht : Tells limit opened (.between (afterIn opened)) rest events) :
    Tells limit (.object :: opened) (.between (.name .next)) ('}' :: rest)
      (.endObject :: events) := by
  refine Tells.step [.endObject] (by decide) fun position => ?_
  let s : Scanner := ⟨position, .object :: opened, .between (.name .next), limit⟩
  have hpush : s.push (UInt8.ofNat '}'.toNat) = s.closeContainer .endObject := rfl
  rw [hpush, closeContainer_eq]
  exact ⟨rfl, rfl, ht⟩

theorem tells_close_empty (ht : Tells limit opened (.between (afterIn opened)) rest events) :
    Tells limit (.object :: opened) (.between (.name .first)) ('}' :: rest)
      (.startObject none :: .endObject :: events) := by
  refine Tells.step [.startObject none, .endObject] (by decide) fun position => ?_
  let s : Scanner := ⟨position, .object :: opened, .between (.name .first), limit⟩
  have hpush : s.push (UInt8.ofNat '}'.toNat) =
      (s.scanned (.startObject none) :: (s.closeContainer .endObject).1,
        (s.closeContainer .endObject).2) := rfl
  rw [hpush, closeContainer_eq]
  exact ⟨rfl, rfl, ht⟩

theorem tells_comma_item
    (ht : ∀ comma,
      Tells limit (.array :: opened) (.between (.item (.afterComma comma))) rest events) :
    Tells limit (.array :: opened) (.between (.item .next)) (',' :: rest) events :=
  Tells.step [] (by decide) fun position => ⟨rfl, rfl, ht position⟩

theorem tells_comma_name
    (ht : ∀ comma,
      Tells limit (.object :: opened) (.between (.name (.afterComma comma))) rest events) :
    Tells limit (.object :: opened) (.between (.name .next)) (',' :: rest) events :=
  Tells.step [] (by decide) fun position => ⟨rfl, rfl, ht position⟩

theorem tells_colon (ht : Tells limit opened (.between .memberValue) rest events) :
    Tells limit opened (.between .colon) (':' :: rest) events :=
  .wait (by decide) (fun position => ⟨position.skip 1, rfl⟩) ht

theorem tells_name (hp : place ≠ .next) {name : String} (h : SpellsString name text)
    (ht : Tells limit opened (.between .colon) rest events) :
    Tells limit opened (.between (.name place)) (text ++ rest)
      (nameEvent (place = .first) name :: events) := by
  obtain ⟨hc⟩ := h
  rw [List.append_assoc]
  have hs := tells_name_string hc (place = .first) ht
  cases place with
  | next => exact absurd rfl hp
  | first => exact .wait (by decide) (fun position => ⟨position.skip 1, rfl⟩) hs
  | afterComma comma =>
    exact .wait (by decide) (fun position => ⟨position.skip 1, rfl⟩) hs

/-! ## Values and what is inside -/

/-- From any text of this value, wherever it stands with room for its containers, the events of the
value are told. -/
def ReadsValue (limit : Option Nat) (value : Json) : Prop :=
  ∀ ⦃text rest : List Char⦄ ⦃opened : List ContainerKind⦄ ⦃expect : Expect⦄ ⦃events : List Event⦄,
    Spells value text → expect.TakesValue → HasRoom limit opened value.nesting →
    Separated (utf8Chars rest) →
    Tells limit opened (.between (afterIn opened)) rest events →
    Tells limit opened (.between expect) (text ++ rest) (value.plainZeros.events ++ events)

/-- From any text of these elements, up to the end of their array, their events are told. -/
def ReadsItems (limit : Option Nat) (items : List Json) : Prop :=
  ∀ ⦃text rest : List Char⦄ ⦃opened : List ContainerKind⦄ ⦃place : Place⦄ ⦃events : List Event⦄,
    SpellsItems items text → place ≠ .next → (items = [] → place = .first) →
    HasRoom limit (.array :: opened) (Json.nestingItems items) →
    Tells limit opened (.between (afterIn opened)) rest events →
    Tells limit (.array :: opened) (.between (.item place)) (text ++ ']' :: rest)
      (Json.eventsOfItems (Json.plainZerosOfItems items) ++ .endArray :: events)

/-- The events of members from a place on. Directly after the bracket the start of the object is
still to be told. -/
def Place.memberEvents (place : Place) : List (String × Json) → List Event
  | [] => [.startObject none]
  | (name, value) :: members =>
    nameEvent (place = .first) name :: (value.events ++ Json.eventsOfMembers members)

/-- From any text of these members, up to the end of their object, their events are told. -/
def ReadsMembers (limit : Option Nat) (members : List (String × Json)) : Prop :=
  ∀ ⦃text rest : List Char⦄ ⦃opened : List ContainerKind⦄ ⦃place : Place⦄ ⦃events : List Event⦄,
    SpellsMembers members text → place ≠ .next → (members = [] → place = .first) →
    HasRoom limit (.object :: opened) (Json.nestingMembers members) →
    Tells limit opened (.between (afterIn opened)) rest events →
    Tells limit (.object :: opened) (.between (.name place)) (text ++ '}' :: rest)
      (place.memberEvents (Json.plainZerosOfMembers members) ++ .endObject :: events)

theorem takesValue_item (hp : place ≠ .next) : (Expect.item place).TakesValue := by
  cases place with
  | next => exact hp rfl
  | first | afterComma comma => trivial

theorem ReadsValue.item {value : Json} (hv : ReadsValue limit value) (hp : place ≠ .next)
    {before after : List Char} (hb : AreBlanks before) (ht : Spells value text)
    (ha : AreBlanks after) (hroom : HasRoom limit (.array :: opened) value.nesting)
    (hs : Separated (utf8Chars rest))
    (hr : Tells limit (.array :: opened) (.between (.item .next)) rest events) :
    Tells limit (.array :: opened) (.between (.item place)) (before ++ text ++ after ++ rest)
      (value.plainZeros.events ++ events) := by
  rw [List.append_assoc, List.append_assoc]
  exact tells_blanks hb
    (hv ht (takesValue_item hp) hroom (separated_blanks ha hs) (tells_blanks ha hr))

theorem ReadsValue.member {value : Json} (hv : ReadsValue limit value) (hp : place ≠ .next)
    {name : String} (h : SpellsMember (name, value) text)
    (hroom : HasRoom limit (.object :: opened) value.nesting) (hs : Separated (utf8Chars rest))
    (hr : Tells limit (.object :: opened) (.between (.name .next)) rest events) :
    Tells limit (.object :: opened) (.between (.name place)) (text ++ rest)
      (nameEvent (place = .first) name :: (value.plainZeros.events ++ events)) := by
  obtain ⟨hbefore, hname, hafter, hbetween, hinner, hrest⟩ := h
  simp only [List.append_assoc, List.cons_append]
  refine tells_blanks hbefore (tells_name hp hname (tells_blanks hafter (tells_colon
    (tells_blanks hbetween ?_))))
  exact hv hinner trivial hroom (separated_blanks hrest hs) (tells_blanks hrest hr)

theorem readsItems_nil : ReadsItems limit [] := by
  intro text rest opened place events h hp hfirst _ ht
  cases h with
  | nil hb => exact tells_blanks hb (tells_close_array (.inl (hfirst rfl)) ht)

theorem ReadsValue.items {item : Json} {items : List Json} (hi : ReadsValue limit item)
    (his : ReadsItems limit items) : ReadsItems limit (item :: items) := by
  intro text rest opened place events h hp _ hroom ht
  rw [Json.plainZerosOfItems, Json.eventsOfItems, List.append_assoc]
  have hitem := hroom.mono (Nat.le_max_left item.nesting (Json.nestingItems items))
  have hitems := hroom.mono (Nat.le_max_right item.nesting (Json.nestingItems items))
  cases h with
  | last hb hs ha =>
    have hclose : Tells limit (.array :: opened) (.between (.item .next)) (']' :: rest) _ :=
      tells_close_array (.inr rfl) ht
    exact hi.item hp hb hs ha hitem (separated_char rfl (by decide)) hclose
  | cons hb hs ha hrest =>
    simp only [List.append_assoc _ (',' :: _), List.cons_append]
    refine hi.item hp hb hs ha hitem (separated_char rfl (by decide))
      (tells_comma_item fun comma => ?_)
    exact his hrest (by simp) (by simp) hitems ht

theorem readsMembers_nil : ReadsMembers limit [] := by
  intro text rest opened place events h hp hfirst _ ht
  cases h with
  | nil hb =>
    rw [hfirst rfl]
    exact tells_blanks hb (tells_close_empty ht)

theorem ReadsValue.members {name : String} {value : Json} {members : List (String × Json)}
    (hv : ReadsValue limit value) (hms : ReadsMembers limit members) :
    ReadsMembers limit ((name, value) :: members) := by
  intro text rest opened place events h hp _ hroom ht
  rw [Json.plainZerosOfMembers, Place.memberEvents, List.cons_append, List.append_assoc]
  have hvalue := hroom.mono (Nat.le_max_left value.nesting (Json.nestingMembers members))
  have hmembers := hroom.mono (Nat.le_max_right value.nesting (Json.nestingMembers members))
  cases h with
  | last hm =>
    exact hv.member hp hm hvalue (separated_char rfl (by decide)) (tells_close_object ht)
  | @cons _ next members text text' hm hrest =>
    rw [List.append_assoc, List.cons_append]
    refine hv.member hp hm hvalue (separated_char rfl (by decide))
      (tells_comma_name fun comma => ?_)
    have hgo : Tells limit (.object :: opened) (.between (.name (.afterComma comma)))
        (text' ++ '}' :: rest) _ := hms hrest (by simp) (by simp) hmembers ht
    exact hgo

theorem ReadsItems.array {items : List Json} (h : ReadsItems limit items) :
    ReadsValue limit (.arr items) := by
  intro text rest opened expect events hs he hroom _ ht
  cases hs with
  | arr hi =>
    simp only [Json.plainZeros, Json.events, List.cons_append, List.append_assoc, List.nil_append]
    exact tells_open_array he (hroom.mono (Nat.le_add_right 1 _))
      (h hi (by decide) (fun _ => rfl) (hroom.inside .array) ht)

theorem ReadsMembers.object {members : List (String × Json)} (h : ReadsMembers limit members) :
    ReadsValue limit (.obj members) := by
  intro text rest opened expect events hs he hroom _ ht
  cases hs with
  | obj hm =>
    have hevents : (Json.obj members).plainZeros.events =
        Place.first.memberEvents (Json.plainZerosOfMembers members) ++ [.endObject] := by
      cases members <;> rfl
    rw [hevents, List.append_assoc, List.append_assoc, List.cons_append]
    exact tells_open_object he (hroom.mono (Nat.le_add_right 1 _))
      (h hm (by decide) (fun _ => rfl) (hroom.inside .object) ht)

mutual

/-- **Every text of a value is read as the value.** -/
theorem reads_value : ∀ value : Json, ReadsValue limit value
  | .null => fun _ _ _ _ _ h he _ hs ht => by cases h; exact tells_value_word he .null hs ht
  | .bool true => fun _ _ _ _ _ h he _ hs ht => by cases h; exact tells_value_word he .true hs ht
  | .bool false => fun _ _ _ _ _ h he _ hs ht => by
    cases h
    exact tells_value_word he .false hs ht
  | .num n => fun _ _ _ _ _ h he _ hs ht => by cases h; exact tells_value_number he n hs ht
  | .str s => fun _ _ _ _ _ h he _ _ ht => by
    cases h with
    | str h => exact tells_value_quoted he h ht
  | .arr items => (reads_items items).array
  | .obj members => (reads_members members).object

theorem reads_items : ∀ items : List Json, ReadsItems limit items
  | [] => readsItems_nil
  | item :: items => (reads_value item).items (reads_items items)

theorem reads_members : ∀ members : List (String × Json), ReadsMembers limit members
  | [] => readsMembers_nil
  | (_, value) :: members => (reads_value value).members (reads_members members)

end

/-! ## Documents -/

/-- **Every text of a document is read as the document**, if its containers may be open together. -/
theorem told_of_spellsDocument {value : Json} (h : SpellsDocument value text)
    (hroom : HasRoom limit [] value.nesting) :
    told ((Scanner.new limit).remaining .complete (utf8Chars text)) =
      value.plainZeros.documentEvents := by
  obtain ⟨before, inner, after, hb, hv, ha, rfl⟩ := h
  have hend : Tells limit [] (.between .nothing) [] [.finish] := fun _ => rfl
  have hafter : Tells limit [] (.between .nothing) (after ++ []) [.finish] := tells_blanks ha hend
  have hsep : Separated (utf8Chars (after ++ [])) := separated_blanks ha separated_nil
  have hvalue : Tells limit [] (.between .document) (inner ++ (after ++ [])) _ :=
    reads_value value hv trivial hroom hsep hafter
  have hdoc := tells_blanks hb hvalue
  rw [List.append_nil, ← List.append_assoc] at hdoc
  exact hdoc .start

end JsonEdit
