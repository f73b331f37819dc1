import JsonEdit.Proofs.Json.Compact

/-!
# Texts that are not finished yet

A text with containers still open, known by the kind of each and the number of its children. It is
sound if each open container could be any whole value: then what is around it is sound in turn.

* `IsTexts`: compact texts, each in a line;
* `OpenText`: a sound text with open containers;
* `OpenText.child`, `OpenText.opening`, `OpenText.close`: one more child, one more open
  container, and one less;
* **`OpenText.isTexts`**: closing brackets are all that is missing.
-/

namespace JsonEdit

/-! ## Whole texts -/

/-- Compact texts, with a line feed between them. -/
def IsTexts (text : String) : Prop :=
  ∃ values : List Json, text = "\n".intercalate (values.map Json.compact)

/-- What goes between a text and the next one. -/
def lineFeed (text : String) : String := if text = "" then "" else "\n"

theorem isTexts_empty : IsTexts "" := ⟨[], rfl⟩

theorem intercalate_ne_empty (separator : String) {text : String} (h : text ≠ "")
    (texts : List String) : separator.intercalate (text :: texts) ≠ "" := by
  have hcons : separator.intercalate ((text ++ "") :: texts) = text ++ _ :=
    String.intercalate_cons_append
  rw [String.append_empty] at hcons
  rw [hcons]
  exact fun he => h (String.append_eq_empty_iff.mp he).1

theorem IsTexts.next {text : String} (h : IsTexts text) (value : Json) :
    IsTexts (text ++ lineFeed text ++ value.compact) := by
  obtain ⟨values, rfl⟩ := h
  refine ⟨values ++ [value], ?_⟩
  cases values with
  | nil => simp [lineFeed]
  | cons first values =>
    have hne : "\n".intercalate ((first :: values).map Json.compact) ≠ "" :=
      intercalate_ne_empty "\n" first.compact_ne_empty (values.map Json.compact)
    rw [lineFeed, if_neg hne, List.map_append,
      String.intercalate_append_of_ne_nil (by simp) (by simp), List.map_singleton,
      String.intercalate_singleton]

/-! ## Containers -/

namespace ContainerKind

/-- The text of a child: an element has no name. -/
def childText (kind : ContainerKind) (child : String × Json) : String :=
  match kind with
  | .object => Json.memberText child
  | .array => child.2.compact

/-- The container with these children. -/
def whole (kind : ContainerKind) (children : List (String × Json)) : Json :=
  match kind with
  | .object => .obj children
  | .array => .arr (children.map Prod.snd)

theorem compact_whole (kind : ContainerKind) (children : List (String × Json)) :
    (kind.whole children).compact =
      kind.openToken ++ further 0 (children.map kind.childText) ++ closeToken kind := by
  cases kind with
  | object => exact Json.compact_obj children
  | array =>
    rw [whole, Json.compact_arr, List.map_map]
    rfl

end ContainerKind

/-! ## Open containers -/

/-- A sound text in which these containers are open, innermost first, with so many children each.
Any value may stand in the place of an open container. -/
def OpenText : List (ContainerKind × Nat) → String → Prop
  | [], text => IsTexts text
  | (kind, count) :: around, text =>
    ∃ (before : String) (children : List (String × Json)), children.length = count ∧
      text = before ++ kind.openToken ++ further 0 (children.map kind.childText) ∧
      ∀ value : Json, OpenText around (before ++ value.compact)

section OpenText

variable {kind : ContainerKind} {count : Nat} {around : List (ContainerKind × Nat)} {text : String}

theorem OpenText.child {parent : Frame} (hc : parent.container = some kind)
    (h : OpenText ((kind, parent.childCount) :: around) text) (key : Option String)
    (value : Json) : OpenText ((kind, parent.childCount + 1) :: around)
      (text ++ childPrefix parent key ++ value.compact) := by
  obtain ⟨before, children, hlen, rfl, hv⟩ := h
  refine ⟨before, children ++ [(key.getD "", value)], by simp [hlen], ?_, hv⟩
  rw [List.map_append, List.map_singleton, further_concat, List.length_map, hlen]
  cases kind <;> simp [childPrefix, hc, comma, ContainerKind.childText, Json.memberText,
    String.append_assoc]

theorem OpenText.opening {before : String}
    (h : ∀ value : Json, OpenText around (before ++ value.compact)) (kind : ContainerKind) :
    OpenText ((kind, 0) :: around) (before ++ kind.openToken) :=
  ⟨before, [], rfl, by simp [further], h⟩

theorem OpenText.close (h : OpenText ((kind, count) :: around) text) :
    OpenText around (text ++ closeToken kind) := by
  obtain ⟨before, children, rfl, rfl, hv⟩ := h
  -- of the values that may stand in its place, the container itself
  have hw := hv (kind.whole children)
  rw [ContainerKind.compact_whole] at hw
  simpa only [String.append_assoc] using hw

/-- **Closing brackets are all that is missing.** -/
theorem OpenText.isTexts : ∀ {opens : List (ContainerKind × Nat)} {text : String},
    OpenText opens text → IsTexts (text ++ String.join (opens.map fun o => closeToken o.1))
  | [], text, h => by
    rw [List.map_nil, String.join_nil, String.append_empty]
    exact h
  | (kind, count) :: around, text, h => by
    have := h.close.isTexts
    rw [List.map_cons, String.join_cons, ← String.append_assoc]
    exact this

end OpenText

end JsonEdit
