import JsonEdit.Fragment

/-!
# Children one after the other

The compact text of a container as it comes about: each child brings the comma that the children
before it ask for.

* `comma`, `further`: the comma after earlier children, and more children with theirs;
* `compact_arr`, `compact_obj`: a container is its brackets and its children;
* `childPrefix_array`, `childPrefix_object`: what a parent owes a child;
* `compact_ne_empty`: no value is written as nothing.
-/

namespace JsonEdit

/-! ## Commas -/

/-- The comma of a child that comes after so many others. -/
def comma (count : Nat) : String := if count > 0 then "," else ""

/-- The texts of children that come after so many others. -/
def further (count : Nat) : List String → String
  | [] => ""
  | text :: texts => comma count ++ text ++ further (count + 1) texts

theorem further_append (us : List String) : ∀ (ts : List String) (count : Nat),
    further count (ts ++ us) = further count ts ++ further (count + ts.length) us
  | [], count => by simp [further]
  | t :: ts, count => by
    have hc : count + 1 + ts.length = count + (ts.length + 1) := by omega
    simp only [List.cons_append, further, further_append us ts, List.length_cons, hc,
      String.append_assoc]

theorem further_singleton (count : Nat) (text : String) :
    further count [text] = comma count ++ text := by
  rw [further, further, String.append_empty]

theorem further_concat (count : Nat) (ts : List String) (t : String) :
    further count (ts ++ [t]) = further count ts ++ (comma (count + ts.length) ++ t) := by
  rw [further_append, further_singleton]

theorem further_option (count : Nat) (t : Option String) (ts : List String) :
    further count (t.toList ++ ts) =
      t.elim "" (comma count ++ ·) ++ further (count + t.isSome.toNat) ts := by
  cases t with
  | none => simp
  | some t => rfl

theorem further_succ (count : Nat) : ∀ (t : String) (ts : List String),
    further (count + 1) (t :: ts) = "," ++ ",".intercalate (t :: ts)
  | t, [] => by simp [further, comma]
  | t, u :: ts => by
    rw [further, further_succ (count + 1) u ts, String.intercalate_cons_cons]
    simp [comma, String.append_assoc]

theorem further_zero (ts : List String) : further 0 ts = ",".intercalate ts := by
  match ts with
  | [] => rfl
  | [t] => simp [further, comma]
  | t :: u :: ts =>
    rw [further, further_succ, String.intercalate_cons_cons]
    simp [comma, String.append_assoc]

/-! ## Containers -/

namespace ContainerKind

/-- The node that a container is. -/
def node : ContainerKind → NodeKind
  | .object => .object
  | .array => .array

theorem isContainer_node (kind : ContainerKind) : kind.node.isContainer = true := by
  cases kind <;> rfl

/-- The opening bracket. -/
def openToken : ContainerKind → String
  | .object => "\x7b"
  | .array => "["

theorem openToken?_node (kind : ContainerKind) : openToken? kind.node = some kind.openToken := by
  cases kind <;> rfl

end ContainerKind

namespace Json

/-- The text of a member. -/
def memberText (member : String × Json) : String := quote member.1 ++ ":" ++ member.2.compact

theorem compactItems_eq (items : List Json) :
    compactItems items = ",".intercalate (items.map compact) := by
  induction items with
  | nil => rfl
  | cons item items ih =>
    cases items with
    | nil => simp [compactItems]
    | cons next items =>
      rw [compactItems, ih]
      · simp only [List.map_cons, String.intercalate_cons_cons]
      · exact List.cons_ne_nil next items

theorem compactMembers_eq (members : List (String × Json)) :
    compactMembers members = ",".intercalate (members.map memberText) := by
  induction members with
  | nil => rfl
  | cons member members ih =>
    cases members with
    | nil => simp [compactMembers, memberText]
    | cons next members =>
      rw [compactMembers, ih]
      · simp only [List.map_cons, String.intercalate_cons_cons, memberText]
      · exact List.cons_ne_nil next members

theorem compact_arr (items : List Json) : (Json.arr items).compact =
    ContainerKind.array.openToken ++ further 0 (items.map compact) ++ closeToken .array := by
  rw [compact, compactItems_eq, further_zero, closeToken, ContainerKind.openToken]

theorem compact_obj (members : List (String × Json)) : (Json.obj members).compact =
    ContainerKind.object.openToken ++ further 0 (members.map memberText) ++ closeToken .object := by
  rw [compact, compactMembers_eq, further_zero, closeToken, ContainerKind.openToken]

end Json

/-! ## What a parent owes a child -/

theorem childPrefix_array {parent : Frame} (h : parent.container = some .array)
    (key : Option String) : childPrefix parent key = comma parent.childCount := by
  simp [childPrefix, comma, h]

theorem childPrefix_object {parent : Frame} (h : parent.container = some .object) (name : String)
    (value : Json) : childPrefix parent (some name) ++ value.compact =
      comma parent.childCount ++ Json.memberText (name, value) := by
  simp [childPrefix, comma, Json.memberText, h, String.append_assoc]

/-! ## No value is written as nothing -/

theorem ne_empty_of_toList {text : String} {c : Char} {cs : List Char} (h : text.toList = c :: cs) :
    text ≠ "" := by
  rintro rfl
  cases h

theorem quote_ne_empty (text : String) : quote text ≠ "" :=
  ne_empty_of_toList String.toList_ofList

theorem Number.text_ne_empty (n : Number) : n.text ≠ "" := by
  obtain ⟨chars, h⟩ := n
  match chars with
  | [] => cases h
  | c :: cs => exact ne_empty_of_toList String.toList_ofList

theorem Json.compact_ne_empty (value : Json) : value.compact ≠ "" := by
  cases value with
  | null => decide
  | bool b => cases b <;> decide
  | num n => exact n.text_ne_empty
  | str s => exact quote_ne_empty s
  | arr items =>
    intro h
    rw [compact, String.append_eq_empty_iff] at h
    exact absurd h.2 (by decide)
  | obj members =>
    intro h
    rw [compact, String.append_eq_empty_iff] at h
    exact absurd h.2 (by decide)

end JsonEdit
