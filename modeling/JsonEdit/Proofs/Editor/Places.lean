import JsonEdit.Editor.Tree
import Mathlib.Data.List.Basic
import Mathlib.Data.List.Induction

/-!
# Places in a document

A node stands in its parent at a position, and a member has a name there too. The way to a node from
the root decides what an edit shows of it: its value, and a path in which each node above it goes by
the name that it has got.

* `Slot`, `Site`, `Json.sites`: the nodes of a document, each with its place in it;
* `RuleSet.showAt`: what an edit shows at a place;
* **`RuleSet.showAt_renamed`**: a node that has got a name goes by it at all places inside.
-/

namespace JsonEdit

/-! ## Nodes and their places -/

/-- Where a node stands in its parent. -/
inductive Slot
  | item (index : Nat)
  | member (index : Nat) (name : String)
deriving DecidableEq, Repr

/-- The key that a place has in the input. -/
def Slot.key : Slot → String
  | .item index => indexKey index
  | .member _ name => name

/-- What stands there. -/
def Slot.child? : Slot → Json → Option Json
  | .item index, .arr items => items[index]?
  | .member index name, .obj members =>
    (members[index]?.filter fun member => member.1 = name).map Prod.snd
  | _, _ => none

/-- A node of a document: the places on the way to it, and its value. -/
structure Site where
  places : List Slot
  value : Json

namespace Json

mutual

/-- The nodes of a value below some places. -/
def sitesAt (places : List Slot) : Json → List Site
  | .arr items => ⟨places, .arr items⟩ :: sitesOfItems places 0 items
  | .obj members => ⟨places, .obj members⟩ :: sitesOfMembers places 0 members
  | value => [⟨places, value⟩]

/-- The nodes of elements; the first has the given position. -/
def sitesOfItems (places : List Slot) (index : Nat) : List Json → List Site
  | [] => []
  | item :: items =>
    sitesAt (places ++ [.item index]) item ++ sitesOfItems places (index + 1) items

/-- The nodes of members; the first has the given position. -/
def sitesOfMembers (places : List Slot) (index : Nat) : List (String × Json) → List Site
  | [] => []
  | (name, value) :: members =>
    sitesAt (places ++ [.member index name]) value ++ sitesOfMembers places (index + 1) members

end

/-- The nodes of a document, in its order. -/
def sites (value : Json) : List Site := sitesAt [] value

end Json

/-! ## New names in paths -/

section RenamePath

variable {path : List String} {newKey? : Option String} {i : Nat}

theorem length_renamePath : (renamePath path newKey?).length = path.length := by
  rcases List.eq_nil_or_concat' path with rfl | ⟨init, last, rfl⟩
  · cases newKey? <;> rfl
  · cases newKey? <;> simp [renamePath]

theorem getElem?_renamePath (h : i + 1 < path.length) :
    (renamePath path newKey?)[i]? = path[i]? := by
  rcases List.eq_nil_or_concat' path with rfl | ⟨init, last, rfl⟩
  · cases newKey? <;> rfl
  · have hi : i < init.length := by simpa using h
    cases newKey? <;> simp [renamePath, List.getElem?_append_left hi]

theorem getElem?_renamePath_last {key : String} (h : path.length = i + 1) :
    (renamePath path (some key))[i]? = some key := by
  rcases List.eq_nil_or_concat' path with rfl | ⟨init, last, rfl⟩
  · cases h
  · obtain rfl : init.length = i := by simpa using h
    simp [renamePath]

end RenamePath

/-! ## What an edit shows -/

namespace RuleSet

/-- The path of a shown node, as the nodes inside it see it. -/
def pathInside (rules : RuleSet) (value : Json) (path : List String) : List String :=
  renamePath path (rules.actionAt (value.asNode path)).newKey?

/-- What stands inside a shown node, and its path. -/
def showInside (rules : RuleSet) : Json × List String → Slot → Option (Json × List String)
  | (value, path), slot =>
    (slot.child? value).map fun child => (child, rules.pathInside value path ++ [slot.key])

/-- The node at a place of a document, and the path that it is shown with if an edit gets there. -/
def showAt (rules : RuleSet) (document : Json) (places : List Slot) : Option (Json × List String) :=
  places.foldlM rules.showInside (document, [])

variable {rules : RuleSet} {document value child : Json} {places : List Slot} {slot : Slot}
  {path keys : List String}

theorem showAt_concat : rules.showAt document (places ++ [slot]) = some (child, keys) ↔
    ∃ value path, rules.showAt document places = some (value, path) ∧
      slot.child? value = some child ∧ rules.pathInside value path ++ [slot.key] = keys := by
  simp [showAt, showInside, List.foldlM_append, Option.bind_eq_some_iff]

/-- Children of which the first has the given position are shown with this path above them. -/
def ShowsChildren {α : Type} (slotOf : Nat → α → Slot) (valueOf : α → Json) (rules : RuleSet)
    (document : Json) (places : List Slot) (path : List String) (index : Nat)
    (children : List α) : Prop :=
  ∀ (n : Nat) (child : α), children[n]? = some child →
    rules.showAt document (places ++ [slotOf (index + n) child]) =
      some (valueOf child, path ++ [(slotOf (index + n) child).key])

theorem ShowsChildren.tail {α : Type} {slotOf : Nat → α → Slot} {valueOf : α → Json} {index : Nat}
    {first : α} {children : List α}
    (h : ShowsChildren slotOf valueOf rules document places path index (first :: children)) :
    ShowsChildren slotOf valueOf rules document places path (index + 1) children := by
  intro n child hn
  rw [Nat.add_right_comm]
  exact h (n + 1) child hn

theorem shows_items {items : List Json}
    (h : rules.showAt document places = some (.arr items, path)) :
    ShowsChildren (fun index _ => .item index) id rules document places
      (rules.pathInside (.arr items) path) 0 items := by
  intro n item hn
  rw [Nat.zero_add]
  exact showAt_concat.mpr ⟨_, _, h, hn, rfl⟩

theorem shows_members {members : List (String × Json)}
    (h : rules.showAt document places = some (.obj members, path)) :
    ShowsChildren (fun index member => .member index member.1) Prod.snd rules document places
      (rules.pathInside (.obj members) path) 0 members := by
  intro n member hn
  rw [Nat.zero_add]
  exact showAt_concat.mpr ⟨_, _, h, by simp [Slot.child?, hn], rfl⟩

theorem length_pathInside : (rules.pathInside value path).length = path.length :=
  length_renamePath

theorem length_of_showAt (h : rules.showAt document places = some (value, keys)) :
    keys.length = places.length := by
  induction places using List.reverseRecOn generalizing value keys with
  | nil =>
    cases h
    rfl
  | append_singleton places slot ih =>
    obtain ⟨above, path, habove, -, rfl⟩ := showAt_concat.mp h
    simp [length_pathInside, ih habove]

/-- **A node that has got a name** goes by it at all places inside. -/
theorem showAt_renamed {i : Nat} {above : Json} {key : String}
    (h : rules.showAt document places = some (value, keys)) (hi : i + 1 < places.length)
    (ha : rules.showAt document (places.take (i + 1)) = some (above, path))
    (hr : (rules.actionAt (above.asNode path)).newKey? = some key) : keys[i]? = some key := by
  induction places using List.reverseRecOn generalizing value keys with
  | nil => cases hi
  | append_singleton places slot ih =>
    obtain ⟨outer, outerPath, houter, -, rfl⟩ := showAt_concat.mp h
    have hlen := length_of_showAt houter
    have hle : i + 1 ≤ places.length := by simpa [Nat.lt_succ_iff] using hi
    rw [List.take_append_of_le_length hle] at ha
    rw [List.getElem?_append_left (by rw [length_pathInside, hlen]; exact hle)]
    rcases Nat.lt_or_eq_of_le hle with hlt | heq
    · rw [pathInside, getElem?_renamePath (hlen ▸ hlt)]
      exact ih houter hlt ha
    · -- the node right above has got the name
      rw [heq, List.take_length, houter, Option.some.injEq, Prod.mk.injEq] at ha
      obtain ⟨rfl, rfl⟩ := ha
      rw [pathInside, hr]
      exact getElem?_renamePath_last (hlen.trans heq.symm)

end RuleSet

end JsonEdit
