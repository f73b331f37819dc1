import JsonEdit.Proofs.Editor.TreeEdit

/-!
# Replacing the nodes at a path

A rule that accepts one path only, and answers with another value, puts this value in the place of
the nodes at the path. Nothing else is changed.

* `RuleSet.Spares`, `editAt_of_spares`: what no rule accepts a node of stays as it is;
* `RuleSet.ReplacesAt`: the rules answer with a value at a path and nowhere else;
* **`edit_of_replacesAt`**: they replace the nodes at the path.
-/

namespace JsonEdit

variable {rules : RuleSet} {path target : List String} {new : Json}

/-! ## What no rule accepts -/

/-- No rule accepts this path, or one below it. -/
def RuleSet.Spares (rules : RuleSet) (path : List String) : Prop :=
  ∀ below, rules.first? ⟨path ++ below⟩ = none

theorem RuleSet.Spares.child (h : rules.Spares path) (key : String) :
    rules.Spares (path ++ [key]) := by
  intro below
  rw [List.append_assoc]
  exact h _

theorem editNode_of_none (h : rules.first? ⟨path⟩ = none) (value : Json)
    (inside : List String → List Call × Json) :
    (rules.editNode path value inside).kept = some (none, (inside path).2) := by
  have haction : rules.actionAt (value.asNode path) = .pass := by
    simp only [RuleSet.actionAt, Json.asNode, h]
  simp only [RuleSet.editNode, haction, Action.drops, Action.newValue?, Action.newKey?,
    Bool.false_eq_true, if_false, renamePath]

mutual

theorem editAt_of_spares {path : List String} (h : rules.Spares path) : ∀ value : Json,
    (value.editAt rules path).kept = some (none, value)
  | .null | .bool _ | .num _ | .str _ => editNode_of_none (by simpa using h []) _ _
  | .arr items => by
    rw [Json.editAt, editNode_of_none (by simpa using h [])]
    simp only [editItems_of_spares h 0 items]
  | .obj members => by
    rw [Json.editAt, editNode_of_none (by simpa using h [])]
    simp only [editMembers_of_spares h members]

theorem editItems_of_spares {path : List String} (h : rules.Spares path) (index : Nat) :
    ∀ items : List Json, (Json.editItems rules path index items).2 = items
  | [] => rfl
  | item :: items => by
    simp only [Json.editItems, editAt_of_spares (h.child (indexKey index)) item,
      editItems_of_spares h (index + 1) items]
    rfl

theorem editMembers_of_spares {path : List String} (h : rules.Spares path) :
    ∀ members : List (String × Json), (Json.editMembers rules path members).2 = members
  | [] => rfl
  | (name, value) :: members => by
    simp only [Json.editMembers, editAt_of_spares (h.child name) value,
      editMembers_of_spares h members]
    rfl

end

/-! ## One path -/

/-- The rules answer with this value at the path, and accept no other. -/
structure RuleSet.ReplacesAt (rules : RuleSet) (target : List String) (new : Json) : Prop where
  action : ∀ node : Node, node.path = ⟨target⟩ → rules.actionAt node = .replace new
  other : ∀ path, path ≠ target → rules.first? ⟨path⟩ = none

theorem RuleSet.ReplacesAt.spares (h : rules.ReplacesAt target new) (hp : ¬ path <+: target) :
    rules.Spares path :=
  fun below => h.other _ fun he => hp ⟨below, he⟩

theorem RuleSet.ReplacesAt.child {key other : String} {rest : List String}
    (h : rules.ReplacesAt (path ++ key :: rest) new) (ho : other ≠ key) :
    rules.Spares (path ++ [other]) := by
  refine h.spares ?_
  rw [List.prefix_append_right_inj]
  exact fun hp => ho (List.cons_prefix_cons.mp hp).1

theorem RuleSet.ReplacesAt.above {key : String} {rest : List String}
    (h : rules.ReplacesAt (path ++ key :: rest) new) : rules.first? ⟨path⟩ = none :=
  h.other path fun he => by simpa using congrArg List.length he

theorem editAt_of_target (h : rules.ReplacesAt path new) (value : Json) :
    (value.editAt rules path).kept = some (none, new) := by
  have haction : ∀ value : Json, rules.actionAt (value.asNode path) = .replace new :=
    fun value => h.action _ rfl
  cases value <;>
    simp only [Json.editAt, RuleSet.editNode, haction, Action.drops, Action.newValue?,
      Action.newKey?, Bool.false_eq_true, if_false]

mutual

theorem editAt_of_replacesAt : ∀ (value : Json) {path rest : List String},
    rules.ReplacesAt (path ++ rest) new →
      (value.editAt rules path).kept = some (none, Json.replaceAt new rest value)
  | value, path, [], h => by
    rw [List.append_nil] at h
    rw [Json.replaceAt, editAt_of_target h]
  | .null, _, _ :: _, h | .bool _, _, _ :: _, h | .num _, _, _ :: _, h | .str _, _, _ :: _, h =>
    editNode_of_none h.above _ _
  | .arr items, path, key :: rest, h => by
    rw [Json.editAt, editNode_of_none h.above, Json.replaceAt]
    simp only [editItems_of_replacesAt items h]
  | .obj members, path, key :: rest, h => by
    rw [Json.editAt, editNode_of_none h.above, Json.replaceAt]
    simp only [editMembers_of_replacesAt members h]

theorem editItems_of_replacesAt : ∀ (items : List Json) {path : List String} {key : String}
    {rest : List String} {index : Nat}, rules.ReplacesAt (path ++ key :: rest) new →
      (Json.editItems rules path index items).2 = Json.replaceInItems new key rest index items
  | [], _, _, _, _, _ => rfl
  | item :: items, path, key, rest, index, h => by
    have hitems : (Json.editItems rules path (index + 1) items).2 = _ :=
      editItems_of_replacesAt items h
    have hitem : (item.editAt rules (path ++ [indexKey index])).kept =
        some (none, if indexKey index = key then Json.replaceAt new rest item else item) := by
      split_ifs with hkey
      · refine editAt_of_replacesAt item ?_
        rwa [hkey, List.append_assoc, List.singleton_append]
      · exact editAt_of_spares (h.child hkey) item
    rw [Json.replaceInItems, ← hitems]
    simp only [Json.editItems, hitem]
    rfl

theorem editMembers_of_replacesAt : ∀ (members : List (String × Json)) {path : List String}
    {key : String} {rest : List String}, rules.ReplacesAt (path ++ key :: rest) new →
      (Json.editMembers rules path members).2 = Json.replaceInMembers new key rest members
  | [], _, _, _, _ => rfl
  | (name, value) :: members, path, key, rest, h => by
    have hmembers := editMembers_of_replacesAt members h
    have hvalue : (value.editAt rules (path ++ [name])).kept =
        some (none, if name = key then Json.replaceAt new rest value else value) := by
      split_ifs with hkey
      · refine editAt_of_replacesAt value ?_
        rwa [hkey, List.append_assoc, List.singleton_append]
      · exact editAt_of_spares (h.child hkey) value
    rw [Json.replaceInMembers, ← hmembers]
    simp only [Json.editMembers, hvalue]
    rfl

end

/-- **Exactly the nodes at the path are replaced.** -/
theorem edit_of_replacesAt (h : rules.ReplacesAt target new) (value : Json) :
    (value.edit rules).kept = some (none, Json.replaceAt new target value) := by
  rw [← List.nil_append target] at h
  exact editAt_of_replacesAt value h

end JsonEdit
