import JsonEdit.Json.Nodes
import JsonEdit.Json.Printer
import JsonEdit.Json.Spelling
import Mathlib.Tactic.SplitIfs

/-!
# Compact text is a text of the value

* `spellsChar_quoteChar`, `spellsString_quote`: a quoted string;
* **`spells_compact`**: a value, and what is inside;
* `depth_plainZeros`: the value that is read is as deep as the value;
* `plainZeros_replaceAt`: a value that has been put in a place is read there.
-/

namespace JsonEdit

/-! ## Strings -/

theorem spellsDigit_hexDigit {n : Nat} (hn : n < 16) : SpellsDigit n (hexDigit n) := by
  have h : ∀ n < 16, lowerDigits[n]? = some (hexDigit n) := by decide
  exact .inl (h n hn)

theorem spellsChar_quoteChar (c : Char) : SpellsChar c (quoteChar c) := by
  have hshort : ∀ {d e : Char}, c = d → (e, d) ∈ shortEscapes → SpellsChar c ['\\', e] := by
    rintro d e rfl he
    exact .escaped he
  unfold quoteChar
  split_ifs with hq hb hn hr ht hbs hff hlow
  · exact hshort hq (by decide)
  · exact hshort hb (by decide)
  · exact hshort hn (by decide)
  · exact hshort hr (by decide)
  · exact hshort ht (by decide)
  · exact hshort hbs (by decide)
  · exact hshort hff (by decide)
  · have hcode : 0 * 4096 + 0 * 256 + c.toNat / 16 * 16 + c.toNat % 16 = c.toNat := by omega
    have hzero : SpellsDigit 0 '0' := .inl rfl
    have hunit := SpellsUnit.digits hzero hzero
      (spellsDigit_hexDigit (by omega : c.toNat / 16 < 16))
      (spellsDigit_hexDigit (by omega : c.toNat % 16 < 16))
    rw [hcode] at hunit
    exact .unit hunit
  · exact .plain hq hb (Nat.le_of_not_lt hlow)

theorem spellsChars_quoteChars : ∀ text : List Char, SpellsChars text (text.flatMap quoteChar)
  | [] => .nil
  | c :: text => .cons (spellsChar_quoteChar c) (spellsChars_quoteChars text)

theorem spellsString_quote (s : String) : SpellsString s (quote s).toList := by
  rw [quote, String.toList_ofList]
  exact .quoted (spellsChars_quoteChars s.toList)

/-! ## Values -/

theorem areBlanks_nil : AreBlanks [] := fun _ h => by cases h

theorem SpellsMember.compact (name : String) {value : Json} {text : List Char}
    (h : Spells value text) : SpellsMember (name, value) ((quote name).toList ++ ':' :: text) := by
  have hm := SpellsMember.member areBlanks_nil (spellsString_quote name) areBlanks_nil
    areBlanks_nil h areBlanks_nil
  simpa using hm

namespace Json

mutual

/-- **Compact text is a text of the value.** -/
theorem spells_compact : ∀ value : Json, Spells value value.compact.toList
  | .null => .null
  | .bool true => .true
  | .bool false => .false
  | .num n => by
    rw [compact, Number.text, String.toList_ofList]
    exact .num n
  | .str s => .str (spellsString_quote s)
  | .arr items => by
    rw [compact, String.toList_append, String.toList_append]
    exact .arr (spellsItems_compact items)
  | .obj members => by
    rw [compact, String.toList_append, String.toList_append]
    exact .obj (spellsMembers_compact members)

theorem spellsItems_compact : ∀ items : List Json, SpellsItems items (compactItems items).toList
  | [] => .nil areBlanks_nil
  | [item] => by
    have h := SpellsItems.last areBlanks_nil (spells_compact item) areBlanks_nil
    rwa [List.append_nil] at h
  | item :: next :: items => by
    have h := SpellsItems.cons areBlanks_nil (spells_compact item) areBlanks_nil
      (spellsItems_compact (next :: items))
    simpa [compactItems] using h

theorem spellsMembers_compact : ∀ members : List (String × Json),
    SpellsMembers members (compactMembers members).toList
  | [] => .nil areBlanks_nil
  | [(name, value)] => by
    have h := SpellsMembers.last (SpellsMember.compact name (spells_compact value))
    simpa [compactMembers] using h
  | (name, value) :: next :: members => by
    have h := SpellsMembers.cons (SpellsMember.compact name (spells_compact value))
      (spellsMembers_compact (next :: members))
    simpa [compactMembers] using h

end

/-! ## The value that is read -/

mutual

theorem depth_plainZeros : ∀ value : Json, value.plainZeros.depth = value.depth
  | .null | .bool _ | .num _ | .str _ => rfl
  | .arr items => congrArg (1 + ·) (depthItems_plainZeros items)
  | .obj members => congrArg (1 + ·) (depthMembers_plainZeros members)

theorem depthItems_plainZeros : ∀ items : List Json,
    depthItems (plainZerosOfItems items) = depthItems items
  | [] => rfl
  | item :: items => by
    rw [plainZerosOfItems, depthItems, depthItems, depth_plainZeros item,
      depthItems_plainZeros items]

theorem depthMembers_plainZeros : ∀ members : List (String × Json),
    depthMembers (plainZerosOfMembers members) = depthMembers members
  | [] => rfl
  | (name, value) :: members => by
    rw [plainZerosOfMembers, depthMembers, depthMembers, depth_plainZeros value,
      depthMembers_plainZeros members]

end

mutual

theorem plainZeros_replaceAt (new : Json) : ∀ (path : List String) (value : Json),
    (replaceAt new path value).plainZeros = replaceAt new.plainZeros path value.plainZeros
  | [], _ => by rw [replaceAt, replaceAt]
  | _ :: _, .null | _ :: _, .bool _ | _ :: _, .num _ | _ :: _, .str _ => rfl
  | key :: path, .arr items => congrArg arr (plainZerosOfItems_replaceInItems new key path 0 items)
  | key :: path, .obj members =>
    congrArg obj (plainZerosOfMembers_replaceInMembers new key path members)

theorem plainZerosOfItems_replaceInItems (new : Json) (key : String) (path : List String) :
    ∀ (index : Nat) (items : List Json),
      plainZerosOfItems (replaceInItems new key path index items) =
        replaceInItems new.plainZeros key path index (plainZerosOfItems items)
  | _, [] => rfl
  | index, item :: items => by
    rw [replaceInItems, plainZerosOfItems, plainZerosOfItems, replaceInItems, apply_ite plainZeros,
      plainZeros_replaceAt new path item,
      plainZerosOfItems_replaceInItems new key path (index + 1) items]

theorem plainZerosOfMembers_replaceInMembers (new : Json) (key : String) (path : List String) :
    ∀ members : List (String × Json),
      plainZerosOfMembers (replaceInMembers new key path members) =
        replaceInMembers new.plainZeros key path (plainZerosOfMembers members)
  | [] => rfl
  | (name, value) :: members => by
    rw [replaceInMembers, plainZerosOfMembers, plainZerosOfMembers, replaceInMembers,
      apply_ite plainZeros, plainZeros_replaceAt new path value,
      plainZerosOfMembers_replaceInMembers new key path members]

end

end Json

end JsonEdit
