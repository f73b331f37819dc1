import JsonEdit.Proofs.Json.Compact
import JsonEdit.Proofs.Json.Number

/-!
# Compact text is one line

A line feed inside a string is written as an escape, and nothing else brings one in. A line feed
between texts therefore keeps them apart.

* `OneLine`: a text without a line feed;
* `oneLine_quote`, `Number.oneLine_text`: strings and numbers;
* **`Json.oneLine_compact`**: the text of a value.
-/

namespace JsonEdit

/-- There is no line feed in the text. -/
def OneLine (text : String) : Prop := '\n' ∉ text.toList

instance (text : String) : Decidable (OneLine text) :=
  inferInstanceAs (Decidable ('\n' ∉ text.toList))

theorem oneLine_append {text more : String} (h : OneLine text) (hm : OneLine more) :
    OneLine (text ++ more) := by
  rw [OneLine, String.toList_append]
  exact fun hin => (List.mem_append.mp hin).elim h hm

/-! ## Strings and numbers -/

theorem not_mem_quoteChar (c : Char) : '\n' ∉ quoteChar c := by
  have hdigit : ∀ n < 16, '\n' ≠ hexDigit n := by decide
  unfold quoteChar
  split_ifs with hq hb hn hr ht hbs hff hlow
  iterate 7 decide
  · simp [hdigit (c.toNat / 16) (by omega), hdigit (c.toNat % 16) (by omega)]
  · exact fun hin => hn (List.mem_singleton.mp hin).symm

theorem oneLine_quote (text : String) : OneLine (quote text) := by
  rw [OneLine, quote, String.toList_ofList, quoteChars]
  simp [not_mem_quoteChar]

theorem NumberState.not_mem_of_completes : ∀ {text : List Char} {state : NumberState},
    state.Completes text → '\n' ∉ text
  | [], _, _ => List.not_mem_nil
  | c :: text, state, h => by
    obtain ⟨next, hs, hn⟩ := (completes_cons state c text).mp h
    have hc : '\n' ≠ c := by
      rintro rfl
      cases state <;> cases hs
    exact fun hin => (List.mem_cons.mp hin).elim hc (not_mem_of_completes hn)

theorem Number.oneLine_text (n : Number) : OneLine n.text := by
  rw [OneLine, Number.text, String.toList_ofList]
  exact NumberState.not_mem_of_completes ((NumberState.isNumberText_iff_completes _).mp n.isText)

/-! ## Values -/

theorem oneLine_further : ∀ (texts : List String) (count : Nat), (∀ text ∈ texts, OneLine text) →
    OneLine (further count texts)
  | [], _, _ => List.not_mem_nil
  | text :: texts, count, h => by
    have hcomma : OneLine (comma count) := by
      unfold comma
      split_ifs <;> exact (by decide)
    have hfirst := oneLine_append hcomma (h text List.mem_cons_self)
    exact oneLine_append hfirst
      (oneLine_further texts (count + 1) fun t ht => h t (List.mem_cons_of_mem _ ht))

namespace Json

theorem oneLine_container (kind : ContainerKind) {texts : List String}
    (h : ∀ text ∈ texts, OneLine text) :
    OneLine (kind.openToken ++ further 0 texts ++ closeToken kind) := by
  have hopen : OneLine kind.openToken := by cases kind <;> exact (by decide)
  have hclose : OneLine (closeToken kind) := by cases kind <;> exact (by decide)
  exact oneLine_append (oneLine_append hopen (oneLine_further texts 0 h)) hclose

mutual

/-- **Compact text is one line.** -/
theorem oneLine_compact : ∀ value : Json, OneLine value.compact
  | .null => by decide
  | .bool true => by decide
  | .bool false => by decide
  | .num n => n.oneLine_text
  | .str s => oneLine_quote s
  | .arr items => compact_arr items ▸ oneLine_container .array (oneLine_items items)
  | .obj members => compact_obj members ▸ oneLine_container .object (oneLine_members members)

theorem oneLine_items : ∀ items : List Json, ∀ text ∈ items.map compact, OneLine text
  | [], _, h => by cases h
  | item :: items, text, h => by
    rcases List.mem_cons.mp h with rfl | h
    · exact oneLine_compact item
    · exact oneLine_items items text h

theorem oneLine_members : ∀ members : List (String × Json),
    ∀ text ∈ members.map memberText, OneLine text
  | [], _, h => by cases h
  | (name, value) :: members, text, h => by
    rcases List.mem_cons.mp h with rfl | h
    · exact oneLine_append (oneLine_append (oneLine_quote name) (by decide))
        (oneLine_compact value)
    · exact oneLine_members members text h

end

end Json

end JsonEdit
