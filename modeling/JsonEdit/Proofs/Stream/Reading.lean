import JsonEdit.Proofs.Editor.EarlyEnd
import JsonEdit.Proofs.Editor.TreeEdit
import JsonEdit.Proofs.Json.Number
import JsonEdit.Proofs.Json.Spelling
import JsonEdit.Proofs.Scanner.Protocol
import JsonEdit.Proofs.Scanner.Spelling
import JsonEdit.Proofs.Stream.Pipeline

/-!
# Reading and writing back

However a document is spelled, its events are the same, and without rules its compact text is
written. That text is again a text of the document, so that writing it back changes nothing.

* `textEvents_spelled`: the events of a text of a value;
* `editText_of_accepts`, `editText_of_spells`: the edit of a value, and of its texts;
* `editText_compact`: what is written without rules;
* `exists_value_of_accepted`: a text that is accepted is read as a value without `-0`;
* **`reading_any_spelling`**: every text of a document, and every text that is accepted.
-/

namespace JsonEdit

theorem textEvents_spelled {value : Json} {text : String} (h : SpellsDocument value text.toList) :
    textEvents text = value.plainZeros.documentEvents :=
  told_of_spellsDocument h fun _ hm => by cases hm

theorem spellsDocument_compact (value : Json) : SpellsDocument value value.compact.toList :=
  ⟨[], _, [], areBlanks_nil, value.spells_compact, areBlanks_nil, by simp⟩

theorem editText_of_accepts {rules : RuleSet} (h : rules.NeverFails) {text : String} {value : Json}
    (he : textEvents text = value.documentEvents)
    (ha : Editor.Accepts rules (.new DepthLimit.standard) "" value.documentEvents) :
    ∃ stats, editText rules text =
      ⟨.ok stats, (value.edit rules).calls.toArray, (value.edit rules).text⟩ := by
  obtain ⟨ed, hrun, hphase⟩ := Editor.run_documentEvents h ha
  refine ⟨ed.stats, ?_⟩
  rw [editText_eq, he, hrun]
  simp only [Reply.error?, hphase]
  rfl

theorem editText_compact {text : String} {value : Json}
    (he : textEvents text = value.documentEvents)
    (ha : Editor.Accepts [] (.new DepthLimit.standard) "" value.documentEvents) :
    ∃ stats, editText [] text = ⟨.ok stats, #[], value.compact⟩ := by
  have h := editText_of_accepts RuleSet.neverFails_nil he ha
  rwa [Json.edit_nil] at h

theorem editText_of_spells {rules : RuleSet} (h : rules.NeverFails) {value : Json} {text : String}
    (hs : SpellsDocument value text.toList) (hd : value.depth ≤ DepthLimit.standard) :
    ∃ stats, editText rules text = ⟨.ok stats, (value.plainZeros.edit rules).calls.toArray,
      (value.plainZeros.edit rules).text⟩ := by
  rw [← value.depth_plainZeros] at hd
  exact editText_of_accepts h (textEvents_spelled hs)
    (Editor.accepts_documentEvents FragmentSink.neverFails_text h "" hd)

theorem exists_value_of_accepted {rules : RuleSet} {text : String} {stats : Stats}
    (h : (editText rules text).result = .ok stats) :
    Editor.Accepts rules (.new DepthLimit.standard) "" (textEvents text) ∧
      ∃ value : Json, value.plainZeros = value ∧ textEvents text = value.documentEvents := by
  have ha : Editor.Accepts rules (.new DepthLimit.standard) "" (textEvents text) := by
    rw [editText_eq] at h
    simp only at h
    split at h
    · next he => exact (Reply.of_error? he).1
    · cases h
  refine ⟨ha, ?_⟩
  have hends := Scanner.remaining_ends .complete (utf8 text) (s := Scanner.new none) .document
  have hf : Faultless (textEvents text) := ha.faultless
  rw [textEvents] at hf ⊢
  generalize (Scanner.new none).remaining .complete (utf8 text) = scanned at hends hf ⊢
  cases hends with
  | finish hm _ =>
    obtain ⟨value, hv, he⟩ := hm.exists_plain
    exact ⟨value, hv, by rw [told, List.map_append, Json.documentEvents, ← he]; rfl⟩
  | error message depth _ _ =>
    exact absurd (List.mem_map_of_mem (List.mem_append_right _ List.mem_cons_self)) (hf message)

/-- **Every text of a document** is read as the document, whatever numbers there are in it, and
without rules its compact text is written. A text that is accepted is not changed any more once it
has been written back. -/
theorem reading_any_spelling :
    (∀ chars, SpellsNumber chars ↔ ∃ n : Number, n.chars = chars) ∧
    (∀ (value : Json) (text : String), SpellsDocument value text.toList →
      (scan none (utf8 text)).map Scanned.event = value.plainZeros.documentEvents ∧
        (value.depth ≤ 512 →
          ∃ stats, editText [] text = ⟨.ok stats, #[], value.plainZeros.compact⟩)) ∧
    ∀ (text : String) (stats : Stats), (editText [] text).result = .ok stats →
      editText [] (editText [] text).sink = editText [] text := by
  refine ⟨fun chars => ?_, fun value text h => ⟨?_, fun hd => ?_⟩, fun text stats h => ?_⟩
  · rw [← isNumberText_iff]
    exact ⟨fun h => ⟨⟨chars, h⟩, rfl⟩, fun ⟨n, hn⟩ => hn ▸ n.isText⟩
  · rw [Scanner.scan_eq]
    exact textEvents_spelled h
  · have hdepth : value.plainZeros.depth ≤ DepthLimit.standard := by
      rwa [value.depth_plainZeros]
    exact editText_compact (textEvents_spelled h) (Editor.accepts_documentEvents
      FragmentSink.neverFails_text RuleSet.neverFails_nil "" hdepth)
  · obtain ⟨ha, value, hv, he⟩ := exists_value_of_accepted h
    obtain ⟨stats', hrun⟩ := editText_compact he (he ▸ ha)
    have hagain : textEvents value.compact = textEvents text := by
      rw [textEvents_spelled (spellsDocument_compact value), hv, he]
    calc editText [] (editText [] text).sink
        = editText [] value.compact := by rw [hrun]
      _ = editText [] text := by rw [editText_eq, editText_eq, hagain]

/-- A document with blanks, escaped characters, a name that repeats, `-0` and an empty object. -/
theorem reading_escaped_document :
    let value : Json := .obj [("é", .arr [.num ⟨['-', '0'], rfl⟩, .str "😀"]), ("é", .obj [])]
    let text := "\x7b\"\\u00e9\" : [-0,\t\"\\ud83D\\uDE00\"],\"é\":\x7b \x7d\x7d\n"
    (SpellsDocument value text.toList ∧ value.depth ≤ 512) ∧
      (scan none (utf8 text)).map Scanned.event =
        [.startObject (some "é"), .startArray, .scalar (.num .zero), .scalar (.str "😀"), .endArray,
          .key "é", .startObject none, .endObject, .endObject, .finish] ∧
      (∃ stats, editText [] text = ⟨.ok stats, #[], "\x7b\"é\":[0,\"😀\"],\"é\":\x7b\x7d\x7d"⟩) ∧
      editText [] (editText [] text).sink = editText [] text := by
  intro value text
  have hspace : ∀ {c : Char}, c ∈ [' ', '\t', '\n', '\r'] → AreBlanks [c] := by
    intro c hc c' hm
    rwa [List.mem_singleton.mp hm]
  have hquoted : ∀ {s : String} {chars text : List Char}, s.toList = chars →
      SpellsChars chars text → SpellsString s ('"' :: text ++ ['"']) := by
    rintro s chars text rfl h
    exact .quoted h
  -- the first name is escaped, the second one stands as it is
  have hunit : SpellsUnit 'é'.toNat ['\\', 'u', '0', '0', 'e', '9'] :=
    .digits (a := 0) (b := 0) (c := 14) (d := 9) (.inl rfl) (.inl rfl) (.inl rfl) (.inl rfl)
  have hescaped : SpellsString "é" ['"', '\\', 'u', '0', '0', 'e', '9', '"'] :=
    hquoted (by decide +kernel) (.cons (.unit hunit) .nil)
  have hplain : SpellsString "é" ['"', 'é', '"'] :=
    hquoted (by decide +kernel) (.cons (.plain (by decide) (by decide) (by decide)) .nil)
  have hcode : '😀'.toNat = 0x1F600 := rfl
  have hhigh : SpellsUnit 0xD83D ['\\', 'u', 'd', '8', '3', 'D'] :=
    .digits (a := 13) (b := 8) (c := 3) (d := 13) (.inl rfl) (.inl rfl) (.inl rfl) (.inr rfl)
  have hlow : SpellsUnit 0xDE00 ['\\', 'u', 'D', 'E', '0', '0'] :=
    .digits (a := 13) (b := 14) (c := 0) (d := 0) (.inr rfl) (.inr rfl) (.inl rfl) (.inl rfl)
  have hsmile : SpellsChar '😀'
      (['\\', 'u', 'd', '8', '3', 'D'] ++ ['\\', 'u', 'D', 'E', '0', '0']) := by
    apply SpellsChar.pair <;> rw [hcode]
    · decide
    · exact hhigh
    · exact hlow
  have hpair : SpellsString "😀"
      ['"', '\\', 'u', 'd', '8', '3', 'D', '\\', 'u', 'D', 'E', '0', '0', '"'] :=
    hquoted (by decide +kernel) (.cons hsmile .nil)
  have hnone := areBlanks_nil
  have hitems := SpellsItems.cons hnone (.num ⟨['-', '0'], rfl⟩) hnone
    (.last (hspace (c := '\t') (by decide)) (.str hpair) hnone)
  have hfirst := SpellsMember.member hnone hescaped (hspace (c := ' ') (by decide))
    (hspace (c := ' ') (by decide)) (.arr hitems) hnone
  have hsecond := SpellsMember.member hnone hplain hnone hnone
    (.obj (.nil (hspace (c := ' ') (by decide)))) hnone
  have hspelled : SpellsDocument value text.toList :=
    ⟨[], _, ['\n'], hnone, .obj (.cons hfirst (.last hsecond)), hspace (by decide), by
      decide +kernel⟩
  have hdepth : value.depth ≤ 512 := by decide
  obtain ⟨hevents, hwritten⟩ := reading_any_spelling.2.1 value text hspelled
  obtain ⟨stats, hrun⟩ := hwritten hdepth
  refine ⟨⟨hspelled, hdepth⟩, hevents, ⟨stats, ?_⟩, reading_any_spelling.2.2 text stats ?_⟩
  · rw [hrun, show value.plainZeros.compact = "\x7b\"é\":[0,\"😀\"],\"é\":\x7b\x7d\x7d" by
      decide +kernel]
  · rw [hrun]

end JsonEdit
