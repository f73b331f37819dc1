import JsonEdit.Proofs.Editor.Replace
import JsonEdit.Proofs.Json.Parser
import JsonEdit.Proofs.Path.Display
import JsonEdit.Proofs.RuleConfig.Setup

/-!
# Paths in arguments

A path that has been written stands for itself in an argument that sets, with the compact text of a
value behind it: the nodes at the path are replaced by the value. An argument is split at its first
`=`, and so no key of the path may have one in it.

* `splitAssignment_of_pattern`: a pattern without `=` and what stands behind it;
* `build_set`: the only rule of an argument that sets;
* `replacesAt_path`: this rule replaces at the path;
* **`set_path_replaces`**: the documents that it makes;
* `set_path_missed`: a key with `=` in it, and a value that stands for a number.
-/

namespace JsonEdit

/-! ## Splitting -/

theorem equals_not_mem_display {path : Path} (h : ∀ key ∈ path.keys, '=' ∉ key.toList) :
    '=' ∉ path.display.toList := by
  -- An escape only puts a backslash before a character.
  have hescape : ∀ {key : List Char}, '=' ∉ key → '=' ∉ escapeChars key := by
    intro key hkey hm
    obtain ⟨c, hc, hm⟩ := List.mem_flatMap.mp hm
    rw [escapeChar] at hm
    split_ifs at hm <;> simp at hm <;> exact hkey (hm ▸ hc)
  rw [Path.toList_display, Path.displayChars, List.mem_cons, List.mem_flatMap]
  rintro (hm | ⟨key, hkey, hm⟩)
  · exact absurd hm (by decide)
  · have hkey := h key hkey
    rw [Path.displayKey] at hm
    split_ifs at hm
    · simp [hkey] at hm
    · rcases List.mem_cons.mp hm with hm | hm
      · exact absurd hm (by decide)
      · exact hescape hkey hm

theorem splitAssignment_of_pattern (flag : AssignmentFlag) {pattern : String} (hne : pattern ≠ "")
    (h : '=' ∉ pattern.toList) (value : String) :
    splitAssignment flag (pattern ++ "=" ++ value) = .ok (pattern, value) :=
  splitAssignment_of_assigns flag ⟨rfl, hne, h⟩

/-! ## The rule of an argument -/

/-- The rule of an argument that sets. -/
def setRule (p : Pattern) (value : Json) : Rule := ⟨.pattern p, .always (.replace value)⟩

theorem build_set {argument pattern value : String} {p : Pattern}
    (hs : splitAssignment .set argument = .ok (pattern, value))
    (hp : Pattern.compile .standard pattern = .ok p) :
    RuleSources.build ⟨none, [], [], [argument]⟩ = .ok [setRule p (setValue value)] := by
  have hon : RuleBuilder.new.addAction pattern (.replace (setValue value)) =
      .ok ⟨[setRule p (setValue value)], .standard⟩ := by
    rw [RuleBuilder.addAction, RuleBuilder.on, RuleBuilder.new, hp]
    rfl
  have hadd : RuleSources.addAssignment .set (fun text => .replace (setValue text)) .new argument =
      .ok ⟨[setRule p (setValue value)], .standard⟩ := by
    rw [RuleSources.addAssignment, hs]
    exact hon
  have hfold : [argument].foldlM
      (RuleSources.addAssignment .set fun text => .replace (setValue text)) RuleBuilder.new =
        .ok ⟨[setRule p (setValue value)], .standard⟩ := by
    rw [List.foldlM_cons, hadd]
    rfl
  rw [RuleSources.build]
  exact congrArg (fun b => b >>= fun b : RuleBuilder => .ok b.rules) hfold

theorem replacesAt_path (source : String) (keys : List String) (new : Json) :
    RuleSet.ReplacesAt [setRule ⟨source, keys.map Path.keySegment⟩ new] keys new := by
  have haccepts : ∀ path : Path, (setRule ⟨source, keys.map Path.keySegment⟩ new).matcher.accepts
      path = true ↔ path.keys = keys := fun path => Path.matchKeys_keySegments keys path.keys
  refine ⟨fun node hnode => ?_, fun path hpath => ?_⟩
  · have haccept := (haccepts node.path).mpr (by rw [hnode])
    simp only [RuleSet.actionAt, RuleSet.first?, RuleSet.firstFrom?, haccept, if_true]
    rfl
  · have hreject : ¬ _ := fun h => hpath ((haccepts ⟨path⟩).mp h)
    simp only [RuleSet.first?, RuleSet.firstFrom?, hreject, if_false]

/-! ## Documents -/

/-- The argument that sets the nodes at a path to a value. -/
def setArgument (path : Path) (new : Json) : String := path.display ++ "=" ++ new.compact

/-- **A path that has been written stands for itself in an argument that sets.** If no key of it is
empty or has an `=` in it, the text of the path and of a value that is data makes a rule. From every
text of a document this rule makes the document with the value in the place of the nodes at the
path, and nothing else changed but that `-0` is written as it is read. -/
theorem set_path_replaces {path : Path} (hk : ∀ key ∈ path.keys, key ≠ "" ∧ '=' ∉ key.toList)
    (hl : path.display.length ≤ PatternLimits.standard.maxLength)
    (hs : path.length ≤ PatternLimits.standard.maxSegments) {new : Json} (hd : new.IsData)
    (hn : new.nesting ≤ 127) :
    ∃ rules, RuleSources.build ⟨none, [], [], [setArgument path new]⟩ = .ok rules ∧
      ∀ (document : Json) (text : String), SpellsDocument document text.toList →
        document.depth ≤ 512 →
          ∃ stats, (editText rules text).result = .ok stats ∧
            (editText rules text).sink =
              (Json.replaceAt new path.keys document).plainZeros.compact := by
  have hcompile := Path.compile_display (fun key hm => (hk key hm).1) hl hs
  have hne : path.display ≠ "" := by
    rw [ne_eq, ← String.toList_eq_nil_iff, Path.toList_display]
    exact List.cons_ne_nil _ _
  have hsplit := splitAssignment_of_pattern .set hne
    (equals_not_mem_display fun key hm => (hk key hm).2) new.compact
  have hvalue : setValue new.compact = new.plainZeros := by
    rw [setValue, Json.parse?_compact hd hn]
    rfl
  have hbuild := build_set hsplit hcompile
  rw [hvalue] at hbuild
  have hfails : RuleSet.NeverFails
      [setRule ⟨path.display, path.keys.map Path.keySegment⟩ new.plainZeros] :=
    RuleSet.neverFails_nil.cons_always _ _
  refine ⟨_, hbuild, fun document text ht hdepth => ?_⟩
  obtain ⟨stats, hrun⟩ := editText_of_spells hfails ht hdepth
  have hkept := edit_of_replacesAt (replacesAt_path path.display path.keys new.plainZeros)
    document.plainZeros
  rw [← Json.plainZeros_replaceAt] at hkept
  refine ⟨stats, by rw [hrun], ?_⟩
  rw [hrun]
  simp only [Edited.text, hkept]

/-- A key with marks of the syntax that stands twice, and an array as the value. -/
theorem set_path_replaces_twice :
    let path : Path := ⟨["a.b", "0"]⟩
    let new : Json := .arr [.str "=", .obj [("x", .null)]]
    let document : Json :=
      .obj [("a.b", .arr [.null, .bool true]), ("c", .null), ("a.b", .arr [.null])]
    (∀ key ∈ path.keys, key ≠ "" ∧ '=' ∉ key.toList) ∧ new.IsData ∧
      ∃ rules, RuleSources.build
          ⟨none, [], [], ["$.a\\.b[0]=[\"=\",\x7b\"x\":null\x7d]"]⟩ = .ok rules ∧
        (editText rules document.compact).sink =
          "\x7b\"a.b\":[[\"=\",\x7b\"x\":null\x7d],true],\"c\":null," ++
            "\"a.b\":[[\"=\",\x7b\"x\":null\x7d]]\x7d" := by
  intro path new document
  have hk : ∀ key ∈ path.keys, key ≠ "" ∧ '=' ∉ key.toList := by decide
  have hd : new.IsData := by
    simp [new, Json.IsData, Json.IsDataItems, Json.IsDataMembers, Json.numberName]
  have hargument : setArgument path new =
      "$.a\\.b[0]=[\"=\",\x7b\"x\":null\x7d]" := by decide +kernel
  have hl : path.display.length ≤ PatternLimits.standard.maxLength := by decide +kernel
  obtain ⟨rules, hbuild, hedit⟩ := set_path_replaces hk hl (by decide) hd (by decide)
  obtain ⟨stats, -, hsink⟩ := hedit document document.compact (spellsDocument_compact document)
    (by decide)
  rw [hargument] at hbuild
  refine ⟨hk, hd, rules, hbuild, hsink.trans ?_⟩
  decide +kernel

/-- The path and the value are within the limits for an argument that sets the nodes at the path. -/
structure Settable (document : Json) (path : Path) (new : Json) : Prop where
  node : ∃ node ∈ document.nodes, node.path = path
  keys : ∀ key ∈ path.keys, key ≠ ""
  length : path.display.length ≤ PatternLimits.standard.maxLength
  segments : path.length ≤ PatternLimits.standard.maxSegments
  depth : document.depth ≤ 512
  nesting : new.nesting ≤ 127

/-- The argument makes rules, and they make another document than the one with the value in the
place of the nodes at the path. -/
def SetMisses (document : Json) (path : Path) (new : Json) : Prop :=
  ∃ rules, RuleSources.build ⟨none, [], [], [setArgument path new]⟩ = .ok rules ∧
    (editText rules document.compact).sink ≠ (Json.replaceAt new path.keys document).compact

/-- **A key with an `=` in it cuts the argument short**, so that another pattern is made of it. An
object that stands for a number is read as the number, and `-0` as `0`. -/
theorem set_path_missed :
    (Settable (.obj [("a=b", .num ⟨['1'], rfl⟩)]) ⟨["a=b"]⟩ (.num ⟨['2'], rfl⟩) ∧
      SetMisses (.obj [("a=b", .num ⟨['1'], rfl⟩)]) ⟨["a=b"]⟩ (.num ⟨['2'], rfl⟩)) ∧
    (Settable .null .root (.obj [(Json.numberName, .str "1")]) ∧
      SetMisses .null .root (.obj [(Json.numberName, .str "1")])) ∧
    (Settable (.arr [.null, .num ⟨['-', '0'], rfl⟩]) ⟨["0"]⟩ .null ∧
      SetMisses (.arr [.null, .num ⟨['-', '0'], rfl⟩]) ⟨["0"]⟩ .null) := by
  refine ⟨⟨?_, ?_⟩, ⟨?_, ?_⟩, ⟨?_, ?_⟩⟩
  · exact ⟨by decide, by decide, by decide +kernel, by decide, by decide, by decide⟩
  · have hsplit : splitAssignment .set (setArgument ⟨["a=b"]⟩ (.num ⟨['2'], rfl⟩)) =
        .ok ("$.a", "b=2") := by decide +kernel
    have hcompile : Pattern.compile .standard "$.a" = .ok ⟨"$.a", [⟨false, .literal "a"⟩]⟩ := by
      decide +kernel
    exact ⟨_, build_set hsplit hcompile, by decide +kernel⟩
  · exact ⟨by decide, by decide, by decide +kernel, by decide, by decide, by decide⟩
  · have hsplit : splitAssignment .set (setArgument .root (.obj [(Json.numberName, .str "1")])) =
        .ok ("$", "\x7b\"$serde_json::private::Number\":\"1\"\x7d") := by decide +kernel
    have hcompile : Pattern.compile .standard "$" = .ok ⟨"$", []⟩ := by decide +kernel
    exact ⟨_, build_set hsplit hcompile, by decide +kernel⟩
  · exact ⟨by decide, by decide, by decide +kernel, by decide, by decide, by decide⟩
  · have hsplit : splitAssignment .set (setArgument ⟨["0"]⟩ .null) = .ok ("$[0]", "null") := by
      decide +kernel
    have hcompile : Pattern.compile .standard "$[0]" = .ok ⟨"$[0]", [⟨false, .literal "0"⟩]⟩ := by
      decide +kernel
    exact ⟨_, build_set hsplit hcompile, by decide +kernel⟩

end JsonEdit
