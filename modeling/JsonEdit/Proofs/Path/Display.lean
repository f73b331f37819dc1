import JsonEdit.Proofs.Pattern.Written

/-!
# Paths as patterns

The written form of a path is a pattern. Where no key is empty it accepts this path and no other;
and whatever the keys are, no other path is written in the same way.

* `Path.keySegment`, `displayChars_eq`: the segments that a path is written as;
* `matchKeys_keySegments`: these segments take the keys of the path only;
* `StartsKey`, `escapeChars_append_inj`: where the text of a key ends;
* **`display_injective`**, **`display_is_own_pattern`**.
-/

namespace JsonEdit

namespace Path

/-! ## The segments of a path -/

/-- The segment that takes just this key. -/
def keySegment (key : String) : Segment := ⟨false, .literal key⟩

/-- Where the segment of a key stands in the written form. -/
def keyStyle (key : String) : SegmentStyle :=
  if isIndex key.toList then .bracketed else .dotted

theorem not_isMeta_of_isDigit {c : Char} (h : c.isDigit = true) : isMeta c = false := by
  simp only [isMeta, Bool.or_eq_false_iff, beq_eq_false_iff_ne, ne_eq]
  refine ⟨⟨⟨⟨⟨?_, ?_⟩, ?_⟩, ?_⟩, ?_⟩, ?_⟩ <;> rintro rfl <;> exact absurd h (by decide)

theorem escapeChars_of_isIndex {key : List Char} (h : isIndex key = true) :
    escapeChars key = key := by
  have hdigits : ∀ c ∈ key, c.isDigit = true := by
    simp only [isIndex, Bool.and_eq_true, List.all_eq_true] at h
    exact h.2
  clear h
  induction key with
  | nil => rfl
  | cons c key ih =>
    have hc := not_isMeta_of_isDigit (hdigits c List.mem_cons_self)
    rw [escapeChars_cons, ih fun d hd => hdigits d (List.mem_cons_of_mem _ hd), escapeChar, hc]
    rfl

theorem displayKey_eq (key : String) :
    displayKey key.toList = (keySegment key).written (keyStyle key) := by
  rw [displayKey, keyStyle]
  split_ifs with h
  · simp [Segment.written, keySegment, KeyMatcher.written, escapeChars_of_isIndex h]
  · rfl

theorem displayChars_eq (p : Path) : p.displayChars =
    writtenPattern true (p.keys.map fun key => (keySegment key, keyStyle key)) 0 := by
  have hkeys : (fun key : String => displayKey key.toList) =
      fun key => (keySegment key).written (keyStyle key) := funext displayKey_eq
  simp only [displayChars, writtenPattern, writtenSegments, if_true, List.singleton_append,
    List.flatMap_map, List.replicate_zero, List.append_nil, hkeys]

theorem compile_display {limits : PatternLimits} {p : Path} (hk : ∀ key ∈ p.keys, key ≠ "")
    (hl : p.display.length ≤ limits.maxLength) (hs : p.length ≤ limits.maxSegments) :
    Pattern.compile limits p.display = .ok ⟨p.display, p.keys.map keySegment⟩ := by
  refine compile_of_chars ?_ hl (by simpa [length] using hs)
  have hn : ∀ s ∈ p.keys.map fun key => (keySegment key, keyStyle key), s.1.matcher.IsNormal := by
    intro s hs
    obtain ⟨key, hkey, rfl⟩ := List.mem_map.mp hs
    exact hk key hkey
  have h := compileChars_written true hn (Nat.zero_le 2)
  rw [← displayChars_eq, List.map_map] at h
  rw [toList_display]
  exact h

theorem matchKeys_keySegments : ∀ keys other : List String,
    matchKeys (keys.map keySegment) other = true ↔ other = keys
  | [], other => by simp [matchKeys]
  | key :: keys, [] => by simp [matchKeys, keySegment]
  | key :: keys, next :: other => by
    have ih := matchKeys_keySegments keys other
    simp only [List.map_cons, matchKeys, keySegment, Bool.false_eq_true, if_false,
      KeyMatcher.accepts, Bool.and_eq_true, beq_iff_eq, List.cons.injEq] at ih ⊢
    rw [ih, eq_comm]

/-! ## No two paths are written alike -/

/-- A mark of the syntax follows, or nothing: the text of a key before it has come to its end. -/
def StartsKey (rest : List Char) : Prop := ∀ c ∈ rest.head?, isMeta c = true ∧ c ≠ '\\'

theorem startsKey_nil : StartsKey [] := fun _ h => by cases h

theorem startsKey_cons {c : Char} (hm : isMeta c = true) (hc : c ≠ '\\') (rest : List Char) :
    StartsKey (c :: rest) := fun d hd => by
  cases hd
  exact ⟨hm, hc⟩

theorem startsKey_displayKeys (keys : List String) :
    StartsKey (keys.flatMap fun key => displayKey key.toList) := by
  match keys with
  | [] => exact startsKey_nil
  | key :: keys =>
    rw [List.flatMap_cons, displayKey]
    split_ifs
    · exact startsKey_cons (by decide) (by decide) _
    · exact startsKey_cons (by decide) (by decide) _

theorem not_startsKey_escapeChar (c : Char) (rest : List Char) :
    ¬ StartsKey (escapeChar c ++ rest) := by
  intro h
  rw [escapeChar] at h
  split_ifs at h with hm
  · exact (h '\\' rfl).2 rfl
  · exact hm (h c rfl).1

theorem escapeChar_append_inj {c d : Char} {rest rest' : List Char}
    (h : escapeChar c ++ rest = escapeChar d ++ rest') : c = d ∧ rest = rest' := by
  have hslash : isMeta '\\' = true := by decide
  rw [escapeChar, escapeChar] at h
  split_ifs at h with hc hd hd
  · simpa using h
  · have : d = '\\' := by simpa using (List.cons.inj h).1.symm
    exact absurd (this ▸ hslash) hd
  · have : c = '\\' := by simpa using (List.cons.inj h).1
    exact absurd (this ▸ hslash) hc
  · simpa using h

/-- **The text of a key and what follows it are told apart.** -/
theorem escapeChars_append_inj : ∀ {key other rest rest' : List Char}, StartsKey rest →
    StartsKey rest' → escapeChars key ++ rest = escapeChars other ++ rest' →
    key = other ∧ rest = rest'
  | [], [], _, _, _, _, h => ⟨rfl, h⟩
  | [], d :: other, rest, rest', hr, _, h => by
    rw [escapeChars_nil, List.nil_append, escapeChars_cons, List.append_assoc] at h
    exact absurd (h ▸ hr) (not_startsKey_escapeChar d _)
  | c :: key, [], rest, rest', _, hr, h => by
    rw [escapeChars_nil, List.nil_append, escapeChars_cons, List.append_assoc] at h
    exact absurd (h ▸ hr) (not_startsKey_escapeChar c _)
  | c :: key, d :: other, rest, rest', hr, hr', h => by
    rw [escapeChars_cons, escapeChars_cons, List.append_assoc, List.append_assoc] at h
    obtain ⟨rfl, hmore⟩ := escapeChar_append_inj h
    obtain ⟨rfl, hrest⟩ := escapeChars_append_inj hr hr' hmore
    exact ⟨rfl, hrest⟩

theorem displayKey_append_inj {key other rest rest' : List Char} (hr : StartsKey rest)
    (hr' : StartsKey rest') (h : displayKey key ++ rest = displayKey other ++ rest') :
    key = other ∧ rest = rest' := by
  rw [displayKey, displayKey] at h
  split_ifs at h with hk ho ho
  · have hb : ∀ rest, StartsKey (']' :: rest) := startsKey_cons (by decide) (by decide)
    rw [← escapeChars_of_isIndex hk, ← escapeChars_of_isIndex ho] at h
    simp only [List.cons_append, List.append_assoc, List.nil_append, List.cons.injEq,
      true_and] at h
    obtain ⟨rfl, hrest⟩ := escapeChars_append_inj (hb rest) (hb rest') h
    exact ⟨rfl, (List.cons.inj hrest).2⟩
  · exact absurd (List.cons.inj h).1 (by decide)
  · exact absurd (List.cons.inj h).1 (by decide)
  · exact escapeChars_append_inj hr hr' (List.cons.inj h).2

theorem displayKey_ne_nil (key : List Char) : displayKey key ≠ [] := by
  rw [displayKey]
  split_ifs <;> exact List.cons_ne_nil _ _

theorem displayKeys_inj : ∀ {keys other : List String},
    (keys.flatMap fun key => displayKey key.toList) =
      (other.flatMap fun key => displayKey key.toList) → keys = other
  | [], [], _ => rfl
  | [], next :: other, h => by
    rw [List.flatMap_cons] at h
    exact absurd (List.append_eq_nil_iff.mp h.symm).1 (displayKey_ne_nil _)
  | key :: keys, [], h => by
    rw [List.flatMap_cons] at h
    exact absurd (List.append_eq_nil_iff.mp h).1 (displayKey_ne_nil _)
  | key :: keys, next :: other, h => by
    rw [List.flatMap_cons, List.flatMap_cons] at h
    obtain ⟨hkey, hkeys⟩ :=
      displayKey_append_inj (startsKey_displayKeys keys) (startsKey_displayKeys other) h
    rw [String.toList_inj.mp hkey, displayKeys_inj hkeys]

/-- **No two paths are written alike**, whatever their keys. -/
theorem display_injective : Function.Injective display := by
  intro p q h
  have hchars : p.displayChars = q.displayChars := by
    rw [← toList_display, h, toList_display]
  exact congrArg Path.mk (displayKeys_inj (List.cons.inj hchars).2)

/-- **A path that is written is a pattern for itself.** If no key is empty and the text is within
the limits it compiles, and the pattern accepts the keys of this path and no others. And even with
empty keys no other path is written like it. -/
theorem display_is_own_pattern :
    (∀ (limits : PatternLimits) (p : Path), (∀ key ∈ p.keys, key ≠ "") →
      p.display.length ≤ limits.maxLength → p.length ≤ limits.maxSegments →
      ∃ pattern, Pattern.compile limits p.display = .ok pattern ∧
        ∀ keys, matchKeys pattern.segments keys = true ↔ keys = p.keys) ∧
    Function.Injective display :=
  ⟨fun _ p hk hl hs => ⟨_, compile_display hk hl hs, matchKeys_keySegments p.keys⟩,
    display_injective⟩

/-- Keys with marks of the syntax, and keys of digits. -/
theorem marks_are_own_pattern :
    let p : Path := ⟨["a.b", "12", "[*]", "$"]⟩
    (∀ key ∈ p.keys, key ≠ "") ∧ p.display = "$.a\\.b[12].\\[\\*\\].\\$" ∧
      ∃ pattern, Pattern.compile .standard p.display = .ok pattern ∧
        ∀ keys, matchKeys pattern.segments keys = true ↔ keys = p.keys := by
  intro p
  have hk : ∀ key ∈ p.keys, key ≠ "" := by decide
  have hdisplay : p.display = "$.a\\.b[12].\\[\\*\\].\\$" := by decide
  have hl : p.display.length ≤ PatternLimits.standard.maxLength := by
    rw [hdisplay]
    decide
  exact ⟨hk, hdisplay, display_is_own_pattern.1 .standard p hk hl (by decide)⟩

end Path

end JsonEdit
