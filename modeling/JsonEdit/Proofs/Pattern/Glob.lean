import JsonEdit.Pattern.Basic
import Mathlib.Algebra.GroupWithZero.Nat
import Mathlib.Data.List.Infix

/-!
# Globs

The parts of a glob are looked for from the left, and a place that has been found is not given up
again. No key is missed in this way: what can follow a later place of a part can also follow its
first place, with more text before it.

* `Glob.Spread`: parts in order, with anything before each of them;
* `afterFirst_of_append`: the first place of a part leaves the most text;
* `acceptsRest_iff`, **`accepts_iff`**: what a glob accepts;
* `isInfix_of_accepts`: each part stands in the key;
* `spread_iff_gaps`, **`accepts_glob_iff_gaps`**: the same as texts that fill the gaps.
-/

namespace JsonEdit

namespace Glob

/-- The text consists of the parts in order, with anything before each of them. -/
def Spread : List (List Char) → List Char → Prop
  | [], text => text = []
  | part :: parts, text => ∃ gap rest, text = gap ++ part ++ rest ∧ Spread parts rest

section Spread

variable {part text rest : List Char} {parts : List (List Char)}

theorem spread_singleton : Spread [part] text ↔ part <:+ text := by
  constructor
  · rintro ⟨gap, rest, rfl, rfl⟩
    exact ⟨gap, by simp⟩
  · rintro ⟨gap, rfl⟩
    exact ⟨gap, [], by simp, rfl⟩

theorem Spread.of_suffix (h : Spread (part :: parts) rest) (hs : rest <:+ text) :
    Spread (part :: parts) text := by
  obtain ⟨before, rfl⟩ := hs
  obtain ⟨gap, after, rfl, hrest⟩ := h
  exact ⟨before ++ gap, after, by simp, hrest⟩

theorem Spread.isInfix (h : Spread parts text) (hp : part ∈ parts) : part <:+: text := by
  induction parts generalizing text with
  | nil => cases hp
  | cons first parts ih =>
    obtain ⟨gap, rest, rfl, hrest⟩ := h
    rcases List.mem_cons.mp hp with rfl | hp
    · exact ⟨gap, rest, rfl⟩
    · exact (ih hrest hp).trans (List.suffix_append _ _).isInfix

/-! ## Looking for a part -/

theorem append_of_afterFirst (h : afterFirst part text = some rest) :
    ∃ gap, text = gap ++ part ++ rest := by
  induction text with
  | nil => exact ⟨[], (List.isPrefixOf?_eq_some_iff_append_eq.mp h).symm⟩
  | cons c text ih =>
    rw [afterFirst] at h
    cases hp : part.isPrefixOf? (c :: text) with
    | some found =>
      rw [hp, Option.some.injEq] at h
      exact ⟨[], h ▸ (List.isPrefixOf?_eq_some_iff_append_eq.mp hp).symm⟩
    | none =>
      rw [hp] at h
      obtain ⟨gap, rfl⟩ := ih h
      exact ⟨c :: gap, rfl⟩

/-- A part that stands in a text is found there, and its first place leaves the most text. -/
theorem afterFirst_of_append (gap part rest : List Char) :
    ∃ found, afterFirst part (gap ++ part ++ rest) = some found ∧ rest <:+ found := by
  induction gap with
  | nil =>
    have hp : part.isPrefixOf? (part ++ rest) = some rest :=
      List.isPrefixOf?_eq_some_iff_append_eq.mpr rfl
    refine ⟨rest, ?_, List.suffix_rfl⟩
    rw [List.nil_append]
    cases htext : part ++ rest with
    | nil => rwa [htext] at hp
    | cons c text => rw [afterFirst, ← htext, hp]
  | cons c gap ih =>
    rw [List.cons_append, List.cons_append, afterFirst]
    cases hp : part.isPrefixOf? (c :: (gap ++ part ++ rest)) with
    | none => exact ih
    | some found =>
      -- A place further left: what follows it is longer.
      have heq : part ++ found = c :: gap ++ part ++ rest :=
        List.isPrefixOf?_eq_some_iff_append_eq.mp hp
      have hrest : rest <:+ part ++ found := heq ▸ List.suffix_append _ _
      refine ⟨found, rfl, List.suffix_of_suffix_length_le hrest (List.suffix_append _ _) ?_⟩
      have hlen := congrArg List.length heq
      simp only [List.length_append, List.length_cons] at hlen
      omega

/-! ## The parts in turn -/

/-- **Looking from the left finds all parts if they can be found at all.** -/
theorem acceptsRest_iff : acceptsRest parts text = true ↔ Spread parts text := by
  induction parts generalizing text with
  | nil => simp [acceptsRest, Spread]
  | cons part parts ih =>
    cases parts with
    | nil => rw [spread_singleton, acceptsRest, List.isSuffixOf_iff_suffix]
    | cons next parts =>
      rw [acceptsRest.eq_3 text part _ (List.cons_ne_nil next parts)]
      constructor
      · intro h
        cases hfound : afterFirst part text with
        | none => simp [hfound] at h
        | some rest =>
          rw [hfound] at h
          obtain ⟨gap, rfl⟩ := append_of_afterFirst hfound
          exact ⟨gap, rest, rfl, ih.mp h⟩
      · rintro ⟨gap, rest, rfl, hrest⟩
        obtain ⟨found, hfound, hsuffix⟩ := afterFirst_of_append gap part rest
        rw [hfound]
        exact ih.mpr (hrest.of_suffix hsuffix)

/-- **A glob accepts the keys that start with its first part and go on with the others**, spread
over the rest of the key. -/
theorem accepts_iff {first key : List Char} :
    accepts (first :: parts) key = true ↔ ∃ rest, key = first ++ rest ∧ Spread parts rest := by
  rw [accepts]
  cases hp : first.isPrefixOf? key with
  | some rest =>
    obtain rfl := List.isPrefixOf?_eq_some_iff_append_eq.mp hp
    simp [acceptsRest_iff]
  | none =>
    refine iff_of_false (by simp) ?_
    rintro ⟨rest, rfl, -⟩
    rw [List.isPrefixOf?_eq_some_iff_append_eq.mpr rfl] at hp
    cases hp

theorem isInfix_of_accepts {key : List Char} (h : accepts parts key = true) (hp : part ∈ parts) :
    part <:+: key := by
  cases parts with
  | nil => cases hp
  | cons first parts =>
    obtain ⟨rest, rfl, hrest⟩ := accepts_iff.mp h
    rcases List.mem_cons.mp hp with rfl | hp
    · exact (List.prefix_append _ _).isInfix
    · exact (hrest.isInfix hp).trans (List.suffix_append _ _).isInfix

theorem spread_iff_gaps : Spread parts text ↔ ∃ gaps : List (List Char),
    gaps.length = parts.length ∧ text = (List.zipWith (· ++ ·) gaps parts).flatten := by
  induction parts generalizing text with
  | nil => simp [Spread]
  | cons part parts ih =>
    simp only [Spread, ih]
    constructor
    · rintro ⟨gap, _, rfl, gaps, hlen, rfl⟩
      exact ⟨gap :: gaps, by simp [hlen], by simp⟩
    · rintro ⟨_ | ⟨gap, gaps⟩, hlen, rfl⟩
      · cases hlen
      · exact ⟨gap, _, by simp, gaps, Nat.succ.inj hlen, rfl⟩

end Spread

end Glob

/-! ## Gaps -/

theorem toList_join_zipWith (gaps parts : List String) :
    (String.join (List.zipWith (· ++ ·) gaps parts)).toList =
      (List.zipWith (· ++ ·) (gaps.map String.toList) (parts.map String.toList)).flatten := by
  rw [String.toList_join, List.flatMap_def, List.map_zipWith, List.zipWith_map]
  simp only [String.toList_append]

theorem sum_length_le_join : ∀ {gaps parts : List String}, gaps.length = parts.length →
    (parts.map String.length).sum ≤ (String.join (List.zipWith (· ++ ·) gaps parts)).length
  | _, [], _ => Nat.zero_le _
  | gap :: gaps, part :: parts, h => by
    have hrest : (parts.map String.length).sum ≤ _ := sum_length_le_join (Nat.succ.inj h)
    simp only [List.map_cons, List.sum_cons, List.zipWith_cons_cons, String.join_cons,
      String.length_append]
    omega

/-- **A glob accepts the keys that come of its parts by filling the gaps** between them with any
texts. The parts are looked for from the left and what is found is never given up, but no key is
missed; and the parts never share a character, so that a key has room for all of them. -/
theorem accepts_glob_iff_gaps (first : String) (parts : List String) (key : String) :
    ((KeyMatcher.glob (first :: parts)).accepts key = true ↔
      ∃ gaps : List String, gaps.length = parts.length ∧
        key = first ++ String.join (List.zipWith (· ++ ·) gaps parts)) ∧
      ((KeyMatcher.glob (first :: parts)).accepts key = true →
        ((first :: parts).map String.length).sum ≤ key.length) := by
  have haccepts : (KeyMatcher.glob (first :: parts)).accepts key = true ↔
      ∃ gaps : List String, gaps.length = parts.length ∧
        key = first ++ String.join (List.zipWith (· ++ ·) gaps parts) := by
    rw [KeyMatcher.accepts, List.map_cons, Glob.accepts_iff]
    simp only [Glob.spread_iff_gaps, ← String.toList_inj, String.toList_append,
      toList_join_zipWith, List.length_map]
    constructor
    · rintro ⟨_, hkey, gaps, hlen, rfl⟩
      exact ⟨gaps.map String.ofList, by simp [hlen], by simp [hkey, Function.comp_def]⟩
    · rintro ⟨gaps, hlen, hkey⟩
      exact ⟨_, hkey, gaps.map String.toList, by simp [hlen], rfl⟩
  refine ⟨haccepts, fun h => ?_⟩
  obtain ⟨gaps, hlen, rfl⟩ := haccepts.mp h
  rw [List.map_cons, List.sum_cons, String.length_append]
  exact Nat.add_le_add_left (sum_length_le_join hlen) _

/-- The last part starts where the first one ends, or later: `aba` is too short for `ab*ba`. -/
theorem glob_parts_apart :
    (KeyMatcher.glob ["ab", "ba"]).accepts "abba" = true ∧
      (KeyMatcher.glob ["ab", "ba"]).accepts "aba" = false := by
  constructor
  · exact (accepts_glob_iff_gaps "ab" ["ba"] "abba").1.mpr ⟨[""], rfl, by decide⟩
  · refine Bool.eq_false_iff.mpr fun h => ?_
    have hroom := (accepts_glob_iff_gaps "ab" ["ba"] "aba").2 h
    exact absurd hroom (by decide)

end JsonEdit
