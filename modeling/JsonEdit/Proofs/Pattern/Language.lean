import JsonEdit.Proofs.Pattern.Alignment
import JsonEdit.Proofs.Pattern.Glob
import JsonEdit.Proofs.Pattern.Normal
import Mathlib.Computability.Language

/-!
# Patterns as regular languages

A pattern takes the keys of a path one by one, a regular expression its joined text character by
character. Where no key and no text of the pattern has a dot in it, the dots of the joined text
tell the keys apart, and both say the same.

* `nonDot`, `dot`, `separated`: `[^.]`, `\.` and languages with another one between them;
* `KeyMatcher.language`, `Segment.language`, `Pattern.language`: the expression of a pattern;
* `IsPlainKey`, `joinedChars_injective`: plain keys can be read back from their joined text;
* `KeyMatcher.mem_language`, `Segment.mem_language`: one key, and a segment with what it passes;
* `mem_separated_segments`: the words of segments are the joined texts of the keys they take;
* **`accepts_iff_joined_mem_language`**: the test of a path.
-/

namespace JsonEdit

open scoped Computability

/-! ## The expression of a pattern -/

/-- `[^.]`: one character that is no dot. -/
def nonDot : Language Char := {word | ∃ c, c ≠ '.' ∧ word = [c]}

/-- `\.`: a dot. -/
def dot : Language Char := {['.']}

/-- Languages in order, with a word of another language between two of them. -/
def separated (separator : Language Char) : List (Language Char) → Language Char
  | [] => 1
  | [l] => l
  | l :: next :: more => l * separator * separated separator (next :: more)

/-- A literal stands for itself and `*` for `[^.]+`; the parts of a glob stand with `[^.]*` between
them. -/
def KeyMatcher.language : KeyMatcher → Language Char
  | .literal text => {text.toList}
  | .any => nonDot * nonDot∗
  | .glob parts => separated nonDot∗ (parts.map fun part => {part.toList})

/-- `([^.]+\.)*` stands before the test of a segment that descends. -/
def Segment.language (segment : Segment) : Language Char :=
  (if segment.descend then (nonDot * nonDot∗ * dot)∗ else 1) * segment.matcher.language

/-- The segments in order, with `\.` between them. -/
def Pattern.language (p : Pattern) : Language Char := separated dot (p.segments.map Segment.language)

/-- No text of the test has a dot in it. -/
def KeyMatcher.DotFree : KeyMatcher → Prop
  | .literal text => '.' ∉ text.toList
  | .any => True
  | .glob parts => ∀ part ∈ parts, '.' ∉ part.toList

/-- A key that is not empty and has no dot in it. -/
def IsPlainKey (key : String) : Prop := key ≠ "" ∧ '.' ∉ key.toList

/-! ## Joined keys -/

/-- The characters of keys with dots between them. -/
def joinedChars (keys : List String) : List Char := ['.'].intercalate (keys.map String.toList)

@[simp]
theorem Path.toList_joined (path : Path) : path.joined.toList = joinedChars path.keys :=
  String.toList_intercalate

section Joined

variable {keys below : List String} {key : String}

theorem joinedChars_append (h : keys ≠ []) (hb : below ≠ []) :
    joinedChars (keys ++ below) = joinedChars keys ++ ['.'] ++ joinedChars below := by
  have happend := String.intercalate_append_of_ne_nil (s := ".") h hb
  simpa [joinedChars] using congrArg String.toList happend

theorem joinedChars_concat (passed : List String) (key : String) :
    joinedChars (passed ++ [key]) =
      passed.flatMap (fun key => key.toList ++ ['.']) ++ key.toList := by
  induction passed with
  | nil => simp [joinedChars]
  | cons first passed ih =>
    have happend := joinedChars_append (List.cons_ne_nil first [])
      (List.append_ne_nil_of_right_ne_nil passed (List.cons_ne_nil key []))
    rw [List.singleton_append, ih] at happend
    simpa [joinedChars] using happend

theorem joinedChars_ne_nil (h : ∀ key ∈ keys, IsPlainKey key) (hne : keys ≠ []) :
    joinedChars keys ≠ [] := by
  obtain ⟨passed, key, rfl⟩ := (List.eq_nil_or_concat' keys).resolve_left hne
  have hkey : key ≠ "" := (h key (by simp)).1
  rw [joinedChars_concat]
  simp [hkey]

/-- **Plain keys can be read back from their joined text.** -/
theorem joinedChars_injective (h : ∀ key ∈ keys, IsPlainKey key)
    (hb : ∀ key ∈ below, IsPlainKey key) (he : joinedChars keys = joinedChars below) :
    keys = below := by
  by_cases hk : keys = []
  · by_contra hne
    exact joinedChars_ne_nil hb (fun h => hne (hk.trans h.symm)) (he ▸ by rw [hk]; rfl)
  have hbelow : below ≠ [] := by
    rintro rfl
    exact joinedChars_ne_nil h hk he
  have hsplit : ∀ {ks : List String}, (∀ key ∈ ks, IsPlainKey key) → ks ≠ [] →
      (joinedChars ks).splitOn '.' = ks.map String.toList := by
    intro ks hks hne
    refine List.splitOn_intercalate '.' ?_ (by simpa using hne)
    rw [List.forall_mem_map]
    exact fun key hm => (hks key hm).2
  have hmap : keys.map String.toList = below.map String.toList := by
    rw [← hsplit h hk, ← hsplit hb hbelow, he]
  exact List.map_injective_iff.mpr (fun _ _ => String.toList_inj.mp) hmap

end Joined

/-! ## One key -/

theorem mem_nonDot_star {word : List Char} : word ∈ nonDot∗ ↔ '.' ∉ word := by
  rw [Language.mem_kstar]
  constructor
  · rintro ⟨words, rfl, hwords⟩ hm
    obtain ⟨letter, hl, hm⟩ := List.mem_flatten.mp hm
    obtain ⟨c, hc, rfl⟩ := hwords letter hl
    exact hc (List.mem_singleton.mp hm).symm
  · intro h
    refine ⟨word.map fun c => [c], by simp [← List.flatMap_def], ?_⟩
    rw [List.forall_mem_map]
    exact fun c hm => ⟨c, fun hc => h (hc ▸ hm), rfl⟩

theorem mem_nonDot_plus {word : List Char} :
    word ∈ nonDot * nonDot∗ ↔ word ≠ [] ∧ '.' ∉ word := by
  rw [Language.mem_mul]
  constructor
  · rintro ⟨_, ⟨c, hc, rfl⟩, rest, hrest, rfl⟩
    exact ⟨List.cons_ne_nil _ _, by simpa [hc.symm] using mem_nonDot_star.mp hrest⟩
  · rintro ⟨hne, hdot⟩
    match word, hne with
    | c :: rest, _ =>
      obtain ⟨hc, hrest⟩ : '.' ≠ c ∧ '.' ∉ rest := by simpa using hdot
      exact ⟨[c], ⟨c, hc.symm, rfl⟩, rest, mem_nonDot_star.mpr hrest, rfl⟩

theorem mem_singleton_mul {text word : List Char} {l : Language Char} :
    word ∈ {text} * l ↔ ∃ rest ∈ l, word = text ++ rest := by
  rw [Language.mem_mul]
  exact ⟨fun ⟨_, rfl, rest, hr, he⟩ => ⟨rest, hr, he.symm⟩,
    fun ⟨rest, hr, he⟩ => ⟨text, rfl, rest, hr, he.symm⟩⟩

theorem mem_separated_parts {first word : List Char} {parts : List (List Char)}
    (h : '.' ∉ first) (hp : ∀ part ∈ parts, '.' ∉ part) :
    word ∈ separated nonDot∗ ((first :: parts).map fun part => {part}) ↔
      '.' ∉ word ∧ ∃ rest, word = first ++ rest ∧ Glob.Spread parts rest := by
  induction parts generalizing first word with
  | nil =>
    constructor
    · rintro rfl
      exact ⟨h, [], by simp, rfl⟩
    · rintro ⟨-, rest, rfl, rfl⟩
      exact List.append_nil first
  | cons next parts ih =>
    obtain ⟨hnext, hparts⟩ := List.forall_mem_cons.mp hp
    rw [List.map_cons, List.map_cons, separated, mul_assoc, mem_singleton_mul]
    rw [← List.map_cons (f := fun part : List Char => ({part} : Language Char))]
    constructor
    · rintro ⟨rest, hrest, rfl⟩
      obtain ⟨gap, hgap, tail, htail, rfl⟩ := Language.mem_mul.mp hrest
      obtain ⟨hdot, rest, rfl, hspread⟩ := (ih hnext hparts).mp htail
      have hgap := mem_nonDot_star.mp hgap
      exact ⟨by simp_all, _, rfl, gap, rest, by simp, hspread⟩
    · rintro ⟨hdot, _, rfl, gap, rest, rfl, hspread⟩
      have hword : '.' ∉ gap ∧ '.' ∉ next ++ rest := by
        constructor <;> intro hm <;> exact hdot (by simp_all)
      refine ⟨_, Language.mem_mul.mpr ⟨gap, mem_nonDot_star.mpr hword.1, next ++ rest,
        (ih hnext hparts).mpr ⟨hword.2, rest, rfl, hspread⟩, rfl⟩, by simp⟩

theorem KeyMatcher.mem_language {m : KeyMatcher} (hn : m.IsNormal) (hd : m.DotFree)
    (key : String) : key.toList ∈ m.language ↔ IsPlainKey key ∧ m.accepts key = true := by
  cases m with
  | literal text =>
    have hword : key.toList ∈ (literal text).language ↔ text = key :=
      Set.mem_singleton_iff.trans (String.toList_inj.trans eq_comm)
    rw [hword, accepts, beq_iff_eq]
    constructor
    · rintro rfl
      exact ⟨⟨hn, hd⟩, rfl⟩
    · exact And.right
  | any => simp [language, mem_nonDot_plus, IsPlainKey, accepts]
  | glob parts =>
    obtain ⟨-, ⟨part, hm, hpart⟩, -⟩ := hn
    obtain ⟨first, parts, rfl⟩ := List.exists_cons_of_ne_nil (List.ne_nil_of_mem hm)
    have hmap : ∀ parts : List String, (glob parts).language =
        separated nonDot∗ ((parts.map String.toList).map fun part => {part}) := by
      simp [language, Function.comp_def]
    have hparts : ∀ p ∈ parts.map String.toList, '.' ∉ p :=
      List.forall_mem_map.mpr fun p hp => hd p (List.mem_cons_of_mem _ hp)
    -- A part that is not empty stands in the key.
    have hne : (glob (first :: parts)).accepts key = true → key ≠ "" := by
      rintro haccepts rfl
      have hinfix := Glob.isInfix_of_accepts (by simpa [accepts] using haccepts)
        (List.mem_map_of_mem hm)
      exact hpart (by simpa using hinfix)
    have haccepts : (glob (first :: parts)).accepts key = true ↔ ∃ rest,
        key.toList = first.toList ++ rest ∧ Glob.Spread (parts.map String.toList) rest :=
      Glob.accepts_iff
    rw [hmap, List.map_cons, mem_separated_parts (hd first List.mem_cons_self) hparts,
      ← haccepts, IsPlainKey]
    constructor
    · rintro ⟨hdot, h⟩
      exact ⟨⟨hne h, hdot⟩, h⟩
    · rintro ⟨⟨-, hdot⟩, h⟩
      exact ⟨hdot, h⟩

/-! ## Segments -/

/-- `([^.]+\.)*`: keys that are passed over, each with its dot. -/
theorem mem_descent {word : List Char} :
    word ∈ (nonDot * nonDot∗ * dot)∗ ↔ ∃ passed : List String,
      (∀ key ∈ passed, IsPlainKey key) ∧
        word = passed.flatMap fun key => key.toList ++ ['.'] := by
  have hmem : ∀ {part : List Char}, part ∈ nonDot * nonDot∗ * dot ↔
      ∃ key, IsPlainKey key ∧ part = key.toList ++ ['.'] := by
    intro part
    rw [Language.mem_mul]
    constructor
    · rintro ⟨key, hkey, _, rfl, rfl⟩
      refine ⟨String.ofList key, ?_, by simp⟩
      simpa [IsPlainKey] using mem_nonDot_plus.mp hkey
    · rintro ⟨key, hkey, rfl⟩
      exact ⟨key.toList, mem_nonDot_plus.mpr (by simpa [IsPlainKey] using hkey), _, rfl, rfl⟩
  rw [Language.mem_kstar]
  constructor
  · rintro ⟨parts, rfl, hparts⟩
    induction parts with
    | nil => exact ⟨[], by simp, rfl⟩
    | cons part parts ih =>
      obtain ⟨hpart, hrest⟩ := List.forall_mem_cons.mp hparts
      obtain ⟨passed, hpassed, he⟩ := ih hrest
      obtain ⟨key, hkey, rfl⟩ := hmem.mp hpart
      exact ⟨key :: passed, List.forall_mem_cons.mpr ⟨hkey, hpassed⟩, by simp [he]⟩
  · rintro ⟨passed, hpassed, rfl⟩
    refine ⟨passed.map fun key => key.toList ++ ['.'], by rw [List.flatMap_def], ?_⟩
    rw [List.forall_mem_map]
    exact fun key hm => hmem.mpr ⟨key, hpassed key hm, rfl⟩

theorem Segment.mem_language {segment : Segment} (hn : segment.matcher.IsNormal)
    (hd : segment.matcher.DotFree) {word : List Char} :
    word ∈ segment.language ↔ ∃ keys, (∀ key ∈ keys, IsPlainKey key) ∧
      matchKeys [segment] keys = true ∧ word = joinedChars keys := by
  have hpassed : ∀ {front : List Char},
      front ∈ (if segment.descend then (nonDot * nonDot∗ * dot)∗ else 1 : Language Char) ↔
        ∃ passed : List String, (∀ key ∈ passed, IsPlainKey key) ∧
          (segment.descend = false → passed = []) ∧
            front = passed.flatMap fun key => key.toList ++ ['.'] := by
    intro front
    split_ifs with h
    · simp [mem_descent, h]
    · rw [Language.mem_one]
      simp only [Bool.not_eq_true] at h
      constructor
      · rintro rfl
        exact ⟨[], by simp, fun _ => rfl, rfl⟩
      · rintro ⟨passed, -, hp, rfl⟩
        rw [hp h]
        rfl
  rw [Segment.language, Language.mem_mul]
  constructor
  · rintro ⟨front, hfront, last, hlast, rfl⟩
    obtain ⟨passed, hplain, hp, rfl⟩ := hpassed.mp hfront
    rw [← String.toList_ofList (l := last)] at hlast
    obtain ⟨hkey, ha⟩ := (KeyMatcher.mem_language hn hd _).mp hlast
    refine ⟨passed ++ [String.ofList last], ?_, matchKeys_singleton.mpr ⟨_, _, rfl, hp, ha⟩, ?_⟩
    · exact List.forall_mem_append.mpr ⟨hplain, by simpa using hkey⟩
    · rw [joinedChars_concat, String.toList_ofList]
  · rintro ⟨keys, hplain, hmatch, rfl⟩
    obtain ⟨passed, key, rfl, hp, ha⟩ := matchKeys_singleton.mp hmatch
    obtain ⟨hplain, hkey⟩ := List.forall_mem_append.mp hplain
    exact ⟨_, hpassed.mpr ⟨passed, hplain, hp, rfl⟩, key.toList,
      (KeyMatcher.mem_language hn hd key).mpr ⟨hkey key List.mem_cons_self, ha⟩,
      (joinedChars_concat passed key).symm⟩

theorem keys_ne_nil_of_matchKeys {segment : Segment} {segments : List Segment} {keys : List String}
    (h : matchKeys (segment :: segments) keys = true) : keys ≠ [] := by
  rintro rfl
  simp [matchKeys, anySplit] at h

/-- **The words of segments are the joined texts of the plain keys they take.** -/
theorem mem_separated_segments : ∀ {segments : List Segment},
    (∀ segment ∈ segments, segment.matcher.IsNormal) →
    (∀ segment ∈ segments, segment.matcher.DotFree) → ∀ {word : List Char},
      word ∈ separated dot (segments.map Segment.language) ↔
        ∃ keys, (∀ key ∈ keys, IsPlainKey key) ∧ matchKeys segments keys = true ∧
          word = joinedChars keys
  | [], _, _, word => by
    rw [List.map_nil, separated, Language.mem_one]
    constructor
    · rintro rfl
      exact ⟨[], by simp, rfl, rfl⟩
    · rintro ⟨keys, -, hmatch, rfl⟩
      rw [List.isEmpty_iff.mp hmatch]
      rfl
  | [segment], hn, hd, word =>
    Segment.mem_language (hn _ List.mem_cons_self) (hd _ List.mem_cons_self)
  | segment :: next :: segments, hn, hd, word => by
    obtain ⟨hn₁, hn⟩ := List.forall_mem_cons.mp hn
    obtain ⟨hd₁, hd⟩ := List.forall_mem_cons.mp hd
    have hsplit : ∀ {keys : List String}, matchKeys (segment :: next :: segments) keys = true ↔
        ∃ above below, keys = above ++ below ∧ matchKeys [segment] above = true ∧
          matchKeys (next :: segments) below = true :=
      fun {keys} => @matchKeys_append [segment] (next :: segments) keys
    rw [List.map_cons, List.map_cons, separated, ← List.map_cons, mul_assoc, Language.mem_mul]
    constructor
    · rintro ⟨left, hleft, _, hrest, rfl⟩
      obtain ⟨right, hright, rfl⟩ := mem_singleton_mul.mp hrest
      obtain ⟨above, hpa, ha, rfl⟩ := (Segment.mem_language hn₁ hd₁).mp hleft
      obtain ⟨below, hpb, hb, rfl⟩ := (mem_separated_segments hn hd).mp hright
      refine ⟨above ++ below, List.forall_mem_append.mpr ⟨hpa, hpb⟩,
        hsplit.mpr ⟨above, below, rfl, ha, hb⟩, ?_⟩
      rw [joinedChars_append (keys_ne_nil_of_matchKeys ha) (keys_ne_nil_of_matchKeys hb),
        List.append_assoc]
    · rintro ⟨keys, hplain, hmatch, rfl⟩
      obtain ⟨above, below, rfl, ha, hb⟩ := hsplit.mp hmatch
      obtain ⟨hpa, hpb⟩ := List.forall_mem_append.mp hplain
      rw [joinedChars_append (keys_ne_nil_of_matchKeys ha) (keys_ne_nil_of_matchKeys hb),
        List.append_assoc]
      exact ⟨_, (Segment.mem_language hn₁ hd₁).mpr ⟨above, hpa, ha, rfl⟩, _,
        mem_singleton_mul.mpr ⟨_, (mem_separated_segments hn hd).mpr ⟨below, hpb, hb, rfl⟩, rfl⟩,
        rfl⟩

/-! ## Patterns -/

/-- **A pattern without dots in its texts accepts a path of plain keys just if the joined text of
the path is in the language of the pattern.** -/
theorem accepts_iff_joined_mem_language {limits : PatternLimits} {text : String} {p : Pattern}
    (hp : Pattern.compile limits text = .ok p)
    (hd : ∀ segment ∈ p.segments, segment.matcher.DotFree) {path : Path}
    (hk : ∀ key ∈ path.keys, IsPlainKey key) :
    p.accepts path = true ↔ path.joined.toList ∈ p.language := by
  rw [Pattern.accepts, Pattern.language, mem_separated_segments (compile_isNormal hp) hd,
    Path.toList_joined]
  constructor
  · exact fun h => ⟨path.keys, hk, h, rfl⟩
  · rintro ⟨keys, hplain, hmatch, he⟩
    rwa [joinedChars_injective hk hplain he]

/-- Descents in a row, with a glob whose parts must not share a character: `x` is no key of it. -/
theorem accepts_two_descents :
    let p : Pattern := ⟨"$..x*x..[*]", [⟨true, .glob ["x", "x"]⟩, ⟨true, .any⟩]⟩
    Pattern.compile .standard "$..x*x..[*]" = .ok p ∧
      (∀ segment ∈ p.segments, segment.matcher.DotFree) ∧
      (∀ key ∈ ["a", "xx", "b", "c"], IsPlainKey key) ∧ (∀ key ∈ ["x", "c"], IsPlainKey key) ∧
      "a.xx.b.c".toList ∈ p.language ∧ "x.c".toList ∉ p.language := by
  intro p
  have hp : Pattern.compile .standard "$..x*x..[*]" = .ok p := by decide +kernel
  have hd : ∀ segment ∈ p.segments, segment.matcher.DotFree := by
    simp [p, KeyMatcher.DotFree]
  have hk : ∀ key ∈ ["a", "xx", "b", "c"], IsPlainKey key := by simp [IsPlainKey]
  have hx : ∀ key ∈ ["x", "c"], IsPlainKey key := by simp [IsPlainKey]
  refine ⟨hp, hd, hk, hx, ?_, fun h => ?_⟩
  · have haccepts : p.accepts ⟨["a", "xx", "b", "c"]⟩ = true := by decide +kernel
    exact (accepts_iff_joined_mem_language hp hd hk).mp haccepts
  · have haccepts : p.accepts ⟨["x", "c"]⟩ = true :=
      (accepts_iff_joined_mem_language hp hd hx).mpr h
    exact absurd haccepts (by decide +kernel)

end JsonEdit
