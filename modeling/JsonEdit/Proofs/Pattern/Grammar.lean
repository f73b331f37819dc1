import JsonEdit.Pattern.Compile
import Mathlib.Data.List.Infix
import Mathlib.Tactic.SplitIfs

/-!
# The grammar of patterns

What makes a text a pattern, said of the text as a whole. Behind an optional `$` a text is read as
characters and as characters behind a backslash, in only one way. What stands at a place is judged
by what stands before it: whether a bracket is open there, and which characters come right before.

* `PatternToken`, `PatternBody`, `PatternBody.Reads`: a text as its tokens;
* `existsUnique_reads`: there is one reading of each text;
* `PatternBody.IsWellFormed`: brackets in pairs that hold something, and no third dot;
* `offence`, `PatternBody.HasFault`: what is wrong at a place, and what is reported of a text;
* `PatternBody.segmentCount`: the segments of a text;
* `PatternBody.Refused`: why a text is refused within limits;
* **`isWellFormed_iff`**, `HasFault.unique`, `HasFault.not_isWellFormed`: a text that is well formed
  has no fault, and another text has no more than one;
* `Refused.unique`: a text is refused for one reason.
-/

namespace JsonEdit

/-! ## Tokens -/

/-- A character of a pattern text, or a backslash with the character behind it. -/
inductive PatternToken
  | plain (c : Char)
  | escaped (c : Char)
deriving DecidableEq, Repr

namespace PatternToken

/-- The characters of a token. -/
def chars : PatternToken → List Char
  | .plain c => [c]
  | .escaped c => ['\\', c]

@[simp] theorem chars_plain (c : Char) : (plain c).chars = [c] := rfl

@[simp] theorem chars_escaped (c : Char) : (escaped c).chars = ['\\', c] := rfl

/-- A backslash does not stand by itself. -/
def IsProper : PatternToken → Prop
  | .plain c => c ≠ '\\'
  | .escaped _ => True

end PatternToken

/-- A pattern text as its tokens. -/
structure PatternBody where
  /-- A `$` stands before the tokens. -/
  mark : Bool
  tokens : List PatternToken
  /-- A backslash with nothing behind it ends the text. -/
  lone : Bool
deriving DecidableEq, Repr

namespace PatternBody

/-- The characters of a text. -/
def chars (body : PatternBody) : List Char :=
  (if body.mark then ['$'] else []) ++
    (body.tokens.flatMap PatternToken.chars ++ if body.lone then ['\\'] else [])

/-- The text is read as these tokens. A `$` at its start is the mark. -/
structure Reads (body : PatternBody) (text : List Char) : Prop where
  chars : body.chars = text
  proper : ∀ token ∈ body.tokens, token.IsProper
  mark : body.mark = false → text.head? ≠ some '$'

end PatternBody

section Reads

variable {token other : PatternToken} {tokens others : List PatternToken} {lone last : Bool}
  {text more : List Char}

theorem exists_tokens : ∀ text : List Char, ∃ (tokens : List PatternToken) (lone : Bool),
    (∀ token ∈ tokens, token.IsProper) ∧
      (tokens.flatMap PatternToken.chars ++ if lone then ['\\'] else []) = text
  | [] => ⟨[], false, by simp, rfl⟩
  | [c] => by
    by_cases hc : c = '\\'
    · exact ⟨[], true, by simp, by rw [hc]; rfl⟩
    · exact ⟨[.plain c], false, List.forall_mem_singleton.mpr hc, rfl⟩
  | c :: d :: text => by
    by_cases hc : c = '\\'
    · obtain ⟨tokens, lone, hproper, he⟩ := exists_tokens text
      exact ⟨.escaped d :: tokens, lone, List.forall_mem_cons.mpr ⟨trivial, hproper⟩, by
        simp [hc, he]⟩
    · obtain ⟨tokens, lone, hproper, he⟩ := exists_tokens (d :: text)
      exact ⟨.plain c :: tokens, lone, List.forall_mem_cons.mpr ⟨hc, hproper⟩, by simp [he]⟩

theorem PatternToken.cancel (h : token.IsProper) (ho : other.IsProper)
    (he : token.chars ++ text = other.chars ++ more) : token = other ∧ text = more := by
  cases token with
  | plain c =>
    cases other with
    | plain d => simpa using he
    | escaped d => exact absurd (List.cons.inj he).1 h
  | escaped c =>
    cases other with
    | plain d => exact absurd (List.cons.inj he).1.symm ho
    | escaped d => simpa using he

theorem PatternToken.chars_append_ne (h : token.IsProper) :
    token.chars ++ text ≠ if lone then ['\\'] else [] := by
  intro he
  cases lone with
  | false => cases token <;> cases he
  | true =>
    cases token with
    | plain c => exact h (List.cons.inj he).1
    | escaped c => cases (List.cons.inj he).2

theorem tokens_unique (h : ∀ token ∈ tokens, token.IsProper)
    (ho : ∀ token ∈ others, token.IsProper)
    (he : (tokens.flatMap PatternToken.chars ++ if lone then ['\\'] else []) =
      others.flatMap PatternToken.chars ++ if last then ['\\'] else []) :
    tokens = others ∧ lone = last := by
  induction tokens generalizing others with
  | nil =>
    cases others with
    | nil => cases lone <;> cases last <;> simp_all
    | cons other others =>
      rw [List.flatMap_cons, List.append_assoc] at he
      exact absurd he.symm (PatternToken.chars_append_ne (ho other List.mem_cons_self))
  | cons token tokens ih =>
    obtain ⟨htoken, htokens⟩ := List.forall_mem_cons.mp h
    rw [List.flatMap_cons, List.append_assoc] at he
    cases others with
    | nil => exact absurd he (PatternToken.chars_append_ne htoken)
    | cons other others =>
      obtain ⟨hother, hothers⟩ := List.forall_mem_cons.mp ho
      rw [List.flatMap_cons, List.append_assoc] at he
      obtain ⟨rfl, hrest⟩ := PatternToken.cancel htoken hother he
      obtain ⟨rfl, rfl⟩ := ih htokens hothers hrest
      exact ⟨rfl, rfl⟩

/-- **A text is read in one way.** -/
theorem existsUnique_reads (text : List Char) : ∃! body : PatternBody, body.Reads text := by
  have hmark : ∃ (mark : Bool) (rest : List Char), (if mark then ['$'] else []) ++ rest = text ∧
      (mark = false → text.head? ≠ some '$') := by
    by_cases h : text.head? = some '$'
    · obtain ⟨rest, rfl⟩ := List.head?_eq_some_iff.mp h
      exact ⟨true, rest, rfl, by simp⟩
    · exact ⟨false, text, rfl, fun _ => h⟩
  obtain ⟨mark, rest, rfl, hmark⟩ := hmark
  obtain ⟨tokens, lone, hproper, rfl⟩ := exists_tokens rest
  refine ⟨⟨mark, tokens, lone⟩, ⟨rfl, hproper, hmark⟩, ?_⟩
  rintro ⟨mark', tokens', lone'⟩ ⟨hchars, hproper', hmark'⟩
  have hm : mark' = mark := by
    rw [PatternBody.chars] at hchars
    cases mark <;> cases mark'
    · rfl
    · exact absurd (congrArg List.head? hchars.symm) (hmark rfl)
    · exact absurd rfl (hmark' rfl)
    · rfl
  subst hm
  obtain ⟨rfl, rfl⟩ := tokens_unique hproper' hproper (List.append_cancel_left hchars)
  rfl

end Reads

/-! ## Brackets and dots -/

/-- How many brackets the tokens open. -/
def opened (tokens : List PatternToken) : Nat := tokens.count (.plain '[')

/-- How many brackets the tokens close. -/
def closed (tokens : List PatternToken) : Nat := tokens.count (.plain ']')

/-- A bracket is open behind the tokens. -/
def IsInside (before : List PatternToken) : Prop := closed before < opened before

instance : DecidablePred IsInside := fun _ => Nat.decLt _ _

/-- The position of what follows the tokens: the characters before it, with the mark. -/
def positionAfter (mark : Bool) (before : List PatternToken) : Nat :=
  mark.toNat + (before.flatMap PatternToken.chars).length

/-- Tokens, each with all that stand before it. -/
def placesFrom (before : List PatternToken) :
    List PatternToken → List (List PatternToken × PatternToken)
  | [] => []
  | token :: tokens => (before, token) :: placesFrom (before ++ [token]) tokens

namespace PatternBody

/-- No backslash ends the text; its brackets are balanced, not nested and never empty, and three
dots in a row stand in brackets only. -/
structure IsWellFormed (body : PatternBody) : Prop where
  escape : body.lone = false
  balanced : closed body.tokens = opened body.tokens
  opensFirst : ∀ before, before <+: body.tokens → closed before ≤ opened before
  notNested : ∀ before, before <+: body.tokens → opened before ≤ closed before + 1
  notEmpty : ¬ [.plain '[', .plain ']'] <:+: body.tokens
  noThirdDot : ∀ before, before ++ [.plain '.', .plain '.', .plain '.'] <+: body.tokens →
    IsInside before

end PatternBody

/-! ## Faults -/

/-- What is wrong with a token behind others: a third dot in a row or a bracket that closes nothing,
outside of brackets, and inside of them a bracket that opens, or one that closes the bracket right
before it. -/
def offence (mark : Bool) (before : List PatternToken) : PatternToken → Option PatternFault
  | .plain '.' =>
    if ¬ IsInside before ∧ [.plain '.', .plain '.'] <:+ before then
      some (.invalidDescent (positionAfter mark before))
    else none
  | .plain '[' =>
    if IsInside before then some (.nestedBracket (positionAfter mark before)) else none
  | .plain ']' =>
    if ¬ IsInside before then some (.unexpectedCloseBracket (positionAfter mark before))
    else if before.getLast? = some (.plain '[') then
      some (.emptyBracket (positionAfter mark before.dropLast))
    else none
  | _ => none

namespace PatternBody

/-- The tokens of a text, each with all that stand before it. -/
def places (body : PatternBody) : List (List PatternToken × PatternToken) :=
  placesFrom [] body.tokens

/-- What is wrong at the first place where something is. -/
def firstOffence (body : PatternBody) : Option PatternFault :=
  body.places.findSome? fun place => offence body.mark place.1 place.2

/-- The fault of a text: what is wrong at the first such place, or else a backslash at the end, or
else a bracket that nothing closes. -/
inductive HasFault (body : PatternBody) : PatternFault → Prop
  | offence {fault : PatternFault} : body.firstOffence = some fault → HasFault body fault
  | danglingEscape : body.firstOffence = none → body.lone = true → HasFault body .danglingEscape
  | unclosedBracket {before after : List PatternToken} : body.firstOffence = none →
    body.lone = false → body.tokens = before ++ .plain '[' :: after → .plain ']' ∉ after →
      HasFault body (.unclosedBracket (positionAfter body.mark before))

end PatternBody

/-! ## Segments -/

/-- Brackets separate segments, and so do dots outside of them. -/
def separates (before : List PatternToken) (token : PatternToken) : Bool :=
  token = .plain '[' ∨ token = .plain ']' ∨ (token = .plain '.' ∧ ¬ IsInside before)

/-- No token stands before, or a separator right before. -/
def isSeparated (before : List PatternToken) : Bool :=
  match before.getLast? with
  | none => true
  | some last => separates before.dropLast last

/-- A segment starts with each token that is no separator and follows none other. -/
def startsSegment (before : List PatternToken) (token : PatternToken) : Bool :=
  !separates before token && isSeparated before

/-- The number of segments of a text. -/
def PatternBody.segmentCount (body : PatternBody) : Nat :=
  body.places.countP fun place => startsSegment place.1 place.2

/-! ## Limits -/

/-- The text is a pattern within the limits. -/
def PatternBody.IsAccepted (limits : PatternLimits) (text : String) (body : PatternBody) : Prop :=
  text.length ≤ limits.maxLength ∧ body.IsWellFormed ∧ body.segmentCount ≤ limits.maxSegments

/-- Why a text is refused: for its length first, then for its fault, then for its segments. -/
inductive PatternBody.Refused (limits : PatternLimits) (text : String) (body : PatternBody) :
    PatternError → Prop
  | patternTooLong : limits.maxLength < text.length →
    Refused limits text body (.patternTooLong text.length limits.maxLength)
  | malformed {fault : PatternFault} : text.length ≤ limits.maxLength → body.HasFault fault →
    Refused limits text body (.malformed fault text)
  | tooManySegments : text.length ≤ limits.maxLength → body.IsWellFormed →
    limits.maxSegments < body.segmentCount →
      Refused limits text body (.tooManySegments text body.segmentCount limits.maxSegments)

/-! ## One fault or none -/

section Counts

variable (before after : List PatternToken) (token : PatternToken)

@[simp]
theorem opened_append : opened (before ++ after) = opened before + opened after :=
  List.count_append

@[simp]
theorem closed_append : closed (before ++ after) = closed before + closed after :=
  List.count_append

theorem opened_singleton : opened [token] = if token = .plain '[' then 1 else 0 := by
  simp [opened, List.count_singleton]

theorem closed_singleton : closed [token] = if token = .plain ']' then 1 else 0 := by
  simp [closed, List.count_singleton]

theorem opened_bracket : opened (before ++ .plain '[' :: after) =
    opened before + opened after + 1 := by
  rw [opened_append, Nat.add_assoc]
  exact congrArg (opened before + ·) List.count_cons_self

theorem closed_bracket : closed (before ++ .plain '[' :: after) = closed before + closed after := by
  rw [closed_append]
  exact congrArg (closed before + ·) (List.count_cons_of_ne (by decide))

end Counts

section Faults

variable {mark : Bool} {front before after tokens : List PatternToken} {token : PatternToken}
  {body : PatternBody}

theorem mem_placesFrom : (before, token) ∈ placesFrom front tokens ↔
    ∃ between after, before = front ++ between ∧ tokens = between ++ token :: after := by
  induction tokens generalizing front with
  | nil => simp [placesFrom]
  | cons first tokens ih =>
    rw [placesFrom, List.mem_cons, ih]
    constructor
    · rintro (h | ⟨between, after, rfl, rfl⟩)
      · obtain ⟨rfl, rfl⟩ := Prod.mk.inj h
        exact ⟨[], tokens, by simp, rfl⟩
      · exact ⟨first :: between, after, by simp, rfl⟩
    · rintro ⟨_ | ⟨_, between⟩, after, rfl, he⟩
      · obtain ⟨rfl, rfl⟩ := List.cons.inj he
        exact .inl (by simp)
      · obtain ⟨rfl, rfl⟩ := List.cons.inj he
        exact .inr ⟨between, after, by simp, rfl⟩

theorem mem_places : (before, token) ∈ body.places ↔ before ++ [token] <+: body.tokens := by
  rw [PatternBody.places, mem_placesFrom]
  constructor
  · rintro ⟨between, after, rfl, he⟩
    exact ⟨after, by simp [he]⟩
  · rintro ⟨after, he⟩
    exact ⟨before, after, rfl, by simp [← he]⟩

theorem firstOffence_eq_none : body.firstOffence = none ↔
    ∀ before token, before ++ [token] <+: body.tokens →
      offence body.mark before token = none := by
  rw [PatternBody.firstOffence, List.findSome?_eq_none_iff]
  exact ⟨fun h before token hp => h (before, token) (mem_places.mpr hp),
    fun h place hm => h place.1 place.2 (mem_places.mp hm)⟩

theorem closed_le_opened (h : body.firstOffence = none) (hp : before <+: body.tokens) :
    closed before ≤ opened before ∧ opened before ≤ closed before + 1 := by
  -- The last token is judged by what stands before it, so the induction is from the back.
  induction before using List.reverseRecOn with
  | nil => exact ⟨le_rfl, Nat.zero_le _⟩
  | append_singleton before token ih =>
    obtain ⟨hle, hlt⟩ := ih ((List.prefix_append _ _).trans hp)
    have hnone := firstOffence_eq_none.mp h before token hp
    rw [opened_append, closed_append, opened_singleton, closed_singleton]
    by_cases hopen : token = .plain '['
    · subst hopen
      have hinside : ¬ IsInside before := fun hi => by simp [offence, hi] at hnone
      simp only [IsInside, if_true] at hinside ⊢
      have hne : PatternToken.plain '[' ≠ .plain ']' := by decide
      rw [if_neg hne]
      omega
    · by_cases hclose : token = .plain ']'
      · subst hclose
        have hinside : IsInside before := by
          by_contra hi
          simp [offence, hi] at hnone
        simp only [IsInside, if_true, if_neg hopen] at hinside ⊢
        omega
      · rw [if_neg hopen, if_neg hclose]
        exact ⟨hle, hlt⟩

/-- **A text is well formed if nothing is wrong at any place, no backslash ends it and no bracket is
open behind it.** -/
theorem isWellFormed_iff : body.IsWellFormed ↔
    body.firstOffence = none ∧ body.lone = false ∧ ¬ IsInside body.tokens := by
  constructor
  · rintro ⟨hescape, hbalanced, hfirst, hnested, hempty, hdots⟩
    refine ⟨firstOffence_eq_none.mpr fun before token hp => ?_, hescape, by
      rw [IsInside, hbalanced]; exact lt_irrefl _⟩
    have hbefore : before <+: body.tokens := (List.prefix_append _ _).trans hp
    unfold offence
    split
    · -- A dot with two dots right before it.
      refine if_neg ?_
      rintro ⟨houtside, front, rfl⟩
      refine houtside ?_
      have hinside := hdots front (by simpa using hp)
      simpa [IsInside, opened, closed] using hinside
    · refine if_neg fun hinside => ?_
      have hle := hnested _ hp
      rw [opened_append, closed_append] at hle
      simp [IsInside, opened_singleton, closed_singleton] at hinside hle
      omega
    · have hle := hfirst _ hp
      rw [opened_append, closed_append] at hle
      have hinside : IsInside before := by
        simp [IsInside, opened_singleton, closed_singleton] at hle ⊢
        omega
      rw [if_neg (not_not.mpr hinside)]
      refine if_neg fun hlast => hempty ?_
      obtain ⟨front, rfl⟩ := List.getLast?_eq_some_iff.mp hlast
      obtain ⟨after, he⟩ := hp
      exact ⟨front, after, by simpa using he⟩
    · rfl
  · rintro ⟨hnone, hescape, houtside⟩
    refine ⟨hescape, ?_, fun _ hp => (closed_le_opened hnone hp).1,
      fun _ hp => (closed_le_opened hnone hp).2, ?_, ?_⟩
    · exact le_antisymm (closed_le_opened hnone List.prefix_rfl).1 (not_lt.mp houtside)
    · rintro ⟨front, after, he⟩
      have hplace := firstOffence_eq_none.mp hnone (front ++ [.plain '[']) (.plain ']')
        ⟨after, by simpa using he⟩
      by_cases hinside : IsInside (front ++ [.plain '['])
      · simp [offence, hinside] at hplace
      · simp [offence, hinside] at hplace
    · intro before hp
      by_contra houtside
      have hplace := firstOffence_eq_none.mp hnone (before ++ [.plain '.', .plain '.']) (.plain '.')
        (by simpa using hp)
      have hpair : ¬ IsInside (before ++ [.plain '.', .plain '.']) := by
        simpa [IsInside, opened, closed] using houtside
      simp [offence, hpair] at hplace

theorem isInside_of_unclosed (h : body.firstOffence = none)
    (he : body.tokens = before ++ .plain '[' :: after) (hc : .plain ']' ∉ after)
    {middle : List PatternToken} (hm : middle <+: after) :
    IsInside (before ++ .plain '[' :: middle) := by
  have hle : closed before ≤ opened before := (closed_le_opened h ⟨_, he.symm⟩).1
  have hmiddle : closed middle = 0 := List.count_eq_zero.mpr fun hmem => hc (hm.subset hmem)
  rw [IsInside, opened_bracket, closed_bracket, hmiddle]
  omega

theorem unclosed_unique {other rest : List PatternToken} (h : body.firstOffence = none)
    (he : body.tokens = before ++ .plain '[' :: after) (hc : .plain ']' ∉ after)
    (he' : body.tokens = other ++ .plain '[' :: rest) (hc' : .plain ']' ∉ rest) :
    before = other := by
  -- A bracket that opens further on is nested.
  have hfurther : ∀ {before after other rest between : List PatternToken},
      body.tokens = before ++ .plain '[' :: after → .plain ']' ∉ after →
      other = before ++ between → .plain '[' :: after = between ++ .plain '[' :: rest →
        before = other := by
    rintro before after other rest (_ | ⟨token, between⟩) he hc rfl hsplit
    · simp
    · obtain ⟨rfl, rfl⟩ := List.cons.inj hsplit
      have hinside := isInside_of_unclosed h he hc (List.prefix_append between _)
      have hplace := firstOffence_eq_none.mp h (before ++ .plain '[' :: between) (.plain '[')
        ⟨rest, by simp [he]⟩
      simp [offence, hinside] at hplace
  rcases List.append_eq_append_iff.mp (he.symm.trans he') with
    ⟨between, hother, hsplit⟩ | ⟨between, hbefore, hsplit⟩
  · exact hfurther he hc hother hsplit
  · exact (hfurther he' hc' hbefore hsplit).symm

end Faults

namespace PatternBody.HasFault

variable {body : PatternBody} {fault other : PatternFault}

theorem unique (h : body.HasFault fault) (ho : body.HasFault other) : fault = other := by
  cases h with
  | offence h => cases ho <;> simp_all
  | danglingEscape h hlone => cases ho <;> simp_all
  | unclosedBracket h hlone he hc =>
    cases ho with
    | offence ho => simp [h] at ho
    | danglingEscape _ ho => simp [hlone] at ho
    | unclosedBracket _ _ he' hc' => rw [unclosed_unique h he hc he' hc']

example : (⟨true, [.plain '.', .plain '.', .plain '.', .plain '['], true⟩ : PatternBody).HasFault
    (.invalidDescent 3) :=
  .offence (by decide)

theorem not_isWellFormed (h : body.HasFault fault) : ¬ body.IsWellFormed := by
  rw [isWellFormed_iff]
  rintro ⟨hnone, hescape, houtside⟩
  cases h with
  | offence h => simp [hnone] at h
  | danglingEscape _ h => simp [hescape] at h
  | unclosedBracket _ _ he hc =>
    exact houtside (he ▸ isInside_of_unclosed hnone he hc List.prefix_rfl)

end PatternBody.HasFault

namespace PatternBody.Refused

variable {limits : PatternLimits} {text : String} {body : PatternBody} {error other : PatternError}

theorem not_isAccepted (h : body.Refused limits text error) : ¬ body.IsAccepted limits text := by
  rintro ⟨hlength, hwell, hcount⟩
  cases h with
  | patternTooLong h => exact absurd hlength (Nat.not_le.mpr h)
  | malformed _ h => exact h.not_isWellFormed hwell
  | tooManySegments _ _ h => exact absurd hcount (Nat.not_le.mpr h)

theorem unique (h : body.Refused limits text error) (ho : body.Refused limits text other) :
    error = other := by
  cases h with
  | patternTooLong h =>
    cases ho with
    | patternTooLong => rfl
    | malformed ho => exact absurd ho (Nat.not_le.mpr h)
    | tooManySegments ho => exact absurd ho (Nat.not_le.mpr h)
  | malformed h hfault =>
    cases ho with
    | patternTooLong ho => exact absurd h (Nat.not_le.mpr ho)
    | malformed _ hother => rw [hfault.unique hother]
    | tooManySegments _ hwell => exact absurd hwell hfault.not_isWellFormed
  | tooManySegments h hwell =>
    cases ho with
    | patternTooLong ho => exact absurd h (Nat.not_le.mpr ho)
    | malformed _ hother => exact absurd hwell hother.not_isWellFormed
    | tooManySegments => rfl

end PatternBody.Refused

end JsonEdit
