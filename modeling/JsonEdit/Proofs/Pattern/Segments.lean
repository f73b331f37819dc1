import JsonEdit.Proofs.Pattern.Accepted
import JsonEdit.Proofs.Pattern.Normal
import Mathlib.Algebra.Order.BigOperators.Group.List
import Mathlib.Data.List.Forall2

/-!
# Where segments stand

The segments of a pattern are the stretches of its text between separators, in order. Which test a
segment has is told by its stretch alone, and whether it descends by what comes right before. So a
text has no more characters in its tests than it has itself, and the tests can be written back.

* `SegmentPlace`, `PatternBody.segmentPlaces`: the stretches of a text;
* `IsDescended`: two dots come right before a stretch, or before the bracket around it;
* `Segment.StandsAt`: a segment beside its stretch;
* `Assembly.Takes`, `step_token`: what a token does to the segments that are done and open;
* `segmentsWith`, **`finishSegment_steps`**: those that there will be, which no token changes;
* **`segments_of_reads`**: a text that compiles has the segments of its stretches;
* `sum_charCount_le`: how many characters there are in the tests;
* **`compiled_in_normal_form`**: what holds of the segments of each pattern.
-/

namespace JsonEdit

/-! ## Stretches -/

/-- What a token is in a segment. -/
def PatternToken.piece : PatternToken → Piece
  | .plain c => if c = '*' then .star else .char c
  | .escaped c => .char c

/-- The tokens up to the next separator. -/
def untilSeparator (before : List PatternToken) : List PatternToken → List PatternToken
  | [] => []
  | token :: after =>
    if separates before token then [] else token :: untilSeparator (before ++ [token]) after

/-- The tokens of a segment, with all that stand before them. -/
structure SegmentPlace where
  before : List PatternToken
  tokens : List PatternToken
deriving DecidableEq, Repr

/-- The segments that start among tokens, in order. -/
def segmentPlacesFrom (before : List PatternToken) : List PatternToken → List SegmentPlace
  | [] => []
  | token :: after =>
    let later := segmentPlacesFrom (before ++ [token]) after
    if startsSegment before token then ⟨before, untilSeparator before (token :: after)⟩ :: later
    else later

/-- The segments of a text, in order. -/
def PatternBody.segmentPlaces (body : PatternBody) : List SegmentPlace :=
  segmentPlacesFrom [] body.tokens

section Stretches

variable {before : List PatternToken} {token : PatternToken} (after : List PatternToken)

theorem untilSeparator_of_separator (h : separates before token = true) :
    untilSeparator before (token :: after) = [] := if_pos h

theorem untilSeparator_of_piece (h : separates before token = false) :
    untilSeparator before (token :: after) = token :: untilSeparator (before ++ [token]) after :=
  if_neg (by simp [h])

theorem segmentPlacesFrom_of_separator (h : separates before token = true) :
    segmentPlacesFrom before (token :: after) = segmentPlacesFrom (before ++ [token]) after :=
  if_neg (by simp [startsSegment, h])

theorem segmentPlacesFrom_of_piece (h : separates before token = false) :
    segmentPlacesFrom before (token :: after) =
      (if isSeparated before then [⟨before, untilSeparator before (token :: after)⟩] else []) ++
        segmentPlacesFrom (before ++ [token]) after := by
  cases hseparated : isSeparated before <;>
    simp [segmentPlacesFrom, startsSegment, h, hseparated]

end Stretches

/-! ## Descents -/

/-- Two dots outside of brackets end the tokens. -/
def EndsInDescent (before : List PatternToken) : Prop :=
  ¬ IsInside before ∧ [.plain '.', .plain '.'] <:+ before

/-- Two dots outside of brackets come right before a segment, or right before the bracket that
opens it. -/
def IsDescended (before : List PatternToken) : Prop :=
  EndsInDescent before ∨ before.getLast? = some (.plain '[') ∧ EndsInDescent before.dropLast

instance : DecidablePred EndsInDescent := fun _ => inferInstanceAs (Decidable (_ ∧ _))

instance : DecidablePred IsDescended := fun _ => inferInstanceAs (Decidable (_ ∨ _))

/-- The segment is the one that stands there: its tokens are its test, and what comes before them
makes it descend. -/
structure Segment.StandsAt (segment : Segment) (place : SegmentPlace) : Prop where
  matcher : segment.matcher = .ofPieces (place.tokens.map PatternToken.piece)
  descend : segment.descend = true ↔ IsDescended place.before

/-- The segment that stands at a place. -/
def SegmentPlace.segment (place : SegmentPlace) : Segment :=
  ⟨decide (IsDescended place.before), .ofPieces (place.tokens.map PatternToken.piece)⟩

theorem SegmentPlace.segment_standsAt (place : SegmentPlace) : place.segment.StandsAt place :=
  ⟨rfl, decide_eq_true_iff⟩

section Descents

variable {before : List PatternToken} {token : PatternToken}

theorem endsInDescent_iff : EndsInDescent before ↔ ¬ IsInside before ∧ 2 ≤ trailingDots before :=
  and_congr_right' two_le_trailingDots

theorem not_endsInDescent_concat (h : token ≠ .plain '.') : ¬ EndsInDescent (before ++ [token]) := by
  rw [endsInDescent_iff, trailingDots_concat, if_neg h]
  simp

theorem isDescended_openBracket : IsDescended (before ++ [.plain '[']) ↔ EndsInDescent before := by
  simp [IsDescended, not_endsInDescent_concat]

theorem not_isDescended_closeBracket : ¬ IsDescended (before ++ [.plain ']']) := by
  simp [IsDescended, not_endsInDescent_concat]

theorem isDescended_dot (h : ¬ IsInside before) :
    IsDescended (before ++ [.plain '.']) ↔ 1 ≤ trailingDots before := by
  have houtside : ¬ IsInside (before ++ [.plain '.']) := by
    simpa [IsInside, opened_singleton, closed_singleton] using h
  simp [IsDescended, endsInDescent_iff, houtside, trailingDots_concat]

theorem isDescended_iff (h : before.getLast? ≠ some (.plain '[')) :
    IsDescended before ↔ EndsInDescent before := by
  simp [IsDescended, h]

theorem EndsInDescent.isSeparated (h : EndsInDescent before) : isSeparated before = true := by
  obtain ⟨houtside, front, rfl⟩ := h
  have hfront : ¬ IsInside (front ++ [.plain '.']) := by
    simpa [IsInside, opened, closed] using houtside
  rw [show front ++ [.plain '.', .plain '.'] = front ++ [.plain '.'] ++ [.plain '.'] by simp,
    isSeparated_concat]
  simp [separates, hfront]

end Descents

/-! ## What the compiler makes of them -/

namespace Assembly

section Token

variable {mark : Bool} {before after : List PatternToken} {token : PatternToken} {a a' : Assembly}
  {position : Nat}

/-- The segment that is open, once more tokens have been added to it. -/
def openWith (a : Assembly) (tokens : List PatternToken) : List Segment :=
  if a.pieces.isEmpty then []
  else [⟨a.descend, .ofPieces (a.pieces.reverse ++ tokens.map PatternToken.piece)⟩]

theorem finishSegment_segments (a : Assembly) :
    a.finishSegment.segments.reverse = a.segments.reverse ++ a.openWith [] := by
  rw [finishSegment, openWith]
  split_ifs <;> simp

/-- Where a segment can start, the assembly knows whether it descends. -/
structure KnowsDescent (before : List PatternToken) (a : Assembly) : Prop where
  descend : isSeparated before = true → a.descend = decide (IsDescended before)
  outside : a.bracket = none → before.getLast? ≠ some (.plain '[')

/-- **What a token does**: a separator ends the segment that is open, and any other token is a piece
of one. -/
structure Takes (before : List PatternToken) (a : Assembly) (token : PatternToken)
    (a' : Assembly) : Prop where
  separator : separates before token = true →
    a'.pieces = [] ∧ a'.segments = a.finishSegment.segments
  piece : separates before token = false →
    a'.pieces = token.piece :: a.pieces ∧ a'.segments = a.segments ∧ a'.descend = a.descend
  knows : a'.KnowsDescent (before ++ [token])

theorem takes_piece (ht : separates before token = false)
    (hp : a'.pieces = token.piece :: a.pieces) (hs : a'.segments = a.segments)
    (hd : a'.descend = a.descend) : a.Takes before token a' := by
  have hne : token ≠ .plain '[' := by
    rintro rfl
    simp [separates] at ht
  refine ⟨fun h => absurd h (by simp [ht]), fun _ => ⟨hp, hs, hd⟩, fun h => ?_, fun _ => ?_⟩
  · rw [isSeparated_concat, ht] at h
    cases h
  · simpa using hne

theorem takes_separator (ht : separates before token = true) (hp : a'.pieces = [])
    (hs : a'.segments = a.finishSegment.segments)
    (hd : a'.descend = decide (IsDescended (before ++ [token])))
    (ho : a'.bracket = none → token ≠ .plain '[') : a.Takes before token a' := by
  refine ⟨fun _ => ⟨hp, hs⟩, fun h => absurd h (by simp [ht]), fun _ => hd, fun hb => ?_⟩
  simpa using ho hb

theorem KnowsDescent.finishSegment_descend (hc : a.Counts before) (hk : a.KnowsDescent before)
    (hb : a.bracket = none) : a.finishSegment.descend = decide (EndsInDescent before) := by
  have hdescended := isDescended_iff (hk.outside hb)
  rw [Assembly.finishSegment, hc.separated]
  split_ifs with hseparated
  · rw [hk.descend hseparated, decide_eq_decide]
    exact hdescended
  · exact (decide_eq_false fun h => hseparated h.isSeparated).symm

theorem takes_dot (ht : a.Tracks mark before) (hc : a.Counts before) (hk : a.KnowsDescent before)
    (hs : a.step (position, .dot) = .ok a') : a.Takes before (.plain '.') a' := by
  cases hb : a.bracket with
  | some opened =>
    have hinside : IsInside before := ht.isInside_iff.mpr (by simp [hb])
    simp only [step, hb, Except.ok.injEq] at hs
    subst hs
    exact takes_piece (by simp [separates, hinside]) rfl rfl rfl
  | none =>
    have houtside : ¬ IsInside before := fun h => ht.isInside_iff.mp h hb
    have hdots : a.finishSegment.dots = trailingDots before := by
      rw [finishSegment_dots, (ht.outside hb).2]
    have hdescend := hk.finishSegment_descend hc hb
    simp only [step, hb, separate, hdots] at hs
    -- The first dot in a row makes no descent, the second does, and a third is refused.
    split at hs
    · rename_i hzero
      cases hs
      refine takes_separator (by simp [separates, houtside]) (finishSegment_pieces_nil a) rfl ?_
        fun _ => by decide
      simp [hdescend, endsInDescent_iff, isDescended_dot houtside, hzero]
    · rename_i hone
      cases hs
      refine takes_separator (by simp [separates, houtside]) (finishSegment_pieces_nil a) rfl ?_
        fun _ => by decide
      simp [isDescended_dot houtside, hone]
    · cases hs

theorem takes_openBracket (hc : a.Counts before) (hk : a.KnowsDescent before)
    (hs : a.step (position, .openBracket) = .ok a') : a.Takes before (.plain '[') a' := by
  cases hb : a.bracket with
  | some opened => simp [step, hb] at hs
  | none =>
    simp only [step, hb, Except.ok.injEq] at hs
    subst hs
    refine takes_separator (by simp [separates]) (finishSegment_pieces_nil a) rfl ?_
      fun h => absurd h (Option.some_ne_none position)
    rw [hk.finishSegment_descend hc hb, decide_eq_decide]
    exact isDescended_openBracket.symm

theorem takes_closeBracket (hs : a.step (position, .closeBracket) = .ok a') :
    a.Takes before (.plain ']') a' := by
  cases hb : a.bracket with
  | none => simp [step, hb] at hs
  | some opened =>
    simp only [step, hb] at hs
    split_ifs at hs with hp
    cases hs
    refine takes_separator (by simp [separates]) (finishSegment_pieces_nil a) rfl ?_
      fun _ => by decide
    simp [finishSegment, hp, not_isDescended_closeBracket]

theorem step_token (ht : a.Tracks mark before) (hc : a.Counts before) (hk : a.KnowsDescent before)
    (hs : a.step (position, token.symbol) = .ok a') : a.Takes before token a' := by
  by_cases hdot : token = .plain '.'
  · subst hdot
    exact takes_dot ht hc hk hs
  by_cases hopen : token = .plain '['
  · subst hopen
    exact takes_openBracket hc hk hs
  by_cases hclose : token = .plain ']'
  · subst hclose
    exact takes_closeBracket hs
  have hseparates : separates before token = false := by simp [separates, hdot, hopen, hclose]
  cases token with
  | escaped c =>
    cases hs
    exact takes_piece hseparates rfl rfl rfl
  | plain c =>
    simp only [PatternToken.plain.injEq] at hdot hopen hclose
    simp only [PatternToken.symbol, Symbol.ofChar, if_neg hdot, if_neg hopen, if_neg hclose] at hs
    split_ifs at hs with hstar <;> cases hs
    · exact takes_piece hseparates (by simp [PatternToken.piece, hstar, addPiece]) rfl rfl
    · exact takes_piece hseparates (by simp [PatternToken.piece, hstar, addPiece]) rfl rfl

/-- All segments there will be when the tokens behind have been read: those that are done, the one
that is open and those to come. -/
def segmentsWith (a : Assembly) (before after : List PatternToken) : List Segment :=
  a.segments.reverse ++ a.openWith (untilSeparator before after) ++
    (segmentPlacesFrom before after).map SegmentPlace.segment

/-- **A token that is read leaves the segments as they were to be.** -/
theorem Takes.segmentsWith (h : a.Takes before token a') (hc : a.Counts before)
    (hk : a.KnowsDescent before) (after : List PatternToken) :
    a'.segmentsWith (before ++ [token]) after = a.segmentsWith before (token :: after) := by
  cases hseparates : separates before token with
  | true =>
    obtain ⟨hpieces, hsegments⟩ := h.separator hseparates
    have hopen : a'.openWith (untilSeparator (before ++ [token]) after) = [] := by
      simp [openWith, hpieces]
    rw [Assembly.segmentsWith, Assembly.segmentsWith, hopen, hsegments, finishSegment_segments,
      untilSeparator_of_separator after hseparates, segmentPlacesFrom_of_separator after hseparates,
      List.append_nil]
  | false =>
    obtain ⟨hpieces, hsegments, hdescend⟩ := h.piece hseparates
    have hopen : ∀ tokens, a'.openWith tokens =
        [⟨a.descend, .ofPieces (a.pieces.reverse ++ (token :: tokens).map PatternToken.piece)⟩] := by
      simp [openWith, hpieces, hdescend]
    have hseparated := hc.separated
    rw [Assembly.segmentsWith, Assembly.segmentsWith, hopen, hsegments,
      segmentPlacesFrom_of_piece after hseparates, untilSeparator_of_piece after hseparates]
    cases hempty : isSeparated before with
    | true =>
      -- The token starts a segment: that one is no longer to come, but open.
      rw [hempty, List.isEmpty_iff] at hseparated
      simp [openWith, hseparated, SegmentPlace.segment, hk.descend hempty]
    | false =>
      rw [hempty] at hseparated
      simp [openWith, hseparated]

theorem tracks_of_step (ht : a.Tracks mark before) (hc : a.Counts before)
    (hs : a.step (positionAfter mark before, token.symbol) = .ok a') :
    a'.Tracks mark (before ++ [token]) ∧ a'.Counts (before ++ [token]) := by
  have hread := readsToken ht hc token
  rw [ReadsToken] at hread
  split at hread
  · rw [hread] at hs
    cases hs
  · obtain ⟨a'', hstep, htracks, hcounts⟩ := hread
    rw [hstep] at hs
    cases hs
    exact ⟨htracks, hcounts⟩

/-- **All tokens**: in the end the segments are what they were to be. -/
theorem finishSegment_steps (ht : a.Tracks mark before) (hc : a.Counts before)
    (hk : a.KnowsDescent before) (hp : ∀ token ∈ after, token.IsProper)
    (hs : a.steps (symbolsFrom (positionAfter mark before) (after.flatMap PatternToken.chars)) =
      .ok a') :
    a'.finishSegment.segments.reverse = a.segmentsWith before after := by
  -- The tokens behind get fewer, and the segments that there will be stay the same.
  induction after generalizing before a with
  | nil =>
    cases hs
    simp [segmentsWith, finishSegment_segments, untilSeparator, segmentPlacesFrom]
  | cons token after ih =>
    obtain ⟨htoken, hafter⟩ := List.forall_mem_cons.mp hp
    rw [List.flatMap_cons, symbolsFrom_token htoken, steps, ← positionAfter_concat] at hs
    split at hs
    · rename_i next hstep
      obtain ⟨ht', hc'⟩ := tracks_of_step ht hc hstep
      have htakes := step_token ht hc hk hstep
      rw [ih ht' hc' htakes.knows hafter hs, htakes.segmentsWith hc hk]
    · cases hs

end Token

end Assembly

/-- **A text that compiles has the segments of its stretches.** -/
theorem segments_of_reads {body : PatternBody} {text : List Char} {segments : List Segment}
    (h : body.Reads text) (hc : compileChars text = .ok segments) :
    segments = body.segmentPlaces.map SegmentPlace.segment := by
  have hlone : body.lone = false := by
    rcases compileChars_of_reads h with ⟨fault, -, he⟩ | ⟨hwell, -⟩
    · rw [he] at hc
      cases hc
    · exact hwell.escape
  obtain ⟨a, hsteps, rfl⟩ := compileChars_eq_ok hc
  have hknows : Assembly.start.KnowsDescent [] := ⟨fun _ => by decide, fun _ => by simp⟩
  rw [symbols_of_reads h, hlone, if_neg Bool.false_ne_true, List.append_nil] at hsteps
  rw [Assembly.finishSegment_steps (Assembly.tracks_start body.mark) Assembly.counts_start hknows
    h.proper hsteps]
  simp [Assembly.segmentsWith, Assembly.start, Assembly.openWith, PatternBody.segmentPlaces]

/-! ## Characters -/

/-- How many characters a test asks for. -/
def KeyMatcher.charCount : KeyMatcher → Nat
  | .literal text => text.length
  | .any => 0
  | .glob parts => (parts.map String.length).sum

theorem Piece.sum_length_parts_le (pieces : List Piece) :
    ((parts pieces).map List.length).sum ≤ pieces.length := by
  induction pieces using parts.induct with
  | case1 => exact le_rfl
  | case2 pieces ih => exact ih.trans (Nat.le_succ _)
  | case3 pieces hhead ih =>
    rw [parts.eq_3 pieces hhead, List.map_cons, List.sum_cons, List.length_nil, Nat.zero_add]
    exact ih.trans (Nat.le_succ _)
  | case4 c pieces hnil ih => simp [parts, hnil]
  | case5 c pieces part more hparts ih =>
    simp only [parts, hparts, List.map_cons, List.sum_cons, List.length_cons] at ih ⊢
    omega

theorem KeyMatcher.charCount_ofPieces_le (pieces : List Piece) :
    (ofPieces pieces).charCount ≤ pieces.length := by
  simp only [ofPieces]
  split_ifs with hstar hopen
  · exact Nat.zero_le _
  · simpa [charCount, Function.comp_def] using Piece.sum_length_parts_le pieces
  · simpa [charCount] using List.length_filterMap_le _ _

/-- The stretches have no token in common, nor with what is left of one that started before. -/
theorem sum_length_segmentPlacesFrom_le (before after : List PatternToken) :
    ((segmentPlacesFrom before after).map fun place => place.tokens.length).sum +
      (if isSeparated before then 0 else (untilSeparator before after).length) ≤ after.length := by
  induction after generalizing before with
  | nil => simp [segmentPlacesFrom, untilSeparator]
  | cons token after ih =>
    have hrest := ih (before ++ [token])
    rw [isSeparated_concat] at hrest
    cases hseparates : separates before token with
    | true =>
      rw [hseparates, if_pos rfl] at hrest
      rw [segmentPlacesFrom_of_separator after hseparates,
        untilSeparator_of_separator after hseparates, List.length_nil, ite_self]
      exact hrest.trans (Nat.le_succ _)
    | false =>
      rw [hseparates, if_neg Bool.false_ne_true] at hrest
      rw [segmentPlacesFrom_of_piece after hseparates, untilSeparator_of_piece after hseparates]
      cases isSeparated before <;> simp <;> omega

theorem length_tokens_le {body : PatternBody} {text : List Char} (h : body.Reads text) :
    body.tokens.length ≤ text.length := by
  have htokens : body.tokens.length ≤ (body.tokens.flatMap PatternToken.chars).length := by
    rw [List.length_flatMap, ← List.length_map (fun token : PatternToken => token.chars.length)]
    refine List.length_le_sum_of_one_le _ fun n hn => ?_
    obtain ⟨token, -, rfl⟩ := List.mem_map.mp hn
    cases token <;> simp
  rw [← h.chars, PatternBody.chars, List.length_append, List.length_append]
  omega

theorem sum_charCount_le {body : PatternBody} {text : List Char} {segments : List Segment}
    (h : body.Reads text) (hc : compileChars text = .ok segments) :
    (segments.map fun segment => segment.matcher.charCount).sum ≤ text.length := by
  have hplaces := sum_length_segmentPlacesFrom_le [] body.tokens
  calc (segments.map fun segment => segment.matcher.charCount).sum
      = (body.segmentPlaces.map fun place => place.segment.matcher.charCount).sum := by
        rw [segments_of_reads h hc, List.map_map]
        rfl
    _ ≤ (body.segmentPlaces.map fun place => place.tokens.length).sum := by
        refine List.sum_le_sum fun place _ => ?_
        exact (KeyMatcher.charCount_ofPieces_le _).trans_eq (List.length_map _)
    _ ≤ body.tokens.length := hplaces
    _ ≤ text.length := length_tokens_le h

/-! ## Patterns -/

/-- **The segments of a pattern are in normal form**: no test has a part that could be left out, a
segment descends just where two dots outside of brackets come before it, and there are no more
characters in the tests than in the text. So the segments can be written, each behind a dot, and
compile to themselves. -/
theorem compiled_in_normal_form {limits : PatternLimits} {text : String} {p : Pattern}
    (h : Pattern.compile limits text = .ok p) :
    (∀ segment ∈ p.segments, segment.matcher.IsNormal) ∧
      (∃ body : PatternBody, body.Reads text.toList ∧
        (∀ other : PatternBody, other.Reads text.toList → other = body) ∧
        List.Forall₂ Segment.StandsAt p.segments body.segmentPlaces) ∧
      (p.segments.map fun segment => segment.matcher.charCount).sum ≤ text.length ∧
      ∀ (again : PatternLimits) (mark : Bool),
        let written := String.ofList (writtenPattern mark (p.segments.map (·, .dotted)) 0)
        written.length ≤ again.maxLength → p.segments.length ≤ again.maxSegments →
          Pattern.compile again written = .ok ⟨written, p.segments⟩ := by
  have hnormal := compile_isNormal h
  have hchars := chars_of_compile h
  obtain ⟨body, hreads, hunique⟩ := existsUnique_reads text.toList
  refine ⟨hnormal, ⟨body, hreads, hunique, ?_⟩, ?_, ?_⟩
  · rw [segments_of_reads hreads hchars, List.forall₂_map_left_iff, List.forall₂_same]
    exact fun place _ => place.segment_standsAt
  · simpa [← String.length_toList] using sum_charCount_le hreads hchars
  · intro again mark written hlength hcount
    refine compile_of_chars ?_ hlength hcount
    have hdotted : ∀ s ∈ p.segments.map (·, SegmentStyle.dotted), s.1.matcher.IsNormal := by
      simpa using hnormal
    have hwritten := compileChars_written mark hdotted (Nat.zero_le 2)
    simpa [written, Function.comp_def] using hwritten

/-- A descent before brackets, stars in a row, and an escaped dot with one dot behind it. -/
theorem compiled_in_normal_form_mixed :
    let text := "..[a.b]c**d\\..e..*."
    let segments : List Segment := [⟨true, .literal "a.b"⟩, ⟨false, .glob ["c", "d."]⟩,
      ⟨false, .literal "e"⟩, ⟨true, .any⟩]
    let written := "$..a\\.b.c*d\\..e..*"
    Pattern.compile .standard text = .ok ⟨text, segments⟩ ∧
      (∀ segment ∈ segments, segment.matcher.IsNormal) ∧
      (∃ body : PatternBody, body.Reads text.toList ∧
        List.Forall₂ Segment.StandsAt segments body.segmentPlaces) ∧
      (segments.map fun segment => segment.matcher.charCount).sum ≤ text.length ∧
      Pattern.compile ⟨18, 4⟩ written = .ok ⟨written, segments⟩ := by
  intro text segments written
  have h : Pattern.compile .standard text = .ok ⟨text, segments⟩ := by decide
  have htext : String.ofList (writtenPattern true (segments.map (·, .dotted)) 0) = written := by
    decide
  obtain ⟨hnormal, ⟨body, hreads, -, hplaces⟩, hchars, hwritten⟩ := compiled_in_normal_form h
  have hagain := hwritten ⟨18, 4⟩ true (by decide) (by decide)
  exact ⟨h, hnormal, ⟨body, hreads, hplaces⟩, hchars, htext ▸ hagain⟩

end JsonEdit
