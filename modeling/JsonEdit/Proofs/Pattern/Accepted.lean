import JsonEdit.Proofs.Pattern.Grammar
import JsonEdit.Proofs.Pattern.Written

/-!
# Which texts are patterns

A compiler that reads a text once, with a few marks of what is open, accepts just the texts of the
grammar: its marks say of the tokens read so far what the grammar says of them.

* `PatternToken.symbol`, `symbols_of_reads`: the symbols of a text are its tokens;
* `Assembly.Tracks`: the open bracket and the dots just read;
* `Assembly.Counts`: the segments read, with the one that is open;
* **`Assembly.readsToken`**, **`steps_tokens`**: one token, and all of them;
* `compileChars_of_reads`, `compile_of_reads`: a text compiles, or is refused for what is wrong
  with it;
* **`compile_iff_grammar`**: what is accepted within limits, and what is reported otherwise.
-/

namespace JsonEdit

/-! ## Symbols -/

/-- What a token stands for. -/
def PatternToken.symbol : PatternToken → Symbol
  | .plain c => .ofChar c
  | .escaped c => .char c

theorem symbolsFrom_token {token : PatternToken} (h : token.IsProper) (position : Nat)
    (rest : List Char) :
    symbolsFrom position (token.chars ++ rest) =
      (position, token.symbol) :: symbolsFrom (position + token.chars.length) rest := by
  cases token with
  | plain c => exact symbolsFrom.eq_4 position c rest (fun he _ => h he) fun _ _ he _ => h he
  | escaped c => rfl

theorem positionAfter_concat (mark : Bool) (before : List PatternToken) (token : PatternToken) :
    positionAfter mark (before ++ [token]) = positionAfter mark before + token.chars.length := by
  simp [positionAfter, Nat.add_assoc]

theorem symbols_of_reads {body : PatternBody} {text : List Char} (h : body.Reads text) :
    symbols text = symbolsFrom (positionAfter body.mark [])
      (body.tokens.flatMap PatternToken.chars ++ if body.lone then ['\\'] else []) := by
  obtain ⟨mark, tokens, lone⟩ := body
  obtain ⟨rfl, -, hmark⟩ := h
  cases mark with
  | true => rfl
  | false =>
    have hhead := hmark rfl
    simp only [PatternBody.chars, Bool.false_eq_true, if_false, List.nil_append] at hhead ⊢
    generalize tokens.flatMap PatternToken.chars ++ (if lone then ['\\'] else []) = text at hhead ⊢
    cases text with
    | nil => rfl
    | cons c text =>
      have hc : c ≠ '$' := by simpa using hhead
      rw [symbols.eq_2 _ fun _ he => hc (List.cons.inj he).1]
      rfl

/-! ## What the compiler keeps -/

theorem placesFrom_concat (front tokens : List PatternToken) (token : PatternToken) :
    placesFrom front (tokens ++ [token]) = placesFrom front tokens ++ [(front ++ tokens, token)] := by
  induction tokens generalizing front with
  | nil => simp [placesFrom]
  | cons first tokens ih => simp [placesFrom, ih]

@[simp]
theorem isSeparated_concat (before : List PatternToken) (token : PatternToken) :
    isSeparated (before ++ [token]) = separates before token := by
  simp [isSeparated]

/-- The number of dots at the end. -/
def trailingDots (before : List PatternToken) : Nat :=
  (before.reverse.takeWhile (· = .plain '.')).length

theorem trailingDots_concat (before : List PatternToken) (token : PatternToken) :
    trailingDots (before ++ [token]) =
      if token = .plain '.' then trailingDots before + 1 else 0 := by
  rw [trailingDots, List.reverse_concat, List.takeWhile_cons]
  split_ifs <;> simp_all [trailingDots]

theorem two_le_trailingDots {before : List PatternToken} :
    [.plain '.', .plain '.'] <:+ before ↔ 2 ≤ trailingDots before := by
  rw [← List.reverse_prefix, trailingDots]
  match before.reverse with
  | [] => simp
  | [token] => by_cases h : token = .plain '.' <;> simp [h]
  | token :: next :: rest =>
    by_cases h : token = .plain '.' <;> by_cases hn : next = .plain '.' <;>
      simp [h, hn, eq_comm (a := PatternToken.plain '.')]

namespace Assembly

/-- The assembly knows the bracket that is open behind the tokens, and outside of brackets how many
dots come right before. -/
structure Tracks (mark : Bool) (before : List PatternToken) (a : Assembly) : Prop where
  outside : a.bracket = none → closed before = opened before ∧ a.dots = trailingDots before
  inside : ∀ position, a.bracket = some position → ∃ front inner,
    before = front ++ .plain '[' :: inner ∧ position = positionAfter mark front ∧
      closed front = opened front ∧ .plain '[' ∉ inner ∧ .plain ']' ∉ inner

/-- The assembly has the segments of the tokens, once the one that is open is finished. -/
structure Counts (before : List PatternToken) (a : Assembly) : Prop where
  separated : a.pieces.isEmpty = isSeparated before
  segments : a.finishSegment.segments.length =
    (placesFrom [] before).countP fun place => startsSegment place.1 place.2

theorem tracks_start (mark : Bool) : start.Tracks mark [] :=
  ⟨fun _ => ⟨rfl, rfl⟩, fun _ hsome => by cases hsome⟩

theorem counts_start : start.Counts [] := ⟨rfl, rfl⟩

section Counts

variable {before : List PatternToken} {token : PatternToken} {a a' : Assembly} {p : Piece}

theorem length_finishSegment (a : Assembly) : a.finishSegment.segments.length =
    a.segments.length + if a.pieces.isEmpty then 0 else 1 := by
  rw [finishSegment]
  split_ifs <;> rfl

theorem Counts.piece (h : a.Counts before) (ht : separates before token = false)
    (hp : a'.pieces = p :: a.pieces) (hs : a'.segments = a.segments) :
    a'.Counts (before ++ [token]) := by
  have hsegments := h.segments
  rw [length_finishSegment, h.separated] at hsegments
  refine ⟨by rw [hp, isSeparated_concat, ht]; rfl, ?_⟩
  rw [length_finishSegment, hp, hs, placesFrom_concat, List.countP_append, ← hsegments]
  simp only [List.isEmpty_cons, Bool.false_eq_true, if_false, List.nil_append,
    List.countP_singleton, startsSegment, ht, Bool.not_false, Bool.true_and]
  cases isSeparated before <;> rfl

theorem Counts.separator (h : a.Counts before) (ht : separates before token = true)
    (hp : a'.pieces = []) (hs : a'.segments = a.finishSegment.segments) :
    a'.Counts (before ++ [token]) := by
  refine ⟨by rw [hp, isSeparated_concat, ht]; rfl, ?_⟩
  rw [length_finishSegment, hp, hs, h.segments, placesFrom_concat, List.countP_append]
  simp [startsSegment, ht]

theorem finishSegment_pieces_nil (a : Assembly) : a.finishSegment.pieces = [] := by
  rw [finishSegment]
  split_ifs with h
  · exact List.isEmpty_iff.mp h
  · rfl

end Counts

section Tracks

variable {mark : Bool} {before : List PatternToken} {token : PatternToken} {a a' : Assembly}

theorem Tracks.isInside_iff (h : a.Tracks mark before) : IsInside before ↔ a.bracket ≠ none := by
  cases hb : a.bracket with
  | none => simp [IsInside, (h.outside hb).1]
  | some position =>
    obtain ⟨front, inner, rfl, -, hfront, -, hclose⟩ := h.inside position hb
    have hc : closed inner = 0 := List.count_eq_zero.mpr hclose
    refine iff_of_true ?_ (Option.some_ne_none position)
    rw [IsInside, opened_bracket, closed_bracket, hc, hfront]
    omega

theorem Tracks.unbracketed (h : a.Tracks mark before) (ho : token ≠ .plain '[')
    (hc : token ≠ .plain ']') (hb : a'.bracket = a.bracket)
    (hd : a.bracket = none → a'.dots = trailingDots (before ++ [token])) :
    a'.Tracks mark (before ++ [token]) := by
  refine ⟨fun hnone => ?_, fun position hsome => ?_⟩
  · rw [hb] at hnone
    refine ⟨?_, hd hnone⟩
    rw [opened_append, closed_append, opened_singleton, closed_singleton, if_neg ho, if_neg hc]
    exact (h.outside hnone).1
  · rw [hb] at hsome
    obtain ⟨front, inner, rfl, hp, hfront, hopen, hclose⟩ := h.inside position hsome
    refine ⟨front, inner ++ [token], by simp, hp, hfront, ?_, ?_⟩ <;>
      simp [hopen, hclose, ho.symm, hc.symm]

theorem Tracks.opens (h : a.Tracks mark before) (hb : a.bracket = none)
    (hb' : a'.bracket = some (positionAfter mark before)) :
    a'.Tracks mark (before ++ [.plain '[']) := by
  refine ⟨fun hnone => by simp [hb'] at hnone, fun position hsome => ?_⟩
  rw [hb', Option.some.injEq] at hsome
  exact ⟨before, [], rfl, hsome.symm, (h.outside hb).1, List.not_mem_nil, List.not_mem_nil⟩

theorem Tracks.closes (h : a.Tracks mark before) {position : Nat} (hb : a.bracket = some position)
    (hb' : a'.bracket = none) (hd : a'.dots = 0) : a'.Tracks mark (before ++ [.plain ']']) := by
  refine ⟨fun _ => ⟨?_, by rw [hd, trailingDots_concat]; rfl⟩, fun _ hsome => by
    simp [hb'] at hsome⟩
  obtain ⟨front, inner, rfl, -, hfront, hopen, hclose⟩ := h.inside position hb
  have ho : opened inner = 0 := List.count_eq_zero.mpr hopen
  have hc : closed inner = 0 := List.count_eq_zero.mpr hclose
  rw [opened_append, closed_append, opened_bracket, closed_bracket, opened_singleton,
    closed_singleton, ho, hc, hfront]
  simp

theorem Tracks.isSeparated_iff (h : a.Tracks mark before) {position : Nat}
    (hb : a.bracket = some position) :
    (isSeparated before = true ↔ before.getLast? = some (.plain '[')) ∧
      (before.getLast? = some (.plain '[') → position = positionAfter mark before.dropLast) := by
  have hinside := h.isInside_iff.mpr (by simp [hb])
  obtain ⟨front, inner, rfl, rfl, -, hopen, hclose⟩ := h.inside position hb
  rcases List.eq_nil_or_concat' inner with rfl | ⟨inner, last, rfl⟩
  · simp [separates]
  · have hne : last ≠ .plain '[' ∧ last ≠ .plain ']' := by
      constructor <;> rintro rfl <;> simp at hopen hclose
    rw [← List.cons_append, ← List.append_assoc] at hinside ⊢
    have hfront : IsInside (front ++ .plain '[' :: inner) := by
      rw [IsInside, opened_append, closed_append, opened_singleton, closed_singleton,
        if_neg hne.1, if_neg hne.2] at hinside
      exact hinside
    rw [isSeparated_concat, List.getLast?_concat]
    simp [separates, hne, hfront]

end Tracks

section Step

variable {mark : Bool} {before after : List PatternToken} {token : PatternToken} {a : Assembly}

/-- The assembly finds a token wrong where the grammar does, and otherwise goes on with it. -/
def ReadsToken (mark : Bool) (before : List PatternToken) (a : Assembly) (token : PatternToken) :
    Prop :=
  match offence mark before token with
  | some fault => a.step (positionAfter mark before, token.symbol) = .error fault
  | none => ∃ a', a.step (positionAfter mark before, token.symbol) = .ok a' ∧
      a'.Tracks mark (before ++ [token]) ∧ a'.Counts (before ++ [token])

theorem readsToken_ordinary (ht : a.Tracks mark before) (hc : a.Counts before)
    (hdot : token ≠ .plain '.') (hopen : token ≠ .plain '[') (hclose : token ≠ .plain ']') :
    a.ReadsToken mark before token := by
  have hoffence : offence mark before token = none := by
    unfold offence
    split <;> first | contradiction | rfl
  have hseparates : separates before token = false := by simp [separates, hdot, hopen, hclose]
  obtain ⟨p, hstep⟩ : ∃ p, a.step (positionAfter mark before, token.symbol) = .ok (a.addPiece p) := by
    cases token with
    | escaped c => exact ⟨.char c, rfl⟩
    | plain c =>
      simp only [ne_eq, PatternToken.plain.injEq] at hdot hopen hclose
      simp only [PatternToken.symbol, Symbol.ofChar, if_neg hdot, if_neg hopen, if_neg hclose]
      split_ifs
      · exact ⟨.star, rfl⟩
      · exact ⟨.char c, rfl⟩
  simp only [ReadsToken, hoffence]
  refine ⟨_, hstep, ht.unbracketed hopen hclose rfl fun _ => ?_, hc.piece hseparates rfl rfl⟩
  rw [trailingDots_concat, if_neg hdot]
  rfl

theorem readsToken_dot (ht : a.Tracks mark before) (hc : a.Counts before) :
    a.ReadsToken mark before (.plain '.') := by
  have hsymbol : PatternToken.symbol (.plain '.') = .dot := rfl
  have hne : PatternToken.plain '.' ≠ .plain '[' ∧ PatternToken.plain '.' ≠ .plain ']' := by decide
  cases hb : a.bracket with
  | some position =>
    have hinside : IsInside before := ht.isInside_iff.mpr (by simp [hb])
    simp only [ReadsToken, offence, hinside, not_true_eq_false, false_and, if_false, hsymbol, step,
      hb]
    refine ⟨_, rfl, ht.unbracketed hne.1 hne.2 hb.symm fun hnone => ?_,
      hc.piece (by simp [separates, hinside]) rfl rfl⟩
    rw [hb] at hnone
    cases hnone
  | none =>
    have houtside : ¬ IsInside before := fun h => ht.isInside_iff.mp h hb
    have hdots : a.finishSegment.dots = trailingDots before := by
      rw [finishSegment_dots, (ht.outside hb).2]
    have hgoes : ∀ {a' : Assembly}, a'.bracket = a.finishSegment.bracket →
        a'.dots = trailingDots before + 1 → a'.pieces = a.finishSegment.pieces →
        a'.segments = a.finishSegment.segments →
          a'.Tracks mark (before ++ [.plain '.']) ∧ a'.Counts (before ++ [.plain '.']) := by
      intro a' hbracket hnext hpieces hsegments
      refine ⟨ht.unbracketed hne.1 hne.2 (hbracket.trans (finishSegment_bracket a)) fun _ => ?_,
        hc.separator (by simp [separates, houtside]) ?_ hsegments⟩
      · rw [hnext, trailingDots_concat, if_pos rfl]
      · rw [hpieces, finishSegment_pieces_nil]
    simp only [ReadsToken, offence, houtside, not_false_eq_true, true_and, two_le_trailingDots,
      hsymbol, step, hb, separate, hdots]
    rcases htrailing : trailingDots before with _ | _ | n
    · exact ⟨_, rfl, hgoes rfl (by rw [htrailing]) rfl rfl⟩
    · exact ⟨_, rfl, hgoes rfl (by rw [htrailing]) rfl rfl⟩
    · simp

theorem readsToken_openBracket (ht : a.Tracks mark before) (hc : a.Counts before) :
    a.ReadsToken mark before (.plain '[') := by
  have hsymbol : PatternToken.symbol (.plain '[') = .openBracket := rfl
  cases hb : a.bracket with
  | some position =>
    have hinside : IsInside before := ht.isInside_iff.mpr (by simp [hb])
    simp only [ReadsToken, offence, hinside, if_true, hsymbol, step, hb]
  | none =>
    have houtside : ¬ IsInside before := fun h => ht.isInside_iff.mp h hb
    simp only [ReadsToken, offence, houtside, if_false, hsymbol, step, hb]
    exact ⟨_, rfl, ht.opens hb rfl,
      hc.separator (by simp [separates]) (finishSegment_pieces_nil a) rfl⟩

theorem readsToken_closeBracket (ht : a.Tracks mark before) (hc : a.Counts before) :
    a.ReadsToken mark before (.plain ']') := by
  have hsymbol : PatternToken.symbol (.plain ']') = .closeBracket := rfl
  cases hb : a.bracket with
  | none =>
    have houtside : ¬ IsInside before := fun h => ht.isInside_iff.mp h hb
    simp only [ReadsToken, offence, houtside, not_false_eq_true, if_true, hsymbol, step, hb]
  | some position =>
    have hinside : IsInside before := ht.isInside_iff.mpr (by simp [hb])
    obtain ⟨hseparated, hposition⟩ := ht.isSeparated_iff hb
    simp only [ReadsToken, offence, hinside, not_true_eq_false, if_false, hsymbol, step, hb,
      hc.separated, hseparated]
    by_cases hlast : before.getLast? = some (.plain '[')
    · simp only [hlast, if_true, hposition hlast]
    · simp only [hlast, if_false]
      exact ⟨_, rfl, ht.closes hb rfl rfl,
        hc.separator (by simp [separates]) (finishSegment_pieces_nil a) rfl⟩

/-- **The assembly reads a token as the grammar does.** -/
theorem readsToken (ht : a.Tracks mark before) (hc : a.Counts before) (token : PatternToken) :
    a.ReadsToken mark before token := by
  by_cases hdot : token = .plain '.'
  · exact hdot ▸ readsToken_dot ht hc
  by_cases hopen : token = .plain '['
  · exact hopen ▸ readsToken_openBracket ht hc
  by_cases hclose : token = .plain ']'
  · exact hclose ▸ readsToken_closeBracket ht hc
  exact readsToken_ordinary ht hc hdot hopen hclose

/-- **All tokens of a text**: the first that is wrong is reported, and if none is the assembly has
read them all. -/
theorem steps_tokens (ht : a.Tracks mark before) (hc : a.Counts before)
    (hp : ∀ token ∈ after, token.IsProper) (rest : List Char) :
    match (placesFrom before after).findSome? fun place => offence mark place.1 place.2 with
    | some fault =>
      a.steps (symbolsFrom (positionAfter mark before)
        (after.flatMap PatternToken.chars ++ rest)) = .error fault
    | none => ∃ a' : Assembly, a.steps (symbolsFrom (positionAfter mark before)
          (after.flatMap PatternToken.chars ++ rest)) =
        a'.steps (symbolsFrom (positionAfter mark (before ++ after)) rest) ∧
      a'.Tracks mark (before ++ after) ∧ a'.Counts (before ++ after) := by
  -- What the assembly knows of the tokens before is all that the next token is judged by.
  induction after generalizing before a with
  | nil => exact ⟨a, by simp, by simpa using ht, by simpa using hc⟩
  | cons token after ih =>
    obtain ⟨htoken, hafter⟩ := List.forall_mem_cons.mp hp
    have hread := readsToken ht hc token
    rw [placesFrom, List.findSome?_cons, List.flatMap_cons, List.append_assoc,
      symbolsFrom_token htoken, steps, ← positionAfter_concat]
    rw [ReadsToken] at hread
    cases hoffence : offence mark before token with
    | some fault =>
      rw [hoffence] at hread
      simp only [hread]
    | none =>
      rw [hoffence] at hread
      obtain ⟨a', hstep, ht', hc'⟩ := hread
      have hrest := ih ht' hc' hafter
      simp only [hstep]
      rwa [List.append_assoc, List.singleton_append] at hrest

end Step

end Assembly

/-! ## Whole texts -/

/-- **A text has a fault, which is reported, or it is well formed and compiles to its segments.** -/
theorem compileChars_of_reads {body : PatternBody} {text : List Char} (h : body.Reads text) :
    (∃ fault, body.HasFault fault ∧ compileChars text = .error fault) ∨
      body.IsWellFormed ∧ ∃ segments, compileChars text = .ok segments ∧
        segments.length = body.segmentCount := by
  have hsteps := Assembly.steps_tokens (Assembly.tracks_start body.mark) Assembly.counts_start
    h.proper (if body.lone then ['\\'] else [])
  rw [← symbols_of_reads h] at hsteps
  cases hfirst : body.firstOffence with
  | some fault =>
    rw [PatternBody.firstOffence, PatternBody.places] at hfirst
    rw [hfirst] at hsteps
    exact .inl ⟨fault, .offence hfirst, by rw [compileChars, hsteps]⟩
  | none =>
    have hnone := hfirst
    rw [PatternBody.firstOffence, PatternBody.places] at hnone
    rw [hnone] at hsteps
    obtain ⟨a, hread, htracks, hcounts⟩ := hsteps
    rw [List.nil_append] at htracks hcounts hread
    cases hlone : body.lone with
    | true =>
      rw [hlone] at hread
      exact .inl ⟨_, .danglingEscape hfirst hlone, by rw [compileChars, hread]; rfl⟩
    | false =>
      rw [hlone] at hread
      have hcompile : compileChars text = a.finish := by rw [compileChars, hread]; rfl
      cases hb : a.bracket with
      | some position =>
        obtain ⟨front, inner, htokens, rfl, -, -, hclose⟩ := htracks.inside position hb
        refine .inl ⟨_, .unclosedBracket hfirst hlone htokens hclose, ?_⟩
        rw [hcompile, Assembly.finish, hb]
      | none =>
        have houtside : ¬ IsInside body.tokens := fun hi => htracks.isInside_iff.mp hi hb
        refine .inr ⟨isWellFormed_iff.mpr ⟨hfirst, hlone, houtside⟩,
          a.finishSegment.segments.reverse, ?_, ?_⟩
        · rw [hcompile, Assembly.finish, hb]
        · rw [List.length_reverse]
          exact hcounts.segments

theorem compile_of_reads (limits : PatternLimits) {body : PatternBody} {text : String}
    (h : body.Reads text.toList) :
    (∃ error, body.Refused limits text error ∧ Pattern.compile limits text = .error error) ∨
      body.IsAccepted limits text ∧ ∃ p, Pattern.compile limits text = .ok p := by
  rw [Pattern.compile]
  split_ifs with hlength
  · exact .inl ⟨_, .patternTooLong hlength, rfl⟩
  have hle := Nat.not_lt.mp hlength
  rcases compileChars_of_reads h with ⟨fault, hfault, hchars⟩ | ⟨hwell, segments, hchars, hcount⟩
  · exact .inl ⟨_, .malformed hle hfault, by rw [hchars]⟩
  · simp only [hchars, hcount]
    split_ifs with hmany
    · exact .inl ⟨_, .tooManySegments hle hwell hmany, rfl⟩
    · exact .inr ⟨⟨hle, hwell, Nat.not_lt.mp hmany⟩, _, rfl⟩

/-- **A text is accepted just if it is not too long, is well formed and has not too many segments.
Any other text is refused**: for its length, else for its fault, else for its segments. -/
theorem compile_iff_grammar (limits : PatternLimits) (text : String) :
    ∃ body : PatternBody, body.Reads text.toList ∧
      (∀ other : PatternBody, other.Reads text.toList → other = body) ∧
      ((∃ p, Pattern.compile limits text = .ok p) ↔ text.length ≤ limits.maxLength ∧
        body.IsWellFormed ∧ body.segmentCount ≤ limits.maxSegments) ∧
      ∀ error, Pattern.compile limits text = .error error ↔ body.Refused limits text error := by
  obtain ⟨body, hreads, hunique⟩ := existsUnique_reads text.toList
  refine ⟨body, hreads, hunique, ?_⟩
  rcases compile_of_reads limits hreads with ⟨error, hrefused, hc⟩ | ⟨haccepted, p, hc⟩
  · refine ⟨iff_of_false (by simp [hc]) hrefused.not_isAccepted, fun other => ?_⟩
    rw [hc]
    exact ⟨fun he => Except.error.inj he ▸ hrefused, fun ho => by rw [hrefused.unique ho]⟩
  · refine ⟨iff_of_true ⟨p, hc⟩ haccepted, fun other => ?_⟩
    exact iff_of_false (by simp [hc]) fun ho => ho.not_isAccepted haccepted

end JsonEdit
