import JsonEdit.Pattern.Compile
import JsonEdit.Pattern.Written
import Mathlib.Tactic.IntervalCases

/-!
# Compiling what has been written

Segments that are written, each in a style of its own, compile to themselves. A text is read from
an assembly on: what it does to the assembly depends neither on where it stands nor on what
follows.

* `KeyMatcher.pieces`, `ofPieces_pieces`: the pieces of a test stand for the test;
* `Assembly.Reads`: a text takes one assembly to another;
* `reads_separator`, `reads_brackets`: what stands between and around tests;
* `Assembly.Holds`, **`Holds.segment`**: the assembly after some segments, and one more;
* `compileChars_written`, **`compile_written`**: a whole pattern, with what may be left out.
-/

namespace JsonEdit

/-! ## Pieces -/

/-- The characters of a text as pieces. -/
def charPieces (text : List Char) : List Piece := text.map .char

namespace Piece

theorem parts_charPieces (text : List Char) : parts (charPieces text) = [text] := by
  induction text with
  | nil => rfl
  | cons c text ih =>
    rw [charPieces, List.map_cons, parts, ← charPieces, ih]

theorem parts_charPieces_append {pieces : List Piece} {part : List Char}
    {more : List (List Char)} (h : parts pieces = part :: more) (text : List Char) :
    parts (charPieces text ++ pieces) = (text ++ part) :: more := by
  induction text with
  | nil => exact h
  | cons c text ih =>
    rw [charPieces, List.map_cons, List.cons_append, parts, ← charPieces, ih]
    rfl

theorem parts_star {pieces : List Piece} (h : pieces.head? ≠ some .star) :
    parts (.star :: pieces) = [] :: parts pieces := by
  match pieces with
  | [] => rfl
  | .char c :: pieces => rfl
  | .star :: pieces => exact absurd rfl h

/-- A star that stands between two parts is not followed by another: the part after it is not
empty, or it is the last. -/
theorem head?_intercalate {part : List Char} {more : List (List Char)}
    (h : ∀ p ∈ (part :: more).dropLast, p ≠ []) :
    ([Piece.star].intercalate ((part :: more).map charPieces)).head? ≠ some .star := by
  match part, more with
  | [], [] => simp [charPieces]
  | c :: part, [] => simp [charPieces]
  | c :: part, next :: more => simp [charPieces, List.intercalate_cons_cons]
  | [], next :: more => exact absurd rfl (h [] List.mem_cons_self)

theorem parts_intercalate : ∀ (part : List Char) (more : List (List Char)),
    (∀ p ∈ more.dropLast, p ≠ []) →
      parts ([.star].intercalate ((part :: more).map charPieces)) = part :: more
  | part, [], _ => by simp [parts_charPieces]
  | part, next :: more, h => by
    have hrest : ∀ p ∈ more.dropLast, p ≠ [] := by
      intro p hp
      refine h p ?_
      cases more with
      | nil => cases hp
      | cons q more => exact List.mem_cons_of_mem _ hp
    have hstar := parts_star (head?_intercalate h)
    rw [parts_intercalate next more hrest] at hstar
    rw [List.map_cons, List.map_cons, List.intercalate_cons_cons, List.append_assoc,
      List.singleton_append, ← List.map_cons, parts_charPieces_append hstar, List.append_nil]

end Piece

namespace KeyMatcher

/-- The pieces of a test: its characters, and a star for each place that is left open. -/
def pieces : KeyMatcher → List Piece
  | .literal text => charPieces text.toList
  | .any => [.star]
  | .glob parts => [.star].intercalate (parts.map fun part => charPieces part.toList)

theorem IsNormal.pieces_ne_nil {m : KeyMatcher} (h : m.IsNormal) : m.pieces ≠ [] := by
  match m, h with
  | .literal text, h => simpa [pieces, charPieces, IsNormal] using h
  | .any, _ => exact List.cons_ne_nil _ _
  | .glob [], h => simp [IsNormal] at h
  | .glob [part], h => simp [IsNormal] at h
  | .glob (part :: next :: parts), _ => simp [pieces, List.intercalate_cons_cons]

theorem ofPieces_pieces {m : KeyMatcher} (h : m.IsNormal) : ofPieces m.pieces = m := by
  match m, h with
  | .literal text, _ =>
    have hstar : Piece.star ∉ charPieces text.toList := by simp [charPieces]
    have hchars : (charPieces text.toList).filterMap Piece.char? = text.toList := by
      simp [charPieces, List.filterMap_map, Function.comp_def, Piece.char?]
    rw [pieces, ofPieces, if_neg (by simpa using hstar), hchars, String.ofList_toList]
  | .any, _ => rfl
  | .glob [], h => simp [IsNormal] at h
  | .glob [part], h => simp [IsNormal] at h
  | .glob (part :: next :: parts), ⟨_, ⟨p, hp, hne⟩, hmiddle⟩ =>
    have hstar : Piece.star ∈ (glob (part :: next :: parts)).pieces := by
      simp [pieces, List.intercalate_cons_cons]
    have hparts : Piece.parts (glob (part :: next :: parts)).pieces =
        (part :: next :: parts).map String.toList := by
      have hrest : ∀ q ∈ ((next :: parts).map String.toList).dropLast, q ≠ [] := by
        intro q hq
        rw [← List.map_dropLast, List.mem_map] at hq
        obtain ⟨q, hq, rfl⟩ := hq
        simpa using hmiddle q hq
      have := Piece.parts_intercalate part.toList _ hrest
      simpa [pieces, Function.comp_def] using this
    have hopen : ((part :: next :: parts).map String.toList).all List.isEmpty = false := by
      rw [List.all_eq_false]
      exact ⟨p.toList, List.mem_map_of_mem hp, by simpa using hne⟩
    rw [ofPieces, if_pos (by simpa using hstar), hparts]
    simp only [hopen, Bool.false_eq_true, if_false, List.map_map, Function.comp_def,
      String.ofList_toList, List.map_id']

end KeyMatcher

/-! ## Reading a text -/

namespace Assembly

/-- The text takes one assembly to another, wherever it stands and whatever follows. -/
def Reads (a : Assembly) (text : List Char) (a' : Assembly) : Prop :=
  ∀ position rest, a.steps (symbolsFrom position (text ++ rest)) =
    a'.steps (symbolsFrom (position + text.length) rest)

section Reads

variable {a a₁ a₂ : Assembly} {text more : List Char}

theorem Reads.nil (a : Assembly) : a.Reads [] a := fun _ _ => rfl

theorem Reads.append (h : a.Reads text a₁) (hm : a₁.Reads more a₂) :
    a.Reads (text ++ more) a₂ := by
  intro position rest
  rw [List.append_assoc, h, hm, List.length_append, Nat.add_assoc]

theorem steps_symbol {c : Char} (hc : c ≠ '\\') {position : Nat}
    (h : a.step (position, .ofChar c) = .ok a₁) (rest : List Char) :
    a.steps (symbolsFrom position (c :: rest)) =
      a₁.steps (symbolsFrom (position + 1) rest) := by
  rw [symbolsFrom.eq_4 position c rest (fun he _ => hc he) (fun _ _ he _ => hc he), steps, h]

theorem Reads.symbol {c : Char} (hc : c ≠ '\\')
    (h : ∀ position, a.step (position, .ofChar c) = .ok a₁) : a.Reads [c] a₁ :=
  fun position rest => steps_symbol hc (h position) rest

theorem ofChar_of_not_isMeta {c : Char} (h : isMeta c = false) : Symbol.ofChar c = .char c := by
  simp only [isMeta, Bool.or_eq_false_iff, beq_eq_false_iff_ne, ne_eq] at h
  obtain ⟨⟨⟨⟨⟨hdot, hopen⟩, hclose⟩, hstar⟩, -⟩, -⟩ := h
  rw [Symbol.ofChar, if_neg hstar, if_neg hdot, if_neg hopen, if_neg hclose]

theorem reads_escapeChar (a : Assembly) (c : Char) :
    a.Reads (escapeChar c) (a.addPiece (.char c)) := by
  rw [escapeChar]
  split_ifs with hm
  · exact fun position rest => rfl
  · rw [Bool.not_eq_true] at hm
    refine .symbol (fun hc => ?_) fun position => ?_
    · rw [hc] at hm
      exact absurd hm (by decide)
    · rw [ofChar_of_not_isMeta hm]
      rfl

theorem reads_star (a : Assembly) : a.Reads ['*'] (a.addPiece .star) :=
  .symbol (by decide) fun _ => rfl

/-- Pieces in turn. -/
def addPieces (a : Assembly) (pieces : List Piece) : Assembly := pieces.foldl addPiece a

theorem addPieces_append (a : Assembly) (pieces more : List Piece) :
    a.addPieces (pieces ++ more) = (a.addPieces pieces).addPieces more := List.foldl_append

theorem addPieces_eq (segments : List Segment) (descend : Bool) (bracket : Option Nat) :
    ∀ (pieces before : List Piece) (dots : Nat), pieces ≠ [] →
      addPieces ⟨segments, before, descend, dots, bracket⟩ pieces =
        ⟨segments, pieces.reverse ++ before, descend, 0, bracket⟩
  | [piece], _, _, _ => rfl
  | piece :: next :: pieces, before, dots, _ => by
    have ih := addPieces_eq segments descend bracket (next :: pieces) (piece :: before) 0
      (List.cons_ne_nil _ _)
    rw [List.reverse_cons, List.append_assoc, List.singleton_append, ← ih]
    rfl

theorem reads_escapeChars (key : List Char) (a : Assembly) :
    a.Reads (escapeChars key) (a.addPieces (charPieces key)) := by
  induction key generalizing a with
  | nil => exact .nil a
  | cons c key ih => exact (reads_escapeChar a c).append (ih _)

theorem reads_written (m : KeyMatcher) (a : Assembly) :
    a.Reads m.written (a.addPieces m.pieces) := by
  cases m with
  | literal text => exact reads_escapeChars text.toList a
  | any => exact reads_star a
  | glob parts =>
    simp only [KeyMatcher.written, KeyMatcher.pieces]
    induction parts generalizing a with
    | nil => exact .nil a
    | cons part parts ih =>
      cases parts with
      | nil => simpa using reads_escapeChars part.toList a
      | cons next parts =>
        simp only [List.map_cons, List.intercalate_cons_cons, addPieces_append]
        exact ((reads_escapeChars part.toList a).append (reads_star _)).append (ih _)

end Reads

/-! ## Segments in a row -/

/-- All that has been read are these segments. The last of them may still be open, if it stands
behind a dot. -/
def Holds (a : Assembly) (segments : List Segment) : Prop :=
  a.finishSegment = ⟨segments.reverse, [], false, 0, none⟩

section Holds

variable {a : Assembly} {segments : List Segment} {m : KeyMatcher}

theorem finishSegment_bracket (a : Assembly) : a.finishSegment.bracket = a.bracket := by
  unfold finishSegment
  split_ifs <;> rfl

theorem finishSegment_dots (a : Assembly) : a.finishSegment.dots = a.dots := by
  unfold finishSegment
  split_ifs <;> rfl

theorem finishSegment_pieces (segments : List Segment) (h : m.IsNormal) (descend : Bool)
    (bracket : Option Nat) :
    finishSegment ⟨segments, m.pieces.reverse, descend, 0, bracket⟩ =
      ⟨⟨descend, m⟩ :: segments, [], false, 0, bracket⟩ := by
  have hne : m.pieces.reverse.isEmpty = false := by simpa using h.pieces_ne_nil
  simp only [finishSegment, hne, Bool.false_eq_true, if_false, List.reverse_reverse,
    KeyMatcher.ofPieces_pieces h]

theorem Holds.separator (h : a.Holds segments) (descend : Bool) :
    a.Reads (if descend then ['.', '.'] else ['.'])
      ⟨segments.reverse, [], descend, 1 + descend.toNat, none⟩ := by
  have hb : a.bracket = none := by rw [← finishSegment_bracket, h]
  have hd : a.dots = 0 := by rw [← finishSegment_dots, h]
  have hfirst : a.Reads ['.'] ⟨segments.reverse, [], false, 1, none⟩ := by
    refine .symbol (by decide) fun position => ?_
    have hstep : a.step (position, .dot) = a.separate position := by simp only [step, hb]
    rw [show Symbol.ofChar '.' = .dot from rfl, hstep, separate, h]
    rfl
  cases descend with
  | false => exact hfirst
  | true => exact hfirst.append (.symbol (by decide) fun _ => rfl)

theorem reads_dotted (segments : List Segment) (h : m.IsNormal) (descend : Bool) (dots : Nat) :
    ∃ a, (⟨segments.reverse, [], descend, dots, none⟩ : Assembly).Reads m.written a ∧
      a.Holds (segments ++ [⟨descend, m⟩]) := by
  refine ⟨_, reads_written m _, ?_⟩
  rw [addPieces_eq _ _ _ _ _ _ h.pieces_ne_nil, List.append_nil, Holds,
    finishSegment_pieces _ h, List.reverse_append]
  rfl

theorem reads_brackets {descend : Bool} {dots : Nat}
    (ha : a.finishSegment = ⟨segments.reverse, [], descend, dots, none⟩) (h : m.IsNormal) :
    a.Reads ('[' :: m.written ++ [']'])
      ⟨(segments ++ [(⟨descend, m⟩ : Segment)]).reverse, [], false, 0, none⟩ := by
  intro position rest
  have hb : a.bracket = none := by rw [← finishSegment_bracket, ha]
  let opened : Assembly := ⟨segments.reverse, [], descend, 0, some position⟩
  have hopen : a.step (position, .ofChar '[') = .ok opened := by
    simp only [show Symbol.ofChar '[' = .openBracket from rfl, step, hb, ha, opened]
  have hread : opened.addPieces m.pieces =
      ⟨segments.reverse, m.pieces.reverse, descend, 0, some position⟩ := by
    rw [addPieces_eq _ _ _ _ _ _ h.pieces_ne_nil, List.append_nil]
  have hclose : ∀ p, (opened.addPieces m.pieces).step (p, .ofChar ']') =
      .ok ⟨(segments ++ [(⟨descend, m⟩ : Segment)]).reverse, [], false, 0, none⟩ := by
    intro p
    have hne : m.pieces.reverse.isEmpty = false := by simpa using h.pieces_ne_nil
    rw [hread]
    simp only [show Symbol.ofChar ']' = .closeBracket from rfl, step, hne, Bool.false_eq_true,
      if_false, finishSegment_pieces _ h, List.reverse_append]
    rfl
  have htext : '[' :: m.written ++ [']'] ++ rest = '[' :: (m.written ++ (']' :: rest)) := by simp
  have hlength : position + ('[' :: m.written ++ [']']).length =
      position + 1 + m.written.length + 1 := by
    simp only [List.length_append, List.length_cons, List.length_nil]
    omega
  rw [htext, steps_symbol (by decide) hopen, reads_written m opened,
    steps_symbol (by decide) (hclose _), hlength]

/-- **One more segment**, in either style. -/
theorem Holds.segment (h : a.Holds segments) {segment : Segment} (hn : segment.matcher.IsNormal)
    (style : SegmentStyle) :
    ∃ a', a.Reads (segment.written style) a' ∧ a'.Holds (segments ++ [segment]) := by
  obtain ⟨descend, m⟩ := segment
  cases style with
  | dotted =>
    obtain ⟨a', hread, hholds⟩ := reads_dotted segments hn descend (1 + descend.toNat)
    exact ⟨a', (h.separator descend).append hread, hholds⟩
  | bracketed =>
    cases descend with
    | false => exact ⟨_, reads_brackets h hn, rfl⟩
    | true => exact ⟨_, (h.separator true).append (reads_brackets rfl hn), rfl⟩

theorem Holds.written : ∀ (next : List (Segment × SegmentStyle)) {a : Assembly}
    {segments : List Segment}, a.Holds segments → (∀ s ∈ next, s.1.matcher.IsNormal) →
    ∃ a', a.Reads (writtenSegments next) a' ∧ a'.Holds (segments ++ next.map Prod.fst)
  | [], a, segments, h, _ => ⟨a, .nil a, by simpa using h⟩
  | (segment, style) :: next, a, segments, h, hn => by
    obtain ⟨a₁, hread, h₁⟩ := h.segment (hn _ List.mem_cons_self) style
    obtain ⟨a₂, hmore, h₂⟩ := h₁.written next fun s hs => hn s (List.mem_cons_of_mem _ hs)
    exact ⟨a₂, hread.append hmore, by simpa using h₂⟩

theorem Holds.trailing (h : a.Holds segments) {dots : Nat} (hd : dots ≤ 2) :
    ∃ a', a.Reads (List.replicate dots '.') a' ∧ a'.finish = .ok segments := by
  have hfinish : ∀ (descend : Bool) (n : Nat),
      finish ⟨segments.reverse, [], descend, n, none⟩ = .ok segments := by
    intro descend n
    simp [finish, finishSegment]
  interval_cases dots
  · refine ⟨a, .nil a, ?_⟩
    have hb : a.bracket = none := by rw [← finishSegment_bracket, h]
    rw [finish, hb, h, List.reverse_reverse]
  · exact ⟨_, h.separator false, hfinish _ _⟩
  · exact ⟨_, h.separator true, hfinish _ _⟩

end Holds

end Assembly

/-! ## Whole patterns -/

theorem head?_writtenSegments (segments : List (Segment × SegmentStyle)) (dots : Nat) :
    (writtenSegments segments ++ List.replicate dots '.').head? ≠ some '$' := by
  match segments with
  | [] => cases dots <;> simp [writtenSegments, List.replicate_succ]
  | (⟨descend, m⟩, style) :: segments =>
    cases style <;> cases descend <;> simp [writtenSegments, Segment.written]

theorem symbols_writtenPattern (mark : Bool) (segments : List (Segment × SegmentStyle))
    (dots : Nat) :
    symbols (writtenPattern mark segments dots) =
      symbolsFrom mark.toNat (writtenSegments segments ++ List.replicate dots '.') := by
  cases mark with
  | true => rfl
  | false =>
    have hhead := head?_writtenSegments segments dots
    rw [writtenPattern, if_neg (by decide), List.nil_append]
    generalize writtenSegments segments ++ List.replicate dots '.' = text at hhead ⊢
    match text with
    | [] => rfl
    | c :: text =>
      have hc : c ≠ '$' := by simpa using hhead
      rw [symbols.eq_2 _ fun _ he => hc (List.cons.inj he).1]
      rfl

/-- **Written segments compile to themselves.** -/
theorem compileChars_written (mark : Bool) {segments : List (Segment × SegmentStyle)}
    (hn : ∀ s ∈ segments, s.1.matcher.IsNormal) {dots : Nat} (hd : dots ≤ 2) :
    compileChars (writtenPattern mark segments dots) = .ok (segments.map Prod.fst) := by
  have hstart : Assembly.start.Holds [] := rfl
  obtain ⟨a₁, hread, h₁⟩ := hstart.written segments hn
  obtain ⟨a₂, hdots, hfinish⟩ := h₁.trailing hd
  have hsteps := (hread.append hdots) mark.toNat []
  rw [List.append_nil] at hsteps
  rw [compileChars, symbols_writtenPattern, hsteps]
  exact hfinish

theorem compile_of_chars {limits : PatternLimits} {text : String} {segments : List Segment}
    (h : compileChars text.toList = .ok segments) (hl : text.length ≤ limits.maxLength)
    (hs : segments.length ≤ limits.maxSegments) :
    Pattern.compile limits text = .ok ⟨text, segments⟩ := by
  rw [Pattern.compile, if_neg (Nat.not_lt.mpr hl), h]
  simp only [if_neg (Nat.not_lt.mpr hs)]

/-- **Compiling undoes writing**: within limits a text that segments have been written to is a
pattern with just these segments, whatever their styles. -/
theorem compile_written (limits : PatternLimits) (mark : Bool)
    (segments : List (Segment × SegmentStyle)) (dots : Nat)
    (hn : ∀ s ∈ segments, s.1.matcher.IsNormal) (hd : dots ≤ 2)
    (hl : (writtenPattern mark segments dots).length ≤ limits.maxLength)
    (hs : segments.length ≤ limits.maxSegments) :
    let text := String.ofList (writtenPattern mark segments dots)
    Pattern.compile limits text = .ok ⟨text, segments.map Prod.fst⟩ := by
  intro text
  refine compile_of_chars ?_ (by simpa [text] using hl) (by simpa using hs)
  rw [String.toList_ofList]
  exact compileChars_written mark hn hd

/-- Both styles, a descent before either, keys with marks of the syntax, and dots at the end. -/
theorem compile_written_mixed :
    let segments : List (Segment × SegmentStyle) :=
      [(⟨true, .glob ["a.b", ""]⟩, .bracketed), (⟨false, .literal "$x\\"⟩, .dotted),
        (⟨true, .any⟩, .dotted)]
    (∀ s ∈ segments, s.1.matcher.IsNormal) ∧
      Pattern.compile .standard "$..[a\\.b*].\\$x\\\\..*.." =
        .ok ⟨"$..[a\\.b*].\\$x\\\\..*..", segments.map Prod.fst⟩ := by
  intro segments
  have hn : ∀ s ∈ segments, s.1.matcher.IsNormal := by simp [segments, KeyMatcher.IsNormal]
  have htext : String.ofList (writtenPattern true segments 2) = "$..[a\\.b*].\\$x\\\\..*.." := by
    decide
  rw [← htext]
  exact ⟨hn, compile_written .standard true segments 2 hn (by decide) (by decide) (by decide)⟩

end JsonEdit
