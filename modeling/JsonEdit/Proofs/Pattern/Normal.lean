import JsonEdit.Pattern.Compile
import JsonEdit.Pattern.Written
import Mathlib.Tactic.SplitIfs

/-!
# Tests in normal form

A compiled pattern has no empty literal, and no part of its globs could be left out: no segment
ends without a piece, and stars in a row count as one.

* `Piece.Shape`, `parts_shape`: which of the parts can be empty;
* `KeyMatcher.ofPieces_isNormal`: pieces stand for a test in normal form;
* `Assembly.IsNormal`, `IsNormal.step`: so do all segments read so far, whatever comes next;
* **`compile_isNormal`**: the segments of a pattern.
-/

namespace JsonEdit

/-! ## Parts -/

namespace Piece

/-- What can be empty among the parts of pieces: the first where a star comes first, and the
last. -/
structure Shape (pieces : List Piece) (part : List Char) (more : List (List Char)) : Prop where
  first : pieces ≠ [] → pieces.head? ≠ some .star → part ≠ []
  middle : ∀ p ∈ more.dropLast, p ≠ []
  star : .star ∈ pieces → more ≠ []

theorem parts_shape (pieces : List Piece) :
    ∃ part more, parts pieces = part :: more ∧ Shape pieces part more := by
  induction pieces using parts.induct with
  | case1 => exact ⟨[], [], rfl, ⟨fun h => absurd rfl h, by simp, by simp⟩⟩
  | case2 pieces ih =>
    obtain ⟨part, more, hparts, hshape⟩ := ih
    refine ⟨part, more, hparts, ⟨fun _ h => absurd rfl h, hshape.middle, fun _ => ?_⟩⟩
    exact hshape.star List.mem_cons_self
  | case3 pieces hhead ih =>
    obtain ⟨part, more, hparts, hshape⟩ := ih
    refine ⟨[], part :: more, by rw [parts.eq_3 pieces hhead, hparts],
      ⟨fun _ h => absurd rfl h, ?_, fun _ => List.cons_ne_nil _ _⟩⟩
    -- The part behind the star is the last one, or does not start with a star.
    cases more with
    | nil => simp
    | cons next more =>
      intro p hp
      rcases List.mem_cons.mp hp with rfl | hp
      · refine hshape.first (fun h => ?_) fun h => ?_
        · simp [h, parts] at hparts
        · cases pieces with
          | nil => cases h
          | cons piece pieces => exact hhead pieces (by rw [Option.some.inj h])
      · exact hshape.middle p hp
  | case4 c pieces hnil ih =>
    obtain ⟨part, more, hparts, -⟩ := ih
    rw [hparts] at hnil
    cases hnil
  | case5 c pieces part more hparts ih =>
    obtain ⟨part', more', hparts', hshape⟩ := ih
    obtain ⟨rfl, rfl⟩ := List.cons.inj (hparts.symm.trans hparts')
    refine ⟨c :: part, more, by rw [parts, hparts], ⟨fun _ _ => List.cons_ne_nil _ _,
      hshape.middle, fun h => hshape.star ?_⟩⟩
    simpa using h

end Piece

theorem KeyMatcher.ofPieces_isNormal {pieces : List Piece} (h : pieces ≠ []) :
    (ofPieces pieces).IsNormal := by
  rw [ofPieces]
  split_ifs with hstar
  · obtain ⟨part, more, hparts, hshape⟩ := Piece.parts_shape pieces
    have hmore : more ≠ [] := hshape.star (by simpa using hstar)
    simp only [hparts]
    split_ifs with hopen
    · trivial
    · rw [Bool.not_eq_true, List.all_eq_false] at hopen
      obtain ⟨p, hp, hne⟩ := hopen
      refine ⟨?_, ⟨String.ofList p, List.mem_map_of_mem hp, ?_⟩, fun q hq => ?_⟩
      · simpa [Nat.one_le_iff_ne_zero] using hmore
      · simpa using hne
      · rw [List.map_cons, List.tail_cons, ← List.map_dropLast, List.mem_map] at hq
        obtain ⟨q, hq, rfl⟩ := hq
        simpa using hshape.middle q hq
  · match pieces, h with
    | .char c :: pieces, _ => simp [IsNormal, Piece.char?]
    | .star :: pieces, _ => simp at hstar

/-! ## Segments -/

namespace Assembly

/-- All segments read so far have tests in normal form. -/
def IsNormal (a : Assembly) : Prop := ∀ segment ∈ a.segments, segment.matcher.IsNormal

variable {a a' : Assembly}

theorem IsNormal.finishSegment (h : a.IsNormal) : a.finishSegment.IsNormal := by
  rw [Assembly.finishSegment]
  split_ifs with hp
  · exact h
  · refine List.forall_mem_cons.mpr ⟨?_, h⟩
    exact KeyMatcher.ofPieces_isNormal (by simpa using hp)

theorem IsNormal.step (h : a.IsNormal) {position : Nat} {symbol : Symbol}
    (hs : a.step (position, symbol) = .ok a') : a'.IsNormal := by
  have hf := h.finishSegment
  cases symbol with
  | char c => exact Except.ok.inj hs ▸ h
  | star => exact Except.ok.inj hs ▸ h
  | loneEscape => cases hs
  | openBracket =>
    cases hb : a.bracket with
    | some _ => simp [Assembly.step, hb] at hs
    | none =>
      simp only [Assembly.step, hb, Except.ok.injEq] at hs
      exact hs ▸ hf
  | closeBracket =>
    simp only [Assembly.step] at hs
    split at hs
    · cases hs
    · split_ifs at hs
      exact Except.ok.inj hs ▸ hf
  | dot =>
    simp only [Assembly.step, separate] at hs
    split at hs
    · exact Except.ok.inj hs ▸ h
    · split at hs
      · exact Except.ok.inj hs ▸ hf
      · exact Except.ok.inj hs ▸ hf
      · cases hs

theorem IsNormal.steps {symbols : List (Nat × Symbol)} (h : a.IsNormal)
    (hs : a.steps symbols = .ok a') : a'.IsNormal := by
  induction symbols generalizing a with
  | nil => exact Except.ok.inj hs ▸ h
  | cons symbol symbols ih =>
    rw [Assembly.steps] at hs
    split at hs
    · rename_i next hstep
      exact ih (h.step hstep) hs
    · cases hs

end Assembly

/-! ## Patterns -/

theorem compileChars_eq_ok {text : List Char} {segments : List Segment}
    (h : compileChars text = .ok segments) :
    ∃ a, Assembly.start.steps (symbols text) = .ok a ∧
      segments = a.finishSegment.segments.reverse := by
  rw [compileChars] at h
  split at h
  · rename_i a hsteps
    refine ⟨a, hsteps, ?_⟩
    rw [Assembly.finish] at h
    split at h
    · cases h
    · exact (Except.ok.inj h).symm
  · cases h

theorem chars_of_compile {limits : PatternLimits} {text : String} {p : Pattern}
    (h : Pattern.compile limits text = .ok p) : compileChars text.toList = .ok p.segments := by
  rw [Pattern.compile] at h
  split_ifs at h
  split at h
  · cases h
  · rename_i segments hchars
    split_ifs at h
    rw [hchars, ← Except.ok.inj h]

/-- **The segments of a pattern have tests in normal form.** -/
theorem compile_isNormal {limits : PatternLimits} {text : String} {p : Pattern}
    (h : Pattern.compile limits text = .ok p) :
    ∀ segment ∈ p.segments, segment.matcher.IsNormal := by
  obtain ⟨a, hsteps, hsegments⟩ := compileChars_eq_ok (chars_of_compile h)
  have hstart : Assembly.start.IsNormal := by simp [Assembly.IsNormal, Assembly.start]
  intro segment hm
  rw [hsegments, List.mem_reverse] at hm
  exact (hstart.steps hsteps).finishSegment segment hm

end JsonEdit
