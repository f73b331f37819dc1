import JsonEdit.Path.Escape
import JsonEdit.Pattern.Basic

/-!
# Writing patterns

Segments have texts of their own: the pattern text that compiles to them. A segment stands behind
a dot or in brackets; two dots before either make it descend.

* `KeyMatcher.IsNormal`: the tests that a text can stand for;
* `KeyMatcher.written`, `Segment.written`: the text of a test, and of a segment in either style;
* `writtenSegments`: the text of segments, each in its style;
* `writtenPattern`: the same with what a pattern may have around its segments.
-/

namespace JsonEdit

/-! ## Tests -/

namespace KeyMatcher

/-- Neither the literal nor what stands between two wildcards is empty, and something besides the
wildcards stands in a glob. -/
def IsNormal : KeyMatcher → Prop
  | .literal text => text ≠ ""
  | .any => True
  | .glob parts =>
    2 ≤ parts.length ∧ (∃ part ∈ parts, part ≠ "") ∧ ∀ part ∈ parts.tail.dropLast, part ≠ ""

/-- The text of a test: characters with a meaning of their own stand behind a backslash, and a star
between two parts. -/
def written : KeyMatcher → List Char
  | .literal text => escapeChars text.toList
  | .any => ['*']
  | .glob parts => ['*'].intercalate (parts.map fun part => escapeChars part.toList)

end KeyMatcher

/-! ## Segments -/

/-- Where a segment stands. -/
inductive SegmentStyle
  /-- Behind a dot. -/
  | dotted
  /-- In brackets. -/
  | bracketed
deriving DecidableEq, Repr

/-- The text of a segment. -/
def Segment.written (segment : Segment) : SegmentStyle → List Char
  | .dotted => (if segment.descend then ['.', '.'] else ['.']) ++ segment.matcher.written
  | .bracketed =>
    (if segment.descend then ['.', '.'] else []) ++ '[' :: segment.matcher.written ++ [']']

/-- The text of segments, each in its style. -/
def writtenSegments (segments : List (Segment × SegmentStyle)) : List Char :=
  segments.flatMap fun (segment, style) => segment.written style

/-- The text of a pattern. The mark of the root may stand before the segments, and dots that
separate nothing may stand behind them. -/
def writtenPattern (mark : Bool) (segments : List (Segment × SegmentStyle)) (dots : Nat) :
    List Char :=
  (if mark then ['$'] else []) ++ (writtenSegments segments ++ List.replicate dots '.')

end JsonEdit
