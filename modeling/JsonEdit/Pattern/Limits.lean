import JsonEdit.Pattern.Error

/-!
# Pattern limits

How long a pattern text may be and how many segments it may have. Limits can be chosen up to a
hard maximum.

* `PatternLimits.standard`, `PatternLimits.hard`: the usual and the largest limits;
* `PatternLimits.validate`: the limits are not above the largest ones.
-/

namespace JsonEdit

/-- The limits a pattern is compiled under. -/
structure PatternLimits where
  /-- The most characters of the text. -/
  maxLength : Nat
  /-- The most segments. -/
  maxSegments : Nat
deriving DecidableEq, Repr

namespace PatternLimits

/-- The limits used unless others are chosen. -/
def standard : PatternLimits := ⟨1024, 64⟩

/-- The largest limits that may be chosen. -/
def hard : PatternLimits := ⟨16384, 1024⟩

/-- Neither limit is above the largest one; the length is looked at first. -/
def validate (l : PatternLimits) : Except PatternError Unit :=
  if l.maxLength > hard.maxLength then
    .error (.lengthLimitTooLarge l.maxLength hard.maxLength)
  else if l.maxSegments > hard.maxSegments then
    .error (.segmentLimitTooLarge l.maxSegments hard.maxSegments)
  else .ok ()

end PatternLimits

end JsonEdit
