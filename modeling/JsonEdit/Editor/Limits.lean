import JsonEdit.Editor.Error

/-!
# The depth limit

How many frames may be open at once. The limit can be chosen from 1 up to a hard maximum.

* `DepthLimit.standard`, `DepthLimit.hard`: the usual and the largest limit;
* `DepthLimit.validate`: a limit that may be chosen.
-/

namespace JsonEdit

namespace DepthLimit

/-- The limit used unless another is chosen. -/
def standard : Nat := 512

/-- The largest limit that may be chosen. -/
def hard : Nat := 8192

/-- The limit is neither too large nor zero. -/
def validate (maxDepth : Nat) : Except EditError Unit :=
  if maxDepth > hard then .error (.limit (.depthLimitTooLarge maxDepth hard))
  else if maxDepth = 0 then .error (.limit .depthLimitZero)
  else .ok ()

end DepthLimit

end JsonEdit
