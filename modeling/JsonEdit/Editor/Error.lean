import JsonEdit.Stack

/-!
# Why an edit fails

* `Phase`: whether an editor still takes events;
* `EditError`: the causes;
* `EditError.message`: the wording.
-/

namespace JsonEdit

/-- Whether an editor still takes events. -/
inductive Phase
  | running
  /-- Stopped by an error. -/
  | halted
  /-- The end has been handled. -/
  | finished
deriving DecidableEq, Repr

/-- The name of a phase. -/
def Phase.name : Phase → String
  | .running => "running"
  | .halted => "halted"
  | .finished => "finished"

/-- A limit that is passed, or that may not be set. -/
inductive LimitFault
  /-- The depth limit is above the largest one. -/
  | depthLimitTooLarge (asked hard : Nat)
  | depthLimitZero
  /-- The input goes on after so many bytes. -/
  | inputTooLong (maxBytes : Nat)
deriving DecidableEq, Repr

/-- The wording of a limit fault. -/
def LimitFault.message : LimitFault → String
  | .depthLimitTooLarge asked hard => s!"max_depth {asked} exceeds hard limit {hard}"
  | .depthLimitZero => "max_depth must be at least 1"
  | .inputTooLong maxBytes => s!"input exceeds {maxBytes} bytes"

/-- Why an edit fails. -/
inductive EditError
  /-- The text is no document. -/
  | malformedInput (message : String)
  /-- A handler failed at a node. -/
  | handler (rule path message : String)
  | depthLimitExceeded (depth maxDepth : Nat)
  /-- An event does not fit the containers that are open. -/
  | unbalanced (event : String) (reason : Imbalance)
  /-- The events end with so many containers open. -/
  | unexpectedEnd (openCount : Nat)
  /-- An event came after the last one. -/
  | closed (phase : Phase)
  | limit (fault : LimitFault)
  /-- Reading or writing failed. -/
  | transfer (message : String)
  /-- The edited text is no value. -/
  | invalidResult
deriving DecidableEq, Repr

/-- The wording of an error. -/
def EditError.message : EditError → String
  | .malformedInput message => "Malformed input: " ++ message
  | .handler rule path message => s!"Rule '{rule}' failed at '{path}': {message}"
  | .depthLimitExceeded depth maxDepth => s!"Nesting depth {depth} exceeds limit {maxDepth}"
  | .unbalanced event reason => s!"Unbalanced {event} event: " ++ reason.message
  | .unexpectedEnd openCount => s!"Input ended with {openCount} unclosed container(s)"
  | .closed phase => "Rewriter is " ++ phase.name ++ "; no further events are accepted"
  | .limit fault => "Limit exceeded: " ++ fault.message
  | .transfer message => "I/O error: " ++ message
  | .invalidResult => "JSON error"

end JsonEdit
