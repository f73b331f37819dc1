import JsonEdit.Editor.Basic
import JsonEdit.Scanner.Basic
import JsonEdit.Source.Counted

/-!
# From bytes to fragments

The scanner and the editor in a row: bytes go in, and fragments go to a sink as soon as the bytes
settle them. The first error stops both.

* `Pipeline.push`, `Pipeline.pushAll`: bytes;
* `Pipeline.finish`, `Pipeline.breakOff`: the end of the text, and a failure of the reader;
* `Pipeline.readFrom`: everything that a source gives;
* `editText`: a whole text.
-/

namespace JsonEdit

/-- A scanner whose events go to an editor. -/
structure Pipeline (σ : Type) where
  scanner : Scanner
  editor : Editor
  sink : σ
  calls : Array Call
  /-- The error that stopped the editor. -/
  failure : Option EditError

/-- What a run has come to: its result, what it called and what its sink holds. -/
structure Run (ρ σ : Type) where
  result : Except EditError ρ
  calls : Array Call
  sink : σ

namespace Pipeline

variable {σ : Type} [FragmentSink σ]

/-- Before the first byte. -/
def new (editor : Editor) (sink : σ) : Pipeline σ := ⟨.new none, editor, sink, #[], none⟩

/-- Hands events to the editor. -/
def handleAll (rules : RuleSet) (p : Pipeline σ) (scanned : List Scanned × Scanner) :
    Pipeline σ :=
  match p.editor.run rules p.sink p.calls (scanned.1.map Scanned.event) with
  | ⟨editor, sink, calls, .ok _⟩ => ⟨scanned.2, editor, sink, calls, none⟩
  | ⟨editor, sink, calls, .error e⟩ => ⟨scanned.2, editor, sink, calls, some e⟩

/-- Whether an error has stopped the editor. -/
def stopped (p : Pipeline σ) : Bool := p.failure.isSome

/-- One byte. -/
def push (rules : RuleSet) (p : Pipeline σ) (b : UInt8) : Pipeline σ :=
  if p.stopped then p else p.handleAll rules (p.scanner.push b)

/-- Bytes in turn. -/
def pushAll (rules : RuleSet) (p : Pipeline σ) (bytes : List UInt8) : Pipeline σ :=
  bytes.foldl (push rules) p

/-- The end of the text. -/
def finish (rules : RuleSet) (p : Pipeline σ) : Pipeline σ :=
  if p.stopped then p else p.handleAll rules p.scanner.finish

/-- The reader fails. -/
def breakOff (rules : RuleSet) (p : Pipeline σ) (reason : String) : Pipeline σ :=
  if p.stopped then p else p.handleAll rules (p.scanner.breakOff reason)

/-- How many bytes are asked for at once. -/
def blockSize : Nat := 1024

/-- Everything a source gives, up to its end, its failure or an error. -/
def readFrom {τ : Type} [ByteSource τ] (rules : RuleSet) (p : Pipeline σ) (source : Counted τ) :
    Pipeline σ × Counted τ :=
  match _h : source.read blockSize with
  | (.error reason, source) => (p.breakOff rules reason, source)
  | (.ok [], source) => (p.finish rules, source)
  | (.ok (b :: bytes), source') =>
    let p := p.pushAll rules (b :: bytes)
    if p.stopped then (p, source') else p.readFrom rules source'
termination_by source.pending.length
decreasing_by exact Counted.pending_read_lt (by assumption)

/-- The error of the whole run: the one that stopped the editor, or that the end was not reached. -/
def error? (p : Pipeline σ) : Option EditError :=
  match p.failure with
  | some e => some e
  | none => if p.editor.phase = .finished then none else some (.unexpectedEnd p.editor.depth)

end Pipeline

/-- A text with the rules applied. The sink of the run holds what there was before an error. -/
def editText (rules : RuleSet) (text : String) : Run Stats String :=
  let p := ((Pipeline.new (.new DepthLimit.standard) "").pushAll rules (utf8 text)).finish rules
  match p.error? with
  | none => ⟨.ok p.editor.stats, p.calls, p.sink⟩
  | some e => ⟨.error e, p.calls, p.sink⟩

end JsonEdit
