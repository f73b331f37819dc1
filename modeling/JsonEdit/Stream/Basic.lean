import JsonEdit.Sink.Buffered
import JsonEdit.Sink.Writer
import JsonEdit.Stream.Pipeline

/-!
# Editing a stream

The rules applied to everything a source gives, with the text going to a sink through a buffer. A
run that fails leaves in the sink what there was before the failure.

* `StreamOptions`: the limits and when to flush;
* `Summary`: what a complete run has counted;
* `editStream`: a run.
-/

namespace JsonEdit

/-- How a stream is edited. -/
structure StreamOptions where
  maxDepth : Nat
  /-- The input may have so many bytes. -/
  maxInputBytes : Option Nat
  /-- Whether each fragment is passed on at once. -/
  flushEach : Bool
deriving DecidableEq, Repr

/-- The usual depth limit and no other limits; flushing at the end. -/
def StreamOptions.standard : StreamOptions := ⟨DepthLimit.standard, none, false⟩

/-- What a complete run has counted. -/
structure Summary where
  stats : Stats
  inputBytes : Nat
deriving DecidableEq, Repr

variable {τ ω : Type} [ByteSource τ] [ByteSink ω]

/-- Ends a failed run: tries to pass on what there was. An input that was seen to be too long is
the cause of any failure. -/
def endFailed (source : Counted τ) (w : Writer (Buffered ω)) (e : EditError) :
    Except EditError Summary × ω :=
  let w := w.flush.2
  let e := match source.exceeded, source.limit with
    | true, some limit => .limit (.inputTooLong limit)
    | _, _ => e
  (.error e, w.out.close)

/-- Ends a run without an error: everything has to be passed on. -/
def endComplete (source : Counted τ) (w : Writer (Buffered ω)) (stats : Stats) :
    Except EditError Summary × ω :=
  match w.flush with
  | (.ok _, w) => (.ok ⟨stats, source.bytesRead⟩, w.out.close)
  | (.error message, w) => (.error (.transfer message), w.out.close)

/-- The rules applied to everything a source gives. -/
def editStream (rules : RuleSet) (options : StreamOptions) (source : τ) (sink : ω) :
    Run Summary ω :=
  match Editor.withLimit options.maxDepth with
  | .error e => ⟨.error e, #[], sink⟩
  | .ok editor =>
    let start := Pipeline.new editor (Writer.mk (Buffered.new sink) options.flushEach)
    let (p, source) := start.readFrom rules (Counted.new source options.maxInputBytes)
    let (result, sink) := match p.error? with
      | some e => endFailed source p.sink e
      | none => endComplete source p.sink p.editor.stats
    ⟨result, p.calls, sink⟩

end JsonEdit
