import JsonEdit.FragmentSink
import JsonEdit.Sink.Basic
import JsonEdit.Text.Utf8

/-!
# Writing fragments

Fragments go to a sink of bytes in UTF-8; the sink may be asked to pass each on at once.

* `Writer`: a sink of bytes that takes fragments.
-/

namespace JsonEdit

/-- A sink of bytes that takes fragments. -/
structure Writer (ω : Type) where
  out : ω
  /-- Whether to flush after each fragment. -/
  flushEach : Bool

namespace Writer

variable {ω : Type} [ByteSink ω]

/-- Passes everything on. -/
def flush (w : Writer ω) : Except String Unit × Writer ω :=
  let (result, out) := ByteSink.flush w.out
  (result, { w with out })

/-- Writes a fragment. -/
def emit (w : Writer ω) (fragment : String) : Except String Unit × Writer ω :=
  match writeAll w.out (utf8 fragment) with
  | (.error (message, _), out) => (.error message, { w with out })
  | (.ok _, out) => if w.flushEach then flush { w with out } else (.ok (), { w with out })

instance : FragmentSink (Writer ω) := ⟨emit⟩

end Writer

end JsonEdit
