/-!
# Sinks of bytes

Whatever bytes are written to.

* `ByteSink.write`: offers bytes, of which the first few are taken;
* `ByteSink.flush`: asks for everything taken to be passed on;
* `writeAll`: offers bytes until all are taken.
-/

namespace JsonEdit

/-- Something that bytes are written to. Failures come with a message. -/
class ByteSink (ω : Type) where
  /-- Offers bytes; says how many of them were taken. -/
  write : ω → List UInt8 → Except String Nat × ω
  /-- Asks for everything taken to be passed on. -/
  flush : ω → Except String Unit × ω

variable {ω : Type} [ByteSink ω]

/-- Offers bytes again and again until all are taken. The bytes that were not taken before a
failure come with it. -/
def writeAll (w : ω) (bytes : List UInt8) : Except (String × List UInt8) Unit × ω :=
  match bytes with
  | [] => (.ok (), w)
  | b :: rest =>
    match ByteSink.write w (b :: rest) with
    | (.error message, w) => (.error (message, b :: rest), w)
    | (.ok 0, w) => (.error ("failed to write whole buffer", b :: rest), w)
    | (.ok (taken + 1), w) => writeAll w (rest.drop taken)
termination_by bytes.length
decreasing_by simp only [List.length_drop, List.length_cons]; omega

end JsonEdit
