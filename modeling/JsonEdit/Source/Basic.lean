/-!
# Sources of bytes

Whatever bytes are read from, a block at a time.

* `ByteSource.read`: one read, which gives at most as many bytes as asked for, none only at the
  end;
* `ByteSource.pending`: all bytes that are still to come, which tie the reads together.
-/

namespace JsonEdit

/-- Something that bytes are read from. -/
class ByteSource (σ : Type) where
  /-- Asks for at most so many bytes; a failure comes with a message. -/
  read : σ → Nat → Except String (List UInt8) × σ
  /-- The bytes that have not been given yet. -/
  pending : σ → List UInt8
  /-- What is given are the next bytes. -/
  pending_read : ∀ s n bytes s', read s n = (.ok bytes, s') → pending s = bytes ++ pending s'
  /-- A failure loses nothing. -/
  pending_fail : ∀ s n message s', read s n = (.error message, s') → pending s' = pending s
  /-- No more is given than was asked for. -/
  length_read : ∀ s n bytes s', read s n = (.ok bytes, s') → bytes.length ≤ n
  /-- Nothing is given only at the end. -/
  pending_empty : ∀ s n s', 0 < n → read s n = (.ok [], s') → pending s = []

end JsonEdit
