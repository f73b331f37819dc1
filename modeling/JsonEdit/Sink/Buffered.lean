import JsonEdit.Sink.Basic

/-!
# A buffer before a sink

Small writes are collected in a buffer. A write that does not fit into what is left of it first
empties the buffer, and one that is as large as the buffer passes it by.

* `Buffered.empty`: passes the buffer's bytes on;
* `Buffered.write`, `Buffered.flush`: the operations of a sink;
* `Buffered.close`: the last try to pass the bytes on.
-/

namespace JsonEdit

/-- A sink with a buffer before it. -/
structure Buffered (ω : Type) where
  inner : ω
  buffer : Array UInt8

namespace Buffered

/-- How many bytes the buffer holds. -/
def capacity : Nat := 8192

variable {ω : Type}

/-- An empty buffer before a sink. -/
def new (inner : ω) : Buffered ω := ⟨inner, #[]⟩

variable [ByteSink ω]

/-- Passes the buffer's bytes on; after a failure it keeps those that were not taken. -/
def drain (w : Buffered ω) : Except String Unit × Buffered ω :=
  match writeAll w.inner w.buffer.toList with
  | (.ok _, inner) => (.ok (), ⟨inner, #[]⟩)
  | (.error (message, left), inner) => (.error message, ⟨inner, left.toArray⟩)

/-- Takes bytes that fit behind those in the buffer, or passes them by an empty one. -/
def accept (w : Buffered ω) (bytes : List UInt8) : Except String Unit × Buffered ω :=
  if bytes.length < capacity then (.ok (), { w with buffer := w.buffer ++ bytes })
  else
    match writeAll w.inner bytes with
    | (.ok _, inner) => (.ok (), { w with inner })
    | (.error (message, _), inner) => (.error message, { w with inner })

/-- Takes bytes. -/
def write (w : Buffered ω) (bytes : List UInt8) : Except String Unit × Buffered ω :=
  if w.buffer.size + bytes.length < capacity then
    (.ok (), { w with buffer := w.buffer ++ bytes })
  else if w.buffer.size + bytes.length > capacity then
    match w.drain with
    | (.ok _, w) => w.accept bytes
    | (.error message, w) => (.error message, w)
  else w.accept bytes

/-- Passes everything on. -/
def flush (w : Buffered ω) : Except String Unit × Buffered ω :=
  match w.drain with
  | (.ok _, w) =>
    let (result, inner) := ByteSink.flush w.inner
    (result, { w with inner })
  | (.error message, w) => (.error message, w)

instance : ByteSink (Buffered ω) where
  write w bytes :=
    match w.write bytes with
    | (.ok _, w) => (.ok bytes.length, w)
    | (.error message, w) => (.error message, w)
  flush := flush

/-- Tries a last time to pass the buffer's bytes on. -/
def close (w : Buffered ω) : ω := w.drain.2.inner

end Buffered

end JsonEdit
