import JsonEdit.Sink.Basic

/-!
# A sink with limited room

A sink that keeps what it takes. Once its room is used up every write fails. It notes after how
many bytes it was asked to flush.

* `Bounded.unlimited`: a sink that takes everything.
-/

namespace JsonEdit

/-- A sink that keeps what it takes. -/
structure Bounded where
  taken : Array UInt8
  /-- How many more bytes there is room for. -/
  room : Option Nat
  /-- How many bytes had been taken at each flush. -/
  flushes : Array Nat

namespace Bounded

/-- Nothing taken yet. -/
def new (room : Option Nat) : Bounded := ⟨#[], room, #[]⟩

/-- A sink that takes everything. -/
def unlimited : Bounded := new none

/-- Takes as many bytes as there is room for. -/
def write (w : Bounded) (bytes : List UInt8) : Except String Nat × Bounded :=
  match w.room with
  | none => (.ok bytes.length, { w with taken := w.taken ++ bytes })
  | some 0 => (.error "write failed", w)
  | some room =>
    let taken := bytes.take room
    (.ok taken.length, { w with taken := w.taken ++ taken, room := some (room - taken.length) })

/-- Notes the flush. -/
def flush (w : Bounded) : Except String Unit × Bounded :=
  (.ok (), { w with flushes := w.flushes.push w.taken.size })

instance : ByteSink Bounded := ⟨write, flush⟩

end Bounded

end JsonEdit
