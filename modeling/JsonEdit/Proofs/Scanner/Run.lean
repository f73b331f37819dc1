import JsonEdit.Scanner.Basic

/-!
# Scanning to the end

All bytes of a text and the way it ends, as one list of events.

* `Ending`, `Scanner.endWith`: the end of a text, or a failure of its reader;
* `Scanner.pushed`, `pushAll_eq`: bytes in turn, as a recursion;
* `Scanner.remaining`, `scan_eq`: the events of all bytes that are still to come;
* `remaining_append`: a text in two parts;
* `remaining_of_stopped`: nothing comes after the last event.
-/

namespace JsonEdit

/-- The events, without the depths. -/
abbrev told (given : List Scanned) : List Event := given.map Scanned.event

/-- How the bytes of a text end. -/
inductive Ending
  /-- There are no more. -/
  | complete
  /-- The reader fails where another byte is needed. -/
  | broken (reason : String)
deriving DecidableEq, Repr

namespace Scanner

/-- The bytes end. -/
def endWith (s : Scanner) : Ending → List Scanned × Scanner
  | .complete => s.finish
  | .broken reason => s.breakOff reason

/-- Bytes in turn. -/
def pushed (s : Scanner) : List UInt8 → List Scanned × Scanner
  | [] => s.wait
  | b :: bytes =>
    let rest := (s.push b).2.pushed bytes
    ((s.push b).1 ++ rest.1, rest.2)

/-- The events of all bytes that are still to come, and of their end. -/
def remaining (s : Scanner) (ending : Ending) : List UInt8 → List Scanned
  | [] => (s.endWith ending).1
  | b :: bytes => (s.push b).1 ++ (s.push b).2.remaining ending bytes

theorem foldl_push (bytes : List UInt8) : ∀ (events : Array Scanned) (s : Scanner),
    bytes.foldl (fun (events, s) b => let (more, s) := s.push b; (events ++ more, s)) (events, s) =
      (events ++ (s.pushed bytes).1, (s.pushed bytes).2) := by
  induction bytes with
  | nil => intro events s; simp [pushed, wait]
  | cons b bytes ih =>
    intro events s
    rw [List.foldl_cons, ih, pushed]
    refine Prod.ext (Array.ext' ?_) rfl
    simp

theorem pushAll_eq (s : Scanner) (bytes : List UInt8) :
    s.pushAll bytes = ((s.pushed bytes).1.toArray, (s.pushed bytes).2) := by
  rw [pushAll, foldl_push]
  simp

theorem pushed_append (before after : List UInt8) : ∀ s : Scanner,
    (s.pushed (before ++ after)).2 = ((s.pushed before).2.pushed after).2 := by
  induction before with
  | nil => intro s; rfl
  | cons b before ih =>
    intro s
    rw [List.cons_append, pushed, ih, pushed]

theorem remaining_append (ending : Ending) (before after : List UInt8) : ∀ s : Scanner,
    s.remaining ending (before ++ after) =
      (s.pushed before).1 ++ (s.pushed before).2.remaining ending after := by
  induction before with
  | nil => intro s; rfl
  | cons b before ih =>
    intro s
    rw [List.cons_append, remaining, ih, pushed, List.append_assoc]

theorem told_remaining_append (ending : Ending) (before after : List UInt8) (s : Scanner) :
    told (s.remaining ending (before ++ after)) =
      told (s.pushed before).1 ++ told ((s.pushed before).2.remaining ending after) := by
  rw [remaining_append, told, List.map_append]

theorem scan_eq (maxNesting : Option Nat) (bytes : List UInt8) :
    scan maxNesting bytes = (Scanner.new maxNesting).remaining .complete bytes := by
  have h := remaining_append .complete bytes [] (Scanner.new maxNesting)
  rw [List.append_nil] at h
  rw [h, scan, pushAll_eq]
  simp [remaining, endWith]

theorem remaining_of_stopped {s : Scanner} (h : s.mode = .stopped) (ending : Ending)
    (bytes : List UInt8) : s.remaining ending bytes = [] := by
  have hpush : ∀ b, s.push b = ([], s) := fun b => by rw [push, h]; rfl
  induction bytes with
  | nil => cases ending <;> simp [remaining, endWith, finish, breakOff, h, wait]
  | cons b bytes ih => rw [remaining, hpush, ih]; rfl

end Scanner

end JsonEdit
