import JsonEdit.Json.Events
import JsonEdit.Json.Spelling
import JsonEdit.Proofs.Scanner.Run
import Mathlib.Tactic.SplitIfs

/-!
# What a byte can come to

What the events given so far leave open is less than what the scanner is in the middle of: a value
is due, or children may follow, or an object has begun of which nothing has been told yet. A byte
moves on from one such outlook to another, or ends the events with an error.

* `Outlook`, `Move`, `Moves`: what is left open, and the events on the way from one to another;
* `Mode.untold`: how many events may come late;
* `Stands`: the outlook of a scanner; `Outcome`: what some bytes come to;
* **`push_outcome`**, `endWith_outcome`: one byte, and the end;
* **`remaining_outcome`**: all bytes to the end.
-/

namespace JsonEdit

/-! ## Outlooks -/

/-- What the events given so far leave open. -/
inductive Outlook
  /-- A value is due in these containers. -/
  | value (opened : List ContainerKind)
  /-- Children may follow in the innermost of these containers; without any the document is over. -/
  | inside (opened : List ContainerKind)
  /-- An object in these containers has begun, and its start has not been given. -/
  | start (around : List ContainerKind)

/-- The event that a container ends with. -/
def ContainerKind.endEvent : ContainerKind → Event
  | .object => .endObject
  | .array => .endArray

/-- A value without children, as it is read: not `-0`. -/
def Json.IsScalar (value : Json) : Prop :=
  value.events = [.scalar value] ∧ value.plainZeros = value

/-- **From one outlook to the next**, with the events on the way and the depths after them. -/
inductive Move : Outlook → List Scanned → Outlook → Prop
  | scalar {opened : List ContainerKind} {value : Json} : value.IsScalar →
    Move (.value opened) [⟨.scalar value, opened.length⟩] (.inside opened)
  | array (opened : List ContainerKind) :
    Move (.value opened) [⟨.startArray, opened.length + 1⟩] (.inside (.array :: opened))
  | object (opened : List ContainerKind) : Move (.value opened) [] (.start opened)
  | emptyObject (around : List ContainerKind) :
    Move (.start around)
      [⟨.startObject none, around.length + 1⟩, ⟨.endObject, around.length⟩] (.inside around)
  | firstName (around : List ContainerKind) (name : String) :
    Move (.start around) [⟨.startObject (some name), around.length + 1⟩]
      (.value (.object :: around))
  | item (opened : List ContainerKind) :
    Move (.inside (.array :: opened)) [] (.value (.array :: opened))
  | name (around : List ContainerKind) (name : String) :
    Move (.inside (.object :: around)) [⟨.key name, around.length + 1⟩]
      (.value (.object :: around))
  | close (kind : ContainerKind) (around : List ContainerKind) :
    Move (.inside (kind :: around)) [⟨kind.endEvent, around.length⟩] (.inside around)

/-- Some moves in a row. -/
inductive Moves : Outlook → List Scanned → Outlook → Prop
  | nil (x : Outlook) : Moves x [] x
  | cons {x y z : Outlook} {events more : List Scanned} :
    Move x events y → Moves y more z → Moves x (events ++ more) z

namespace Moves

variable {x y z : Outlook} {events more : List Scanned}

theorem single (h : Move x events y) : Moves x events y := by
  have := Moves.cons h (.nil y)
  rwa [List.append_nil] at this

theorem append (h : Moves x events y) (hr : Moves y more z) : Moves x (events ++ more) z := by
  induction h with
  | nil => exact hr
  | cons hm _ ih =>
    rw [List.append_assoc]
    exact .cons hm (ih hr)

end Moves

/-! ## The outlook of a scanner -/

/-- How many events the bytes so far have settled in part: in a number or a word, and in an object
before its first name. -/
def Mode.untold : Mode → Nat
  | .between (.name .first) | .literal _ _ _ | .number _ => 1
  | _ => 0

/-- The outlook of a scanner with these containers open, in this mode. -/
inductive Stands : List ContainerKind → Mode → Outlook → Prop
  | document : Stands [] (.between .document) (.value [])
  | item (opened : List ContainerKind) (place : Place) :
    Stands (.array :: opened) (.between (.item place)) (.inside (.array :: opened))
  | firstName (around : List ContainerKind) :
    Stands (.object :: around) (.between (.name .first)) (.start around)
  | name (around : List ContainerKind) {place : Place} : place ≠ .first →
    Stands (.object :: around) (.between (.name place)) (.inside (.object :: around))
  | colon (around : List ContainerKind) :
    Stands (.object :: around) (.between .colon) (.value (.object :: around))
  | memberValue (around : List ContainerKind) :
    Stands (.object :: around) (.between .memberValue) (.value (.object :: around))
  | nothing : Stands [] (.between .nothing) (.inside [])
  | literal (opened : List ContainerKind) (literal : Literal) (rest : List Char) (late : Bool) :
    Stands opened (.literal literal rest late) (.value opened)
  | number (opened : List ContainerKind) (read : NumberPrefix) :
    Stands opened (.number read) (.value opened)
  | string (opened : List ContainerKind) (reversed : List Char) (state : CharState) :
    Stands opened (.string .value reversed state) (.value opened)
  | inFirstName (around : List ContainerKind) (reversed : List Char) (state : CharState) :
    Stands (.object :: around) (.string (.name true) reversed state) (.start around)
  | inName (around : List ContainerKind) (reversed : List Char) (state : CharState) :
    Stands (.object :: around) (.string (.name false) reversed state)
      (.inside (.object :: around))

/-- **What bytes come to**: moves to an outlook on which the scanner goes on, or moves and then an
error. No more than so many events are given or left untold. -/
inductive Scanner.Outcome (x : Outlook) (budget : Nat) : List Scanned × Scanner → Prop
  | goesOn {given : List Scanned} {s : Scanner} {y : Outlook} : Moves x given y →
    Stands s.opened s.mode y → given.length + s.mode.untold ≤ budget → Outcome x budget (given, s)
  | fails {given : List Scanned} {s : Scanner} {y : Outlook} (message : String) (depth : Nat) :
    Moves x given y → s.mode = .stopped → given.length + 1 ≤ budget →
    Outcome x budget (given ++ [⟨.error message, depth⟩], s)

namespace Scanner.Outcome

variable {x y : Outlook} {n m : Nat} {events : List Scanned} {s : Scanner}

theorem wait (h : Stands s.opened s.mode x) (hn : s.mode.untold ≤ n) : Outcome x n s.wait :=
  .goesOn (.nil x) h (by simpa using hn)

theorem single (h : Move x events y) (hs : Stands s.opened s.mode y)
    (hn : events.length + s.mode.untold ≤ n) : Outcome x n (events, s) :=
  .goesOn (.single h) hs hn

theorem stop (s : Scanner) (e : ScanError) (hn : 1 ≤ n) : Outcome x n (s.stop e) :=
  .fails e.message s.depth (.nil x) rfl hn

theorem failAt (s : Scanner) (fault : ScanFault) (place : Position) (hn : 1 ≤ n) :
    Outcome x n (s.failAt fault place) := stop s _ hn

theorem fail (s : Scanner) (fault : ScanFault) (hn : 1 ≤ n) : Outcome x n (s.fail fault) :=
  stop s _ hn

theorem after (hm : Move x events y) {r : List Scanned × Scanner} (h : Outcome y m r)
    (hn : events.length + m ≤ n) : Outcome x n (events ++ r.1, r.2) := by
  cases h with
  | goesOn hmoves hs hlen =>
    exact .goesOn (.cons hm hmoves) hs (by simp only [List.length_append]; omega)
  | fails message depth hmoves hs hlen =>
    rw [← List.append_assoc]
    exact .fails message depth (.cons hm hmoves) hs (by simp only [List.length_append]; omega)

theorem mono {r : List Scanned × Scanner} (h : Outcome x m r) (hn : m ≤ n) : Outcome x n r := by
  cases h with
  | goesOn hmoves hs hlen => exact .goesOn hmoves hs (by omega)
  | fails message depth hmoves hs hlen => exact .fails message depth hmoves hs (by omega)

end Scanner.Outcome

/-! ## Between tokens -/

namespace Literal

theorem isScalar_value (literal : Literal) : literal.value.IsScalar := by
  cases literal <;> exact ⟨rfl, rfl⟩

end Literal

theorem Number.normal_normal (n : Number) : n.normal.normal = n.normal := by
  unfold normal
  split_ifs <;> rfl

theorem Number.isScalar_normal (n : Number) : (Json.num n.normal).IsScalar :=
  ⟨rfl, by rw [Json.plainZeros, n.normal_normal]⟩

namespace Scanner

variable {s : Scanner} {c : Char}

theorem stands_settle (s : Scanner) : Stands s.opened s.settle.mode (.inside s.opened) := by
  obtain ⟨position, opened, mode, maxNesting⟩ := s
  match opened with
  | [] => exact .nothing
  | .object :: around => exact .name around (by decide)
  | .array :: around => exact .item around .next

theorem untold_settle (s : Scanner) : s.settle.mode.untold = 0 := by
  obtain ⟨position, opened, mode, maxNesting⟩ := s
  match opened with
  | [] | .object :: _ | .array :: _ => rfl

theorem openContainer_cases (s : Scanner) (kind : ContainerKind) (expect : Expect) :
    (∃ e, s.openContainer kind expect = .error (s.stop e)) ∨
      s.openContainer kind expect = .ok ⟨s.position.skip 1, kind :: s.opened, .between expect,
        s.maxNesting⟩ := by
  unfold openContainer
  split
  · split_ifs
    · exact .inl ⟨_, rfl⟩
    · exact .inr rfl
  · exact .inr rfl

theorem closeContainer_outcome (position : Position) (kind : ContainerKind)
    (around : List ContainerKind) (mode : Mode) (maxNesting : Option Nat) :
    Outcome (.inside (kind :: around)) 1
      ((⟨position, kind :: around, mode, maxNesting⟩ : Scanner).closeContainer kind.endEvent) :=
  .single (.close kind around) (stands_settle _) (by rw [untold_settle]; exact Nat.le_refl 1)

theorem beginValue_outcome (s : Scanner) (late : Bool) (c : Char) :
    Outcome (.value s.opened) 1 (s.beginValue late c) := by
  obtain ⟨position, opened, mode, maxNesting⟩ := s
  unfold beginValue
  split
  · exact .wait (.literal _ _ _ _) (Nat.le_refl 1)
  split
  · split
    · exact .fail _ _ (Nat.le_refl 1)
    split
    · exact .wait (.string _ _ _) (Nat.zero_le 1)
    split
    · rcases openContainer_cases ⟨position, opened, mode, maxNesting⟩ .array (.item .first) with
        ⟨e, he⟩ | he <;> rw [he]
      · exact .stop _ e (Nat.le_refl 1)
      · exact .single (.array opened) (.item opened .first) (Nat.le_refl 1)
    · rcases openContainer_cases ⟨position, opened, mode, maxNesting⟩ .object (.name .first) with
        ⟨e, he⟩ | he <;> rw [he]
      · exact .stop _ e (Nat.le_refl 1)
      · exact .single (.object opened) (.firstName opened) (Nat.le_refl 1)
  split
  · split
    · exact .fail _ _ (Nat.le_refl 1)
    · exact .wait (.number _ _) (Nat.le_refl 1)
  · split_ifs <;> exact .fail _ _ (Nat.le_refl 1)

theorem pushItem_outcome (position : Position) (around : List ContainerKind) (mode : Mode)
    (maxNesting : Option Nat) (place : Place) (c : Char) :
    Outcome (.inside (.array :: around)) 1
      ((⟨position, .array :: around, mode, maxNesting⟩ : Scanner).pushItem place c) := by
  unfold pushItem
  split
  · split
    · exact .failAt _ _ _ (Nat.le_refl 1)
    · exact closeContainer_outcome _ .array _ _ _
  split
  · exact .wait (.item around _) (Nat.zero_le 1)
  · have hv := beginValue_outcome ⟨position, .array :: around, mode, maxNesting⟩ (place = .next) c
    exact hv.after (.item around) (Nat.le_refl 1)

theorem pushFirstName_outcome (position : Position) (around : List ContainerKind) (mode : Mode)
    (maxNesting : Option Nat) (c : Char) :
    Outcome (.start around) 2
      ((⟨position, .object :: around, mode, maxNesting⟩ : Scanner).pushName .first c) := by
  unfold pushName
  split
  · exact .single (.emptyObject around) (stands_settle _)
      (by rw [untold_settle]; exact Nat.le_refl 2)
  split
  · exact .wait (.inFirstName around _ _) (Nat.zero_le 2)
  split
  · exact .fail _ _ (by decide)
  · exact .fail _ _ (by decide)

theorem pushName_outcome (position : Position) (around : List ContainerKind) (mode : Mode)
    (maxNesting : Option Nat) {place : Place} (hp : place ≠ .first) (c : Char) :
    Outcome (.inside (.object :: around)) 1
      ((⟨position, .object :: around, mode, maxNesting⟩ : Scanner).pushName place c) := by
  unfold pushName
  split
  · cases place with
    | first => exact absurd rfl hp
    | next => exact closeContainer_outcome _ .object _ _ _
    | afterComma comma => exact .failAt _ _ _ (Nat.le_refl 1)
  split
  · split
    · exact .fail _ _ (Nat.le_refl 1)
    · rw [decide_eq_false hp]
      exact .wait (.inName around _ _) (Nat.zero_le 1)
  split
  · cases place with
    | first => exact absurd rfl hp
    | next => exact .wait (.name around (by simp)) (Nat.zero_le 1)
    | afterComma comma => exact .fail _ _ (Nat.le_refl 1)
  · exact .fail _ _ (Nat.le_refl 1)

theorem pushBetween_outcome {s : Scanner} {expect : Expect} {x : Outlook}
    (h : Stands s.opened (.between expect) x) (c : Char) :
    Outcome x (Mode.untold (.between expect) + 1) (s.pushBetween expect c) := by
  obtain ⟨position, opened, mode, maxNesting⟩ := s
  have hone : 1 ≤ Mode.untold (.between expect) + 1 := by omega
  unfold pushBetween
  split
  · exact .wait h (by exact Nat.le_succ _)
  split
  · exact .fail _ _ hone
  cases h with
  | document => exact beginValue_outcome ⟨position, [], mode, maxNesting⟩ false c
  | item opened place => exact pushItem_outcome _ _ _ _ place c
  | firstName around => exact pushFirstName_outcome _ _ _ _ c
  | name around hp => exact (pushName_outcome _ _ _ _ hp c).mono hone
  | colon around =>
    simp only
    split
    · exact .wait (.memberValue around) (Nat.zero_le 1)
    · exact .fail _ _ (Nat.le_refl 1)
  | memberValue around =>
    exact beginValue_outcome ⟨position, .object :: around, mode, maxNesting⟩ false c
  | nothing => exact .fail _ _ (Nat.le_refl 1)

/-! ## Inside tokens -/

theorem giveScalarBefore_outcome (s : Scanner) {value : Json} (hv : value.IsScalar) (c : Char) :
    Outcome (.value s.opened) 2 (s.giveScalarBefore value c) := by
  have hb : Outcome _ _ (s.settle.pushBetween s.afterValue c) :=
    pushBetween_outcome (stands_settle s) c
  have hn : Mode.untold (.between s.afterValue) = 0 := untold_settle s
  rw [hn] at hb
  exact hb.after (.scalar hv) (Nat.le_refl 2)

theorem pushLiteral_outcome (s : Scanner) (literal : Literal) (rest : List Char) (late : Bool)
    (c : Char) : Outcome (.value s.opened) 2 (s.pushLiteral literal rest late c) := by
  unfold pushLiteral
  split
  · split
    · exact .wait (.literal _ _ _ _) (by exact Nat.le_succ 1)
    · exact .fail _ _ (by decide)
  · split
    · exact .fail _ _ (by decide)
    split
    · exact .fail _ _ (by decide)
    · exact giveScalarBefore_outcome (s.skip literal.word.length) literal.isScalar_value c

theorem pushNumber_outcome (s : Scanner) (read : NumberPrefix) (c : Char) :
    Outcome (.value s.opened) 2 (s.pushNumber read c) := by
  unfold pushNumber
  split
  · exact .wait (.number _ _) (by exact Nat.le_succ 1)
  split
  · exact .fail _ _ (by decide)
  · next number _ =>
    split
    · exact .fail _ _ (by decide)
    split
    · exact .fail (s.skip number.chars.length) _ (by decide)
    · exact giveScalarBefore_outcome (s.skip number.chars.length) number.isScalar_normal c

theorem endString_outcome {s : Scanner} {role : Role} {reversed : List Char} {state : CharState}
    {x : Outlook} (h : Stands s.opened (.string role reversed state) x) (text : String) :
    Outcome x 1 (s.endString role text) := by
  obtain ⟨position, opened, mode, maxNesting⟩ := s
  cases h with
  | string =>
    exact .single (.scalar ⟨rfl, rfl⟩) (stands_settle _)
      (by rw [untold_settle]; exact Nat.le_refl 1)
  | inFirstName around => exact .single (.firstName around text) (.colon around) (Nat.le_refl 1)
  | inName around => exact .single (.name around text) (.colon around) (Nat.le_refl 1)

theorem stands_inString {opened : List ContainerKind} {role : Role} {reversed : List Char}
    {state : CharState} {x : Outlook} (h : Stands opened (.string role reversed state) x)
    (reversed' : List Char) (state' : CharState) :
    Stands opened (.string role reversed' state') x := by
  cases h with
  | string => exact .string _ _ _
  | inFirstName around => exact .inFirstName around _ _
  | inName around => exact .inName around _ _

theorem endUnicode_outcome {s : Scanner} {role : Role} {reversed : List Char} {state : CharState}
    {x : Outlook} (h : Stands s.opened (.string role reversed state) x) (high : Option Nat)
    (value : Nat) : Outcome x 1 (s.endUnicode role reversed high value) := by
  unfold endUnicode
  split
  · split
    · exact .wait (stands_inString h _ _) (Nat.zero_le 1)
    · exact .fail _ _ (Nat.le_refl 1)
  split
  · exact .fail _ _ (Nat.le_refl 1)
  split
  · exact .wait (stands_inString h _ _) (Nat.zero_le 1)
  · exact .wait (stands_inString h _ _) (Nat.zero_le 1)

theorem pushString_outcome {s : Scanner} {role : Role} {reversed : List Char} {state : CharState}
    {x : Outlook} (h : Stands s.opened (.string role reversed state) x) (b : UInt8) :
    Outcome x 1 (s.pushString role reversed state b) := by
  have hwait : ∀ (position : Position) (reversed' : List Char) (state' : CharState),
      Outcome x 1 (wait ⟨position, s.opened, .string role reversed' state', s.maxNesting⟩) :=
    fun _ _ _ => .wait (stands_inString h _ _) (Nat.zero_le 1)
  cases state with
  | plain =>
    simp only [pushString]
    split_ifs
    · exact endString_outcome h _
    · exact hwait _ _ _
    · exact .fail _ _ (Nat.le_refl 1)
    · exact hwait _ _ _
    · exact hwait _ _ _
  | utf8 bytes =>
    simp only [pushString]
    split
    · exact hwait _ _ _
    · exact hwait _ _ _
    · exact .stop _ _ (Nat.le_refl 1)
  | escape =>
    simp only [pushString]
    split
    · exact hwait _ _ _
    split
    · exact hwait _ _ _
    · exact .fail _ _ (Nat.le_refl 1)
  | unicode high count value =>
    simp only [pushString]
    split
    · exact .fail _ _ (Nat.le_refl 1)
    split
    · exact hwait _ _ _
    · exact endUnicode_outcome h _ _
  | surrogate high | surrogateEscape high =>
    simp only [pushString]
    split
    · exact hwait _ _ _
    · exact .fail _ _ (Nat.le_refl 1)

/-! ## All bytes -/

theorem not_stands_stopped {opened : List ContainerKind} {x : Outlook} :
    ¬ Stands opened .stopped x := fun h => by cases h

/-- **One byte.** -/
theorem push_outcome {s : Scanner} {x : Outlook} (h : Stands s.opened s.mode x) (b : UInt8) :
    Outcome x (s.mode.untold + 1) (s.push b) := by
  obtain ⟨position, opened, mode, maxNesting⟩ := s
  cases hm : mode with
  | between expect => exact pushBetween_outcome (hm ▸ h) (byteChar b)
  | literal literal rest late =>
    subst hm
    cases h
    exact pushLiteral_outcome _ literal rest late (byteChar b)
  | number read =>
    subst hm
    cases h
    exact pushNumber_outcome _ read (byteChar b)
  | string role reversed state =>
    subst hm
    exact pushString_outcome h b
  | stopped =>
    subst hm
    cases h

/-- **All events end with one that is the last**: the end, when the document is over, or else an
error. No more events are given than so many. -/
inductive Ends (x : Outlook) (budget : Nat) : List Scanned → Prop
  | finish {given : List Scanned} : Moves x given (.inside []) → given.length + 1 ≤ budget →
    Ends x budget (given ++ [⟨.finish, 0⟩])
  | error {given : List Scanned} {y : Outlook} (message : String) (depth : Nat) : Moves x given y →
    given.length + 1 ≤ budget → Ends x budget (given ++ [⟨.error message, depth⟩])

namespace Ends

variable {x y : Outlook} {n m : Nat} {events : List Scanned}

theorem after {given : List Scanned} (hm : Moves x given y) (h : Ends y m events)
    (hn : given.length + m ≤ n) : Ends x n (given ++ events) := by
  cases h with
  | finish hmoves hlen =>
    rw [← List.append_assoc]
    exact .finish (hm.append hmoves) (by simp only [List.length_append]; omega)
  | error message depth hmoves hlen =>
    rw [← List.append_assoc]
    exact .error message depth (hm.append hmoves) (by simp only [List.length_append]; omega)

theorem mono (h : Ends x m events) (hn : m ≤ n) : Ends x n events := h.after (.nil x) (by simpa)

theorem fail (s : Scanner) (fault : ScanFault) (hn : 1 ≤ n) : Ends x n (s.fail fault).1 :=
  .error _ s.depth (.nil x) hn

end Ends

theorem finishBetween_ends {s : Scanner} {expect : Expect} {x : Outlook}
    (h : Stands s.opened (.between expect) x) : Ends x 1 (s.finishBetween expect).1 := by
  obtain ⟨position, opened, mode, maxNesting⟩ := s
  cases h with
  | nothing => exact .finish (.nil _) (Nat.le_refl 1)
  | document | item | firstName | name | colon | memberValue => exact .fail _ _ (Nat.le_refl 1)

theorem finishScalar_ends (s : Scanner) {value : Json} (hv : value.IsScalar) :
    Ends (.value s.opened) 2 (s.finishScalar value).1 :=
  .after (.single (.scalar hv))
    (show Ends _ 1 (s.settle.finishBetween s.afterValue).1 from
      finishBetween_ends (stands_settle s)) (Nat.le_refl 2)

theorem finish_ends {s : Scanner} {x : Outlook} (h : Stands s.opened s.mode x) :
    Ends x (s.mode.untold + 1) s.finish.1 := by
  obtain ⟨position, opened, mode, maxNesting⟩ := s
  have hone : 1 ≤ mode.untold + 1 := by omega
  cases mode with
  | between expect => exact (finishBetween_ends h).mono hone
  | literal literal rest late =>
    cases h
    simp only [finish]
    split_ifs
    · exact .fail _ _ hone
    · exact .fail _ _ hone
    · exact finishScalar_ends
        (skip ⟨position, opened, .literal literal rest late, maxNesting⟩ _) literal.isScalar_value
  | number read =>
    cases h
    simp only [finish]
    split
    · exact .fail _ _ hone
    · next number _ =>
      exact finishScalar_ends (skip ⟨position, opened, .number read, maxNesting⟩ _)
        number.isScalar_normal
  | string role reversed state =>
    simp only [finish]
    cases state <;> exact .fail _ _ hone
  | stopped => cases h

theorem breakOff_eq {s : Scanner} {x : Outlook} (h : Stands s.opened s.mode x) (reason : String) :
    s.breakOff reason = s.stop (.input reason s.position) := by
  unfold breakOff
  split
  · next hm => exact absurd (hm ▸ h) not_stands_stopped
  · rfl

theorem endWith_ends {s : Scanner} {x : Outlook} (h : Stands s.opened s.mode x)
    (ending : Ending) : Ends x (s.mode.untold + 1) (s.endWith ending).1 := by
  cases ending with
  | complete => exact finish_ends h
  | broken reason =>
    rw [endWith, breakOff_eq h]
    exact .error _ _ (.nil x) (Nat.succ_le_succ (Nat.zero_le _))

theorem remaining_ends (ending : Ending) (bytes : List UInt8) : ∀ {s : Scanner} {x : Outlook},
    Stands s.opened s.mode x →
    Ends x (s.mode.untold + bytes.length + 1) (s.remaining ending bytes) := by
  induction bytes with
  | nil => exact fun h => endWith_ends h ending
  | cons b bytes ih =>
    intro s x h
    rw [remaining]
    rcases hp : s.push b with ⟨events, s'⟩
    have ho := push_outcome h b
    rw [hp] at ho
    cases ho with
    | goesOn hmoves hs hlen =>
      refine (ih hs).after hmoves ?_
      simp only [List.length_cons]
      omega
    | fails message depth hmoves hs hlen =>
      rw [remaining_of_stopped hs, List.append_nil]
      refine .error message depth hmoves ?_
      omega

theorem mode_finishBetween (s : Scanner) (expect : Expect) :
    (s.finishBetween expect).2.mode = .stopped := by
  cases expect <;> rfl

theorem mode_endWith (s : Scanner) (ending : Ending) : (s.endWith ending).2.mode = .stopped := by
  cases ending with
  | complete =>
    simp only [endWith, finish]
    split
    · exact mode_finishBetween _ _
    · split_ifs
      · rfl
      · rfl
      · exact mode_finishBetween _ _
    · split
      · rfl
      · exact mode_finishBetween _ _
    · split <;> rfl
    · next hm => exact hm
  | broken reason =>
    simp only [endWith, breakOff]
    split
    · next hm => exact hm
    · rfl

end Scanner

end JsonEdit
