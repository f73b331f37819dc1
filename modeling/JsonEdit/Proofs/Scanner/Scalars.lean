import JsonEdit.Proofs.Scanner.Run
import Mathlib.Tactic.SplitIfs

/-!
# Where numbers and words end

A number or a word ends with the bytes, or before a byte that separates it from what comes next.
The scanner then gives the scalar and goes on as if it stood behind it.

* `Separated`: bytes that end a number or a word;
* **`remaining_number`**, **`remaining_literal`**: what comes of them then;
* `separated_of_number`, `separated_of_literal`: without an error there is no other way on.
-/

namespace JsonEdit

/-- The bytes are none, or the first of them may follow a number or a word. -/
def Separated (bytes : List UInt8) : Prop :=
  ∀ b rest, bytes = b :: rest → isSeparator (byteChar b) = true

theorem separated_nil : Separated [] := fun _ _ h => by cases h

theorem separated_cons {b : UInt8} (h : isSeparator (byteChar b) = true) (rest : List UInt8) :
    Separated (b :: rest) := by
  intro _ _ he
  cases he
  exact h

/-- No event is an error. -/
def Faultless (events : List Event) : Prop := ∀ message, Event.error message ∉ events

/-! ## Separators are no part of numbers -/

theorem separator_cases {c : Char} (h : isSeparator c = true) :
    c = ' ' ∨ c = '\t' ∨ c = '\n' ∨ c = '\r' ∨ c = ',' ∨ c = ']' ∨ c = '}' ∨ c = '/' ∨ c = ':' := by
  simpa [isSeparator, isBlank, or_assoc] using h

theorem NumberState.step_of_separator {c : Char} (h : isSeparator c = true) (state : NumberState) :
    state.step c = none := by
  rcases separator_cases h with rfl | rfl | rfl | rfl | rfl | rfl | rfl | rfl | rfl <;>
    cases state <;> rfl

theorem extendsNumber_of_separator {c : Char} (h : isSeparator c = true) :
    extendsNumber c = false := by
  rcases separator_cases h with rfl | rfl | rfl | rfl | rfl | rfl | rfl | rfl | rfl <;> rfl

theorem NumberPrefix.push?_of_separator {c : Char} (h : isSeparator c = true)
    (read : NumberPrefix) : read.push? c = none := by
  unfold push?
  split
  · next hs =>
    rw [NumberState.step_of_separator h] at hs
    cases hs
  · rfl

namespace Scanner

variable {s : Scanner} {bytes : List UInt8}

/-! ## A scalar that is over -/

/-- The character after a scalar is read as if the scanner stood behind it. -/
theorem giveScalarBefore_eq (s : Scanner) (value : Json) (b : UInt8) :
    s.giveScalarBefore value (byteChar b) =
      (s.scanned (.scalar value) :: (s.settle.push b).1, (s.settle.push b).2) := rfl

theorem finishScalar_eq (s : Scanner) (value : Json) :
    s.finishScalar value =
      (s.scanned (.scalar value) :: s.settle.finish.1, s.settle.finish.2) := rfl

/-- **A number that is over.** -/
theorem remaining_number {read : NumberPrefix} {number : Number} (hm : s.mode = .number read)
    (hn : read.number? = some number) (h : Separated bytes) :
    let s' := s.skip number.chars.length
    s.remaining .complete bytes =
      s'.scanned (.scalar (.num number.normal)) :: s'.settle.remaining .complete bytes := by
  intro s'
  cases bytes with
  | nil =>
    have hf : s.finish = s'.finishScalar (.num number.normal) := by
      simp only [finish, hm, hn]
      rfl
    rw [remaining, endWith, hf, finishScalar_eq]
    rfl
  | cons b bytes =>
    have hsep := h b bytes rfl
    have hp : s.push b = s'.giveScalarBefore (.num number.normal) (byteChar b) := by
      simp only [push, hm, pushNumber, NumberPrefix.push?_of_separator hsep, hn,
        extendsNumber_of_separator hsep, hsep]
      rfl
    rw [remaining, hp, giveScalarBefore_eq]
    rfl

/-- **A word that is over.** -/
theorem remaining_literal {literal : Literal} (hm : s.mode = .literal literal [] false)
    (h : Separated bytes) :
    let s' := s.skip literal.word.length
    s.remaining .complete bytes =
      s'.scanned (.scalar literal.value) :: s'.settle.remaining .complete bytes := by
  intro s'
  cases bytes with
  | nil =>
    have hf : s.finish = s'.finishScalar literal.value := by
      simp only [finish, hm]
      rfl
    rw [remaining, endWith, hf, finishScalar_eq]
    rfl
  | cons b bytes =>
    have hsep := h b bytes rfl
    have hp : s.push b = s'.giveScalarBefore literal.value (byteChar b) := by
      simp only [push, hm, pushLiteral, hsep]
      rfl
    rw [remaining, hp, giveScalarBefore_eq]
    rfl

/-! ## No other way on -/

theorem not_faultless_fail (s : Scanner) (fault : ScanFault) (rest : List Scanned) :
    ¬ Faultless (told ((s.fail fault).1 ++ rest)) := by
  intro h
  exact h _ (List.mem_map_of_mem (List.mem_append_left _ List.mem_cons_self))

theorem separated_of_number {read : NumberPrefix} {number : Number} (hm : s.mode = .number read)
    (hn : read.number? = some number)
    (hstay : ∀ b rest, bytes = b :: rest → read.push? (byteChar b) = none)
    (hf : Faultless (told (s.remaining .complete bytes))) : Separated bytes := by
  rintro b rest rfl
  have hp := hstay b rest rfl
  simp only [remaining, push, hm, pushNumber, hp, hn] at hf
  split_ifs at hf with hx hsep
  · exact absurd hf (not_faultless_fail _ _ _)
  · exact absurd hf (not_faultless_fail _ _ _)
  · simpa using hsep

theorem separated_of_literal {literal : Literal} {late : Bool}
    (hm : s.mode = .literal literal [] late)
    (hf : Faultless (told (s.remaining .complete bytes))) : Separated bytes ∧ late = false := by
  cases bytes with
  | nil =>
    refine ⟨separated_nil, ?_⟩
    simp only [remaining, endWith, finish, hm] at hf
    cases late with
    | false => rfl
    | true => exact absurd hf (by simpa using not_faultless_fail s .missingComma [])
  | cons b bytes =>
    simp only [remaining, push, hm, pushLiteral] at hf
    split_ifs at hf with hsep hlate
    · exact absurd hf (not_faultless_fail _ _ _)
    · exact absurd hf (not_faultless_fail _ _ _)
    · exact ⟨separated_cons (by simpa using hsep) bytes, by simpa using hlate⟩

end Scanner

end JsonEdit
