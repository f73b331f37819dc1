import JsonEdit.Json.Spelling
import Mathlib.Tactic.SplitIfs

/-!
# Number texts

A number text is read character by character, and each state stands for what is still to come of
it. The texts that are read to the end are those that the grammar puts together from a sign, an
integer, a fraction and an exponent.

* `NumberState.Completes`: characters that complete a number text from a state on;
* `completes_of_integer`, …: the parts one after the other lead to the end;
* `minus_of_completes`, …: whatever leads to the end falls into such parts;
* **`isNumberText_iff`**: the texts of numbers.
-/

namespace JsonEdit

namespace NumberState

variable {c : Char} {text : List Char}

/-- The characters complete a number text that has been read so far. -/
def Completes (state : NumberState) (text : List Char) : Prop :=
  ∃ state', state.run text = some state' ∧ state'.complete = true

theorem completes_nil (state : NumberState) : state.Completes [] ↔ state.complete = true :=
  ⟨fun ⟨_, h, hc⟩ => by cases h; exact hc, fun h => ⟨state, rfl, h⟩⟩

theorem completes_cons (state : NumberState) (c : Char) (text : List Char) :
    state.Completes (c :: text) ↔ ∃ state', state.step c = some state' ∧ state'.Completes text := by
  unfold Completes run
  rw [List.foldlM_cons]
  cases state.step c with
  | none => simp
  | some state' => simp

theorem isNumberText_iff_completes (text : List Char) :
    isNumberText text = true ↔ start.Completes text := by
  unfold isNumberText Completes
  cases start.run text with
  | none => simp
  | some state => simp

theorem completes_exponent (text : List Char) :
    exponent.Completes text ↔ ∀ c ∈ text, c.isDigit = true := by
  induction text with
  | nil => simp [completes_nil, complete]
  | cons c text ih =>
    rw [completes_cons, List.forall_mem_cons]
    by_cases hc : c.isDigit = true
    · simp [step, hc, ih]
    · simp [step, hc]

theorem completes_exponentSign (text : List Char) :
    exponentSign.Completes text ↔ AreDigits text := by
  cases text with
  | nil => simp [completes_nil, complete, AreDigits]
  | cons c text =>
    rw [completes_cons, AreDigits, List.forall_mem_cons]
    by_cases hc : c.isDigit = true
    · simp [step, hc, completes_exponent]
    · simp [step, hc]


theorem step_mark {state : NumberState} (hs : state = zero ∨ state = integer ∨ state = fraction)
    (hc : c = 'e' ∨ c = 'E') : state.step c = some exponentMark := by
  rcases hs with rfl | rfl | rfl <;> rcases hc with rfl | rfl <;> rfl

/-! ### From the parts -/

theorem completes_of_exponent {state : NumberState}
    (hs : state = zero ∨ state = integer ∨ state = fraction) (h : SpellsExponent text) :
    state.Completes text := by
  cases h with
  | none => exact (completes_nil _).mpr (by rcases hs with rfl | rfl | rfl <;> rfl)
  | @some mark sign digits hm hsign hd =>
    rw [completes_cons]
    refine ⟨exponentMark, step_mark hs hm, ?_⟩
    rcases hsign with rfl | hsign
    · -- without a sign the first digit comes next
      obtain ⟨c, digits, rfl⟩ := List.exists_cons_of_ne_nil hd.1
      have hc := hd.2 c List.mem_cons_self
      have hsign : (c = '+' || c = '-') = false := by
        simp only [Bool.or_eq_false_iff, decide_eq_false_iff_not]
        constructor <;> rintro rfl <;> cases hc
      rw [List.nil_append, completes_cons]
      refine ⟨exponent, by simp [step, hsign, hc], ?_⟩
      exact (completes_exponent digits).mpr fun c hm => hd.2 c (List.mem_cons_of_mem _ hm)
    · have hsigned : ∀ {c : Char}, exponentMark.step c = some exponentSign →
          exponentMark.Completes ([c] ++ digits) := fun hc =>
        (completes_cons _ _ _).mpr ⟨exponentSign, hc, (completes_exponentSign digits).mpr hd⟩
      rcases hsign with rfl | rfl
      · exact hsigned rfl
      · exact hsigned rfl

theorem completes_digits {state : NumberState}
    (hs : ∀ c, c.isDigit = true → state.step c = some state) {digits : List Char}
    (hd : ∀ c ∈ digits, c.isDigit = true) (h : state.Completes text) :
    state.Completes (digits ++ text) := by
  induction digits with
  | nil => exact h
  | cons c digits ih =>
    rw [List.forall_mem_cons] at hd
    exact (completes_cons _ _ _).mpr ⟨state, hs c hd.1, ih hd.2⟩

theorem completes_first {state state' : NumberState}
    (hs : ∀ c, c.isDigit = true → state.step c = some state')
    (hs' : ∀ c, c.isDigit = true → state'.step c = some state') {digits : List Char}
    (hd : AreDigits digits) (h : state'.Completes text) : state.Completes (digits ++ text) := by
  obtain ⟨c, digits, rfl⟩ := List.exists_cons_of_ne_nil hd.1
  have hc := List.forall_mem_cons.mp hd.2
  exact (completes_cons _ _ _).mpr ⟨state', hs c hc.1, completes_digits hs' hc.2 h⟩

theorem completes_of_fraction {state : NumberState} (hs : state = zero ∨ state = integer)
    {fraction exponent : List Char} (hf : SpellsFraction fraction)
    (he : SpellsExponent exponent) : state.Completes (fraction ++ exponent) := by
  cases hf with
  | none => exact completes_of_exponent (hs.imp_right .inl) he
  | some hd =>
    have hpoint : state.step '.' = some point := by rcases hs with rfl | rfl <;> rfl
    have hrest : point.Completes (_ ++ exponent) :=
      completes_first (fun c hc => by simp [step, hc]) (fun c hc => by simp [step, hc]) hd
        (completes_of_exponent (.inr (.inr rfl)) he)
    exact (completes_cons _ _ _).mpr ⟨point, hpoint, hrest⟩


theorem isNonzeroDigit_iff (c : Char) :
    isNonzeroDigit c = true ↔ c.isDigit = true ∧ c ≠ '0' := by
  rw [Char.isDigit_iff_toNat, Ne, ← Char.toNat_inj]
  have hle : isNonzeroDigit c = true ↔ '1'.toNat ≤ c.toNat ∧ c.toNat ≤ '9'.toNat := by
    simp only [isNonzeroDigit, Bool.and_eq_true, decide_eq_true_eq]
    rfl
  rw [hle]
  change 49 ≤ c.toNat ∧ c.toNat ≤ 57 ↔ (48 ≤ c.toNat ∧ c.toNat ≤ 57) ∧ ¬ c.toNat = 48
  omega

theorem completes_of_integer {state : NumberState} (hs : state = start ∨ state = minus)
    {number fraction exponent : List Char} (hi : SpellsInteger number)
    (hf : SpellsFraction fraction) (he : SpellsExponent exponent) :
    state.Completes (number ++ (fraction ++ exponent)) := by
  cases hi with
  | zero =>
    have hzero : state.step '0' = some zero := by rcases hs with rfl | rfl <;> rfl
    have hrest := completes_of_fraction (.inl rfl : zero = zero ∨ zero = integer) hf he
    exact (completes_cons _ _ _).mpr ⟨zero, hzero, hrest⟩
  | @other c digits h0 hd =>
    have hc := List.forall_mem_cons.mp hd.2
    have hnz := (isNonzeroDigit_iff c).mpr ⟨hc.1, h0⟩
    have hne : c ≠ '-' := by
      rintro rfl
      cases hc.1
    have hfirst : state.step c = some integer := by
      rcases hs with rfl | rfl <;> simp [step, h0, hne, hnz]
    exact (completes_cons _ _ _).mpr ⟨integer, hfirst,
      completes_digits (fun c hc => by simp [step, hc]) hc.2
        (completes_of_fraction (.inr rfl) hf he)⟩

/-! ### Into parts -/

theorem sign_of_completes (h : exponentMark.Completes text) :
    ∃ sign digits, (sign = [] ∨ sign = ['+'] ∨ sign = ['-']) ∧ AreDigits digits ∧
      text = sign ++ digits := by
  cases text with
  | nil => cases (completes_nil _).mp h
  | cons c text =>
    obtain ⟨state, hs, ht⟩ := (completes_cons _ _ _).mp h
    simp only [step] at hs
    split_ifs at hs with hsign hd <;> cases hs
    · refine ⟨[c], text, .inr ?_, (completes_exponentSign text).mp ht, rfl⟩
      simpa using hsign
    · refine ⟨[], c :: text, .inl rfl, ⟨List.cons_ne_nil _ _, ?_⟩, rfl⟩
      exact List.forall_mem_cons.mpr ⟨hd, (completes_exponent text).mp ht⟩

theorem exponent_of_mark (hc : isExponentMark c = true) (h : exponentMark.Completes text) :
    SpellsExponent (c :: text) := by
  obtain ⟨sign, digits, hs, hd, rfl⟩ := sign_of_completes h
  exact .some (by simpa [isExponentMark] using hc) hs hd

theorem fraction_of_completes (text : List Char) : fraction.Completes text →
    ∃ digits exponent, (∀ c ∈ digits, c.isDigit = true) ∧ SpellsExponent exponent ∧
      text = digits ++ exponent := by
  induction text with
  | nil => exact fun _ => ⟨[], [], by simp, .none, rfl⟩
  | cons c text ih =>
    intro h
    obtain ⟨state, hs, ht⟩ := (completes_cons _ _ _).mp h
    simp only [step] at hs
    split_ifs at hs with hd hm <;> cases hs
    · obtain ⟨digits, exponent, hds, he, rfl⟩ := ih ht
      exact ⟨c :: digits, exponent, List.forall_mem_cons.mpr ⟨hd, hds⟩, he, rfl⟩
    · exact ⟨[], c :: text, by simp, exponent_of_mark hm ht, rfl⟩

theorem point_of_completes (h : point.Completes text) : ∃ digits exponent, AreDigits digits ∧
    SpellsExponent exponent ∧ text = digits ++ exponent := by
  cases text with
  | nil => cases (completes_nil _).mp h
  | cons c text =>
    obtain ⟨state, hs, ht⟩ := (completes_cons _ _ _).mp h
    simp only [step] at hs
    split_ifs at hs with hd
    cases hs
    obtain ⟨digits, exponent, hds, he, rfl⟩ := fraction_of_completes text ht
    exact ⟨c :: digits, exponent, ⟨List.cons_ne_nil _ _, List.forall_mem_cons.mpr ⟨hd, hds⟩⟩, he,
      rfl⟩

theorem zero_of_completes (h : zero.Completes text) : ∃ fraction exponent,
    SpellsFraction fraction ∧ SpellsExponent exponent ∧ text = fraction ++ exponent := by
  cases text with
  | nil => exact ⟨[], [], .none, .none, rfl⟩
  | cons c text =>
    obtain ⟨state, hs, ht⟩ := (completes_cons _ _ _).mp h
    simp only [step] at hs
    split_ifs at hs with hp hm <;> cases hs
    · obtain ⟨digits, exponent, hd, he, rfl⟩ := point_of_completes ht
      exact ⟨'.' :: digits, exponent, .some hd, he, by rw [hp]; rfl⟩
    · exact ⟨[], c :: text, .none, exponent_of_mark hm ht, rfl⟩

theorem integer_of_completes (text : List Char) : integer.Completes text →
    ∃ digits fraction exponent, (∀ c ∈ digits, c.isDigit = true) ∧ SpellsFraction fraction ∧
      SpellsExponent exponent ∧ text = digits ++ (fraction ++ exponent) := by
  induction text with
  | nil => exact fun _ => ⟨[], [], [], by simp, .none, .none, rfl⟩
  | cons c text ih =>
    intro h
    obtain ⟨state, hs, ht⟩ := (completes_cons _ _ _).mp h
    by_cases hd : c.isDigit = true
    · simp only [step, hd] at hs
      cases hs
      obtain ⟨digits, fraction, exponent, hds, hf, he, rfl⟩ := ih ht
      exact ⟨c :: digits, fraction, exponent, List.forall_mem_cons.mpr ⟨hd, hds⟩, hf, he, rfl⟩
    · -- anything else may stand behind a zero as well
      have hz : zero.step c = some state := by simpa [step, hd] using hs
      obtain ⟨fraction, exponent, hf, he, hsplit⟩ :=
        zero_of_completes ((completes_cons _ _ _).mpr ⟨state, hz, ht⟩)
      exact ⟨[], fraction, exponent, by simp, hf, he, hsplit⟩

theorem minus_of_completes (h : minus.Completes text) : ∃ number fraction exponent,
    SpellsInteger number ∧ SpellsFraction fraction ∧ SpellsExponent exponent ∧
      text = number ++ (fraction ++ exponent) := by
  cases text with
  | nil => cases (completes_nil _).mp h
  | cons c text =>
    obtain ⟨state, hs, ht⟩ := (completes_cons _ _ _).mp h
    simp only [step] at hs
    split_ifs at hs with h0 hd <;> cases hs
    · obtain ⟨fraction, exponent, hf, he, rfl⟩ := zero_of_completes ht
      exact ⟨['0'], fraction, exponent, .zero, hf, he, by rw [h0]; rfl⟩
    · obtain ⟨digits, fraction, exponent, hds, hf, he, rfl⟩ := integer_of_completes text ht
      have hc := (isNonzeroDigit_iff c).mp hd
      exact ⟨c :: digits, fraction, exponent, .other hc.2 ⟨List.cons_ne_nil _ _,
        List.forall_mem_cons.mpr ⟨hc.1, hds⟩⟩, hf, he, rfl⟩

end NumberState

/-- **The texts that are read as numbers are those of the grammar.** -/
theorem isNumberText_iff (text : List Char) : isNumberText text = true ↔ SpellsNumber text := by
  rw [NumberState.isNumberText_iff_completes]
  constructor
  · intro h
    cases text with
    | nil => cases (NumberState.completes_nil _).mp h
    | cons c text =>
      obtain ⟨state, hs, ht⟩ := (NumberState.completes_cons _ _ _).mp h
      by_cases hc : c = '-'
      · subst hc
        cases hs
        obtain ⟨number, fraction, exponent, hi, hf, he, rfl⟩ := NumberState.minus_of_completes ht
        exact .parts (.inr rfl) hi hf he
      · -- without a sign the first character may as well stand behind a minus
        have hm : NumberState.minus.step c = some state := by
          simpa [NumberState.step, hc] using hs
        obtain ⟨number, fraction, exponent, hi, hf, he, hsplit⟩ :=
          NumberState.minus_of_completes ((NumberState.completes_cons _ _ _).mpr ⟨state, hm, ht⟩)
        rw [hsplit]
        exact .parts (.inl rfl) hi hf he
  · rintro ⟨rfl | rfl, hi, hf, he⟩
    · have h := NumberState.completes_of_integer (.inl rfl) hi hf he
      exact h
    · have h := NumberState.completes_of_integer (.inr rfl) hi hf he
      exact (NumberState.completes_cons _ _ _).mpr ⟨.minus, rfl, h⟩

end JsonEdit
