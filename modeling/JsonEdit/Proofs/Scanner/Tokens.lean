import JsonEdit.Proofs.Json.Number
import JsonEdit.Proofs.Scanner.Scalars
import JsonEdit.Proofs.Text.Utf8

/-!
# Reading tokens

What a scanner tells of a text depends on the open containers and on what it is in the middle of,
not on the place. Text is read from its start, and what is told of the rest is told afterwards.

* `Tells`: what is told of a text; `Tells.step`, `Tells.wait`: one ASCII character;
* `tells_blanks`: blanks between tokens;
* `UnitLeadsTo`, `tells_digits`: the code unit of an escape;
* **`tells_char`**, `tells_string`: a character and a string, however they are spelled;
* **`tells_number`**, **`tells_word`**: the rest of a number or a word.
-/

namespace JsonEdit

variable {limit : Option Nat} {opened opened' : List ContainerKind} {mode mode' : Mode} {c : Char}
  {text rest : List Char} {events : List Event} {expect : Expect}

/-- With these containers open and in this mode, a scanner tells these events of a text and its
end, wherever it stands. No more containers than `limit` may be open. -/
def Tells (limit : Option Nat) (opened : List ContainerKind) (mode : Mode) (text : List Char)
    (events : List Event) : Prop :=
  ∀ position, told
    ((⟨position, opened, mode, limit⟩ : Scanner).remaining .complete (utf8Chars text)) = events

theorem toNat_byteChar (b : UInt8) : (byteChar b).toNat = b.toNat := by
  have hv : b.toNat.isValidChar := .inl (Nat.lt_trans b.toNat_lt (by decide))
  rw [byteChar, Char.ofNat, dif_pos hv]
  rfl

theorem byteChar_ascii (h : c.toNat < 0x80) : byteChar (UInt8.ofNat c.toNat) = c := by
  have hn : (UInt8.ofNat c.toNat).toNat = c.toNat := by
    simp
    omega
  rw [byteChar, hn, Char.ofNat_toNat]

theorem Tells.step (given : List Event) (hc : c.toNat < 0x80)
    (h : ∀ position,
      let r := (⟨position, opened, mode, limit⟩ : Scanner).push (UInt8.ofNat c.toNat)
      told r.1 = given ∧ r.2.maxNesting = limit ∧ Tells limit r.2.opened r.2.mode text events) :
    Tells limit opened mode (c :: text) (given ++ events) := by
  intro position
  obtain ⟨hg, hn, ht⟩ := h position
  rcases hp : (⟨position, opened, mode, limit⟩ : Scanner).push (UInt8.ofNat c.toNat) with
    ⟨given', position', opened', mode', maxNesting⟩
  rw [hp] at hg hn ht
  cases hn
  rw [utf8Chars_ascii hc, Scanner.remaining, hp, told, List.map_append, ← hg, ← ht position']

theorem Tells.wait (hc : c.toNat < 0x80)
    (h : ∀ position, ∃ position',
      (⟨position, opened, mode, limit⟩ : Scanner).push (UInt8.ofNat c.toNat) =
        ([], ⟨position', opened', mode', limit⟩))
    (ht : Tells limit opened' mode' text events) : Tells limit opened mode (c :: text) events := by
  refine .step [] hc fun position => ?_
  obtain ⟨position', hp⟩ := h position
  rw [hp]
  exact ⟨rfl, rfl, ht⟩

/-! ## Blanks -/

theorem blank_cases (h : c ∈ [' ', '\t', '\n', '\r']) : c.toNat < 0x80 ∧ isBlank c = true := by
  have : c = ' ' ∨ c = '\t' ∨ c = '\n' ∨ c = '\r' := by simpa using h
  rcases this with rfl | rfl | rfl | rfl <;> decide

theorem tells_blanks {blanks : List Char} (h : AreBlanks blanks)
    (ht : Tells limit opened (.between expect) rest events) :
    Tells limit opened (.between expect) (blanks ++ rest) events := by
  induction blanks with
  | nil => exact ht
  | cons c blanks ih =>
    obtain ⟨hc, hb⟩ := blank_cases (h c List.mem_cons_self)
    refine .wait hc (fun position => ⟨position.blank c, ?_⟩)
      (ih fun c hm => h c (List.mem_cons_of_mem _ hm))
    simp only [Scanner.push, byteChar_ascii hc, Scanner.pushBetween, hb]
    rfl

/-! ## Characters of a string -/

section Strings

variable {role : Role} {reversed : List Char}

theorem byteChar_ne {b : UInt8} (hb : 0x80 ≤ b) (hc : c.toNat < 0x80) : byteChar b ≠ c := by
  intro he
  rw [← he, toNat_byteChar] at hc
  exact absurd (UInt8.lt_iff_toNat_lt.mpr hc) (UInt8.not_lt.mpr hb)

theorem push_first {b : UInt8} (hb : 0x80 ≤ b) (position : Position) :
    (⟨position, opened, .string role reversed .plain, limit⟩ : Scanner).push b =
      ([], ⟨position, opened, .string role reversed (.utf8 [b]), limit⟩) := by
  have hlow : ¬ b < 0x20 := by
    rw [UInt8.le_iff_toNat_le] at hb
    rw [UInt8.lt_iff_toNat_lt]
    have h128 : (0x80 : UInt8).toNat = 0x80 := rfl
    have h32 : (0x20 : UInt8).toNat = 0x20 := rfl
    omega
  have hhigh : ¬ b < 0x80 := UInt8.not_lt.mpr hb
  rw [Scanner.push]
  simp only [Scanner.pushString, if_neg (byteChar_ne hb (c := '"') (by decide)),
    if_neg (byteChar_ne hb (c := '\\') (by decide)), if_neg hlow, if_neg hhigh]
  rfl

theorem push_more {bytes bytes' : List UInt8} {b : UInt8} (h : Utf8.push bytes b = .more bytes')
    (position : Position) :
    (⟨position, opened, .string role reversed (.utf8 bytes), limit⟩ : Scanner).push b =
      ([], ⟨position, opened, .string role reversed (.utf8 bytes'), limit⟩) := by
  simp only [Scanner.push, Scanner.pushString, h]
  rfl

theorem push_last {bytes : List UInt8} {b : UInt8} (h : Utf8.push bytes b = .char c)
    (position : Position) :
    (⟨position, opened, .string role reversed (.utf8 bytes), limit⟩ : Scanner).push b =
      ([], ⟨position.char (bytes.length + 1), opened, .string role (c :: reversed) .plain,
        limit⟩) := by
  simp only [Scanner.push, Scanner.pushString, h]
  rfl

theorem tells_long (hc : 0x80 ≤ c.toNat)
    (ht : Tells limit opened (.string role (c :: reversed) .plain) rest events) :
    Tells limit opened (.string role reversed .plain) (c :: rest) events := by
  intro position
  rw [utf8Chars_cons]
  rcases Nat.lt_or_ge c.toNat 0x800 with h2 | h2
  · obtain ⟨a, b, he, ha, hb⟩ := Utf8.push_two hc h2
    rw [he]
    simp only [List.cons_append, List.nil_append, Scanner.remaining, push_first ha, push_last hb]
    exact ht _
  rcases Nat.lt_or_ge c.toNat 0x10000 with h3 | h3
  · obtain ⟨a, b, d, he, ha, hb, hd⟩ := Utf8.push_three h2 h3
    rw [he]
    simp only [List.cons_append, List.nil_append, Scanner.remaining, push_first ha, push_more hb,
      push_last hd]
    exact ht _
  · obtain ⟨a, b, d, e, he, ha, hb, hd, hlast⟩ := Utf8.push_four h3
    rw [he]
    simp only [List.cons_append, List.nil_append, Scanner.remaining, push_first ha, push_more hb,
      push_more hd, push_last hlast]
    exact ht _

theorem tells_plain (hq : c ≠ '"') (hb : c ≠ '\\') (hs : 0x20 ≤ c.toNat)
    (ht : Tells limit opened (.string role (c :: reversed) .plain) rest events) :
    Tells limit opened (.string role reversed .plain) (c :: rest) events := by
  rcases Nat.lt_or_ge c.toNat 0x80 with hc | hc
  · refine .wait hc (fun position => ⟨position.skip 1, ?_⟩) ht
    have hlow : ¬ UInt8.ofNat c.toNat < 0x20 := by
      simp [UInt8.lt_iff_toNat_lt]
      omega
    have hhigh : UInt8.ofNat c.toNat < 0x80 := by
      simp [UInt8.lt_iff_toNat_lt]
      omega
    simp only [Scanner.push, Scanner.pushString, byteChar_ascii hc, if_neg hq, if_neg hb,
      if_neg hlow, if_pos hhigh]
    rfl
  · exact tells_long hc ht

/-! ## Escapes -/

theorem shortEscape_cases {e : Char} (h : (e, c) ∈ shortEscapes) :
    e.toNat < 0x80 ∧ simpleEscape? e = some c := by
  simp only [shortEscapes, List.mem_cons, Prod.mk.injEq, List.not_mem_nil, or_false] at h
  rcases h with ⟨rfl, rfl⟩ | ⟨rfl, rfl⟩ | ⟨rfl, rfl⟩ | ⟨rfl, rfl⟩ | ⟨rfl, rfl⟩ | ⟨rfl, rfl⟩ |
    ⟨rfl, rfl⟩ | ⟨rfl, rfl⟩ <;> decide

theorem tells_backslash (ht : Tells limit opened (.string role reversed .escape) rest events) :
    Tells limit opened (.string role reversed .plain) ('\\' :: rest) events :=
  .wait (by decide) (fun position => ⟨position, rfl⟩) ht

theorem tells_escaped {e : Char} (he : (e, c) ∈ shortEscapes)
    (ht : Tells limit opened (.string role (c :: reversed) .plain) rest events) :
    Tells limit opened (.string role reversed .plain) ('\\' :: e :: rest) events := by
  obtain ⟨ha, he⟩ := shortEscape_cases he
  refine tells_backslash (.wait ha (fun position => ⟨position.skip 2, ?_⟩) ht)
  simp only [Scanner.push, Scanner.pushString, byteChar_ascii ha, he]
  rfl

theorem digit_cases {value : Nat} (h : SpellsDigit value c) :
    c.toNat < 0x80 ∧ hexValue? c = some value := by
  have hlower : ∀ value (h : value < 16),
      lowerDigits[value].toNat < 0x80 ∧ hexValue? lowerDigits[value] = some value := by decide
  have hupper : ∀ value (h : value < 16),
      upperDigits[value].toNat < 0x80 ∧ hexValue? upperDigits[value] = some value := by decide
  rcases h with h | h
  · obtain ⟨hlt, rfl⟩ := List.getElem?_eq_some_iff.mp h
    exact hlower value hlt
  · obtain ⟨hlt, rfl⟩ := List.getElem?_eq_some_iff.mp h
    exact hupper value hlt

theorem tells_digit {high : Option Nat} {count value digit : Nat} (hc : count < 3)
    (hd : SpellsDigit digit c)
    (ht : Tells limit opened
      (.string role reversed (.unicode high (count + 1) (value * 16 + digit))) rest events) :
    Tells limit opened (.string role reversed (.unicode high count value)) (c :: rest) events := by
  obtain ⟨ha, hd⟩ := digit_cases hd
  refine .wait ha (fun position => ⟨position, ?_⟩) ht
  simp only [Scanner.push, Scanner.pushString, byteChar_ascii ha, hd, if_pos hc]
  rfl

/-- The last digit of a code unit leads to this mode; `high` is the surrogate before it. -/
def UnitLeadsTo (limit : Option Nat) (opened : List ContainerKind) (role : Role)
    (reversed : List Char) (high : Option Nat) (unit : Nat) (mode : Mode) : Prop :=
  ∀ position state, ∃ position',
    (⟨position, opened, .string role reversed state, limit⟩ : Scanner).endUnicode role reversed high
      unit = ([], ⟨position', opened, mode, limit⟩)

theorem tells_digits {high : Option Nat} {unit : Nat} (h : SpellsUnit unit text)
    (hend : UnitLeadsTo limit opened role reversed high unit mode')
    (ht : Tells limit opened mode' rest events) :
    ∃ digits, text = '\\' :: 'u' :: digits ∧
      Tells limit opened (.string role reversed (.unicode high 0 0)) (digits ++ rest) events := by
  obtain @⟨a, b, c, d, w, x, y, z, ha, hb, hc, hd⟩ := h
  refine ⟨_, rfl, tells_digit (by decide) ha (tells_digit (by decide) hb
    (tells_digit (by decide) hc ?_))⟩
  obtain ⟨hascii, hd⟩ := digit_cases hd
  refine .wait hascii (fun position => ?_) ht
  have hunit : (((0 * 16 + a) * 16 + b) * 16 + c) * 16 + d = a * 4096 + b * 256 + c * 16 + d := by
    omega
  simp only [Scanner.push, Scanner.pushString, byteChar_ascii hascii, hd, hunit]
  exact hend position _

theorem tells_unit {unit : Nat} (h : SpellsUnit unit text)
    (hend : UnitLeadsTo limit opened role reversed none unit mode')
    (ht : Tells limit opened mode' rest events) :
    Tells limit opened (.string role reversed .plain) (text ++ rest) events := by
  obtain ⟨digits, rfl, hdigits⟩ := tells_digits h hend ht
  exact tells_backslash (.wait (by decide) (fun position => ⟨position, rfl⟩) hdigits)

theorem tells_second {high unit : Nat} (h : SpellsUnit unit text)
    (hend : UnitLeadsTo limit opened role reversed (some high) unit mode')
    (ht : Tells limit opened mode' rest events) :
    Tells limit opened (.string role reversed (.surrogate high)) (text ++ rest) events := by
  obtain ⟨digits, rfl, hdigits⟩ := tells_digits h hend ht
  exact .wait (by decide) (fun position => ⟨position, rfl⟩)
    (.wait (by decide) (fun position => ⟨position, rfl⟩) hdigits)

/-- A character has no code between the surrogates, so its unit is the character. -/
theorem unitLeadsTo_char (c : Char) :
    UnitLeadsTo limit opened role reversed none c.toNat (.string role (c :: reversed) .plain) := by
  have hv : c.toNat < 0xD800 ∨ 0xDFFF < c.toNat ∧ c.toNat < 0x110000 := c.valid
  have hlow : isLowSurrogate c.toNat = false := by
    simp only [isLowSurrogate, Bool.and_eq_false_iff, decide_eq_false_iff_not]
    omega
  have hhigh : isHighSurrogate c.toNat = false := by
    simp only [isHighSurrogate, Bool.and_eq_false_iff, decide_eq_false_iff_not]
    omega
  intro position state
  refine ⟨position.skip 6, ?_⟩
  simp only [Scanner.endUnicode, hlow, hhigh, Char.ofNat_toNat]
  rfl

theorem unitLeadsTo_high {n : Nat} (hn : n < 0x400) :
    UnitLeadsTo limit opened role reversed none (0xD800 + n)
      (.string role reversed (.surrogate (0xD800 + n))) := by
  have hlow : isLowSurrogate (0xD800 + n) = false := by
    simp only [isLowSurrogate, Bool.and_eq_false_iff, decide_eq_false_iff_not]
    omega
  have hhigh : isHighSurrogate (0xD800 + n) = true := by
    simp only [isHighSurrogate, Bool.and_eq_true, decide_eq_true_eq]
    omega
  intro position state
  refine ⟨position, ?_⟩
  simp only [Scanner.endUnicode, hlow, hhigh]
  rfl

theorem unitLeadsTo_low {m n : Nat} (hn : n < 0x400) (hc : 0x10000 + m * 0x400 + n = c.toNat) :
    UnitLeadsTo limit opened role reversed (some (0xD800 + m)) (0xDC00 + n)
      (.string role (c :: reversed) .plain) := by
  have hlow : isLowSurrogate (0xDC00 + n) = true := by
    simp only [isLowSurrogate, Bool.and_eq_true, decide_eq_true_eq]
    omega
  have hpair : pairChar (0xD800 + m) (0xDC00 + n) = c := by
    rw [pairChar, Nat.add_sub_cancel_left, Nat.add_sub_cancel_left, hc, Char.ofNat_toNat]
  intro position state
  refine ⟨position.skip 12, ?_⟩
  simp only [Scanner.endUnicode, hlow, hpair]
  rfl

/-! ## All spellings -/

/-- **A character, however it is spelled.** -/
theorem tells_char {text : List Char} (h : SpellsChar c text)
    (ht : Tells limit opened (.string role (c :: reversed) .plain) rest events) :
    Tells limit opened (.string role reversed .plain) (text ++ rest) events := by
  cases h with
  | plain hq hb hs => exact tells_plain hq hb hs ht
  | escaped he => exact tells_escaped he ht
  | unit hu => exact tells_unit hu (unitLeadsTo_char c) ht
  | pair hc hhigh hlow =>
    have hlt := charCode_lt c
    have hcode : 0x10000 + (c.toNat - 0x10000) / 0x400 * 0x400 + (c.toNat - 0x10000) % 0x400 =
        c.toNat := by omega
    have hsecond := tells_second hlow (unitLeadsTo_low (by omega) hcode) ht
    rw [List.append_assoc]
    exact tells_unit hhigh (unitLeadsTo_high (by omega)) hsecond

theorem tells_chars {chars text : List Char} (h : SpellsChars chars text) :
    ∀ {reversed : List Char},
      Tells limit opened (.string role (chars.reverse ++ reversed) .plain) rest events →
      Tells limit opened (.string role reversed .plain) (text ++ rest) events := by
  induction h with
  | nil => exact id
  | cons hc _ ih =>
    intro reversed ht
    rw [List.append_assoc]
    refine tells_char hc (ih ?_)
    rwa [List.reverse_cons, List.append_assoc] at ht

/-- What may come next after a value in these containers. -/
def afterIn : List ContainerKind → Expect
  | [] => .nothing
  | .object :: _ => .name .next
  | .array :: _ => .item .next

theorem settle_eq (position : Position) (opened : List ContainerKind) (mode : Mode) :
    (⟨position, opened, mode, limit⟩ : Scanner).settle =
      ⟨position, opened, .between (afterIn opened), limit⟩ := by
  match opened with
  | [] | .object :: _ | .array :: _ => rfl

theorem tells_string (given : List Event) {s : String} (h : SpellsChars s.toList text)
    (hend : ∀ position state,
      let r := (⟨position, opened, .string role state .plain, limit⟩ : Scanner).endString role s
      told r.1 = given ∧ r.2.maxNesting = limit ∧ Tells limit r.2.opened r.2.mode rest events) :
    Tells limit opened (.string role [] .plain) (text ++ '"' :: rest) (given ++ events) := by
  refine tells_chars h (.step given (by decide) fun position => ?_)
  have hp : (⟨position, opened, .string role (s.toList.reverse ++ []) .plain, limit⟩ : Scanner).push
      (UInt8.ofNat '"'.toNat) =
      (⟨position, opened, .string role (s.toList.reverse ++ []) .plain, limit⟩ : Scanner).endString
        role (String.ofList (s.toList.reverse ++ []).reverse) := rfl
  simp only [hp]
  rw [List.append_nil, List.reverse_reverse, String.ofList_toList]
  exact hend position _

theorem tells_value_string {s : String} {text : List Char} (h : SpellsChars s.toList text)
    (ht : Tells limit opened (.between (afterIn opened)) rest events) :
    Tells limit opened (.string .value [] .plain) (text ++ '"' :: rest)
      (.scalar (.str s) :: events) := by
  refine tells_string [.scalar (.str s)] h fun position state => ?_
  have hr : (⟨position, opened, .string .value state .plain, limit⟩ : Scanner).endString .value s =
      ([⟨.scalar (.str s), opened.length⟩],
        ⟨position.skip 1, opened, .between (afterIn opened), limit⟩) := by
    simp only [Scanner.endString, Scanner.giveScalar, Scanner.skip, settle_eq]
    rfl
  rw [hr]
  exact ⟨rfl, rfl, ht⟩

/-- The event of a member name. -/
def nameEvent (first : Bool) (name : String) : Event :=
  if first then .startObject (some name) else .key name

theorem tells_name_string {s : String} {text : List Char} (h : SpellsChars s.toList text)
    (first : Bool) (ht : Tells limit opened (.between .colon) rest events) :
    Tells limit opened (.string (.name first) [] .plain) (text ++ '"' :: rest)
      (nameEvent first s :: events) := by
  refine tells_string [nameEvent first s] h fun position state => ?_
  cases first with
  | true => exact ⟨rfl, rfl, ht⟩
  | false => exact ⟨rfl, rfl, ht⟩

end Strings

/-! ## Numbers and words -/

theorem ascii_of_isDigit (h : c.isDigit = true) : c.toNat < 0x80 :=
  Nat.lt_of_le_of_lt (Char.isDigit_iff_toNat.mp h).2 (by decide)

theorem extendsNumber_of_step {state state' : NumberState} (h : state.step c = some state') :
    extendsNumber c = true := by
  have hdigit : c.isDigit = true → extendsNumber c = true := fun h => by simp [extendsNumber, h]
  have hmark : NumberState.isExponentMark c = true → extendsNumber c = true := fun h => by
    have : c = 'e' ∨ c = 'E' := by simpa [NumberState.isExponentMark] using h
    rcases this with rfl | rfl <;> rfl
  have hsign : c = '+' ∨ c = '-' → extendsNumber c = true := by
    rintro (rfl | rfl) <;> rfl
  cases state <;> simp only [NumberState.step] at h <;> split_ifs at h <;> rename_i hif
  all_goals first
    | exact hdigit hif
    | exact hdigit ((NumberState.isNonzeroDigit_iff c).mp hif).1
    | exact hmark hif
    | exact hsign (by simpa using hif)
    | exact hif ▸ rfl

theorem ascii_of_step {state state' : NumberState} (h : state.step c = some state') :
    c.toNat < 0x80 := by
  have : c.isDigit = true ∨ c = '+' ∨ c = '-' ∨ c = '.' ∨ c = 'e' ∨ c = 'E' := by
    simpa [extendsNumber, or_assoc] using extendsNumber_of_step h
  rcases this with hd | rfl | rfl | rfl | rfl | rfl
  · exact ascii_of_isDigit hd
  all_goals decide

theorem NumberPrefix.push?_of_text {read : NumberPrefix} {n : Number} {chars : List Char}
    (h : read.reversed.reverse ++ c :: chars = n.chars) :
    c.toNat < 0x80 ∧ ∃ read', read.push? c = some read' ∧
      read'.reversed.reverse ++ chars = n.chars := by
  have hs : ∃ state, read.state.step c = some state := by
    have htext := n.isText
    rw [← h, isNumberText, NumberState.run, List.foldlM_append] at htext
    have hreads : List.foldlM NumberState.step .start read.reversed.reverse = some read.state :=
      read.reads
    rw [hreads] at htext
    cases hstep : read.state.step c with
    | some state => exact ⟨state, rfl⟩
    | none => simp [hstep] at htext
  obtain ⟨state, hs⟩ := hs
  refine ⟨ascii_of_step hs, ?_⟩
  unfold push?
  split
  · next state' hs' =>
    refine ⟨_, rfl, ?_⟩
    rw [← h]
    simp
  · next hs' =>
    rw [hs] at hs'
    cases hs'

theorem NumberPrefix.number?_of_text {read : NumberPrefix} {n : Number}
    (h : read.reversed.reverse = n.chars) : read.number? = some n := by
  have htext := n.isText
  rw [← h, isNumberText, read.reads] at htext
  rw [number?, dif_pos htext]
  exact congrArg some (by cases n; simpa using h)

/-- **The rest of a number.** -/
theorem tells_number {n : Number} (hsep : Separated (utf8Chars rest))
    (ht : Tells limit opened (.between (afterIn opened)) rest events) (chars : List Char) :
    ∀ {read : NumberPrefix}, read.reversed.reverse ++ chars = n.chars →
      Tells limit opened (.number read) (chars ++ rest) (.scalar (.num n.normal) :: events) := by
  induction chars with
  | nil =>
    intro read h position
    rw [List.append_nil] at h
    rw [List.nil_append, Scanner.remaining_number rfl (NumberPrefix.number?_of_text h) hsep,
      Scanner.skip, settle_eq, told, List.map_cons]
    exact congrArg _ (ht _)
  | cons c chars ih =>
    intro read h
    obtain ⟨hc, read', hp, h'⟩ := NumberPrefix.push?_of_text h
    refine .wait hc (fun position => ⟨position, ?_⟩) (ih h')
    simp only [Scanner.push, Scanner.pushNumber, byteChar_ascii hc, hp]
    rfl

/-- **The rest of a word.** -/
theorem tells_word {literal : Literal} (hsep : Separated (utf8Chars rest))
    (ht : Tells limit opened (.between (afterIn opened)) rest events) (letters : List Char)
    (hl : ∀ c ∈ letters, c.toNat < 0x80) :
    Tells limit opened (.literal literal letters false) (letters ++ rest)
      (.scalar literal.value :: events) := by
  induction letters with
  | nil =>
    intro position
    rw [List.nil_append, Scanner.remaining_literal rfl hsep, Scanner.skip, settle_eq, told,
      List.map_cons]
    exact congrArg _ (ht _)
  | cons c letters ih =>
    have hc := hl c List.mem_cons_self
    refine .wait hc (fun position => ⟨position, ?_⟩)
      (ih fun c hm => hl c (List.mem_cons_of_mem _ hm))
    simp only [Scanner.push, Scanner.pushLiteral, byteChar_ascii hc, if_pos]
    rfl

end JsonEdit
