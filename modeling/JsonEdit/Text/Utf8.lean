/-!
# UTF-8

* `utf8`: the bytes of a text;
* `Utf8.push`: reads the bytes of one character in turn. How many bytes there are follows from the
  first, which is looked at again when the last has come.
-/

namespace JsonEdit

/-! ## Writing -/

/-- The bytes of characters, in UTF-8. -/
def utf8Chars (text : List Char) : List UInt8 := text.flatMap String.utf8EncodeChar

/-- The bytes of a text, in UTF-8. -/
def utf8 (text : String) : List UInt8 := utf8Chars text.toList

@[simp] theorem utf8Chars_nil : utf8Chars [] = [] := rfl

@[simp] theorem utf8Chars_cons (c : Char) (text : List Char) :
    utf8Chars (c :: text) = String.utf8EncodeChar c ++ utf8Chars text := rfl

@[simp] theorem utf8Chars_append (s t : List Char) :
    utf8Chars (s ++ t) = utf8Chars s ++ utf8Chars t := by
  simp [utf8Chars]

@[simp] theorem utf8_append (s t : String) : utf8 (s ++ t) = utf8 s ++ utf8 t := by
  simp [utf8]

/-! ## Reading one character -/

namespace Utf8

/-- What the next byte of a character comes to. -/
inductive Progress
  /-- The bytes so far, of a character that is not complete. -/
  | more (bytes : List UInt8)
  | char (c : Char)
  | invalid

/-- The character of a code point, unless it had to be written with fewer bytes. -/
def charFrom (least value : Nat) : Progress :=
  if value < least then .invalid
  else if h : value.isValidChar then .char (Char.ofNatAux value h)
  else .invalid

/-- The bits that a byte after the first adds. -/
def extend (value : Nat) (b : UInt8) : Nat := value * 64 + b.toNat % 64

/-- A byte after the first has 10 as its high bits. -/
def isContinuation (b : UInt8) : Bool := 0x80 ≤ b && b < 0xC0

/-- Reads the next byte of a character whose first bytes, one to three, are given. -/
def push (bytes : List UInt8) (b : UInt8) : Progress :=
  if !isContinuation b then .invalid
  else
    match bytes with
    | [first] =>
      if 0xC0 ≤ first && first < 0xE0 then charFrom 0x80 (extend (first.toNat % 32) b)
      else .more [first, b]
    | [first, second] =>
      if 0xE0 ≤ first && first < 0xF0 then
        charFrom 0x800 (extend (extend (first.toNat % 16) second) b)
      else if 0xF0 ≤ first && first < 0xF8 then .more [first, second, b]
      else .invalid
    | [first, second, third] =>
      charFrom 0x10000 (extend (extend (extend (first.toNat % 8) second) third) b)
    | _ => .invalid

end Utf8

end JsonEdit
