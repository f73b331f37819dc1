import JsonEdit.Json.Basic

/-!
# The texts of a value

A value has many texts: blanks may stand between tokens, and a character of a string may stand as
it is or escaped.

* `SpellsChar`, `SpellsString`: the texts of a character and of a string;
* `SpellsNumber`: the texts of numbers;
* `Spells`: the texts of a value, with `SpellsItems` and `SpellsMembers` for what stands between
  brackets;
* `SpellsDocument`: blanks may stand around a document as well;
* `Json.plainZeros`: the value that is read, in which `-0` has become `0`.
-/

namespace JsonEdit

/-! ## Strings -/

/-- Nothing but blanks. -/
def AreBlanks (text : List Char) : Prop := ∀ c ∈ text, c ∈ [' ', '\t', '\n', '\r']

/-- What may stand behind a backslash, with the character that both together mean. -/
def shortEscapes : List (Char × Char) :=
  [('"', '"'), ('\\', '\\'), ('/', '/'), ('b', '\x08'), ('f', '\x0c'), ('n', '\n'), ('r', '\r'),
    ('t', '\t')]

/-- The hexadecimal digits in their order. -/
def lowerDigits : List Char :=
  ['0', '1', '2', '3', '4', '5', '6', '7', '8', '9', 'a', 'b', 'c', 'd', 'e', 'f']

/-- The same in upper case. -/
def upperDigits : List Char :=
  ['0', '1', '2', '3', '4', '5', '6', '7', '8', '9', 'A', 'B', 'C', 'D', 'E', 'F']

/-- A digit of either case. -/
def SpellsDigit (value : Nat) (digit : Char) : Prop :=
  lowerDigits[value]? = some digit ∨ upperDigits[value]? = some digit

/-- A code unit in four hexadecimal digits. -/
inductive SpellsUnit : Nat → List Char → Prop
  | digits {a b c d : Nat} {w x y z : Char} :
    SpellsDigit a w → SpellsDigit b x → SpellsDigit c y → SpellsDigit d z →
    SpellsUnit (a * 4096 + b * 256 + c * 16 + d) ['\\', 'u', w, x, y, z]

/-- The texts of a character between quotes. -/
inductive SpellsChar : Char → List Char → Prop
  | plain {c : Char} : c ≠ '"' → c ≠ '\\' → 0x20 ≤ c.toNat → SpellsChar c [c]
  | escaped {c e : Char} : (e, c) ∈ shortEscapes → SpellsChar c ['\\', e]
  | unit {c : Char} {text : List Char} : SpellsUnit c.toNat text → SpellsChar c text
  /-- Two code units, for a character that has no code of 16 bits. -/
  | pair {c : Char} {high low : List Char} : 0x10000 ≤ c.toNat →
    SpellsUnit (0xD800 + (c.toNat - 0x10000) / 0x400) high →
    SpellsUnit (0xDC00 + (c.toNat - 0x10000) % 0x400) low → SpellsChar c (high ++ low)

/-- The texts of characters in turn. -/
inductive SpellsChars : List Char → List Char → Prop
  | nil : SpellsChars [] []
  | cons {c : Char} {cs text rest : List Char} : SpellsChar c text → SpellsChars cs rest →
    SpellsChars (c :: cs) (text ++ rest)

/-- The texts of a string. -/
inductive SpellsString : String → List Char → Prop
  | quoted {s : String} {text : List Char} :
    SpellsChars s.toList text → SpellsString s ('"' :: text ++ ['"'])

/-! ## Numbers -/

/-- One digit or more. -/
def AreDigits (text : List Char) : Prop := text ≠ [] ∧ ∀ c ∈ text, c.isDigit = true

/-- An integer without a sign: `0`, or digits of which the first is another one. -/
inductive SpellsInteger : List Char → Prop
  | zero : SpellsInteger ['0']
  | other {c : Char} {digits : List Char} : c ≠ '0' → AreDigits (c :: digits) →
    SpellsInteger (c :: digits)

/-- An optional fraction. -/
inductive SpellsFraction : List Char → Prop
  | none : SpellsFraction []
  | some {digits : List Char} : AreDigits digits → SpellsFraction ('.' :: digits)

/-- An optional exponent. -/
inductive SpellsExponent : List Char → Prop
  | none : SpellsExponent []
  | some {mark : Char} {sign digits : List Char} : mark = 'e' ∨ mark = 'E' →
    sign = [] ∨ sign = ['+'] ∨ sign = ['-'] → AreDigits digits →
    SpellsExponent (mark :: (sign ++ digits))

/-- The texts of numbers. -/
inductive SpellsNumber : List Char → Prop
  | parts {sign integer fraction exponent : List Char} : sign = [] ∨ sign = ['-'] →
    SpellsInteger integer → SpellsFraction fraction → SpellsExponent exponent →
    SpellsNumber (sign ++ (integer ++ (fraction ++ exponent)))

/-! ## Values -/

mutual

/-- The texts of a value. -/
inductive Spells : Json → List Char → Prop
  | null : Spells .null ['n', 'u', 'l', 'l']
  | true : Spells (.bool Bool.true) ['t', 'r', 'u', 'e']
  | false : Spells (.bool Bool.false) ['f', 'a', 'l', 's', 'e']
  | num (n : Number) : Spells (.num n) n.chars
  | str {s : String} {text : List Char} : SpellsString s text → Spells (.str s) text
  | arr {items : List Json} {text : List Char} :
    SpellsItems items text → Spells (.arr items) ('[' :: text ++ [']'])
  | obj {members : List (String × Json)} {text : List Char} :
    SpellsMembers members text → Spells (.obj members) ('{' :: text ++ ['}'])

/-- The texts of elements, with blanks around each. -/
inductive SpellsItems : List Json → List Char → Prop
  | nil {blanks : List Char} : AreBlanks blanks → SpellsItems [] blanks
  | last {item : Json} {before text after : List Char} :
    AreBlanks before → Spells item text → AreBlanks after →
    SpellsItems [item] (before ++ text ++ after)
  | cons {item next : Json} {items : List Json} {before text after rest : List Char} :
    AreBlanks before → Spells item text → AreBlanks after → SpellsItems (next :: items) rest →
    SpellsItems (item :: next :: items) (before ++ text ++ after ++ ',' :: rest)

/-- The text of a member: its name, a colon and its value, with blanks around each. -/
inductive SpellsMember : String × Json → List Char → Prop
  | member {name : String} {value : Json} {before text after between inner rest : List Char} :
    AreBlanks before → SpellsString name text → AreBlanks after →
    AreBlanks between → Spells value inner → AreBlanks rest →
    SpellsMember (name, value) (before ++ text ++ after ++ ':' :: between ++ inner ++ rest)

/-- The texts of members. -/
inductive SpellsMembers : List (String × Json) → List Char → Prop
  | nil {blanks : List Char} : AreBlanks blanks → SpellsMembers [] blanks
  | last {member : String × Json} {text : List Char} :
    SpellsMember member text → SpellsMembers [member] text
  | cons {member next : String × Json} {members : List (String × Json)} {text rest : List Char} :
    SpellsMember member text → SpellsMembers (next :: members) rest →
    SpellsMembers (member :: next :: members) (text ++ ',' :: rest)

end

/-- The texts of a document. -/
def SpellsDocument (value : Json) (text : List Char) : Prop :=
  ∃ before inner after, AreBlanks before ∧ Spells value inner ∧ AreBlanks after ∧
    text = before ++ inner ++ after

/-! ## What is read -/

namespace Json

mutual

/-- The value with `0` for every `-0`. -/
def plainZeros : Json → Json
  | .num n => .num n.normal
  | .arr items => .arr (plainZerosOfItems items)
  | .obj members => .obj (plainZerosOfMembers members)
  | value => value

/-- The same for elements. -/
def plainZerosOfItems : List Json → List Json
  | [] => []
  | item :: items => item.plainZeros :: plainZerosOfItems items

/-- The same for members. -/
def plainZerosOfMembers : List (String × Json) → List (String × Json)
  | [] => []
  | (name, value) :: members => (name, value.plainZeros) :: plainZerosOfMembers members

end

end Json

end JsonEdit
