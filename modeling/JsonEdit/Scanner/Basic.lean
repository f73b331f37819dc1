import JsonEdit.Event
import JsonEdit.Scanner.Error
import JsonEdit.Text.Utf8

/-!
# The scanner

The scanner is given the bytes of a text one by one and answers with the events that each byte
settles. What ends only where something else begins, a number or a literal, is settled by the byte
after it. The start of an object is settled together with its first member name, or with its end.

* `Mode`: what the scanner is in the middle of;
* `Scanner.push`: one byte;
* `Scanner.finish`, `Scanner.breakOff`: the end of the text, and a failure of the reader;
* `Scanner.pushAll`, `scan`: several bytes, and a whole text.
-/

namespace JsonEdit

/-! ## Between tokens -/

/-- Where in a container the next token stands. -/
inductive Place
  /-- Directly after the opening bracket. -/
  | first
  /-- After an element or a member. -/
  | next
  /-- After the comma at the given position. -/
  | afterComma (comma : Position)
deriving DecidableEq, Repr

/-- What may come next between tokens. -/
inductive Expect
  /-- The value of the document. -/
  | document
  /-- An element of an array, or its end. -/
  | item (place : Place)
  /-- A member name of an object, or its end. -/
  | name (place : Place)
  /-- The colon after a member name. -/
  | colon
  /-- The value of a member. -/
  | memberValue
  /-- The document is over. -/
  | nothing
deriving DecidableEq, Repr

/-! ## Inside tokens -/

/-- The values written as words. -/
inductive Literal
  | null
  | true
  | false
deriving DecidableEq, Repr

namespace Literal

/-- The letters of the word. -/
def word : Literal → List Char
  | .null => ['n', 'u', 'l', 'l']
  | .true => ['t', 'r', 'u', 'e']
  | .false => ['f', 'a', 'l', 's', 'e']

/-- The value a word stands for. -/
def value : Literal → Json
  | .null => .null
  | .true => .bool Bool.true
  | .false => .bool Bool.false

end Literal

/-- The start of a number text, last character first, with how far it has been read. -/
structure NumberPrefix where
  reversed : List Char
  state : NumberState
  reads : NumberState.start.run reversed.reverse = some state

namespace NumberPrefix

/-- Nothing read yet. -/
def empty : NumberPrefix := ⟨[], .start, rfl⟩

/-- Reads one more character, if a number text can go on with it. -/
def push? (p : NumberPrefix) (c : Char) : Option NumberPrefix :=
  match h : p.state.step c with
  | some state =>
    some ⟨c :: p.reversed, state, by simp [NumberState.run_concat p.reads, h]⟩
  | none => none

/-- The number, if its text is complete. -/
def number? (p : NumberPrefix) : Option Number :=
  if h : p.state.complete = true then
    some ⟨p.reversed.reverse, by simp [isNumberText, p.reads, h]⟩
  else none

end NumberPrefix

/-- What a string is. -/
inductive Role
  | value
  /-- A member name. -/
  | name (first : Bool)
deriving DecidableEq, Repr

/-- Where inside a string the scanner stands. -/
inductive CharState
  /-- Between characters. -/
  | plain
  /-- After the first bytes of a character. -/
  | utf8 (bytes : List UInt8)
  /-- After a backslash. -/
  | escape
  /-- After `\u` and some hexadecimal digits; a high surrogate may stand before it. -/
  | unicode (high : Option Nat) (count value : Nat)
  /-- After a high surrogate: a backslash is due. -/
  | surrogate (high : Nat)
  /-- After a high surrogate and a backslash: a `u` is due. -/
  | surrogateEscape (high : Nat)
deriving DecidableEq, Repr

/-- What the scanner is in the middle of. -/
inductive Mode
  | between (expect : Expect)
  /-- In or directly after a word; `late` says that a comma is missing before it. -/
  | literal (literal : Literal) (rest : List Char) (late : Bool)
  | number (read : NumberPrefix)
  /-- In a string, whose characters so far stand last first. -/
  | string (role : Role) (reversed : List Char) (state : CharState)
  /-- The last event has been given. -/
  | stopped

/-- A scanner between two bytes. -/
structure Scanner where
  /-- The place after everything read; in a number or word, the place before it. -/
  position : Position
  /-- The open containers, innermost first. -/
  opened : List ContainerKind
  mode : Mode
  /-- How many containers may be open. -/
  maxNesting : Option Nat

/-- An event, with the number of containers open after it. -/
structure Scanned where
  event : Event
  depth : Nat

/-! ## Characters -/

/-- The character with the code of a byte. -/
def byteChar (b : UInt8) : Char := Char.ofNat b.toNat

/-- The blanks that may stand between tokens. -/
def isBlank (c : Char) : Bool := c == ' ' || c == '\t' || c == '\n' || c == '\r'

/-- What may follow a number or a word. -/
def isSeparator (c : Char) : Bool :=
  isBlank c || c == ',' || c == ']' || c == '}' || c == '/' || c == ':'

/-- What belongs to a number that it follows, though the number is complete. -/
def extendsNumber (c : Char) : Bool :=
  c.isDigit || c == '+' || c == '-' || c == '.' || c == 'e' || c == 'E'

/-- The character behind a backslash that is not `u`. -/
def simpleEscape? (c : Char) : Option Char :=
  if c = '"' then some '"'
  else if c = '\\' then some '\\'
  else if c = '/' then some '/'
  else if c = 'b' then some '\x08'
  else if c = 'f' then some '\x0c'
  else if c = 'n' then some '\n'
  else if c = 'r' then some '\r'
  else if c = 't' then some '\t'
  else none

/-- The value of a hexadecimal digit. -/
def hexValue? (c : Char) : Option Nat :=
  if c.isDigit then some (c.toNat - 48)
  else if 'a' ≤ c && c ≤ 'f' then some (c.toNat - 87)
  else if 'A' ≤ c && c ≤ 'F' then some (c.toNat - 55)
  else none

/-- The first halves of surrogate pairs. -/
def isHighSurrogate (n : Nat) : Bool := 0xD800 ≤ n && n < 0xDC00

/-- The second halves of surrogate pairs. -/
def isLowSurrogate (n : Nat) : Bool := 0xDC00 ≤ n && n < 0xE000

/-- The character of a surrogate pair. -/
def pairChar (high low : Nat) : Char :=
  Char.ofNat (0x10000 + (high - 0xD800) * 0x400 + (low - 0xDC00))

namespace Scanner

/-! ## Moves -/

/-- At the start of a text. -/
def new (maxNesting : Option Nat) : Scanner := ⟨.start, [], .between .document, maxNesting⟩

/-- The number of open containers. -/
def depth (s : Scanner) : Nat := s.opened.length

/-- Goes on in another mode. -/
def become (s : Scanner) (mode : Mode) : Scanner := { s with mode }

/-- Goes past `n` ASCII characters. -/
def skip (s : Scanner) (n : Nat) : Scanner := { s with position := s.position.skip n }

/-- An event, with the present depth. -/
def scanned (s : Scanner) (event : Event) : Scanned := ⟨event, s.depth⟩

/-- Gives an error as the last event. -/
def stop (s : Scanner) (e : ScanError) : List Scanned × Scanner :=
  ([s.scanned (.error e.message)], s.become .stopped)

/-- Finds a fault at the given place. -/
def failAt (s : Scanner) (fault : ScanFault) (place : Position) : List Scanned × Scanner :=
  s.stop (.malformed fault place)

/-- Finds a fault at the present place. -/
def fail (s : Scanner) (fault : ScanFault) : List Scanned × Scanner := s.failAt fault s.position

/-- Waits for another byte. -/
def wait (s : Scanner) : List Scanned × Scanner := ([], s)

/-- What may come next after a value. -/
def afterValue (s : Scanner) : Expect :=
  match s.opened with
  | [] => .nothing
  | .object :: _ => .name .next
  | .array :: _ => .item .next

/-- A value is over. -/
def settle (s : Scanner) : Scanner := s.become (.between s.afterValue)

/-! ## Between tokens -/

/-- A container opens, if another may. -/
def openContainer (s : Scanner) (kind : ContainerKind) (expect : Expect) :
    Except (List Scanned × Scanner) Scanner :=
  match s.maxNesting with
  | some limit =>
    if s.depth ≥ limit then .error (s.stop (.tooDeep limit s.position)) else .ok opened
  | none => .ok opened
where
  /-- The scanner behind the bracket. -/
  opened : Scanner :=
    { s.skip 1 with opened := kind :: s.opened, mode := .between expect }

/-- The innermost container ends. -/
def closeContainer (s : Scanner) (event : Event) : List Scanned × Scanner :=
  let s := ({ s.skip 1 with opened := s.opened.tail }).settle
  ([s.scanned event], s)

/-- The word that starts with a letter. -/
def literalOf? (c : Char) : Option Literal :=
  if c = 'n' then some .null
  else if c = 't' then some .true
  else if c = 'f' then some .false
  else none

/-- A token that starts a value; `late` says that a comma is missing before it. -/
def beginValue (s : Scanner) (late : Bool) (c : Char) : List Scanned × Scanner :=
  match literalOf? c with
  | some literal => (s.become (.literal literal literal.word.tail late)).wait
  | none =>
    if c = '[' || c = '{' || c = '"' then
      if late then s.fail .missingComma
      else if c = '"' then ((s.skip 1).become (.string .value [] .plain)).wait
      else if c = '[' then
        match s.openContainer .array (.item .first) with
        | .error stopped => stopped
        | .ok s => ([s.scanned .startArray], s)
      else
        match s.openContainer .object (.name .first) with
        | .error stopped => stopped
        | .ok s => s.wait
    else
      match NumberPrefix.empty.push? c with
      | some read => if late then s.fail .missingComma else (s.become (.number read)).wait
      | none =>
        if c = ']' || c = '}' then s.fail .unexpectedClosingBracket
        else if c = ',' then s.fail .unexpectedComma
        else if c = ':' then s.fail .unexpectedColon
        else s.fail .malformedJson

/-- A token where an element or the end of an array may stand. -/
def pushItem (s : Scanner) (place : Place) (c : Char) : List Scanned × Scanner :=
  if c = ']' then
    match place with
    | .afterComma comma => s.failAt .trailingComma comma
    | _ => s.closeContainer .endArray
  else if c = ',' && place = .next then
    ((s.skip 1).become (.between (.item (.afterComma s.position)))).wait
  else s.beginValue (place = .next) c

/-- A token where a member name or the end of an object may stand. -/
def pushName (s : Scanner) (place : Place) (c : Char) : List Scanned × Scanner :=
  if c = '}' then
    match place with
    | .afterComma comma => s.failAt .trailingComma comma
    | .next => s.closeContainer .endObject
    | .first =>
      let (events, s') := s.closeContainer .endObject
      (s.scanned (.startObject none) :: events, s')
  else if c = '"' then
    if place = .next then s.fail .missingComma
    else ((s.skip 1).become (.string (.name (place = .first)) [] .plain)).wait
  else if c = ',' then
    match place with
    | .next => ((s.skip 1).become (.between (.name (.afterComma s.position)))).wait
    | .first => s.fail .unexpectedComma
    | .afterComma _ => s.fail .expectingNameOrObjectEnd
  else s.fail .expectingNameOrObjectEnd

/-- A character between tokens. -/
def pushBetween (s : Scanner) (expect : Expect) (c : Char) : List Scanned × Scanner :=
  if isBlank c then wait { s with position := s.position.blank c, mode := .between expect }
  else if c = '/' then s.fail .commentsNotEnabled
  else
    match expect with
    | .nothing => s.fail .trailingData
    | .colon =>
      if c = ':' then ((s.skip 1).become (.between .memberValue)).wait else s.fail .missingColon
    | .document | .memberValue => s.beginValue false c
    | .item place => s.pushItem place c
    | .name place => s.pushName place c

/-! ## Inside tokens -/

/-- A scalar is over; the character after it is not read yet. -/
def giveScalar (s : Scanner) (value : Json) : Scanned × Scanner :=
  (s.scanned (.scalar value), s.settle)

/-- A scalar is over, and a character follows it. -/
def giveScalarBefore (s : Scanner) (value : Json) (c : Char) : List Scanned × Scanner :=
  let (scalar, s) := s.giveScalar value
  let (events, s) := s.pushBetween s.afterValue c
  (scalar :: events, s)

/-- A character in or after a word. -/
def pushLiteral (s : Scanner) (literal : Literal) (rest : List Char) (late : Bool) (c : Char) :
    List Scanned × Scanner :=
  match rest with
  | letter :: rest =>
    if c = letter then (s.become (.literal literal rest late)).wait else s.fail .invalidLiteral
  | [] =>
    if !isSeparator c then s.fail .trailingDataAfterLiteral
    else if late then s.fail .missingComma
    else (s.skip literal.word.length).giveScalarBefore literal.value c

/-- A character in or after a number. -/
def pushNumber (s : Scanner) (read : NumberPrefix) (c : Char) : List Scanned × Scanner :=
  match read.push? c with
  | some read => (s.become (.number read)).wait
  | none =>
    match read.number? with
    | none => s.fail .malformedNumber
    | some number =>
      if extendsNumber c then s.fail .malformedNumber
      else if !isSeparator c then (s.skip number.chars.length).fail .trailingDataAfterNumber
      else (s.skip number.chars.length).giveScalarBefore (.num number.normal) c

/-- A string is over. -/
def endString (s : Scanner) (role : Role) (text : String) : List Scanned × Scanner :=
  let s := s.skip 1
  match role with
  | .value =>
    let (scalar, s) := s.giveScalar (.str text)
    ([scalar], s)
  | .name true => ([s.scanned (.startObject (some text))], s.become (.between .colon))
  | .name false => ([s.scanned (.key text)], s.become (.between .colon))

/-- One more character of a string, which took `n` bytes, all ASCII. -/
def addEscaped (s : Scanner) (role : Role) (reversed : List Char) (n : Nat) (c : Char) :
    List Scanned × Scanner :=
  ((s.skip n).become (.string role (c :: reversed) .plain)).wait

/-- The four digits of a `\u` escape are complete. -/
def endUnicode (s : Scanner) (role : Role) (reversed : List Char) (high : Option Nat)
    (value : Nat) : List Scanned × Scanner :=
  match high with
  | some high =>
    if isLowSurrogate value then s.addEscaped role reversed 12 (pairChar high value)
    else s.fail .unpairedSurrogate
  | none =>
    if isLowSurrogate value then s.fail .unpairedSurrogate
    else if isHighSurrogate value then
      (s.become (.string role reversed (.surrogate value))).wait
    else s.addEscaped role reversed 6 (Char.ofNat value)

/-- A byte inside a string. -/
def pushString (s : Scanner) (role : Role) (reversed : List Char) (state : CharState) (b : UInt8) :
    List Scanned × Scanner :=
  let c := byteChar b
  let goOn (state : CharState) := (s.become (.string role reversed state)).wait
  match state with
  | .plain =>
    if c = '"' then s.endString role (String.ofList reversed.reverse)
    else if c = '\\' then goOn .escape
    else if b < 0x20 then s.fail .unescapedControlCharacter
    else if b < 0x80 then ((s.skip 1).become (.string role (c :: reversed) .plain)).wait
    else goOn (.utf8 [b])
  | .utf8 bytes =>
    match Utf8.push bytes b with
    | .more bytes => goOn (.utf8 bytes)
    | .char c =>
      wait { s with
        position := s.position.char (bytes.length + 1)
        mode := .string role (c :: reversed) .plain }
    | .invalid => s.stop (.input "invalid UTF-8 data" s.position)
  | .escape =>
    match simpleEscape? c with
    | some c => s.addEscaped role reversed 2 c
    | none => if c = 'u' then goOn (.unicode none 0 0) else s.fail .unknownEscape
  | .unicode high count value =>
    match hexValue? c with
    | none => s.fail .malformedEscape
    | some digit =>
      let value := value * 16 + digit
      if count < 3 then goOn (.unicode high (count + 1) value)
      else s.endUnicode role reversed high value
  | .surrogate high => if c = '\\' then goOn (.surrogateEscape high) else s.fail .unpairedSurrogate
  | .surrogateEscape high =>
    if c = 'u' then goOn (.unicode (some high) 0 0) else s.fail .unpairedSurrogate

/-! ## The whole scanner -/

/-- Reads one byte. -/
def push (s : Scanner) (b : UInt8) : List Scanned × Scanner :=
  match s.mode with
  | .between expect => s.pushBetween expect (byteChar b)
  | .literal literal rest late => s.pushLiteral literal rest late (byteChar b)
  | .number read => s.pushNumber read (byteChar b)
  | .string role reversed state => s.pushString role reversed state b
  | .stopped => s.wait

/-- Reads bytes in turn. -/
def pushAll (s : Scanner) (bytes : List UInt8) : Array Scanned × Scanner :=
  bytes.foldl (fun (events, s) b =>
    let (more, s) := s.push b
    (events ++ more, s)) (#[], s)

/-- The text ends between tokens. -/
def finishBetween (s : Scanner) (expect : Expect) : List Scanned × Scanner :=
  match expect with
  | .nothing => ([s.scanned .finish], s.become .stopped)
  | .colon => s.fail .missingColon
  | _ => s.fail .incompleteDocument

/-- The text ends directly after a scalar. -/
def finishScalar (s : Scanner) (value : Json) : List Scanned × Scanner :=
  let (scalar, s) := s.giveScalar value
  let (events, s) := s.finishBetween s.afterValue
  (scalar :: events, s)

/-- The text ends. -/
def finish (s : Scanner) : List Scanned × Scanner :=
  match s.mode with
  | .between expect => s.finishBetween expect
  | .literal literal rest late =>
    if !rest.isEmpty then s.fail .invalidLiteral
    else if late then s.fail .missingComma
    else (s.skip literal.word.length).finishScalar literal.value
  | .number read =>
    match read.number? with
    | none => s.fail .malformedNumber
    | some number => (s.skip number.chars.length).finishScalar (.num number.normal)
  | .string _ _ state =>
    match state with
    | .plain | .utf8 _ => s.fail .incompleteDocument
    | .escape | .unicode _ _ _ => s.fail .malformedEscape
    | .surrogate _ | .surrogateEscape _ => s.fail .unpairedSurrogate
  | .stopped => s.wait

/-- The reader fails where another byte is needed. -/
def breakOff (s : Scanner) (reason : String) : List Scanned × Scanner :=
  match s.mode with
  | .stopped => s.wait
  | _ => s.stop (.input reason s.position)

end Scanner

/-- The events of a whole text. -/
def scan (maxNesting : Option Nat) (bytes : List UInt8) : List Scanned :=
  let (events, s) := (Scanner.new maxNesting).pushAll bytes
  (events ++ s.finish.1).toList

end JsonEdit
