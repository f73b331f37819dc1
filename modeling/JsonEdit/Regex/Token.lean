import JsonEdit.Regex.Basic

/-!
# Tokens of regular expressions

An expression is cut into characters that stand as they are written and escapes, which are read as
sets of characters. A backslash before an ASCII character that is not a letter or digit makes it
ordinary; `\d` and `\D` are the decimal digits and the other characters, and some letters are
control characters.

* `Regex.Token`: the tokens;
* `Regex.escaped?`: what a character stands for behind a backslash;
* `Regex.tokens?`: the tokens of a text.
-/

namespace JsonEdit.Regex

/-- A part of an expression that has no parts itself. -/
inductive Token
  /-- A character as it is written. -/
  | sign (c : Char)
  /-- One character of a set. -/
  | chars (set : CharSet)
deriving DecidableEq, Repr

namespace Token

/-- The characters the token stands for inside a set. -/
def set : Token → CharSet
  | .sign c => .single c
  | .chars set => set

/-- The only character the token stands for inside a set. -/
def char? : Token → Option Char
  | .sign c => some c
  | .chars (.range first last) => if first = last then some first else none
  | .chars _ => none

/-- The characters at the front that stand as they are written. -/
def signs : List Token → List Char
  | .sign c :: rest => c :: signs rest
  | _ => []

end Token

/-- The set a character stands for behind a backslash. -/
def escaped? : Char → Option CharSet
  | 'd' => some .digit
  | 'D' => some (.other .digit)
  | 'a' => some (.single '\x07')
  | 'f' => some (.single '\x0c')
  | 'n' => some (.single '\n')
  | 'r' => some (.single '\r')
  | 't' => some (.single '\t')
  | 'v' => some (.single '\x0b')
  | '<' => none
  | '>' => none
  | c => if c.isAlphanum || 0x80 ≤ c.toNat then none else some (.single c)

/-- The tokens of a text. -/
def tokens? : List Char → Option (List Token)
  | [] => some []
  | ['\\'] => none
  | '\\' :: c :: text =>
    (escaped? c).bind fun set => (tokens? text).map fun rest => .chars set :: rest
  | c :: text => (tokens? text).map fun rest => .sign c :: rest

end JsonEdit.Regex
