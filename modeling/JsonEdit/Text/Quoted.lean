import JsonEdit.Text.Hidden

/-!
# Quoted text in diagnostics

Diagnostics show a text between quotes, on one line and with nothing hidden in it.

* `quotedChar`: one character, escaped if it is a quote, a backslash or hidden;
* `quoted`: a text between quotes.
-/

namespace JsonEdit

/-- A character as diagnostics show it. -/
def quotedChar (c : Char) : List Char :=
  if c = '"' then ['\\', '"']
  else if c = '\\' then ['\\', '\\']
  else if c = '\n' then ['\\', 'n']
  else if c = '\r' then ['\\', 'r']
  else if c = '\t' then ['\\', 't']
  else if c = '\x00' then ['\\', '0']
  else if isHidden c then ['\\', 'u', '\x7b'] ++ Nat.toDigits 16 c.toNat ++ ['\x7d']
  else [c]

/-- A text between quotes, as diagnostics show it. -/
def quoted (text : String) : String :=
  String.ofList ('"' :: text.toList.flatMap quotedChar ++ ['"'])

end JsonEdit
