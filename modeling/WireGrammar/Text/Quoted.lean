import WireGrammar.Text.Printable

/-!
# Quoted texts

Texts between double quotes, as messages show them: a quote and a backslash are escaped, the common
controls have letters of their own, and every other hidden character is written as the hexadecimal
number of its code point between braces.
-/

namespace WireGrammar.Text

/-- The code point of `c`, in lowercase hexadecimal between braces. -/
def codePoint (c : Char) : List Char :=
  ['\\', 'u', '\x7b'] ++ Nat.toDigits 16 c.toNat ++ ['\x7d']

/-- One character of a quoted text. -/
def quotedChar (c : Char) : List Char :=
  if c = '"' then ['\\', '"']
  else if c = '\\' then ['\\', '\\']
  else if c = '\n' then ['\\', 'n']
  else if c = '\r' then ['\\', 'r']
  else if c = '\t' then ['\\', 't']
  else if c.toNat = 0 then ['\\', '0']
  else if isHidden c then codePoint c
  else [c]

/-- The text between quotes. -/
def quoted (s : String) : String :=
  String.ofList (['"'] ++ s.toList.flatMap quotedChar ++ ['"'])

end WireGrammar.Text
