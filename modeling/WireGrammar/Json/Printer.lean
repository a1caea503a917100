import WireGrammar.Json.Basic
import WireGrammar.Text.Numeral

/-!
# JSON as text

JSON values as text, either without any blanks or with every item on a line of its own.
-/

namespace WireGrammar.Json

/-! ### Strings -/

/-- One character of a string: quotes, backslashes and controls are escaped. -/
def escapedChar (c : Char) : List Char :=
  if c = '"' then ['\\', '"']
  else if c = '\\' then ['\\', '\\']
  else if c.toNat = 0x08 then ['\\', 'b']
  else if c.toNat = 0x0c then ['\\', 'f']
  else if c = '\n' then ['\\', 'n']
  else if c = '\r' then ['\\', 'r']
  else if c = '\t' then ['\\', 't']
  else if c.toNat < 0x20 then
    ['\\', 'u', '0', '0', Nat.digitChar (c.toNat / 16), Nat.digitChar (c.toNat % 16)]
  else [c]

/-- A text between quotes. -/
def quote (s : String) : String := String.ofList (['"'] ++ s.toList.flatMap escapedChar ++ ['"'])

/-- The text of a number. -/
def numberText : JsonNumber → String
  | .natural n => Text.decimal n
  | .written digits => digits

/-- A scalar, if the value is one. -/
def scalarText? : Json → Option String
  | .null => some "null"
  | .bool b => some (if b then "true" else "false")
  | .number n => some (numberText n)
  | .text s => some (quote (s.getD ""))
  | .array _ => none
  | .object _ => none

/-! ### Without blanks -/

mutual

/-- The value without blanks. -/
def compact : Json → String
  | .array items => "[" ++ ",".intercalate (compactItems items) ++ "]"
  | .object members => "\x7b" ++ ",".intercalate (compactMembers members) ++ "\x7d"
  | j => (scalarText? j).getD ""

/-- Items without blanks. -/
def compactItems : List Json → List String
  | [] => []
  | item :: items => compact item :: compactItems items

/-- Members without blanks. -/
def compactMembers : List (Option String × Json) → List String
  | [] => []
  | (key, value) :: members =>
    (quote (key.getD "") ++ ":" ++ compact value) :: compactMembers members

end

/-! ### On several lines -/

/-- Items between brackets, each on a line of its own, two blanks further right than the
brackets; nothing at all stays between the brackets if there are no items. -/
def onLines (indent : Nat) (opening closing : String) (items : List String) : String :=
  if items.isEmpty then opening ++ closing
  else
    let inner := "\n" ++ String.ofList (List.replicate (indent + 2) ' ')
    let outer := "\n" ++ String.ofList (List.replicate indent ' ')
    opening ++ inner ++ ("," ++ inner).intercalate items ++ outer ++ closing

mutual

/-- The value on several lines, the first of which is indented by `indent` blanks. -/
def pretty (indent : Nat) : Json → String
  | .array items => onLines indent "[" "]" (prettyItems (indent + 2) items)
  | .object members => onLines indent "\x7b" "\x7d" (prettyMembers (indent + 2) members)
  | j => (scalarText? j).getD ""

/-- Items, to be put on lines of their own. -/
def prettyItems (indent : Nat) : List Json → List String
  | [] => []
  | item :: items => pretty indent item :: prettyItems indent items

/-- Members, to be put on lines of their own. -/
def prettyMembers (indent : Nat) : List (Option String × Json) → List String
  | [] => []
  | (key, value) :: members =>
    (quote (key.getD "") ++ ": " ++ pretty indent value) :: prettyMembers indent members

end

end WireGrammar.Json
