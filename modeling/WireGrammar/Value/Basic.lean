import WireGrammar.Bytes.Hex
import WireGrammar.Bytes.Number

/-!
# Scalars

Blocks of one, two, four and eight bytes, bit fields and self-describing integers are numbers, a
block of sixteen bytes is a wide number, any other block is a byte string, and text only arises by
formatting one of these.
-/

namespace WireGrammar

/-- A decoded scalar. -/
inductive Value where
  /-- A number below `2 ^ 64`. -/
  | uint (n : Nat)
  /-- A number below `2 ^ 128`, from sixteen bytes. -/
  | wide (n : Nat)
  | bytes (bs : List UInt8)
  | text (s : String)
  deriving DecidableEq, Repr, Inhabited

namespace Value

/-- The scalar that a block of whole bytes stands for. -/
def ofBytes (bs : List UInt8) : Value :=
  if bs.length = 1 ∨ bs.length = 2 ∨ bs.length = 4 ∨ bs.length = 8 then .uint (Bytes.number bs)
  else if bs.length = 16 then .wide (Bytes.number bs)
  else .bytes bs

/-- The scalar read as an integer, if it is a number or a numeral in the range of numerals. -/
def integer? : Value → Option Int
  | .uint n => some n
  | .wide n => if n < Word.size 127 then some n else none
  | .bytes _ => none
  | .text s => Text.integer? s

/-- The scalar read as a number below `2 ^ 64`. -/
def number? : Value → Option Nat
  | .uint n => some n
  | .wide n => if n < Word.size 64 then some n else none
  | .bytes _ => none
  | .text s => (Text.integer? s).bind fun i =>
    if 0 ≤ i ∧ i < Word.size 64 then some i.toNat else none

/-- The text of a formatted scalar. -/
def text? : Value → Option String
  | .text s => some s
  | _ => none

/-- The scalar as messages show it. -/
def display : Value → String
  | .uint n => Text.decimal n
  | .wide n => Text.paddedHexadecimal 32 n
  | .bytes bs => "hex(" ++ Bytes.toHex bs ++ ")"
  | .text s => s

end Value

end WireGrammar
