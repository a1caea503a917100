import WireGrammar.Value.Basic

/-!
# Formats

Formats turn a scalar into the text to be shown for it.  What a format does not apply to stays as it
is.
-/

namespace WireGrammar

/-- How a field is shown. -/
inductive Format where
  /-- Hexadecimal, behind `0x` for numbers. -/
  | hex
  /-- Decimal numbers. -/
  | dec
  /-- Byte strings as ASCII text. -/
  | ascii
  /-- The scalar itself. -/
  | bytes
  deriving DecidableEq, Repr, Inhabited

namespace Format

/-- The word for the format in grammars. -/
def name : Format → String
  | .hex => "hex"
  | .dec => "dec"
  | .ascii => "ascii"
  | .bytes => "bytes"

/-- The format that a word names. -/
def ofName? : String → Option Format
  | "hex" => some .hex
  | "dec" => some .dec
  | "ascii" => some .ascii
  | "bytes" => some .bytes
  | _ => none

/-- The character for a byte: itself if it is a space or graphic, a full stop otherwise. -/
def asciiChar (b : UInt8) : Char :=
  if 0x20 ≤ b.toNat ∧ b.toNat ≤ 0x7e then Char.ofNat b.toNat else '.'

/-- The scalar in the format. -/
def apply : Format → Value → Value
  | .hex, .uint n => .text (Text.hexadecimal n)
  | .hex, .wide n => .text (Text.hexadecimal n)
  | .hex, .bytes bs => .text (Bytes.toHex bs)
  | .dec, .uint n => .text (Text.decimal n)
  | .dec, .wide n => .text (Text.decimal n)
  | .ascii, .bytes bs => .text (String.ofList (bs.map asciiChar))
  | _, v => v

end Format

end WireGrammar
