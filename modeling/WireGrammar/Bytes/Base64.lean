import WireGrammar.Bytes.Number

/-!
# Base 64

The alphabet is the standard one.  Four symbols stand for three bytes; the last group may hold two
or three symbols, is then filled up with `=`, and the bits that its last symbol has to spare must be
zero.  Every refusal names the offset of the symbol at fault.
-/

namespace WireGrammar.Bytes.Base64

/-- Why a text is no base 64. -/
inductive Error where
  /-- The byte at the offset is no symbol, or a filler out of place. -/
  | invalidSymbol (offset : Nat) (byte : UInt8)
  /-- The last group has a single symbol. -/
  | invalidLength (length : Nat)
  /-- The last symbol has bits that no byte takes. -/
  | invalidLastSymbol (offset : Nat) (byte : UInt8)
  /-- The last group is not filled up. -/
  | invalidPadding
  deriving DecidableEq, Repr

/-- The wording of a refusal. -/
def Error.message : Error → String
  | .invalidSymbol offset byte => s!"Invalid symbol {byte}, offset {offset}."
  | .invalidLength length => s!"Invalid input length: {length}"
  | .invalidLastSymbol offset byte => s!"Invalid last symbol {byte}, offset {offset}."
  | .invalidPadding => "Invalid padding"

/-- The filler of a last group, `=`. -/
def filler : UInt8 := 61

/-- The value of a symbol. -/
def symbolValue? (b : UInt8) : Option Nat :=
  let n := b.toNat
  if 65 ≤ n ∧ n ≤ 90 then some (n - 65)
  else if 97 ≤ n ∧ n ≤ 122 then some (n - 97 + 26)
  else if 48 ≤ n ∧ n ≤ 57 then some (n - 48 + 52)
  else if n = 43 then some 62
  else if n = 47 then some 63
  else none

/-- The number that symbols denote after symbols that denote `high`; the first one stands at
`offset`. -/
def symbolsFrom (high offset : Nat) : List UInt8 → Except Error Nat
  | [] => .ok high
  | b :: bs =>
    match symbolValue? b with
    | none => .error (.invalidSymbol offset b)
    | some v => symbolsFrom (64 * high + v) (offset + 1) bs

/-- The bytes of the last group, which starts at `offset` and has at most four places. -/
def decodeLast (offset : Nat) (group : List UInt8) : Except Error (List UInt8) := do
  let symbols := group.takeWhile (· != filler)
  let fillers := group.dropWhile (· != filler)
  let n ← symbolsFrom 0 offset symbols
  let count := symbols.length
  if !fillers.isEmpty && (count < 2 || fillers.any (· != filler)) then
    throw (.invalidSymbol (offset + count) filler)
  if group.isEmpty then return []
  if count < 2 then throw (.invalidLength (offset + count))
  if group.length ≠ 4 then throw .invalidPadding
  let bytes := count * 6 / 8
  let spare := Word.size (count * 6 - bytes * 8)
  if n % spare ≠ 0 then
    throw (.invalidLastSymbol (offset + count - 1) (symbols.getLastD filler))
  return ofNumber bytes (n / spare)

/-- The bytes of all groups from the one at `offset` on. -/
def decodeFrom (offset : Nat) : List UInt8 → Except Error (List UInt8)
  | a :: b :: c :: d :: rest =>
    if rest.isEmpty then decodeLast offset [a, b, c, d]
    else do
      let n ← symbolsFrom 0 offset [a, b, c, d]
      let bytes ← decodeFrom (offset + 4) rest
      return ofNumber 3 n ++ bytes
  | group => decodeLast offset group

/-- A way to read bytes off a text in base 64. -/
abbrev Decoder : Type := List UInt8 → Except Error (List UInt8)

/-- The bytes that a text stands for.  A single byte behind the last full group is judged before
everything else, so that a stray line end is named as such. -/
def decode (text : List UInt8) : Except Error (List UInt8) :=
  match text.getLast? with
  | some last =>
    if text.length % 4 = 1 ∧ last ≠ filler ∧ (symbolValue? last).isNone then
      .error (.invalidSymbol (text.length - 1) last)
    else decodeFrom 0 text
  | none => .ok []

end WireGrammar.Bytes.Base64
