import WireGrammar.Bytes.Number
import WireGrammar.Cursor.Basic

/-!
# Reading from a cursor

Runs of bits may start and end anywhere; whole bytes, self-describing integers, packet numbers and
windows start between two bytes.  A read that fails tells why and where, and a read that succeeds
returns the cursor behind what it took.
-/

namespace WireGrammar

/-- Why a read fails, with the absolute offset of the byte it was to start in. -/
inductive ReadError where
  | insufficientBytes (offset needed available : Nat)
  /-- The two leading bits announce no width. -/
  | unknownEncodingPattern (offset pattern : Nat)
  /-- The read would start inside a byte. -/
  | unaligned (offset bit : Nat)
  /-- More than 64 bits that are no run of whole bytes. -/
  | unsupportedWidth (offset bits : Nat)
  deriving DecidableEq, Repr

namespace BitCursor

/-! ### Conditions on reads -/

/-- The refusal to read from inside a byte, if the cursor stands in one. -/
def requireAligned (c : BitCursor) : Except ReadError Unit :=
  if c.isAligned then .ok () else .error (.unaligned c.absolute c.bitOffset)

/-- The refusal to read `n` bytes, if fewer are left. -/
def requireBytes (c : BitCursor) (n : Nat) : Except ReadError Unit :=
  if n ≤ c.remainingBytes then .ok ()
  else .error (.insufficientBytes c.absolute n c.remainingBytes)

/-! ### Whole bytes -/

/-- The next `n` bytes. -/
def peekBytes (c : BitCursor) (n : Nat) : List UInt8 := c.remaining.bytes.take n

/-- Takes `n` bytes. -/
def takeBytes (c : BitCursor) (n : Nat) : Except ReadError (List UInt8 × BitCursor) := do
  c.requireAligned
  c.requireBytes n
  return (c.peekBytes n, { c with position := c.position + 8 * n })

/-- Takes every byte left. -/
def takeRest (c : BitCursor) : Except ReadError (List UInt8 × BitCursor) := do
  c.requireAligned
  return (c.remaining.bytes, { c with position := 8 * c.slice.length })

/-- The slice of the next `n` bytes; the cursor itself stays. -/
def window (c : BitCursor) (n : Nat) : Except ReadError Slice := do
  c.requireAligned
  c.requireBytes n
  return c.remaining.take n

/-- The slice of all that is left; the cursor itself stays. -/
def rest (c : BitCursor) : Except ReadError Slice := do
  c.requireAligned
  return c.remaining

/-! ### Self-describing integers -/

/-- The two leading bits of the next byte, after the conditions on reading it. -/
def leadingPattern (c : BitCursor) : Except ReadError Nat := do
  c.requireAligned
  c.requireBytes 1
  return (c.peekBytes 1).head?.elim 0 fun b => b.toNat / 64

/-- A number read from leading two bits and the value behind them, with the bits it took. -/
structure Prefixed where
  value : Nat
  bits : Nat
  cursor : BitCursor

/-- Takes `width` bytes as a number whose two leading bits do not count. -/
def takePrefixed (c : BitCursor) (width : Nat) : Except ReadError Prefixed := do
  c.requireBytes width
  return { value := Bytes.number (c.peekBytes width) % Word.size (8 * width - 2)
           bits := 8 * width
           cursor := { c with position := c.position + 8 * width } }

/-- The width in bytes of a self-describing integer with the given leading bits. -/
def varintWidth : Nat → Nat
  | 0 => 1
  | 1 => 2
  | 2 => 4
  | _ => 8

/-- Takes a self-describing integer, of 1, 2, 4 or 8 bytes as its leading bits count them. -/
def takeVarint (c : BitCursor) : Except ReadError Prefixed := do
  let pattern ← c.leadingPattern
  c.takePrefixed (varintWidth pattern)

/-- The width in bytes of a packet number with the given leading bits. -/
def packetNumberWidth? : Nat → Option Nat
  | 0 => some 1
  | 2 => some 2
  | 3 => some 4
  | _ => none

/-- Takes a packet number, of 1, 2 or 4 bytes after the leading bits `00`, `10` and `11`. -/
def takePacketNumber (c : BitCursor) : Except ReadError Prefixed := do
  let pattern ← c.leadingPattern
  match packetNumberWidth? pattern with
  | some width => c.takePrefixed width
  | none => throw (.unknownEncodingPattern c.absolute pattern)

/-! ### Runs of bits -/

/-- The number formed by the next `n` bits: the bytes that hold them as one number, without the
bits passed before them and the bits left behind them. -/
def peekBits (c : BitCursor) (n : Nat) : Nat :=
  let last := c.bitOffset + n
  let held := (last + 7) / 8
  Bytes.number (c.peekBytes held) / Word.size (8 * held - last) % Word.size n

/-- Takes `n` bits, at most 64, across byte boundaries where needed. -/
def takeBits (c : BitCursor) (n : Nat) : Except ReadError (Nat × BitCursor) :=
  if 64 < n then .error (.unsupportedWidth c.absolute n)
  else if c.remainingBits < n then
    .error (.insufficientBytes c.absolute ((c.bitOffset + n + 7) / 8) c.remainingBytes)
  else .ok (c.peekBits n, { c with position := c.position + n })

end BitCursor

end WireGrammar
