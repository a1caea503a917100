import WireGrammar.Dissect.Error

/-!
# Reading one scalar

The length of a field says how its scalar is read: as bits, as whole bytes, as one of the
self-describing integers, or as all that is left.
-/

namespace WireGrammar

/-- A scalar read from a cursor, the number of bits it took, and the cursor behind it. -/
structure Reading where
  value : Value
  bits : Nat
  cursor : BitCursor

namespace BitCursor

/-- Reads a scalar.  Whole bytes at a byte boundary make a block, other runs of bits a number, and
no bits at all the empty byte string, wherever the cursor stands. -/
def readScalar (c : BitCursor) : Length → Except ReadError Reading
  | .varint => do
    let p ← c.takeVarint
    return ⟨.uint p.value, p.bits, p.cursor⟩
  | .packetNumber => do
    let p ← c.takePacketNumber
    return ⟨.uint p.value, p.bits, p.cursor⟩
  | .rest => do
    let (bytes, cursor) ← c.takeRest
    return ⟨.bytes bytes, 8 * c.remainingBytes, cursor⟩
  | .bits n =>
    if n = 0 then return ⟨.bytes [], 0, c⟩
    else if n % 8 = 0 ∧ c.isAligned then do
      let (bytes, cursor) ← c.takeBytes (n / 8)
      return ⟨Value.ofBytes bytes, n, cursor⟩
    else do
      let (value, cursor) ← c.takeBits n
      return ⟨.uint value, n, cursor⟩

end BitCursor

end WireGrammar
