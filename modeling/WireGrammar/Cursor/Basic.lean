import WireGrammar.Cursor.Slice

/-!
# Bit cursors

A cursor walks over a slice bit by bit, the most significant bit of each byte first.  It is given by
the number of bits it has passed, so a cursor kept aside is a complete point of return.
-/

namespace WireGrammar

/-- A slice and the number of its bits already passed. -/
structure BitCursor where
  slice : Slice
  position : Nat
  deriving DecidableEq, Repr

namespace BitCursor

/-- The cursor at the start of a slice. -/
def start (s : Slice) : BitCursor := ⟨s, 0⟩

/-- The index, within the slice, of the byte that the next bit is in. -/
def byteIndex (c : BitCursor) : Nat := c.position / 8

/-- The bits of that byte already passed. -/
def bitOffset (c : BitCursor) : Nat := c.position % 8

/-- The absolute offset of that byte. -/
def absolute (c : BitCursor) : Nat := c.slice.offset + c.byteIndex

/-- The cursor stands between two bytes. -/
def isAligned (c : BitCursor) : Bool := c.bitOffset == 0

/-- No byte is left, not even in part. -/
def isExhausted (c : BitCursor) : Bool := c.slice.length ≤ c.byteIndex

/-- The bytes left, one that is passed in part included. -/
def remainingBytes (c : BitCursor) : Nat := c.slice.length - c.byteIndex

/-- The bits left. -/
def remainingBits (c : BitCursor) : Nat := 8 * c.slice.length - c.position

/-- The bytes passed, one that is passed in part included. -/
def consumedBytes (c : BitCursor) : Nat := (c.position + 7) / 8

/-- What is left, from the current byte on. -/
def remaining (c : BitCursor) : Slice := c.slice.drop c.byteIndex

/-- The cursor `n` bytes further on, or where its slice ends if that comes first. -/
def advance (c : BitCursor) (n : Nat) : BitCursor :=
  { c with position := 8 * min (c.byteIndex + n) c.slice.length + c.bitOffset }

/-- The cursor has not left its slice. -/
def Within (c : BitCursor) : Prop := c.position ≤ 8 * c.slice.length

theorem within_start (s : Slice) : (start s).Within := Nat.zero_le _

/-- Every bit of the slice is either passed or left. -/
theorem Within.position_add_remainingBits {c : BitCursor} (h : c.Within) :
    c.position + c.remainingBits = 8 * c.slice.length := by
  unfold Within at h
  unfold remainingBits
  omega

theorem isExhausted_eq_false_iff {c : BitCursor} :
    c.isExhausted = false ↔ c.position < 8 * c.slice.length := by
  rw [isExhausted, decide_eq_false_iff_not, byteIndex]
  omega

theorem position_eq (c : BitCursor) : c.position = 8 * c.byteIndex + c.bitOffset := by
  unfold byteIndex bitOffset
  omega

theorem within_advance {c : BitCursor} (aligned : c.isAligned) (n : Nat) :
    (c.advance n).Within := by
  simp only [isAligned, beq_iff_eq] at aligned
  simp only [Within, advance, aligned]
  omega

/-- Advancing never goes back. -/
theorem position_le_advance {c : BitCursor} (h : c.Within) (n : Nat) :
    c.position ≤ (c.advance n).position := by
  simp only [Within, BitCursor.advance, bitOffset, byteIndex] at *
  omega

@[simp] theorem slice_advance (c : BitCursor) (n : Nat) : (c.advance n).slice = c.slice := rfl

end BitCursor

end WireGrammar
