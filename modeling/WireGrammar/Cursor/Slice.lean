/-!
# Slices of a packet

A slice is a run of consecutive bytes of a packet together with the place it starts at.
-/

namespace WireGrammar

/-- Consecutive bytes of a packet, the first of them at the absolute offset `offset`. -/
structure Slice where
  offset : Nat
  bytes : List UInt8
  deriving DecidableEq, Repr

namespace Slice

/-- The number of bytes. -/
def length (s : Slice) : Nat := s.bytes.length

/-- The slice without its first `n` bytes. -/
def drop (s : Slice) (n : Nat) : Slice := ⟨s.offset + n, s.bytes.drop n⟩

/-- The first `n` bytes of the slice. -/
def take (s : Slice) (n : Nat) : Slice := ⟨s.offset, s.bytes.take n⟩

@[simp] theorem length_drop (s : Slice) (n : Nat) : (s.drop n).length = s.length - n := by
  simp [drop, length]

@[simp] theorem offset_drop (s : Slice) (n : Nat) : (s.drop n).offset = s.offset + n := rfl

theorem drop_zero (s : Slice) : s.drop 0 = s := rfl

theorem drop_drop (s : Slice) (m n : Nat) : (s.drop m).drop n = s.drop (m + n) := by
  simp only [drop, List.drop_drop, Nat.add_assoc]

theorem length_take {s : Slice} {n : Nat} (h : n ≤ s.length) : (s.take n).length = n := by
  simp only [take, length, List.length_take] at *
  omega

end Slice

end WireGrammar
