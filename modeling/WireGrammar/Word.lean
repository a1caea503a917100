/-!
# Words

Words of a fixed number of bits: how many values they take, and which integers they hold when one of
their bits is the sign.

* `size_succ`, `size_add`: the number of values doubles with each bit.
-/

namespace WireGrammar.Word

/-- The number of values that `bits` bits take: two to the power of `bits`. -/
def size (bits : Nat) : Nat := Nat.pow 2 bits

/-- The integer is held by a word of `bits` bits, one of which is the sign. -/
abbrev FitsSigned (bits : Nat) (i : Int) : Prop :=
  -(size (bits - 1) : Int) ≤ i ∧ i < size (bits - 1)

@[simp] theorem size_zero : size 0 = 1 := rfl

/-- One more bit doubles the number of values. -/
theorem size_succ (bits : Nat) : size (bits + 1) = 2 * size bits := Nat.pow_succ'

/-- A word in two parts takes every combination of their values. -/
theorem size_add (high low : Nat) : size (high + low) = size high * size low := Nat.pow_add ..

/-- A wider word takes no fewer values. -/
theorem size_le {bits bits' : Nat} (h : bits ≤ bits') : size bits ≤ size bits' :=
  Nat.pow_le_pow_right (by decide) h

theorem size_pos (bits : Nat) : 0 < size bits := Nat.pow_pos (by decide)

end WireGrammar.Word
