import WireGrammar.Word

/-!
# Numbers in double precision

A finite number in double precision is a multiple of the least positive one, `2 ^ -1074`: a mantissa
of at most 53 bits with up to 2045 zero bits behind it.  A decimal fraction is read as the nearest
of these numbers, and as the one with the even mantissa where it lies in the middle of two.

* `roundQuotient_mul`: a quotient without a remainder is not changed by rounding.
* `units_neg_zero`: the two zeros are equal.
-/

namespace WireGrammar

/-- A decimal fraction without a sign: `digits * 10 ^ exponent`. -/
structure Decimal where
  digits : Nat
  exponent : Int
  deriving DecidableEq, Repr, Inhabited

/-- A finite number in double precision: `mantissa * 2 ^ scale` times `2 ^ -1074`, below zero if it
is negative.  The mantissa has 53 bits unless the scale is zero. -/
structure Double where
  negative : Bool
  mantissa : Nat
  scale : Nat
  deriving DecidableEq, Repr, Inhabited

namespace Double

/-! ### Size -/

/-- The least positive number is one over two to the power of this. -/
def precision : Nat := 1074

/-- How many times the least positive number it is, without the sign. -/
def magnitude (x : Double) : Nat := x.mantissa * Word.size x.scale

/-- How many times the least positive number it is. -/
def units (x : Double) : Int := if x.negative then -(x.magnitude : Int) else x.magnitude

/-- The two numbers are equal, where the sign of a zero does not count. -/
def same (x y : Double) : Bool := x.units == y.units

/-- Zero with either sign. -/
def zero (negative : Bool) : Double := ⟨negative, 0, 0⟩

theorem units_neg_zero : (zero true).units = (zero false).units := rfl

/-! ### Rounding -/

/-- The quotient of `n` and `d` rounded to the nearest whole number, in the middle to the even
one. -/
def roundQuotient (n d : Nat) : Nat :=
  let rest := 2 * (n % d)
  if rest < d ∨ (rest = d ∧ n / d % 2 = 0) then n / d else n / d + 1

theorem roundQuotient_mul (q d : Nat) (h : 0 < d) : roundQuotient (q * d) d = q := by
  simp [roundQuotient, h]

/-- The number nearest to `n / d` times the least positive one, if it is not too large.  The scale
leaves at most 53 bits before the point; only rounding up can make a power of two of 54 bits. -/
def ofQuotient? (negative : Bool) (n d : Nat) : Option Double :=
  let scale := (n / d).log2 - 52
  let mantissa := roundQuotient n (d * Word.size scale)
  let x : Double :=
    if mantissa = Word.size 53 then ⟨negative, Word.size 52, scale + 1⟩
    else ⟨negative, mantissa, scale⟩
  if x.scale ≤ 2045 then some x else none

/-- The number nearest to a decimal fraction, if it is not too large.  Fractions that are zero, or
clearly rounded to it, and those clearly too large are told by their first digit alone. -/
def ofDecimal? (negative : Bool) (x : Decimal) : Option Double :=
  let point : Int := (Nat.toDigits 10 x.digits).length + x.exponent
  if x.digits = 0 ∨ point < -330 then some (zero negative)
  else if 310 < point then none
  else
    let numerator := x.digits * Nat.pow 10 x.exponent.toNat * Word.size precision
    ofQuotient? negative numerator (Nat.pow 10 (-x.exponent).toNat)

end Double

end WireGrammar
