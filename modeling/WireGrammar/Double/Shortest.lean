import WireGrammar.Double.Basic

/-!
# Shortest decimals

The decimal fraction by which a number in double precision is shown: of those that are read as that
number, the one with the fewest digits, and of two with equally many the nearer one.

With a given number of digits there are only two fractions to try, the neighbours of the number on
either side: if any fraction with so many digits is read as the number, one of the two is.

* `reads_of_decimalOfLength?`: a fraction of some length is only taken if it is read as the number.
-/

namespace WireGrammar

/-- The same fraction without zeros at the end of its digits. -/
def Decimal.trim (x : Decimal) : Decimal :=
  if x.digits ≠ 0 ∧ x.digits % 10 = 0 then Decimal.trim ⟨x.digits / 10, x.exponent + 1⟩ else x
termination_by x.digits
decreasing_by
  have := Nat.pos_of_ne_zero (by assumption : x.digits ≠ 0 ∧ x.digits % 10 = 0).1
  exact Nat.div_lt_self this (by decide)

namespace Double

/-- The place of the point behind the first digit: the number is below ten to this power, and not
below a tenth of that. -/
def point (x : Double) : Int :=
  let scaled := x.magnitude * Nat.pow 10 324 / Word.size precision
  (Nat.toDigits 10 scaled).length - 324

/-- The decimal fractions with the given exponent next to the number, the nearer one first. -/
def neighbours (x : Double) (exponent : Int) : List Decimal :=
  let numerator := x.magnitude * Nat.pow 10 (-exponent).toNat
  let denominator := Word.size precision * Nat.pow 10 exponent.toNat
  let below := numerator / denominator
  let nearest := roundQuotient numerator denominator
  [⟨nearest, exponent⟩, ⟨if nearest = below then below + 1 else below, exponent⟩]

/-- The decimal fraction is read as the number. -/
def reads (x : Double) (d : Decimal) : Bool := ofDecimal? x.negative d == some x

/-- A fraction of `count` digits that is read as the number. -/
def decimalOfLength? (x : Double) (count : Nat) : Option Decimal :=
  (x.neighbours (x.point - count)).find? x.reads

theorem reads_of_decimalOfLength? {x : Double} {count : Nat} {d : Decimal}
    (h : x.decimalOfLength? count = some d) : x.reads d := List.find?_some h

/-- The exact value, which all numbers have as a decimal fraction. -/
def exact (x : Double) : Decimal := ⟨x.magnitude * Nat.pow 5 precision, -precision⟩

/-- The shortest decimal fraction that is read as the number; seventeen digits always suffice. -/
def shortest (x : Double) : Decimal :=
  if x.mantissa = 0 then ⟨0, 0⟩
  else (((List.range' 1 17).findSome? x.decimalOfLength?).getD x.exact).trim

end Double

end WireGrammar
