import WireGrammar.Text.Blank
import WireGrammar.Word

/-!
# Numerals

A number is written in base ten or, after `0x`, in base sixteen with lowercase digits, always
without leading zeros.  Reading is more generous: blanks around the numeral, either case, leading
zeros and a sign are accepted.
-/

namespace WireGrammar.Text

/-! ### Writing -/

/-- The decimal numeral of `n`. -/
def decimal (n : Nat) : String := String.ofList (Nat.toDigits 10 n)

/-- The decimal numeral of `i`, with a minus sign below zero. -/
def decimalInt (i : Int) : String :=
  if i < 0 then "-" ++ decimal i.natAbs else decimal i.natAbs

/-- The hexadecimal numeral of `n` behind `0x`. -/
def hexadecimal (n : Nat) : String := "0x" ++ String.ofList (Nat.toDigits 16 n)

/-- The hexadecimal numeral of `n` behind `0x`, with zeros in front up to `width` digits. -/
def paddedHexadecimal (width n : Nat) : String :=
  let digits := Nat.toDigits 16 n
  "0x" ++ String.ofList (List.replicate (width - digits.length) '0' ++ digits)

/-! ### Reading -/

/-- The value of `c` as a digit, in any base up to sixteen. -/
def digitValue? (c : Char) : Option Nat :=
  if '0' ≤ c ∧ c ≤ '9' then some (c.toNat - '0'.toNat)
  else if 'a' ≤ c ∧ c ≤ 'f' then some (c.toNat - 'a'.toNat + 10)
  else if 'A' ≤ c ∧ c ≤ 'F' then some (c.toNat - 'A'.toNat + 10)
  else none

/-- The value of `c` as a digit of the base `base`. -/
def digitIn? (base : Nat) (c : Char) : Option Nat :=
  (digitValue? c).filter (· < base)

/-- The number that digits denote after digits that denote `high`. -/
def digitsFrom? (base : Nat) (high : Nat) : List Char → Option Nat
  | [] => some high
  | c :: cs => (digitIn? base c).bind fun d => digitsFrom? base (base * high + d) cs

/-- The number that a nonempty row of digits denotes. -/
def digits? (base : Nat) (cs : List Char) : Option Nat :=
  if cs.isEmpty then none else digitsFrom? base 0 cs

/-- Digits behind an optional sign. -/
def signedDigits? (base : Nat) : List Char → Option Int
  | '-' :: cs => (digits? base cs).map fun n => -(n : Int)
  | '+' :: cs => (digits? base cs).map fun n => (n : Int)
  | cs => (digits? base cs).map fun n => (n : Int)

/-- The range of the numbers that a numeral may denote, that of 128-bit signed words. -/
def inIntegerRange (i : Int) : Bool := Word.FitsSigned 128 i

/-- The integer that a text denotes: between blanks, a decimal numeral or one in base sixteen
behind `0x` or `0X`, the sign standing after the `0x`. -/
def integer? (s : String) : Option Int :=
  let value? := match trim s.toList with
    | '0' :: 'x' :: cs => signedDigits? 16 cs
    | '0' :: 'X' :: cs => signedDigits? 16 cs
    | cs => signedDigits? 10 cs
  value?.filter inIntegerRange

end WireGrammar.Text
