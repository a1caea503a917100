import WireGrammar.Yaml.Node

/-!
# Unquoted scalars

What an unquoted scalar means: null, a truth value, an integer in one of four bases, a decimal
fraction, or else its own text.
-/

namespace WireGrammar.Yaml

/-! ### Integers -/

/-- The text without a leading plus sign. -/
def withoutPlus : List Char → List Char
  | '+' :: cs => cs
  | cs => cs

/-- The base that the first two characters of an integer announce, and the rest of it. -/
def basePart : List Char → Nat × List Char
  | '0' :: 'x' :: cs => (16, cs)
  | '0' :: 'o' :: cs => (8, cs)
  | '0' :: 'b' :: cs => (2, cs)
  | cs => (10, cs)

/-- Digits that start with a superfluous zero, behind an optional sign: never a number. -/
def isZeroPadded (cs : List Char) : Bool :=
  let body := match cs with
    | '-' :: cs => cs
    | '+' :: cs => cs
    | cs => cs
  match body with
  | '0' :: rest => !rest.isEmpty && rest.all Char.isDigit
  | _ => false

/-- The integer that a scalar denotes, of any size. -/
def integer? (cs : List Char) : Option Int :=
  if isZeroPadded cs then none
  else
    let (negative, body) := match cs with
      | '-' :: cs => (true, cs)
      | cs => (false, withoutPlus cs)
    let (base, digits) := basePart body
    (Text.digits? base digits).map fun n => if negative then -(n : Int) else n

/-! ### Decimal fractions -/

/-- The digits at the front of a text, and what follows them. -/
def spanDigits (cs : List Char) : List Char × List Char := cs.span Char.isDigit

/-- The exponent at the end of a decimal fraction: `e`, an optional sign, and digits. -/
def exponent? : List Char → Option Int
  | [] => some 0
  | c :: cs => if c = 'e' ∨ c = 'E' then Text.signedDigits? 10 cs else none

/-- A decimal fraction without its sign, as a number in double precision: digits around an optional
point, not all missing, and an optional exponent.  There is none if the number is too large. -/
def fraction? (negative : Bool) (cs : List Char) : Option Double :=
  let (whole, afterWhole) := spanDigits cs
  let (places, rest) := match afterWhole with
    | '.' :: cs => spanDigits cs
    | cs => ([], cs)
  if whole.isEmpty && places.isEmpty then none
  else do
    let digits ← Text.digitsFrom? 10 0 (whole ++ places)
    let exponent ← exponent? rest
    Double.ofDecimal? negative ⟨digits, exponent - places.length⟩

/-- The number, other than an integer, that a scalar denotes. -/
def decimal? (cs : List Char) : Option Number :=
  match String.ofList cs with
  | ".inf" | ".Inf" | ".INF" | "+.inf" | "+.Inf" | "+.INF" => some (.infinite false)
  | "-.inf" | "-.Inf" | "-.INF" => some (.infinite true)
  | ".nan" | ".NaN" | ".NAN" => some .notANumber
  | _ =>
    match cs with
    | '-' :: cs => (fraction? true cs).map .finite
    | cs => (fraction? false (withoutPlus cs)).map .finite

/-! ### Scalars -/

/-- An integer is a number while 64 bits hold it, with or without a sign; one that needs up to
128 bits is refused. -/
inductive IntegerClass where
  | number
  | refused
  | beyond

/-- The class of an integer by its size. -/
def integerClass (i : Int) : IntegerClass :=
  if -(Word.size 63 : Int) ≤ i ∧ i < Word.size 64 then .number
  else if -(Word.size 127 : Int) ≤ i ∧ i < Word.size 128 then .refused
  else .beyond

/-- The decimal fraction that a scalar denotes, or else its text. -/
def decimalOrText (s : String) : Node :=
  if isZeroPadded s.toList then .text s
  else match decimal? s.toList with
    | some n => .number n
    | none => .text s

/-- The value of an unquoted scalar; none if it is an integer that is refused. -/
def Node.ofPlain? (s : String) : Option Node :=
  match s with
  | "" | "~" | "null" | "Null" | "NULL" => some .null
  | "true" | "True" | "TRUE" => some (.bool true)
  | "false" | "False" | "FALSE" => some (.bool false)
  | _ =>
    match integer? s.toList with
    | some i =>
      match integerClass i with
      | .number => some (.number (.int i))
      | .refused => none
      | .beyond => some (decimalOrText s)
    | none => some (decimalOrText s)

end WireGrammar.Yaml
