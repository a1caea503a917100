/-!
# The natural order of versions

In the natural order of identifiers, a run of digits counts as the number it denotes, however long
it is and whatever zeros it starts with; everything else is compared byte by byte.
-/

namespace WireGrammar.Version

/-- The byte is an ASCII digit. -/
def isDigit (b : UInt8) : Bool := 48 ≤ b.toNat && b.toNat ≤ 57

/-- The run of digits at the front. -/
def digitRun (bs : List UInt8) : List UInt8 := bs.takeWhile isDigit

/-- What follows the run of digits at the front. -/
def afterRun (bs : List UInt8) : List UInt8 := bs.dropWhile isDigit

/-- The digits from the first one on that is not zero. -/
def significant (digits : List UInt8) : List UInt8 := digits.dropWhile (· == 48)

theorem length_afterRun_le (bs : List UInt8) : (afterRun bs).length ≤ bs.length :=
  (List.dropWhile_sublist _).length_le

/-- Runs of digits by the numbers they denote: without leading zeros the longer run is the
greater, and runs of one length compare digit by digit. -/
def compareRuns (x y : List UInt8) : Ordering :=
  (compare (significant x).length (significant y).length).then
    (List.compareLex compare (significant x) (significant y))

/-- The natural order of byte strings. -/
def compareBytes : List UInt8 → List UInt8 → Ordering
  | [], [] => .eq
  | [], _ :: _ => .lt
  | _ :: _, [] => .gt
  | a :: as, b :: bs =>
    if isDigit a && isDigit b then
      match compareRuns (a :: digitRun as) (b :: digitRun bs) with
      | .eq => compareBytes (afterRun as) (afterRun bs)
      | order => order
    else
      match compare a b with
      | .eq => compareBytes as bs
      | order => order
termination_by bs => bs.length
decreasing_by
  · have := length_afterRun_le as
    simp only [List.length_cons]
    omega
  · simp

/-- The natural order of identifiers. -/
def order (a b : String) : Ordering := compareBytes a.toUTF8.toList b.toUTF8.toList

end WireGrammar.Version
