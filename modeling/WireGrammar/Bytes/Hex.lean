import WireGrammar.Text.Numeral

/-!
# Byte strings in hexadecimal

A byte is written as two lowercase digits.  Reading takes either case and refuses an odd number of
digits; it undoes writing (`ofHexDigits?_hexDigits`).
-/

namespace WireGrammar.Bytes

/-- The hexadecimal digit of a number below sixteen. -/
def hexDigit (n : Nat) : Char := Nat.digitChar n

/-- The two digits of a byte. -/
def hexByte (b : UInt8) : List Char := [hexDigit (b.toNat / 16), hexDigit (b.toNat % 16)]

/-- The digits of a byte string. -/
def hexDigits (bs : List UInt8) : List Char := bs.flatMap hexByte

/-- A byte string in hexadecimal. -/
def toHex (bs : List UInt8) : String := String.ofList (hexDigits bs)

/-- The bytes that pairs of digits denote. -/
def ofHexDigits? : List Char → Option (List UInt8)
  | [] => some []
  | [_] => none
  | high :: low :: cs => do
    let h ← Text.digitIn? 16 high
    let l ← Text.digitIn? 16 low
    let bs ← ofHexDigits? cs
    return UInt8.ofNat (16 * h + l) :: bs

/-- The byte string that a text denotes in hexadecimal. -/
def ofHex? (s : String) : Option (List UInt8) := ofHexDigits? s.toList

theorem digitIn?_hexDigit : ∀ {n : Nat}, n < 16 → Text.digitIn? 16 (hexDigit n) = some n := by
  decide

/-- Writing then reading gives the bytes back. -/
theorem ofHexDigits?_hexDigits (bs : List UInt8) : ofHexDigits? (hexDigits bs) = some bs := by
  induction bs with
  | nil => rfl
  | cons b bs ih =>
    have hb := b.toNat_lt
    have joined : UInt8.ofNat (16 * (b.toNat / 16) + b.toNat % 16) = b := by
      rw [Nat.div_add_mod]; exact UInt8.ofNat_toNat
    simp only [hexDigits] at ih
    simp only [hexDigits, List.flatMap_cons, hexByte, List.cons_append, List.nil_append,
      ofHexDigits?, digitIn?_hexDigit (show b.toNat / 16 < 16 by omega),
      digitIn?_hexDigit (show b.toNat % 16 < 16 by omega), ih]
    simp only [Option.bind_eq_bind, Option.bind_some, Option.pure_def, joined]

end WireGrammar.Bytes
