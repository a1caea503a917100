import WireGrammar.Value.Format
import WireGrammar.Value.Literal

/-!
# Numerals are read back

The numeral that is written for a number is read as that number.  So a literal cannot tell a number
from its numeral, in whatever spelling the literal is given.

* `integer?_decimal`, `integer?_hexadecimal_eq`: reading what was written;
* `Value.matches_apply_of_number`: a number in a format agrees with the literals that it agrees with
  itself;
* `Value.number?_apply_of_number`: and it is read as the number that it is read as itself.
-/

namespace WireGrammar

namespace Text

/-! ### Digits -/

variable {base high n d : Nat} {as bs : List Char}

theorem digitValue?_digitChar (h : d < 16) : digitValue? d.digitChar = some d := by
  have all : ∀ d < 16, digitValue? d.digitChar = some d := by decide
  exact all d h

/-- A digit is no blank, no sign, and no mark of a base. -/
theorem digitChar_plain (h : d < 16) : isBlank d.digitChar = false ∧ d.digitChar ≠ '-' ∧
    d.digitChar ≠ '+' ∧ d.digitChar ≠ 'x' ∧ d.digitChar ≠ 'X' := by
  have all : ∀ d < 16, isBlank d.digitChar = false ∧ d.digitChar ≠ '-' ∧ d.digitChar ≠ '+' ∧
      d.digitChar ≠ 'x' ∧ d.digitChar ≠ 'X' := by decide
  exact all d h

theorem digitsFrom?_append : digitsFrom? base high (as ++ bs) =
    (digitsFrom? base high as).bind fun n => digitsFrom? base n bs := by
  induction as generalizing high with
  | nil => rfl
  | cons c as ih =>
    rw [List.cons_append, digitsFrom?, digitsFrom?]
    cases digitIn? base c with
    | none => rfl
    | some d => exact ih

/-- The digits of a number denote it. -/
theorem digitsFrom?_toDigits (low : 1 < base) (high : base ≤ 16) (n : Nat) :
    digitsFrom? base 0 (base.toDigits n) = some n := by
  have digit : ∀ d < base, digitIn? base d.digitChar = some d := by
    intro d hd
    rw [digitIn?, digitValue?_digitChar (by omega), Option.filter_some, if_pos (by simpa using hd)]
  induction n using Nat.strongRecOn with
  | ind n ih =>
    by_cases small : n < base
    · rw [Nat.toDigits_of_lt_base small, digitsFrom?, digit n small]
      simp [digitsFrom?]
    · have last : n % base < base := Nat.mod_lt n (by omega)
      have smaller : n / base < n := Nat.div_lt_self (by omega) low
      rw [Nat.toDigits_of_base_le low (by omega), digitsFrom?_append, ih (n / base) smaller,
        Option.bind_some, digitsFrom?, digit _ last]
      simp [digitsFrom?, Nat.div_add_mod]

theorem digits?_toDigits (low : 1 < base) (high : base ≤ 16) (n : Nat) :
    digits? base (base.toDigits n) = some n := by
  have some : (base.toDigits n).isEmpty = false := List.isEmpty_eq_false_iff.mpr Nat.toDigits_ne_nil
  rw [digits?, some, if_neg (by decide), digitsFrom?_toDigits low high n]

theorem eq_digitChar_of_mem_toDigits (low : 1 < base) {c : Char} (h : c ∈ base.toDigits n) :
    ∃ d < base, c = d.digitChar := by
  induction n using Nat.strongRecOn with
  | ind n ih =>
    by_cases small : n < base
    · rw [Nat.toDigits_of_lt_base small] at h
      exact ⟨n, small, List.mem_singleton.mp h⟩
    · have last : n % base < base := Nat.mod_lt n (by omega)
      have smaller : n / base < n := Nat.div_lt_self (by omega) low
      rw [Nat.toDigits_of_base_le low (by omega)] at h
      rcases List.mem_append.mp h with front | back
      · exact ih (n / base) smaller front
      · exact ⟨n % base, last, List.mem_singleton.mp back⟩

/-- The digits of a number start neither with a blank nor with a sign, and no mark of a base comes
second. -/
theorem plain_of_mem_toDigits (low : 1 < base) (high : base ≤ 16) {c : Char}
    (h : c ∈ base.toDigits n) :
    isBlank c = false ∧ c ≠ '-' ∧ c ≠ '+' ∧ c ≠ 'x' ∧ c ≠ 'X' := by
  obtain ⟨d, hd, rfl⟩ := eq_digitChar_of_mem_toDigits low h
  exact digitChar_plain (by omega)

/-! ### Numerals -/

theorem signedDigits?_toDigits (low : 1 < base) (high : base ≤ 16) (n : Nat) :
    signedDigits? base (base.toDigits n) = some (n : Int) := by
  have read := digits?_toDigits low high n
  have plain : ∀ c ∈ base.toDigits n, c ≠ '-' ∧ c ≠ '+' := fun c mem =>
    ⟨(plain_of_mem_toDigits low high mem).2.1, (plain_of_mem_toDigits low high mem).2.2.1⟩
  generalize base.toDigits n = cs at read plain
  unfold signedDigits?
  split
  · exact absurd rfl (plain '-' List.mem_cons_self).1
  · exact absurd rfl (plain '+' List.mem_cons_self).2
  · rw [read]
    rfl

theorem inIntegerRange_iff : inIntegerRange (n : Int) = true ↔ n < Word.size 127 := by
  simp only [inIntegerRange, Word.FitsSigned, decide_eq_true_eq, show 128 - 1 = 127 from rfl]
  omega

/-- A decimal numeral is read as the number it was written for. -/
theorem integer?_decimal (h : n < Word.size 127) : integer? (decimal n) = some (n : Int) := by
  have plain {c : Char} (mem : c ∈ Nat.toDigits 10 n) :=
    plain_of_mem_toDigits (by decide) (by decide) mem
  have trimmed : trim (Nat.toDigits 10 n) = Nat.toDigits 10 n :=
    trim_eq_self (fun c mem => (plain (List.mem_of_mem_head? mem)).1)
      fun c mem => (plain (List.mem_of_mem_getLast? mem)).1
  have read := signedDigits?_toDigits (show 1 < 10 by decide) (by decide) n
  have marks : ∀ c ∈ Nat.toDigits 10 n, c ≠ 'x' ∧ c ≠ 'X' := fun c mem => (plain mem).2.2.2
  rw [integer?, decimal, String.toList_ofList, trimmed]
  generalize Nat.toDigits 10 n = cs at read marks
  split
  · exact absurd rfl (marks 'x' (by simp)).1
  · exact absurd rfl (marks 'X' (by simp)).2
  · rw [read, Option.filter_some, if_pos (inIntegerRange_iff.mpr h)]

/-- A hexadecimal numeral is read as the number it was written for, if that is not too large to be
read at all. -/
theorem integer?_hexadecimal_eq (n : Nat) :
    integer? (hexadecimal n) = if n < Word.size 127 then some (n : Int) else none := by
  have plain {c : Char} (mem : c ∈ Nat.toDigits 16 n) :=
    plain_of_mem_toDigits (by decide) (by decide) mem
  have written : (hexadecimal n).toList = '0' :: 'x' :: Nat.toDigits 16 n := by
    simp [hexadecimal]
  have unblank : ∀ c ∈ '0' :: 'x' :: Nat.toDigits 16 n, isBlank c = false := by
    refine List.forall_mem_cons.mpr ⟨by decide, List.forall_mem_cons.mpr ⟨by decide, ?_⟩⟩
    exact fun c mem => (plain mem).1
  have trimmed : trim ('0' :: 'x' :: Nat.toDigits 16 n) = '0' :: 'x' :: Nat.toDigits 16 n :=
    trim_eq_self (fun c mem => unblank c (List.mem_of_mem_head? mem))
      fun c mem => unblank c (List.mem_of_mem_getLast? mem)
  have read := signedDigits?_toDigits (show 1 < 16 by decide) (by decide) n
  rw [integer?, written, trimmed]
  simp only [read, Option.filter_some, inIntegerRange_iff]

theorem integer?_hexadecimal (h : n < Word.size 127) :
    integer? (hexadecimal n) = some (n : Int) := by
  rw [integer?_hexadecimal_eq, if_pos h]

end Text

/-! ### Literals -/

/-- A format of a number leaves it as it is, or writes a numeral for it. -/
theorem Format.apply_of_number {v : Value} {n : Nat} (number : v = .uint n ∨ v = .wide n)
    (format : Format) : format.apply v = v ∨ format.apply v = .text (Text.decimal n) ∨
      format.apply v = .text (Text.hexadecimal n) := by
  rcases number with rfl | rfl <;> cases format <;> simp [Format.apply]

/-- A numeral agrees with the literals that the number it denotes agrees with. -/
theorem Value.matches_text {v : Value} {n : Nat} (number : v = .uint n ∨ v = .wide n)
    (small : n < Word.size 127) {s : String} (read : Text.integer? s = some (n : Int))
    (l : Literal) : (Value.text s).matches l = v.matches l := by
  have same : (Value.text s).integer? = v.integer? := by
    rcases number with rfl | rfl
    · exact read
    · rw [integer?, integer?, read, if_pos small]
  cases l with
  | int i =>
    have here : v.matches (.int i) = (v.integer? == some i) := by
      rcases number with rfl | rfl <;> rfl
    rw [here, ← same]
    rfl
  | bool b =>
    have here : v.matches (.bool b) = (v.integer? == some (if b then 1 else 0)) := by
      rcases number with rfl | rfl <;> rfl
    rw [here, ← same]
    rfl
  | str t =>
    have here : v.matches (.str t) = v.sameInteger t := by
      rcases number with rfl | rfl <;> rfl
    have there : (Value.text s).matches (.str t) = (some s == some t || v.sameInteger t) := by
      rw [sameInteger, ← same]
      rfl
    rw [here, there]
    by_cases eq : s = t
    · -- The very numeral is one of the texts that denote the number.
      have denoted : v.integer? = some (n : Int) := same ▸ read
      rw [sameInteger, denoted, ← eq, read]
      simp
    · rw [beq_false_of_ne (fun h => eq (Option.some.inj h)), Bool.false_or]

/-- A number below `2 ^ 127` agrees with the same literals in every format. -/
theorem Value.matches_apply_of_number {v : Value} {n : Nat} (number : v = .uint n ∨ v = .wide n)
    (small : n < Word.size 127) (format : Format) (l : Literal) :
    (format.apply v).matches l = v.matches l := by
  rcases Format.apply_of_number number format with same | decimal | hexadecimal
  · rw [same]
  · rw [decimal]
    exact matches_text number small (Text.integer?_decimal small) l
  · rw [hexadecimal]
    exact matches_text number small (Text.integer?_hexadecimal small) l

/-! ### Numbers of 64 bits -/

/-- A numeral is read as the number that it denotes, if that is not too large. -/
theorem Value.number?_text {s : String} {n : Nat} (read : Text.integer? s = some (n : Int)) :
    (Value.text s).number? = if n < Word.size 64 then some n else none := by
  have range : (0 : Int) ≤ n ∧ (n : Int) < Word.size 64 ↔ n < Word.size 64 := by omega
  rw [number?, read, Option.bind_some, Int.toNat_natCast]
  simp only [range]

section Sizes

variable {v : Value} {n : Nat}
  (number : v = .uint n ∧ n < Word.size 64 ∨ v = .wide n ∧ n < Word.size 127)

include number

theorem Value.size_of_number : (v = .uint n ∨ v = .wide n) ∧ n < Word.size 127 := by
  rcases number with ⟨uint, fits⟩ | ⟨wide, small⟩
  · exact ⟨.inl uint, Nat.lt_of_lt_of_le fits (Word.size_le (by decide))⟩
  · exact ⟨.inr wide, small⟩

/-- A number is read as the same number in every format. -/
theorem Value.number?_apply_of_number (format : Format) :
    (format.apply v).number? = v.number? := by
  have here : v.number? = if n < Word.size 64 then some n else none := by
    rcases number with ⟨rfl, fits⟩ | ⟨rfl, -⟩
    · rw [number?, if_pos fits]
    · rfl
  obtain ⟨kind, small⟩ := size_of_number number
  rcases Format.apply_of_number kind format with same | decimal | hexadecimal
  · rw [same]
  · rw [decimal, here, number?_text (Text.integer?_decimal small)]
  · rw [hexadecimal, here, number?_text (Text.integer?_hexadecimal small)]

end Sizes

end WireGrammar
