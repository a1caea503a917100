import Mathlib.Data.List.Forall2
import Mathlib.Data.Nat.Digits.Defs
import WireGrammar.Proofs.Value.Numeral

/-!
# Spellings of an integer

What a text denotes, as a grammar of its own: digits of either case with any number of zeros in
front, a sign before them, a mark of the base before the sign, and blanks around it all.  The reader
of numerals accepts just these texts, as far as the number is in its range.  A number and its
formats are thus matched by all the spellings of the number, and by no other text.

* `Text.Denotes`: the grammar, without a bound on the numbers;
* `Text.integer?_eq_some_iff`: what the reader of numerals accepts;
* `Value.apply_transparent`: formats leave what a number is compared with as it is.
-/

namespace WireGrammar

namespace Text

variable {base high n d : Nat} {c : Char} {cs : List Char} {i : Int} {s : String}

/-! ### The grammar -/

/-- The character is the digit `d` of the base, in either case. -/
def IsDigit (base d : Nat) (c : Char) : Prop :=
  d < base ∧ (c = d.digitChar ∨ c = d.digitChar.toUpper)

/-- The characters are the digits of `n` in the base, the highest first.  Zeros may stand in
front. -/
def SpellsNat (base : Nat) (cs : List Char) (n : Nat) : Prop :=
  cs ≠ [] ∧ ∃ ds, List.Forall₂ (IsDigit base) ds cs ∧ Nat.ofDigits base ds.reverse = n

/-- The characters are digits behind an optional sign. -/
inductive SpellsInt (base : Nat) : List Char → Int → Prop where
  | bare {cs : List Char} {n : Nat} (digits : SpellsNat base cs n) : SpellsInt base cs n
  | plus {cs : List Char} {n : Nat} (digits : SpellsNat base cs n) : SpellsInt base ('+' :: cs) n
  | minus {cs : List Char} {n : Nat} (digits : SpellsNat base cs n) :
    SpellsInt base ('-' :: cs) (-n)

/-- The characters are a decimal numeral, or a hexadecimal one behind its mark. -/
inductive IsNumeral : List Char → Int → Prop where
  | decimal {cs : List Char} {i : Int} (signed : SpellsInt 10 cs i) : IsNumeral cs i
  | hexadecimal {x : Char} {cs : List Char} {i : Int} (mark : x = 'x' ∨ x = 'X')
    (signed : SpellsInt 16 cs i) : IsNumeral ('0' :: x :: cs) i

/-- The text is a numeral for `i` between blanks. -/
def Denotes (s : String) (i : Int) : Prop :=
  ∃ front cs back, s.toList = front ++ cs ++ back ∧ (∀ c ∈ front, isBlank c = true) ∧
    (∀ c ∈ back, isBlank c = true) ∧ IsNumeral cs i

/-! ### Digits -/

/-- A digit is neither a blank nor a sign. -/
theorem IsDigit.plain (small : base ≤ 16) (h : IsDigit base d c) :
    isBlank c = false ∧ c ≠ '-' ∧ c ≠ '+' := by
  have upper : ∀ d < 16, isBlank d.digitChar.toUpper = false ∧ d.digitChar.toUpper ≠ '-' ∧
      d.digitChar.toUpper ≠ '+' := by decide
  obtain ⟨below, rfl | rfl⟩ := h
  · obtain ⟨unblank, unsigned, unsigned', -⟩ := digitChar_plain (d := d) (by omega)
    exact ⟨unblank, unsigned, unsigned'⟩
  · exact upper d (by omega)

/-- Behind `f` there are no digits. -/
theorem toNat_le_of_digitValue? (read : digitValue? c = some d) : c.toNat ≤ 'f'.toNat := by
  have mono {x y : Char} (le : x ≤ y) : x.toNat ≤ y.toNat := UInt32.le_iff_toNat_le.mp le
  by_contra above
  have behind (x : Char) (le : x.toNat ≤ 'f'.toNat) : ¬ c ≤ x := fun here =>
    above (Nat.le_trans (mono here) le)
  rw [digitValue?, if_neg (fun h => behind '9' (by decide) h.2),
    if_neg (fun h => behind 'f' (by decide) h.2),
    if_neg (fun h => behind 'F' (by decide) h.2)] at read
  exact absurd read (by simp)

theorem digitValue?_eq_some_iff : digitValue? c = some d ↔ IsDigit 16 d c := by
  constructor
  · intro read
    have all : ∀ m ≤ 'f'.toNat, ∀ d ∈ digitValue? (Char.ofNat m), d < 16 ∧
        (Char.ofNat m = d.digitChar ∨ Char.ofNat m = d.digitChar.toUpper) := by decide +kernel
    have here := all c.toNat (toNat_le_of_digitValue? read) d
    rw [Char.ofNat_toNat] at here
    exact here read
  · have all : ∀ d < 16, digitValue? d.digitChar = some d ∧
        digitValue? d.digitChar.toUpper = some d := by decide
    rintro ⟨below, rfl | rfl⟩
    · exact (all d below).1
    · exact (all d below).2

theorem digitIn?_eq_some_iff (small : base ≤ 16) : digitIn? base c = some d ↔ IsDigit base d c := by
  rw [digitIn?, Option.filter_eq_some_iff, digitValue?_eq_some_iff, decide_eq_true_eq]
  constructor
  · rintro ⟨⟨-, written⟩, below⟩
    exact ⟨below, written⟩
  · rintro ⟨below, written⟩
    exact ⟨⟨by omega, written⟩, below⟩

/-- A row of digits is read to its end, the number read so far in front of it. -/
theorem digitsFrom?_eq_some_iff (small : base ≤ 16) : digitsFrom? base high cs = some n ↔
    ∃ ds, List.Forall₂ (IsDigit base) ds cs ∧ Nat.ofDigits base (ds.reverse ++ [high]) = n := by
  induction cs generalizing high with
  | nil => simp [digitsFrom?]
  | cons c cs ih =>
    -- The first digit joins the number in front.
    have shift (d : Nat) (ds : List Nat) : Nat.ofDigits base (ds.reverse ++ [base * high + d]) =
        Nat.ofDigits base ((d :: ds).reverse ++ [high]) := by
      rw [List.reverse_cons, List.append_assoc, Nat.ofDigits_append, Nat.ofDigits_append]
      simp [Nat.ofDigits_cons, Nat.add_comm]
    simp only [digitsFrom?, Option.bind_eq_some_iff, ih, digitIn?_eq_some_iff small]
    constructor
    · rintro ⟨d, digit, ds, row, rfl⟩
      exact ⟨d :: ds, .cons digit row, (shift d ds).symm⟩
    · rintro ⟨_, _ | ⟨digit, row⟩, rfl⟩
      exact ⟨_, digit, _, row, shift _ _⟩

theorem digits?_eq_some_iff (small : base ≤ 16) :
    digits? base cs = some n ↔ SpellsNat base cs n := by
  cases cs with
  | nil => simp [digits?, SpellsNat]
  | cons c cs =>
    rw [digits?, List.isEmpty_cons, if_neg (by decide), digitsFrom?_eq_some_iff small]
    have unled (ds : List Nat) : Nat.ofDigits base (ds.reverse ++ [0]) =
        Nat.ofDigits base ds.reverse := by
      simp [Nat.ofDigits_append]
    simp only [SpellsNat, unled, ne_eq, reduceCtorEq, not_false_eq_true, true_and]

/-- Digits hold neither blanks nor signs. -/
theorem SpellsNat.plain (small : base ≤ 16) (h : SpellsNat base cs n) :
    ∀ c ∈ cs, isBlank c = false ∧ c ≠ '-' ∧ c ≠ '+' := by
  obtain ⟨-, ds, row, -⟩ := h
  induction row with
  | nil => exact List.forall_mem_nil _
  | cons digit _ ih => exact List.forall_mem_cons.mpr ⟨digit.plain small, ih⟩

/-! ### Numerals -/

theorem signedDigits?_minus :
    signedDigits? base ('-' :: cs) = (digits? base cs).map fun n : Nat => -(n : Int) := by
  rw [signedDigits?]
  cases digits? base cs <;> rfl

theorem signedDigits?_plus :
    signedDigits? base ('+' :: cs) = (digits? base cs).map fun n : Nat => (n : Int) := by
  rw [signedDigits?]
  cases digits? base cs <;> rfl

theorem signedDigits?_of_unsigned (first : ∀ c ∈ cs.head?, c ≠ '-' ∧ c ≠ '+') :
    signedDigits? base cs = (digits? base cs).map fun n : Nat => (n : Int) := by
  rw [signedDigits?]
  · cases digits? base cs <;> rfl
  · rintro _ rfl
    exact (first '-' rfl).1 rfl
  · rintro _ rfl
    exact (first '+' rfl).2 rfl

/-- The mark of the other base is no decimal digit. -/
theorem signedDigits?_ten_marked {x : Char} (mark : x = 'x' ∨ x = 'X') :
    signedDigits? 10 ('0' :: x :: cs) = none := by
  rcases mark with rfl | rfl <;> rfl

theorem signedDigits?_eq_some_iff (small : base ≤ 16) :
    signedDigits? base cs = some i ↔ SpellsInt base cs i := by
  constructor
  · intro read
    have first : (∃ ds, cs = '-' :: ds) ∨ (∃ ds, cs = '+' :: ds) ∨
        ∀ c ∈ cs.head?, c ≠ '-' ∧ c ≠ '+' := by
      cases cs with
      | nil => simp
      | cons c cs => grind
    rcases first with ⟨ds, rfl⟩ | ⟨ds, rfl⟩ | unsigned
    · rw [signedDigits?_minus] at read
      obtain ⟨n, digits, rfl⟩ := Option.map_eq_some_iff.mp read
      exact .minus ((digits?_eq_some_iff small).mp digits)
    · rw [signedDigits?_plus] at read
      obtain ⟨n, digits, rfl⟩ := Option.map_eq_some_iff.mp read
      exact .plus ((digits?_eq_some_iff small).mp digits)
    · rw [signedDigits?_of_unsigned unsigned] at read
      obtain ⟨n, digits, rfl⟩ := Option.map_eq_some_iff.mp read
      exact .bare ((digits?_eq_some_iff small).mp digits)
  · intro spelled
    cases spelled with
    | bare digits =>
      have unsigned := fun c first => (digits.plain small c (List.mem_of_mem_head? first)).2
      rw [signedDigits?_of_unsigned unsigned, (digits?_eq_some_iff small).mpr digits,
        Option.map_some]
    | plus digits =>
      rw [signedDigits?_plus, (digits?_eq_some_iff small).mpr digits, Option.map_some]
    | minus digits =>
      rw [signedDigits?_minus, (digits?_eq_some_iff small).mpr digits, Option.map_some]

theorem SpellsInt.unblank (small : base ≤ 16) (h : SpellsInt base cs i) :
    cs ≠ [] ∧ ∀ c ∈ cs, isBlank c = false := by
  cases h with
  | bare digits => exact ⟨digits.1, fun c inside => (digits.plain small c inside).1⟩
  | plus digits =>
    exact ⟨List.cons_ne_nil _ _, List.forall_mem_cons.mpr
      ⟨by decide, fun c inside => (digits.plain small c inside).1⟩⟩
  | minus digits =>
    exact ⟨List.cons_ne_nil _ _, List.forall_mem_cons.mpr
      ⟨by decide, fun c inside => (digits.plain small c inside).1⟩⟩

theorem IsNumeral.unblank (h : IsNumeral cs i) : cs ≠ [] ∧ ∀ c ∈ cs, isBlank c = false := by
  cases h with
  | decimal signed => exact signed.unblank (by decide)
  | hexadecimal mark signed =>
    have rest := (signed.unblank (by decide)).2
    refine ⟨List.cons_ne_nil _ _, List.forall_mem_cons.mpr ⟨by decide, ?_⟩⟩
    rcases mark with rfl | rfl <;> exact List.forall_mem_cons.mpr ⟨by decide, rest⟩

/-! ### Blanks -/

theorem dropWhile_isBlank_append {front : List Char} (before : ∀ c ∈ front, isBlank c = true)
    (body : cs ≠ [] ∧ ∀ c ∈ cs, isBlank c = false) (back : List Char) :
    (front ++ cs ++ back).dropWhile isBlank = cs ++ back := by
  obtain ⟨c, cs, rfl⟩ := List.exists_cons_of_ne_nil body.1
  rw [List.append_assoc, List.dropWhile_append_of_pos before, List.cons_append,
    List.dropWhile_cons_of_neg (by simp [body.2 c List.mem_cons_self])]

/-- Blanks around a text without blanks are trimmed. -/
theorem trim_surrounded {front back : List Char} (before : ∀ c ∈ front, isBlank c = true)
    (after : ∀ c ∈ back, isBlank c = true) (body : cs ≠ [] ∧ ∀ c ∈ cs, isBlank c = false) :
    trim (front ++ cs ++ back) = cs := by
  have mirrored : (back.reverse ++ cs.reverse ++ []).dropWhile isBlank = cs.reverse ++ [] :=
    dropWhile_isBlank_append (by simpa using after) (by simpa using body) []
  rw [List.append_nil, List.append_nil] at mirrored
  rw [trim, dropWhile_isBlank_append before body, List.reverse_append, mirrored,
    List.reverse_reverse]

/-- Trimming takes blanks only. -/
theorem eq_surrounded_trim (cs : List Char) : ∃ front back, cs = front ++ trim cs ++ back ∧
    (∀ c ∈ front, isBlank c = true) ∧ ∀ c ∈ back, isBlank c = true := by
  have blank (l : List Char) : ∀ c ∈ l.takeWhile isBlank, isBlank c = true :=
    List.all_eq_true.mp List.all_takeWhile
  have rest := List.takeWhile_append_dropWhile (p := isBlank) (l := (cs.dropWhile isBlank).reverse)
  refine ⟨cs.takeWhile isBlank, ((cs.dropWhile isBlank).reverse.takeWhile isBlank).reverse, ?_,
    blank cs, fun c inside => blank _ c (List.mem_reverse.mp inside)⟩
  rw [trim, List.append_assoc, ← List.reverse_append, rest, List.reverse_reverse,
    List.takeWhile_append_dropWhile]

theorem denotes_iff : Denotes s i ↔ IsNumeral (trim s.toList) i := by
  constructor
  · rintro ⟨front, cs, back, written, before, after, numeral⟩
    rw [written, trim_surrounded before after numeral.unblank]
    exact numeral
  · intro numeral
    obtain ⟨front, back, written, before, after⟩ := eq_surrounded_trim s.toList
    exact ⟨front, _, back, written, before, after, numeral⟩

/-- The texts that are read as integers are those that denote an integer in the range of
numerals. -/
theorem integer?_eq_some_iff : integer? s = some i ↔ Denotes s i ∧ inIntegerRange i = true := by
  rw [denotes_iff, integer?, Option.filter_eq_some_iff]
  refine and_congr_left fun _ => ?_
  generalize trim s.toList = cs
  constructor
  · intro read
    split at read
    · exact .hexadecimal (.inl rfl) ((signedDigits?_eq_some_iff (by decide)).mp read)
    · exact .hexadecimal (.inr rfl) ((signedDigits?_eq_some_iff (by decide)).mp read)
    · exact .decimal ((signedDigits?_eq_some_iff (by decide)).mp read)
  · intro numeral
    cases numeral with
    | hexadecimal mark signed =>
      have read := (signedDigits?_eq_some_iff (by decide)).mpr signed
      rcases mark with rfl | rfl <;> exact read
    | decimal signed =>
      have read := (signedDigits?_eq_some_iff (by decide)).mpr signed
      split
      · exact absurd (read.symm.trans (signedDigits?_ten_marked (.inl rfl))) (Option.some_ne_none i)
      · exact absurd (read.symm.trans (signedDigits?_ten_marked (.inr rfl))) (Option.some_ne_none i)
      · exact read

end Text

namespace Value

variable {v : Value} {n : Nat}

theorem matches_str_iff (number : v = .uint n ∨ v = .wide n) (small : n < Word.size 127)
    (s : String) : v.matches (.str s) = true ↔ Text.Denotes s n := by
  have read : v.integer? = some (n : Int) := by
    rcases number with rfl | rfl
    · rfl
    · rw [integer?, if_pos small]
  have here : v.matches (.str s) = v.sameInteger s := by
    rcases number with rfl | rfl <;> rfl
  have denoted : Text.integer? s = some (n : Int) ↔ Text.Denotes s n := by
    rw [Text.integer?_eq_some_iff, and_iff_left (Text.inIntegerRange_iff.mpr small)]
  rw [here, ← denoted, sameInteger, read]
  cases Text.integer? s with
  | none => simp only [Bool.false_eq_true, reduceCtorEq]
  | some j =>
    simp only [beq_iff_eq, Option.some.injEq]
    exact eq_comm

/-- Formats leave what a number is compared with as it is.  In every format, a number is matched by
the same literals and is read as the same number, and the texts that match it are the spellings of
the number. -/
theorem apply_transparent
    (number : v = .uint n ∧ n < Word.size 64 ∨ v = .wide n ∧ n < Word.size 127) (format : Format) :
    (∀ l, (format.apply v).matches l = v.matches l) ∧ (format.apply v).number? = v.number? ∧
      ∀ s, (format.apply v).matches (.str s) = true ↔ Text.Denotes s n := by
  obtain ⟨kind, small⟩ := size_of_number number
  have same := matches_apply_of_number kind small format
  refine ⟨same, number?_apply_of_number number format, fun s => ?_⟩
  rw [same, matches_str_iff kind small]

/-- Leading zeros, a sign, digits of either case and blanks do not matter. -/
theorem apply_transparent_padded : 255 < Word.size 127 ∧
    (Format.hex.apply (.wide 255)).matches (.str " 0X+00fF\t") = true := by
  have small : 255 < Word.size 127 := by decide
  refine ⟨small, ((apply_transparent (.inr ⟨rfl, small⟩) .hex).2.2 _).mpr ?_⟩
  have row : List.Forall₂ (Text.IsDigit 16) [0, 0, 15, 15] ['0', '0', 'f', 'F'] := by
    simp only [List.forall₂_cons, List.forall₂_nil_left_iff, Text.IsDigit]
    decide
  exact ⟨[' '], ['0', 'X', '+', '0', '0', 'f', 'F'], ['\t'], rfl, List.forall_mem_singleton.mpr rfl,
    List.forall_mem_singleton.mpr rfl, .hexadecimal (.inr rfl) (.plus ⟨by decide, _, row, rfl⟩)⟩

end Value

end WireGrammar
