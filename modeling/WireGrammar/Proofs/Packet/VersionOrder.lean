import Mathlib.Logic.Relation
import WireGrammar.Packet.Version

/-!
# The natural order is an order

An identifier is a row of tokens: the numbers that its runs of digits denote, and all its other
bytes one by one.  The natural order compares runs of digits by their lengths and digits, never by
the numbers themselves, and yet it is the lexicographic order of the tokens.

* `compareRuns_eq`: two runs of digits compare as the numbers that they denote;
* `tokens`: the tokens of a byte string, read off byte by byte;
* `tokens_of_run`: a run of digits that ends is one token;
* `Token.compare`: the order of single tokens;
* `Round`: what a round of the comparison that decides nothing leaves of both identifiers;
* `order_lexicographic`: the natural order is a total preorder, that of the rows of tokens.
-/

namespace WireGrammar.Version

/-! ### Numbers -/

/-- The byte is one of the ASCII digits `0` to `9`. -/
def Digit (b : UInt8) : Prop := 48 ≤ b.toNat ∧ b.toNat ≤ 57

instance : DecidablePred Digit := fun b => inferInstanceAs (Decidable (48 ≤ b.toNat ∧ b.toNat ≤ 57))

theorem isDigit_iff {b : UInt8} : isDigit b = true ↔ Digit b := by
  simp [isDigit, Digit]

/-- The number that digits denote behind digits that denote `high`. -/
def valueFrom (high : Nat) (digits : List UInt8) : Nat :=
  digits.foldl (fun n d => 10 * n + (d.toNat - 48)) high

/-- The number that digits denote. -/
def value (digits : List UInt8) : Nat := valueFrom 0 digits

/-- Nothing but digits. -/
def Digits (ds : List UInt8) : Prop := ∀ d ∈ ds, Digit d

/-- A run of digits in front of these bytes ends there. -/
def Ends (bs : List UInt8) : Prop := ∀ b ∈ bs.head?, ¬ Digit b

instance : DecidablePred Digits := fun ds => List.decidableBAll Digit ds

instance : DecidablePred Ends := fun bs => Option.decidableForallMem bs.head?

theorem digits_cons {d : UInt8} {ds : List UInt8} : Digits (d :: ds) ↔ Digit d ∧ Digits ds :=
  List.forall_mem_cons

theorem ends_cons {b : UInt8} {bs : List UInt8} : Ends (b :: bs) ↔ ¬ Digit b := by simp [Ends]

section Value

variable {m n : Nat} {d e : UInt8} {ds xs ys : List UInt8}

theorem valueFrom_cons : valueFrom n (d :: ds) = valueFrom (10 * n + (d.toNat - 48)) ds := by
  rw [valueFrom, List.foldl_cons, valueFrom]

theorem valueFrom_append : valueFrom n (xs ++ ys) = valueFrom (valueFrom n xs) ys :=
  List.foldl_append

/-- A greater number in front makes a greater number, whatever digits of one length follow. -/
theorem valueFrom_lt (digits : Digits xs) (same : xs.length = ys.length) (less : m < n) :
    valueFrom m xs < valueFrom n ys := by
  induction xs generalizing ys m n with
  | nil =>
    obtain rfl := List.length_eq_zero_iff.mp same.symm
    exact less
  | cons x xs ih =>
    obtain ⟨y, ys, rfl⟩ := List.exists_cons_of_length_eq_add_one same.symm
    obtain ⟨digit, digits⟩ := digits_cons.mp digits
    obtain ⟨least, most⟩ := digit
    have shorter : xs.length = ys.length := Nat.succ.inj same
    rw [valueFrom_cons, valueFrom_cons]
    exact ih digits shorter (by omega)

theorem valueFrom_pos (positive : 0 < n) : 0 < valueFrom n ds := by
  induction ds generalizing n with
  | nil => exact positive
  | cons d ds ih =>
    rw [valueFrom_cons]
    exact ih (by omega)

theorem compare_eq_toNat (d e : UInt8) : compare d e = compare d.toNat e.toNat := by
  rcases Nat.lt_trichotomy d.toNat e.toNat with less | same | greater
  · rw [Nat.compare_eq_lt.mpr less]
    exact Std.compare_eq_lt.mpr less
  · rw [UInt8.toNat_inj.mp same, Std.ReflOrd.compare_self, Std.ReflOrd.compare_self]
  · rw [Nat.compare_eq_gt.mpr greater]
    exact Std.compare_eq_gt.mpr greater

/-- Digits of one length compare as the numbers that they denote. -/
theorem compareLex_eq (digitsX : Digits xs) (digitsY : Digits ys) (same : xs.length = ys.length) :
    List.compareLex compare xs ys = compare (valueFrom n xs) (valueFrom n ys) := by
  induction xs generalizing ys n with
  | nil =>
    obtain rfl := List.length_eq_zero_iff.mp same.symm
    exact Std.ReflOrd.compare_self.symm
  | cons x xs ih =>
    obtain ⟨y, ys, rfl⟩ := List.exists_cons_of_length_eq_add_one same.symm
    obtain ⟨digitX, digitsX⟩ := digits_cons.mp digitsX
    obtain ⟨digitY, digitsY⟩ := digits_cons.mp digitsY
    obtain ⟨leastX, mostX⟩ := digitX
    obtain ⟨leastY, mostY⟩ := digitY
    have shorter : xs.length = ys.length := Nat.succ.inj same
    rw [List.compareLex_cons_cons, compare_eq_toNat, valueFrom_cons, valueFrom_cons]
    rcases Nat.lt_trichotomy x.toNat y.toNat with less | equal | greater
    · rw [Nat.compare_eq_lt.mpr less,
        Nat.compare_eq_lt.mpr (valueFrom_lt digitsX shorter (by omega))]
      rfl
    · rw [equal, Nat.compare_eq_eq.mpr rfl, ih digitsX digitsY shorter]
      rfl
    · rw [Nat.compare_eq_gt.mpr greater,
        Nat.compare_eq_gt.mpr (valueFrom_lt digitsY shorter.symm (by omega))]
      rfl

/-- Leading zeros do not count. -/
theorem value_significant (ds : List UInt8) : value (significant ds) = value ds := by
  induction ds with
  | nil => rfl
  | cons d ds ih =>
    rw [significant, List.dropWhile_cons]
    split
    · next zero =>
      obtain rfl := beq_iff_eq.mp zero
      exact ih
    · rfl

theorem digits_significant (digits : Digits ds) : Digits (significant ds) := fun _ mem =>
  digits _ ((List.dropWhile_sublist _).subset mem)

/-- Without leading zeros the longer run is the greater number. -/
theorem value_lt_of_length_lt (digits : Digits xs) (digits' : Digits ys)
    (shorter : xs.length < (significant ys).length) : value xs < value ys := by
  cases run : significant ys with
  | nil =>
    rw [run] at shorter
    exact absurd shorter (Nat.not_lt_zero _)
  | cons d ds =>
    have nonzero : d ≠ 48 := by
      have first := List.head?_dropWhile_not (· == 48) ys
      rw [show ys.dropWhile (· == 48) = d :: ds from run] at first
      simpa using first
    obtain ⟨digit, digits'⟩ := digits_cons.mp (run ▸ digits_significant digits')
    obtain ⟨least, -⟩ := digit
    have leads : 0 < d.toNat - 48 := by
      have : d.toNat ≠ 48 := fun eq => nonzero (UInt8.toNat_inj.mp eq)
      omega
    rw [run, List.length_cons] at shorter
    -- The digits in front of the last `xs.length` ones denote a positive number.
    have front : 0 < valueFrom (10 * 0 + (d.toNat - 48)) (ds.take (ds.length - xs.length)) :=
      valueFrom_pos (by omega)
    rw [← value_significant ys, run, value, value, valueFrom_cons,
      ← List.take_append_drop (ds.length - xs.length) ds, valueFrom_append]
    refine valueFrom_lt digits ?_ front
    rw [List.length_drop]
    omega

/-- Two runs of digits compare as the numbers that they denote. -/
theorem compareRuns_eq (digitsX : Digits xs) (digitsY : Digits ys) :
    compareRuns xs ys = compare (value xs) (value ys) := by
  have short := digits_significant digitsX
  have short' := digits_significant digitsY
  rw [compareRuns]
  rcases Nat.lt_trichotomy (significant xs).length (significant ys).length with
    less | same | greater
  · have below := value_lt_of_length_lt short digitsY less
    rw [value_significant] at below
    rw [Nat.compare_eq_lt.mpr less, Nat.compare_eq_lt.mpr below]
    rfl
  · rw [Nat.compare_eq_eq.mpr same, compareLex_eq (n := 0) short short' same]
    show compare (value (significant xs)) (value (significant ys)) = _
    rw [value_significant, value_significant]
  · have below := value_lt_of_length_lt short' digitsX greater
    rw [value_significant] at below
    rw [Nat.compare_eq_gt.mpr greater, Nat.compare_eq_gt.mpr below]
    rfl

end Value

/-! ### Tokens -/

/-- What identifiers are made of: the number that a run of digits denotes, or any other byte. -/
inductive Token where
  | number (n : Nat)
  | byte (b : UInt8) (other : ¬ Digit b)
  deriving DecidableEq

/-- The order of tokens: numbers by their size, bytes as such, and a number stands where the digits
stand among the bytes. -/
def Token.compare : Token → Token → Ordering
  | .number m, .number n => Ord.compare m n
  | .number _, .byte b _ => Ord.compare (48 : UInt8) b
  | .byte b _, .number _ => Ord.compare b (48 : UInt8)
  | .byte a _, .byte b _ => Ord.compare a b

/-- The tokens of a byte string, byte by byte.  A run of digits that has begun denotes `pending` so
far: a digit goes on with it, and any other byte or the end makes a token of it. -/
def tokensFrom (pending : Option Nat) : List UInt8 → List Token
  | [] => (pending.map .number).toList
  | b :: bs =>
    if digit : Digit b then tokensFrom (some (10 * pending.getD 0 + (b.toNat - 48))) bs
    else (pending.map .number).toList ++ .byte b digit :: tokensFrom none bs

/-- The tokens of a byte string. -/
def tokens (bs : List UInt8) : List Token := tokensFrom none bs

/-- The tokens of an identifier. -/
def tokensOf (id : String) : List Token := tokens id.toUTF8.toList

section Tokens

variable {a b : UInt8} {as bs ds : List UInt8} {n : Nat}

theorem tokens_nil : tokens [] = [] := rfl

theorem tokensFrom_of_digit (digit : Digit a) (pending : Option Nat) :
    tokensFrom pending (a :: as) = tokensFrom (some (10 * pending.getD 0 + (a.toNat - 48))) as := by
  rw [tokensFrom, dif_pos digit]

theorem tokens_of_other (other : ¬ Digit a) : tokens (a :: as) = .byte a other :: tokens as := by
  rw [tokens, tokensFrom, dif_neg other]
  rfl

/-- Digits go on with a run, and where it ends its number is one token. -/
theorem tokensFrom_of_run (digits : Digits ds) (ends : Ends bs) :
    tokensFrom (some n) (ds ++ bs) = .number (valueFrom n ds) :: tokens bs := by
  induction ds generalizing n with
  | nil =>
    cases bs with
    | nil => rfl
    | cons b bs =>
      have other := ends_cons.mp ends
      rw [tokens_of_other other, List.nil_append, tokensFrom, dif_neg other]
      rfl
  | cons d ds ih =>
    obtain ⟨digit, digits⟩ := digits_cons.mp digits
    rw [List.cons_append, tokensFrom_of_digit digit, valueFrom_cons, Option.getD_some, ih digits]

/-- A run of digits that ends is one token, the number that it denotes. -/
theorem tokens_of_run (run : ds ≠ []) (digits : Digits ds) (ends : Ends bs) :
    tokens (ds ++ bs) = .number (value ds) :: tokens bs := by
  obtain ⟨d, ds, rfl⟩ := List.exists_cons_of_ne_nil run
  obtain ⟨digit, digits⟩ := digits_cons.mp digits
  rw [List.cons_append, tokens, tokensFrom_of_digit digit, Option.getD_none,
    tokensFrom_of_run digits ends, value, valueFrom_cons]

/-- What the comparison takes for the run of digits in front is one, and what it goes on with stands
behind the end of that run. -/
theorem run_split (bs : List UInt8) :
    Digits (digitRun bs) ∧ Ends (afterRun bs) ∧ digitRun bs ++ afterRun bs = bs := by
  refine ⟨fun d mem => ?_, fun b first => ?_, List.takeWhile_append_dropWhile⟩
  · have all : (bs.takeWhile isDigit).all isDigit = true := List.all_takeWhile
    exact isDigit_iff.mp (List.all_eq_true.mp all d mem)
  · have stops := List.head?_dropWhile_not isDigit bs
    rw [show (bs.dropWhile isDigit).head? = some b from first] at stops
    exact fun digit => by simp [isDigit_iff.mpr digit] at stops

/-- The run of digits in front is found, whatever follows its end. -/
theorem run_append (digits : Digits ds) (ends : Ends bs) :
    digitRun (ds ++ bs) = ds ∧ afterRun (ds ++ bs) = bs := by
  have inside : ∀ d ∈ ds, isDigit d = true := fun d mem => isDigit_iff.mpr (digits d mem)
  rw [digitRun, afterRun, List.takeWhile_append_of_pos inside, List.dropWhile_append_of_pos inside]
  cases bs with
  | nil => exact ⟨List.append_nil _, rfl⟩
  | cons b bs =>
    have other : ¬ isDigit b = true := fun digit => ends_cons.mp ends (isDigit_iff.mp digit)
    rw [List.takeWhile_cons_of_neg other, List.dropWhile_cons_of_neg other, List.append_nil]
    exact ⟨rfl, rfl⟩

theorem tokens_of_digit (digit : Digit a) :
    tokens (a :: as) = .number (value (a :: digitRun as)) :: tokens (afterRun as) := by
  obtain ⟨digits, ends, split⟩ := run_split as
  have tokens := tokens_of_run (List.cons_ne_nil a _) (digits_cons.mpr ⟨digit, digits⟩) ends
  rwa [List.cons_append, split] at tokens

/-- Where there are bytes there are tokens. -/
theorem tokens_cons (b : UInt8) (bs : List UInt8) : ∃ t ts, tokens (b :: bs) = t :: ts := by
  by_cases digit : Digit b
  · exact ⟨_, _, tokens_of_digit digit⟩
  · exact ⟨_, _, tokens_of_other digit⟩

/-- What decides is not looked behind. -/
theorem then_of_ne_eq : ∀ {o o' : Ordering}, o ≠ .eq → o.then o' = o := by decide

/-- A digit is no other byte. -/
theorem compare_ne_eq (mixed : ¬(Digit a ↔ Digit b)) : compare a b ≠ .eq := fun eq =>
  mixed (by rw [Std.LawfulEqOrd.eq_of_compare eq])

/-- Any digit compares with another byte as the digit zero does. -/
theorem compare_of_digit (digit : Digit a) (other : ¬ Digit b) :
    compare a b = compare (48 : UInt8) b := by
  obtain ⟨least, most⟩ := digit
  have outside : ¬(48 ≤ b.toNat ∧ b.toNat ≤ 57) := other
  rw [compare_eq_toNat, compare_eq_toNat, show (48 : UInt8).toNat = 48 from rfl]
  by_cases low : b.toNat < 48
  · rw [Nat.compare_eq_gt.mpr (by omega), Nat.compare_eq_gt.mpr low]
  · rw [Nat.compare_eq_lt.mpr (by omega), Nat.compare_eq_lt.mpr (by omega)]

/-- A digit and another byte decide. -/
theorem compareLex_of_mixed {s t : Token} {ss ts : List Token} (mixed : s.compare t ≠ .eq) :
    List.compareLex Token.compare (s :: ss) (t :: ts) = s.compare t := by
  rw [List.compareLex_cons_cons, then_of_ne_eq mixed]

namespace Token

/-- The place of a token among all: numbers of any size share the place of the digit zero. -/
def rank : Token → Nat × Nat
  | .number n => (48, n)
  | .byte b _ => (b.toNat, 0)

theorem compare_eq_rank (s t : Token) :
    s.compare t = compareLex (compareOn (·.rank.1)) (compareOn (·.rank.2)) s t := by
  cases s with
  | number m =>
    cases t with
    | number n => rfl
    | byte b other =>
      have different : Ord.compare (48 : UInt8) b ≠ .eq :=
        compare_ne_eq fun same => other (same.mp (by decide))
      rw [compare, compareLex, compareOn]
      rw [compare_eq_toNat] at different ⊢
      exact (then_of_ne_eq different).symm
  | byte a other =>
    cases t with
    | number n =>
      have different : Ord.compare a (48 : UInt8) ≠ .eq :=
        compare_ne_eq fun same => other (same.mpr (by decide))
      rw [compare, compareLex, compareOn]
      rw [compare_eq_toNat] at different ⊢
      exact (then_of_ne_eq different).symm
    | byte b _ =>
      rw [compare, compareLex, compareOn, compare_eq_toNat]
      exact Ordering.then_eq.symm

instance : Std.TransCmp Token.compare := by
  rw [show Token.compare = _ from funext fun s => funext fun t => compare_eq_rank s t]
  infer_instance

/-- The place of a token tells the token. -/
theorem eq_of_rank {s t : Token} (h : s.rank = t.rank) : s = t := by
  cases s with
  | number m =>
    cases t with
    | number n => exact congrArg Token.number (congrArg Prod.snd h)
    | byte b other =>
      have zero : 48 = b.toNat := congrArg Prod.fst h
      exact absurd ⟨by omega, by omega⟩ other
  | byte a other =>
    cases t with
    | number n =>
      have zero : a.toNat = 48 := congrArg Prod.fst h
      exact absurd ⟨by omega, by omega⟩ other
    | byte b _ =>
      obtain rfl : a = b := UInt8.toNat_inj.mp (congrArg Prod.fst h)
      rfl

instance : Std.LawfulEqCmp Token.compare where
  compare_self := Std.ReflCmp.compare_self
  eq_of_compare {s t} same := by
    rw [compare_eq_rank, compareLex_eq_eq] at same
    exact eq_of_rank (Prod.ext (Std.LawfulEqOrd.eq_of_compare same.1)
      (Std.LawfulEqOrd.eq_of_compare same.2))

end Token

end Tokens

/-! ### The comparison -/

section Compare

variable {a b : UInt8} {as bs : List UInt8}

theorem compareBytes_of_digits (digitA : Digit a) (digitB : Digit b) :
    compareBytes (a :: as) (b :: bs) = (compareRuns (a :: digitRun as) (b :: digitRun bs)).then
      (compareBytes (afterRun as) (afterRun bs)) := by
  rw [compareBytes, if_pos (by rw [isDigit_iff.mpr digitA, isDigit_iff.mpr digitB]; rfl)]
  cases compareRuns (a :: digitRun as) (b :: digitRun bs) <;> rfl

theorem compareBytes_of_other (other : ¬ Digit a ∨ ¬ Digit b) :
    compareBytes (a :: as) (b :: bs) = (compare a b).then (compareBytes as bs) := by
  have none : ¬ (isDigit a && isDigit b) = true := fun both => by
    obtain ⟨digitA, digitB⟩ := Bool.and_eq_true_iff.mp both
    exact other.elim (· (isDigit_iff.mp digitA)) (· (isDigit_iff.mp digitB))
  rw [compareBytes, if_neg none]
  cases compare a b <;> rfl

/-- The runs of digits in front compare as their numbers, and what stands behind them follows. -/
theorem compareBytes_of_digits_eq (digitA : Digit a) (digitB : Digit b) :
    compareBytes (a :: as) (b :: bs) =
      (compare (value (a :: digitRun as)) (value (b :: digitRun bs))).then
        (compareBytes (afterRun as) (afterRun bs)) := by
  have digits := digits_cons.mpr ⟨digitA, (run_split as).1⟩
  have digits' := digits_cons.mpr ⟨digitB, (run_split bs).1⟩
  rw [compareBytes_of_digits digitA digitB, compareRuns_eq digits digits']

/-- The natural order of byte strings is the lexicographic order of their tokens. -/
theorem compareBytes_eq (as bs : List UInt8) :
    compareBytes as bs = List.compareLex Token.compare (tokens as) (tokens bs) := by
  -- The rounds of the comparison make the induction: each one settles a token of both rows.
  induction h : as.length using Nat.strongRecOn generalizing as bs with
  | _ length ih =>
  subst h
  cases as with
  | nil =>
    cases bs with
    | nil => rw [compareBytes, tokens_nil, List.compareLex_nil_nil]
    | cons b bs =>
      obtain ⟨t, ts, some⟩ := tokens_cons b bs
      rw [compareBytes, tokens_nil, some, List.compareLex_nil_cons]
  | cons a as =>
    cases bs with
    | nil =>
      obtain ⟨t, ts, some⟩ := tokens_cons a as
      rw [compareBytes, tokens_nil, some, List.compareLex_cons_nil]
    | cons b bs =>
      have fewer : (afterRun as).length < (a :: as).length :=
        Nat.lt_succ_of_le (length_afterRun_le as)
      by_cases digitA : Digit a <;> by_cases digitB : Digit b
      · rw [compareBytes_of_digits_eq digitA digitB, ih _ fewer _ _ rfl, tokens_of_digit digitA,
          tokens_of_digit digitB, List.compareLex_cons_cons, Token.compare]
      · have different : compare a b ≠ .eq := compare_ne_eq fun same => digitB (same.mp digitA)
        rw [compareBytes_of_other (.inr digitB), then_of_ne_eq different, tokens_of_digit digitA,
          tokens_of_other digitB]
        rw [compare_of_digit digitA digitB] at different ⊢
        exact (compareLex_of_mixed (s := .number _) (t := .byte b digitB) different).symm
      · have different : compare a b ≠ .eq := compare_ne_eq fun same => digitA (same.mpr digitB)
        have placed : compare a b = compare a (48 : UInt8) := by
          rw [Std.OrientedOrd.eq_swap, compare_of_digit digitB digitA, ← Std.OrientedOrd.eq_swap]
        rw [compareBytes_of_other (.inl digitA), then_of_ne_eq different, tokens_of_other digitA,
          tokens_of_digit digitB]
        rw [placed] at different ⊢
        exact (compareLex_of_mixed (s := .byte a digitA) (t := .number _) different).symm
      · rw [compareBytes_of_other (.inl digitA), ih _ (Nat.lt_succ_self _) _ _ rfl,
          tokens_of_other digitA, tokens_of_other digitB, List.compareLex_cons_cons, Token.compare]

/-! ### The rounds of the comparison -/

/-- A round that decides nothing, and what it leaves of both byte strings: it passes two whole runs
of digits, those that denote one number, or a byte other than a digit that both strings start
with. -/
inductive Round : List UInt8 × List UInt8 → List UInt8 × List UInt8 → Prop where
  | runs {xs ys as bs : List UInt8} (runX : xs ≠ []) (runY : ys ≠ []) (digitsX : Digits xs)
    (digitsY : Digits ys) (endsX : Ends as) (endsY : Ends bs) (alike : value xs = value ys) :
    Round (xs ++ as, ys ++ bs) (as, bs)
  | byte {b : UInt8} {as bs : List UInt8} (other : ¬ Digit b) : Round (b :: as, b :: bs) (as, bs)

/-- A round that decides nothing leaves the decision to what is left. -/
theorem Round.compareBytes_eq {p q : List UInt8 × List UInt8} (h : Round p q) :
    compareBytes p.1 p.2 = compareBytes q.1 q.2 := by
  cases h with
  | @runs xs ys as bs runX runY digitsX digitsY endsX endsY alike =>
    obtain ⟨x, xs, rfl⟩ := List.exists_cons_of_ne_nil runX
    obtain ⟨y, ys, rfl⟩ := List.exists_cons_of_ne_nil runY
    obtain ⟨digitX, digitsX⟩ := digits_cons.mp digitsX
    obtain ⟨digitY, digitsY⟩ := digits_cons.mp digitsY
    obtain ⟨runX, restX⟩ := run_append digitsX endsX
    obtain ⟨runY, restY⟩ := run_append digitsY endsY
    show compareBytes (x :: (xs ++ as)) (y :: (ys ++ bs)) = _
    rw [compareBytes_of_digits_eq digitX digitY, runX, runY, restX, restY, alike,
      Std.ReflOrd.compare_self]
    rfl
  | byte other =>
    rw [compareBytes_of_other (.inl other), Std.ReflOrd.compare_self]
    rfl

/-- Where the comparison finds no difference and anything is left, it goes on by a round. -/
theorem Round.of_compareBytes_eq (alike : compareBytes (a :: as) (b :: bs) = .eq) :
    ∃ q, Round (a :: as, b :: bs) q ∧ compareBytes q.1 q.2 = .eq ∧
      q.1.length < (a :: as).length := by
  by_cases both : Digit a ∧ Digit b
  · obtain ⟨digitA, digitB⟩ := both
    obtain ⟨digits, ends, split⟩ := run_split as
    obtain ⟨digits', ends', split'⟩ := run_split bs
    rw [compareBytes_of_digits_eq digitA digitB, Ordering.then_eq_eq] at alike
    have round := Round.runs (List.cons_ne_nil a _) (List.cons_ne_nil b _)
      (digits_cons.mpr ⟨digitA, digits⟩) (digits_cons.mpr ⟨digitB, digits'⟩) ends ends'
      (Nat.compare_eq_eq.mp alike.1)
    rw [List.cons_append, List.cons_append, split, split'] at round
    exact ⟨_, round, alike.2, Nat.lt_succ_of_le (length_afterRun_le as)⟩
  · rw [compareBytes_of_other (Decidable.not_and_iff_not_or_not.mp both), Ordering.then_eq_eq]
      at alike
    obtain rfl := Std.LawfulEqOrd.eq_of_compare alike.1
    have other : ¬ Digit a := fun digit => both ⟨digit, digit⟩
    exact ⟨_, .byte other, alike.2, Nat.lt_succ_self _⟩

/-- The comparison finds no difference just if its rounds pass both byte strings to their ends. -/
theorem compareBytes_eq_eq_iff (as bs : List UInt8) :
    compareBytes as bs = .eq ↔ Relation.ReflTransGen Round (as, bs) ([], []) := by
  constructor
  · intro alike
    induction h : as.length using Nat.strongRecOn generalizing as bs with
    | _ length ih =>
    subst h
    cases as with
    | nil =>
      cases bs with
      | nil => exact .refl
      | cons b bs => simp [compareBytes] at alike
    | cons a as =>
      cases bs with
      | nil => simp [compareBytes] at alike
      | cons b bs =>
        obtain ⟨q, round, alike, shorter⟩ := Round.of_compareBytes_eq alike
        exact .head round (ih _ shorter _ _ alike rfl)
  · intro run
    have all : ∀ p, Relation.ReflTransGen Round p ([], []) → compareBytes p.1 p.2 = .eq := by
      intro p run
      induction run using Relation.ReflTransGen.head_induction_on with
      | refl => rw [compareBytes]
      | head round _ ih => rw [round.compareBytes_eq, ih]
    exact all _ run

end Compare

/-! ### Identifiers -/

/-- The natural order of identifiers is the lexicographic order of their tokens. -/
theorem order_eq (a b : String) :
    order a b = List.compareLex Token.compare (tokensOf a) (tokensOf b) := compareBytes_eq _ _

instance : Std.TransCmp order where
  eq_swap {a b} := by
    rw [order_eq, order_eq]
    exact Std.OrientedCmp.eq_swap
  isLE_trans {a b c} ab bc := by
    rw [order_eq] at *
    exact Std.TransCmp.isLE_trans ab bc

/-- Identifiers of one place in the order have the same tokens. -/
theorem order_eq_eq_iff {a b : String} : order a b = .eq ↔ tokensOf a = tokensOf b := by
  rw [order_eq, Std.LawfulEqCmp.compare_eq_iff_eq]

/-- The natural order of identifiers is a total preorder: it is turned around with its arguments,
and goes on over any third identifier, strictly so if one of its steps is strict.  It is the
lexicographic order of the rows of tokens, so that identifiers share a place just if they have the
same tokens, which are the numbers that their runs of digits denote and their other bytes.  A round
that passes a token of both leaves the decision to what is left of them, and identifiers share a
place just if such rounds pass both to their ends. -/
theorem order_lexicographic :
    (∀ a b, order a b = (order b a).swap) ∧
    (∀ a b c, order a b ≠ .gt → order b c ≠ .gt →
      order a c ≠ .gt ∧ (order a c = .eq → order a b = .eq ∧ order b c = .eq)) ∧
    (∀ a b, order a b = List.compareLex Token.compare (tokensOf a) (tokensOf b)) ∧
    (∀ p q, Round p q → compareBytes p.1 p.2 = compareBytes q.1 q.2) ∧
    ∀ a b, (order a b = .eq ↔ tokensOf a = tokensOf b) ∧
      (order a b = .eq ↔
        Relation.ReflTransGen Round (a.toUTF8.toList, b.toUTF8.toList) ([], [])) := by
  refine ⟨fun a b => Std.OrientedCmp.eq_swap, ?_, order_eq, fun p q => Round.compareBytes_eq,
    fun a b => ⟨order_eq_eq_iff, compareBytes_eq_eq_iff _ _⟩⟩
  intro a b c ab bc
  have ab := Ordering.isLE_iff_ne_gt.mpr ab
  have bc := Ordering.isLE_iff_ne_gt.mpr bc
  refine ⟨Ordering.isLE_iff_ne_gt.mp (Std.TransCmp.isLE_trans ab bc), fun ac => ⟨?_, ?_⟩⟩
  · rcases Ordering.isLE_iff_eq_lt_or_eq_eq.mp ab with less | same
    · exact absurd ac (by rw [Std.TransCmp.lt_of_lt_of_isLE less bc]; decide)
    · exact same
  · rcases Ordering.isLE_iff_eq_lt_or_eq_eq.mp bc with less | same
    · exact absurd ac (by rw [Std.TransCmp.lt_of_isLE_of_lt ab less]; decide)
    · exact same

/-- `draft-08.2` and `draft-8.02` have the same tokens, share a place and are passed by rounds, and
the order goes on through them, to `draft-008.002` in the same place and to `draft-8.10`, which is
greater.  There the runs of digits in front are alike, and what stands behind them decides: so it is
for the bytes of `08.2` and `8.10`, which a round takes to those of `.2` and `.10`. -/
theorem order_lexicographic_drafts :
    (tokensOf "draft-08.2" = tokensOf "draft-8.02" ∧ order "draft-08.2" "draft-8.02" = .eq ∧
      Relation.ReflTransGen Round ("draft-08.2".toUTF8.toList, "draft-8.02".toUTF8.toList)
        ([], [])) ∧
    (order "draft-08.2" "draft-008.002" = .eq ∧ order "draft-8.02" "draft-008.002" = .eq) ∧
    (order "draft-8.02" "draft-8.10" = .lt ∧ order "draft-08.2" "draft-8.10" = .lt) ∧
    (order "draft-8.10" "draft-8.9" = .gt ∧ order "draft-8.9" "draft-8.10" = .lt) ∧
    compareBytes [48, 56, 46, 50] [56, 46, 49, 48] = compareBytes [46, 50] [46, 49, 48] := by
  obtain ⟨swap, trans, lexicographic, rounds, alike⟩ := order_lexicographic
  have tokens : tokensOf "draft-08.2" = tokensOf "draft-8.02" := by decide +kernel
  have same := (alike _ _).1.mpr tokens
  have third : order "draft-08.2" "draft-008.002" = .eq := by decide +kernel
  have less : order "draft-8.02" "draft-8.10" = .lt := by decide +kernel
  have on := trans "draft-08.2" "draft-8.02" "draft-8.10" (by rw [same]; decide)
    (by rw [less]; decide)
  have greater : order "draft-8.10" "draft-8.9" = .gt := by
    rw [lexicographic]
    decide +kernel
  refine ⟨⟨tokens, same, (alike _ _).2.mp same⟩, ⟨third, ?_⟩, ⟨less, ?_⟩, ⟨greater, ?_⟩, ?_⟩
  · exact ((trans "draft-08.2" "draft-8.02" "draft-008.002" (by rw [same]; decide)
      (by decide +kernel)).2 third).2
  · cases first : order "draft-08.2" "draft-8.10" with
    | lt => rfl
    | eq => exact absurd (on.2 first).2 (by rw [less]; decide)
    | gt => exact absurd first on.1
  · rw [swap, greater]
    rfl
  · have round : Round ([48, 56] ++ [46, 50], [56] ++ [46, 49, 48]) ([46, 50], [46, 49, 48]) :=
      .runs (by decide) (by decide) (by decide) (by decide) (by decide) (by decide) rfl
    exact rounds _ _ round

end WireGrammar.Version
