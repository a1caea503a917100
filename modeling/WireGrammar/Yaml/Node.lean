import WireGrammar.Double.Shortest
import WireGrammar.Text.Numeral
import WireGrammar.Text.Quoted

/-!
# Values of a document

The values of a YAML document: scalars, sequences, and mappings, whose entries keep the order of the
document and whose keys may be any value.  Any of them may have a tag of its own.  A tagged value is
another value than the one without the tag, but has the same views.
-/

namespace WireGrammar.Yaml

/-- A number: an integer, a number in double precision, or one of the values beyond the finite
ones. -/
inductive Number where
  | int (i : Int)
  | finite (x : Double)
  | infinite (negative : Bool)
  | notANumber
  deriving DecidableEq, Repr, Inhabited

/-- A value of a document. -/
inductive Node where
  | null
  | bool (b : Bool)
  | number (n : Number)
  | text (s : String)
  | sequence (items : List Node)
  | mapping (entries : List (Node × Node))
  /-- A value behind a tag, which is kept without its exclamation mark. -/
  | tagged (tag : String) (value : Node)
  deriving Inhabited

/-! ### Text of numbers -/

namespace Number

/-- Decimal fractions are written with a point while it falls at most five places before or
sixteen places behind the first digit, and with an exponent beyond. -/
def decimalText (x : Decimal) : String :=
  let digits := Nat.toDigits 10 x.digits
  let point : Int := digits.length + x.exponent
  let chars :=
    if 0 ≤ x.exponent ∧ point ≤ 16 then
      digits ++ List.replicate x.exponent.toNat '0' ++ ['.', '0']
    else if 0 < point ∧ point ≤ 16 then
      digits.take point.toNat ++ ['.'] ++ digits.drop point.toNat
    else if -5 < point ∧ point ≤ 0 then
      ['0', '.'] ++ List.replicate (-point).toNat '0' ++ digits
    else
      let fraction := if digits.length = 1 then [] else '.' :: digits.drop 1
      digits.take 1 ++ fraction ++ ['e'] ++ (Text.decimalInt (point - 1)).toList
  String.ofList chars

/-- The number as messages show it. -/
def display : Number → String
  | .int i => Text.decimalInt i
  | .finite x => (if x.negative then "-" else "") ++ decimalText x.shortest
  | .infinite negative => if negative then "-.inf" else ".inf"
  | .notANumber => ".nan"

/-! ### Equal numbers -/

/-- The two numbers are equal: the sign of a zero does not count, but an integer is no number in
double precision. -/
def same : Number → Number → Bool
  | .finite x, .finite y => x.same y
  | a, b => a == b

end Number

/-! ### Text of values -/

/-- A truth value as messages show it. -/
def boolText (b : Bool) : String := if b then "true" else "false"

namespace Node

/-- A tagged value as messages show it, from what they show of the value. -/
def displayTagged (tag value : String) : String :=
  "TaggedValue \x7b tag: !" ++ tag ++ ", value: " ++ value ++ " \x7d"

mutual

/-- The value as messages show it: its kind and its parts. -/
def display : Node → String
  | .null => "Null"
  | .bool b => "Bool(" ++ boolText b ++ ")"
  | .number n => "Number(" ++ n.display ++ ")"
  | .text s => "String(" ++ Text.quoted s ++ ")"
  | .sequence items => "Sequence [" ++ ", ".intercalate (displayItems items) ++ "]"
  | .mapping entries => "Mapping \x7b" ++ ", ".intercalate (displayEntries entries) ++ "\x7d"
  | .tagged tag value => displayTagged tag (display value)

/-- The items of a sequence as messages show them. -/
def displayItems : List Node → List String
  | [] => []
  | item :: items => display item :: displayItems items

/-- A mapping key as messages show it: a scalar other than null stands without its kind. -/
def displayKey : Node → String
  | .bool b => boolText b
  | .number n => n.display
  | .text s => Text.quoted s
  | .null => "Null"
  | .sequence items => "Sequence [" ++ ", ".intercalate (displayItems items) ++ "]"
  | .mapping entries => "Mapping \x7b" ++ ", ".intercalate (displayEntries entries) ++ "\x7d"
  | .tagged tag value => displayTagged tag (display value)

/-- The entries of a mapping as messages show them. -/
def displayEntries : List (Node × Node) → List String
  | [] => []
  | (key, value) :: entries =>
    (displayKey key ++ ": " ++ display value) :: displayEntries entries

end

/-! ### Equal values -/

mutual

/-- The two values are equal, where tags count and the order of the entries of a mapping does
not. -/
def same : Node → Node → Bool
  | .null, .null => true
  | .bool a, .bool b => a == b
  | .number a, .number b => a.same b
  | .text a, .text b => a == b
  | .sequence as, .sequence bs => sameItems as bs
  | .mapping as, .mapping bs => as.length == bs.length && entriesAmong as bs
  | .tagged tag a, .tagged tag' b => tag == tag' && same a b
  | _, _ => false

/-- The two sequences are equal item by item. -/
def sameItems : List Node → List Node → Bool
  | [], [] => true
  | a :: as, b :: bs => same a b && sameItems as bs
  | _, _ => false

/-- Every entry of the first mapping is one of the second. -/
def entriesAmong : List (Node × Node) → List (Node × Node) → Bool
  | [], _ => true
  | (key, value) :: entries, others =>
    (others.any fun e => same key e.1 && same value e.2) && entriesAmong entries others

end

/-! ### Depth -/

mutual

/-- How deep collections are nested. -/
def depth : Node → Nat
  | .sequence items => depthOfItems items + 1
  | .mapping entries => depthOfEntries entries + 1
  | .tagged _ value => depth value
  | _ => 0

/-- The depth of the deepest item. -/
def depthOfItems : List Node → Nat
  | [] => 0
  | item :: items => max (depth item) (depthOfItems items)

/-- The depth of the deepest key or value. -/
def depthOfEntries : List (Node × Node) → Nat
  | [] => 0
  | (key, value) :: entries => max (max (depth key) (depth value)) (depthOfEntries entries)

end

/-! ### Views -/

/-- The value behind its tags. -/
def untagged : Node → Node
  | .tagged _ value => value.untagged
  | n => n

/-- The text of a text. -/
def text? (n : Node) : Option String :=
  match n.untagged with
  | .text s => some s
  | _ => none

/-- The integer that a number is. -/
def int? (n : Node) : Option Int :=
  match n.untagged with
  | .number (.int i) => some i
  | _ => none

/-- The items of a sequence. -/
def sequence? (n : Node) : Option (List Node) :=
  match n.untagged with
  | .sequence items => some items
  | _ => none

/-- The entries of a mapping. -/
def mapping? (n : Node) : Option (List (Node × Node)) :=
  match n.untagged with
  | .mapping entries => some entries
  | _ => none

theorem text?_eq_some_iff {n : Node} {s : String} : n.text? = some s ↔ n.untagged = .text s := by
  unfold text?
  cases n.untagged <;> simp

theorem int?_eq_some_iff {n : Node} {i : Int} :
    n.int? = some i ↔ n.untagged = .number (.int i) := by
  unfold int?
  cases n.untagged with
  | number number => cases number <;> simp
  | _ => simp

theorem sequence?_eq_some_iff {n : Node} {items : List Node} :
    n.sequence? = some items ↔ n.untagged = .sequence items := by
  unfold sequence?
  cases n.untagged <;> simp

theorem mapping?_eq_some_iff {n : Node} {entries : List (Node × Node)} :
    n.mapping? = some entries ↔ n.untagged = .mapping entries := by
  unfold mapping?
  cases n.untagged <;> simp

@[simp] theorem text?_text (s : String) : (text s).text? = some s := rfl

@[simp] theorem sequence?_sequence (items : List Node) : (sequence items).sequence? = some items :=
  rfl

@[simp] theorem mapping?_mapping (entries : List (Node × Node)) :
    (mapping entries).mapping? = some entries := rfl

/-- Behind its tags a value is no greater. -/
theorem sizeOf_untagged_le : (n : Node) → sizeOf n.untagged ≤ sizeOf n
  | .tagged tag n => by
    have inside := sizeOf_untagged_le n
    rw [untagged, tagged.sizeOf_spec]
    omega
  | .null | .bool _ | .number _ | .text _ | .sequence _ | .mapping _ => Nat.le_refl _

theorem sizeOf_lt_of_sequence? {n : Node} {items : List Node} (h : n.sequence? = some items) :
    sizeOf items < sizeOf n := by
  have inside := n.sizeOf_untagged_le
  rw [sequence?_eq_some_iff.mp h, sequence.sizeOf_spec] at inside
  omega

theorem sizeOf_lt_of_mapping? {n : Node} {entries : List (Node × Node)}
    (h : n.mapping? = some entries) : sizeOf entries < sizeOf n := by
  have inside := n.sizeOf_untagged_le
  rw [mapping?_eq_some_iff.mp h, mapping.sizeOf_spec] at inside
  omega

end Node

end WireGrammar.Yaml
