import WireGrammar.Text.Quoted
import WireGrammar.Value.Basic

/-!
# Literals and tests

A literal of a grammar means an integer wherever it can: numbers and numerals are compared by what
they denote, whatever their spelling.  Byte strings are compared with hexadecimal text only.
-/

namespace WireGrammar

/-- A constant of a grammar. -/
inductive Literal where
  | int (i : Int)
  | str (s : String)
  | bool (b : Bool)
  deriving DecidableEq, Repr, Inhabited

/-- The literal as messages show it. -/
def Literal.display : Literal → String
  | .int i => Text.decimalInt i
  | .str s => Text.quoted s
  | .bool true => "true"
  | .bool false => "false"

/-- The text without a leading `0x`. -/
def withoutHexMark (s : String) : List Char :=
  match s.toList with
  | '0' :: 'x' :: cs => cs
  | cs => cs

/-- The two texts denote the same integer. -/
def Value.sameInteger (v : Value) (s : String) : Bool :=
  match v.integer?, Text.integer? s with
  | some i, some j => i == j
  | _, _ => false

/-- The scalar agrees with the literal. -/
def Value.matches : Value → Literal → Bool
  | .bytes bs, .str s => Bytes.ofHexDigits? (withoutHexMark s) == some bs
  | .bytes _, _ => false
  | v, .int i => v.integer? == some i
  | v, .bool b => v.integer? == some (if b then 1 else 0)
  | v, .str s => v.text? == some s || v.sameInteger s

/-- How a test compares. -/
inductive CompareOp where
  | eq
  | neq
  deriving DecidableEq, Repr, Inhabited

namespace CompareOp

/-- The comparison holds of a scalar and a literal. -/
def holds : CompareOp → Value → Literal → Bool
  | .eq, v, l => v.matches l
  | .neq, v, l => !v.matches l

/-- The word for the comparison in grammars and messages. -/
def name : CompareOp → String
  | .eq => "eq"
  | .neq => "neq"

/-- The comparison that a word names. -/
def ofName? : String → Option CompareOp
  | "eq" => some .eq
  | "neq" => some .neq
  | _ => none

end CompareOp

/-- What a field accepts. -/
inductive ValueSpec where
  | single (l : Literal)
  | oneOf (ls : List Literal)
  | ops (tests : List (CompareOp × Literal))
  deriving DecidableEq, Repr, Inhabited

namespace ValueSpec

/-- The scalar passes the test: it is the literal, is among the literals, or passes every
comparison. -/
def accepts : ValueSpec → Value → Bool
  | .single l, v => v.matches l
  | .oneOf ls, v => ls.any v.matches
  | .ops tests, v => tests.all fun t => t.1.holds v t.2

/-- The test as messages show it. -/
def display : ValueSpec → String
  | .single l => l.display
  | .oneOf ls => "one of [" ++ ", ".intercalate (ls.map Literal.display) ++ "]"
  | .ops tests => " and ".intercalate (tests.map fun t => t.1.name ++ " " ++ t.2.display)

end ValueSpec

end WireGrammar
