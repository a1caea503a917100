/-!
# JSON values

A JSON value is null, a truth value, a number, a text, an array or an object.  The members of an
object keep their order, and a name may occur more than once.
-/

namespace WireGrammar

/-- A number of a JSON text. -/
inductive JsonNumber where
  | natural (n : Nat)
  /-- Any other number, as it is written. -/
  | written (digits : String)
  deriving DecidableEq, Repr, Inhabited

/-- A JSON value.  A string that escapes one half of a surrogate pair without the other is well
formed but denotes no text. -/
inductive Json where
  | null
  | bool (b : Bool)
  | number (n : JsonNumber)
  | text (s : Option String)
  | array (items : List Json)
  | object (members : List (Option String × Json))
  deriving Inhabited

namespace Json

/-- The number `n`. -/
def nat (n : Nat) : Json := .number (.natural n)

/-- The text `s`. -/
def str (s : String) : Json := .text (some s)

/-- The object with the given members. -/
def ofMembers (members : List (String × Json)) : Json :=
  .object (members.map fun m => (some m.1, m.2))

end Json

end WireGrammar
