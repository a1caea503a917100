import WireGrammar.Value.Format
import WireGrammar.Value.Literal

/-!
# Attributes of a field

The attributes of a field: how long it is, what it accepts, which structure is decoded in its place,
when it is present at all, how it is shown, and what decoding it changes for later fields.  Every
attribute is optional, so the same record serves a declaration, the changes pending within a
structure and those kept for later packets; laying one record over another lets the upper one win
attribute by attribute.

* `get?_set`, `get?_merge`: setting and merging, attribute by attribute.
-/

namespace WireGrammar

/-- The length of a scalar. -/
inductive Length where
  | bits (n : Nat)
  /-- A self-describing integer. -/
  | varint
  /-- A packet number. -/
  | packetNumber
  /-- All that is left. -/
  | rest
  deriving DecidableEq, Repr, Inhabited

/-- A test on a field decoded earlier. -/
structure Condition where
  field : String
  op : CompareOp
  literal : Literal
  deriving DecidableEq, Repr, Inhabited

/-- The seven attributes. -/
inductive AttributeKind where
  | length
  | values
  | parse
  | conditions
  | triggers
  | byteLength
  | format
  deriving DecidableEq, Repr, Inhabited

namespace AttributeKind

/-- The word for the attribute in grammars. -/
def name : AttributeKind → String
  | .length => "length"
  | .values => "values"
  | .parse => "parse"
  | .conditions => "conditions"
  | .triggers => "triggers"
  | .byteLength => "byte_length"
  | .format => "format"

/-- The attribute that a word names. -/
def ofName? : String → Option AttributeKind
  | "length" => some .length
  | "values" => some .values
  | "parse" => some .parse
  | "conditions" => some .conditions
  | "triggers" => some .triggers
  | "byte_length" => some .byteLength
  | "format" => some .format
  | _ => none

end AttributeKind

/-! ### Attribute values and triggers -/

mutual

/-- One attribute with its value. -/
inductive AttributeValue where
  | length (l : Length)
  | values (spec : ValueSpec)
  | parse (target : String)
  | conditions (cs : List Condition)
  | triggers (ts : List Trigger)
  | byteLength (n : Nat)
  | format (f : Format)

/-- What decoding a field sets off. -/
inductive Trigger where
  /-- The pending changes are kept for the packets to come. -/
  | saveToContext
  /-- Attributes of the fields named `target` are changed. -/
  | onField (target : String) (rules : List TriggerRule)

/-- How a trigger changes one attribute. -/
inductive TriggerRule where
  /-- The attribute is taken from the decoded scalar. -/
  | set (kind : AttributeKind)
  /-- The attribute is found in a table under the first literal that agrees with the scalar. -/
  | lookup (kind : AttributeKind) (table : List (Literal × AttributeValue))

end

instance : Inhabited AttributeValue := ⟨.byteLength 0⟩
instance : Inhabited Trigger := ⟨.saveToContext⟩

/-- The attribute that a value belongs to. -/
def AttributeValue.kind : AttributeValue → AttributeKind
  | .length _ => .length
  | .values _ => .values
  | .parse _ => .parse
  | .conditions _ => .conditions
  | .triggers _ => .triggers
  | .byteLength _ => .byteLength
  | .format _ => .format

/-- The attribute that a rule changes. -/
def TriggerRule.kind : TriggerRule → AttributeKind
  | .set kind => kind
  | .lookup kind _ => kind

/-! ### Records of attributes -/

/-- The attributes of a field, as far as they are given. -/
structure FieldAttributes where
  length : Option Length := none
  values : Option ValueSpec := none
  parse : Option String := none
  conditions : Option (List Condition) := none
  triggers : Option (List Trigger) := none
  byteLength : Option Nat := none
  format : Option Format := none

namespace FieldAttributes

/-- The record that gives no attribute. -/
def empty : FieldAttributes := {}

instance : Inhabited FieldAttributes := ⟨empty⟩

/-- The record with one attribute replaced. -/
def set (a : FieldAttributes) : AttributeValue → FieldAttributes
  | .length l => { a with length := some l }
  | .values spec => { a with values := some spec }
  | .parse target => { a with parse := some target }
  | .conditions cs => { a with conditions := some cs }
  | .triggers ts => { a with triggers := some ts }
  | .byteLength n => { a with byteLength := some n }
  | .format f => { a with format := some f }

/-- The record with every attribute that `upper` gives replaced. -/
def merge (a upper : FieldAttributes) : FieldAttributes where
  length := upper.length <|> a.length
  values := upper.values <|> a.values
  parse := upper.parse <|> a.parse
  conditions := upper.conditions <|> a.conditions
  triggers := upper.triggers <|> a.triggers
  byteLength := upper.byteLength <|> a.byteLength
  format := upper.format <|> a.format

/-- No attribute is given. -/
def isEmpty (a : FieldAttributes) : Bool :=
  a.length.isNone && a.values.isNone && a.parse.isNone && a.conditions.isNone &&
    a.triggers.isNone && a.byteLength.isNone && a.format.isNone

/-- The value of one attribute, if it is given. -/
def get? (a : FieldAttributes) : AttributeKind → Option AttributeValue
  | .length => a.length.map .length
  | .values => a.values.map .values
  | .parse => a.parse.map .parse
  | .conditions => a.conditions.map .conditions
  | .triggers => a.triggers.map .triggers
  | .byteLength => a.byteLength.map .byteLength
  | .format => a.format.map .format

/-- Setting an attribute changes that one and no other. -/
theorem get?_set (a : FieldAttributes) (v : AttributeValue) (kind : AttributeKind) :
    (a.set v).get? kind = if kind = v.kind then some v else a.get? kind := by
  cases v <;> cases kind <;> rfl

/-- A merged attribute is that of the upper record where it gives one. -/
theorem get?_merge (a upper : FieldAttributes) (kind : AttributeKind) :
    (a.merge upper).get? kind = (upper.get? kind <|> a.get? kind) := by
  obtain ⟨_, _, _, _, _, _, _⟩ := a
  obtain ⟨l, v, p, c, t, b, f⟩ := upper
  cases kind
  · cases l <;> rfl
  · cases v <;> rfl
  · cases p <;> rfl
  · cases c <;> rfl
  · cases t <;> rfl
  · cases b <;> rfl
  · cases f <;> rfl

end FieldAttributes

end WireGrammar
