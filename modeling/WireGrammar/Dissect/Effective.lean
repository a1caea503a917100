import WireGrammar.Context
import WireGrammar.Grammar.Basic
import WireGrammar.Tree.Basic

/-!
# Effective attributes

The attributes that a field is decoded with: those of its declaration, under those of the context,
under those that earlier fields of the same structure have left.
-/

namespace WireGrammar

/-- The pending changes within a structure, and the context of the stream. -/
structure Memory where
  overrides : AttributeTable
  context : StreamContext

namespace Memory

/-- The attributes that a table gives a field. -/
def given (t : AttributeTable) (field : String) : FieldAttributes := (t.get? field).getD .empty

/-- The attributes that a field is decoded with. -/
def effective (m : Memory) (f : FieldDescriptor) : FieldAttributes :=
  (f.attributes.merge (given m.context f.name)).merge (given m.overrides f.name)

/-- The length of a field is given by an earlier field or packet.  Such a length counts bits even
where one of a declaration counts repetitions. -/
def dynamicLength (m : Memory) (f : FieldDescriptor) : Bool :=
  (given m.overrides f.name).length.isSome || (given m.context f.name).length.isSome

end Memory

/-- The condition holds of the first of the fields that has its name, which has to be a scalar. -/
def Condition.holds (fields : List DecodedField) (c : Condition) : Bool :=
  match fields.find? (·.name == c.field) with
  | some f =>
    match f.value? with
    | some v => c.op.holds v c.literal
    | none => false
  | none => false

/-- All conditions of a field hold. -/
def FieldAttributes.isPresent (a : FieldAttributes) (fields : List DecodedField) : Bool :=
  (a.conditions.getD []).all (Condition.holds fields)

/-- The bytes must not end before a field of this length. -/
def FieldAttributes.isRequired (a : FieldAttributes) : Bool :=
  match a.length with
  | none => false
  | some .rest => false
  | some (.bits n) => n != 0
  | some _ => true

end WireGrammar
