import WireGrammar.Value.Basic

/-!
# Decoded packets

The decoded form of a packet consists of structures made of fields, each of which is a scalar or
another structure.  Everything carries the run of bytes it comes from, as absolute offsets; a field
that takes part of a byte counts that byte as its own.
-/

namespace WireGrammar

mutual

/-- A decoded field, from the byte `start` up to the byte before `stop`. -/
inductive DecodedField where
  | scalar (name : String) (value : Value) (start stop : Nat)
  | nested (name : String) (inner : DecodedStructure) (start stop : Nat)

/-- A decoded structure. -/
structure DecodedStructure where
  name : String
  fields : List DecodedField
  start : Nat
  stop : Nat

end

instance : Inhabited DecodedStructure := ⟨⟨"", [], 0, 0⟩⟩
instance : Inhabited DecodedField := ⟨.scalar "" default 0 0⟩

/-- A decoded packet: a root, and the structures that follow it. -/
structure ParseTree where
  structures : List DecodedStructure
  deriving Inhabited

namespace DecodedField

def name : DecodedField → String
  | .scalar name .. => name
  | .nested name .. => name

def start : DecodedField → Nat
  | .scalar _ _ start _ => start
  | .nested _ _ start _ => start

def stop : DecodedField → Nat
  | .scalar _ _ _ stop => stop
  | .nested _ _ _ stop => stop

/-- The number of bytes the field touches. -/
def width (f : DecodedField) : Nat := f.stop - f.start

/-- The scalar of a scalar field. -/
def value? : DecodedField → Option Value
  | .scalar _ value _ _ => some value
  | .nested .. => none

/-- The structure of any other field. -/
def structure? : DecodedField → Option DecodedStructure
  | .scalar .. => none
  | .nested _ inner _ _ => some inner

end DecodedField

/-! ### Scalars at any depth -/

mutual

/-- The scalar fields within a field, in the order of the packet. -/
def DecodedField.leaves : DecodedField → List DecodedField
  | .scalar name value start stop => [.scalar name value start stop]
  | .nested _ inner _ _ => inner.leaves

/-- The scalar fields within a structure, in the order of the packet. -/
def DecodedStructure.leaves : DecodedStructure → List DecodedField
  | ⟨_, fields, _, _⟩ => leavesOfFields fields

/-- The scalar fields within several fields, in the order of the packet. -/
def leavesOfFields : List DecodedField → List DecodedField
  | [] => []
  | f :: fs => f.leaves ++ leavesOfFields fs

end

mutual

/-- The first scalar with the given name within a field. -/
def DecodedField.find? (name : String) : DecodedField → Option Value
  | .scalar own value _ _ => if own = name then some value else none
  | .nested _ inner _ _ => inner.find? name

/-- The first scalar with the given name within a structure. -/
def DecodedStructure.find? (name : String) : DecodedStructure → Option Value
  | ⟨_, fields, _, _⟩ => findInFields name fields

/-- The first scalar with the given name within several fields. -/
def findInFields (name : String) : List DecodedField → Option Value
  | [] => none
  | f :: fs =>
    match f.find? name with
    | some value => some value
    | none => findInFields name fs

end

namespace DecodedStructure

/-- The first scalar among the fields with the given name, nested structures left aside. -/
def get? (s : DecodedStructure) (name : String) : Option Value :=
  s.fields.findSome? fun f => if f.name = name then f.value? else none

/-- The fields with the given name, nested structures left aside. -/
def all (s : DecodedStructure) (name : String) : List DecodedField :=
  s.fields.filter (·.name == name)

end DecodedStructure

namespace ParseTree

/-- The structure that the packet starts with. -/
def root? (t : ParseTree) : Option DecodedStructure := t.structures.head?

/-- The offset behind the last decoded byte. -/
def stop (t : ParseTree) : Nat := t.structures.getLast?.elim 0 (·.stop)

/-- The first scalar with the given name, at any depth. -/
def find? (t : ParseTree) (name : String) : Option Value :=
  t.structures.findSome? (·.find? name)

/-- The scalar fields, in the order of the packet. -/
def leaves (t : ParseTree) : List DecodedField := t.structures.flatMap (·.leaves)

end ParseTree

end WireGrammar
