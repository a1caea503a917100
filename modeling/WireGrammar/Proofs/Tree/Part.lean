import WireGrammar.Tree.Basic

/-!
# Structures at any depth

The parts of a decoded packet are its structures at any depth, each before those nested in it.
Parts and scalars of several fields are those of one after the other.
-/

namespace WireGrammar

mutual

/-- The structures within a field. -/
def DecodedField.parts : DecodedField → List DecodedStructure
  | .scalar .. => []
  | .nested _ inner _ _ => inner.parts

/-- A structure and the structures within it. -/
def DecodedStructure.parts : DecodedStructure → List DecodedStructure
  | ⟨name, fields, start, stop⟩ => ⟨name, fields, start, stop⟩ :: partsOfFields fields

/-- The structures within several fields. -/
def partsOfFields : List DecodedField → List DecodedStructure
  | [] => []
  | f :: fs => f.parts ++ partsOfFields fs

end

/-- The structures of a packet, at any depth. -/
def ParseTree.parts (t : ParseTree) : List DecodedStructure := t.structures.flatMap (·.parts)

theorem partsOfFields_eq (fields : List DecodedField) :
    partsOfFields fields = fields.flatMap (·.parts) := by
  induction fields with
  | nil => rfl
  | cons f fields ih => rw [partsOfFields, ih, List.flatMap_cons]

theorem partsOfFields_append (as bs : List DecodedField) :
    partsOfFields (as ++ bs) = partsOfFields as ++ partsOfFields bs := by
  simp only [partsOfFields_eq, List.flatMap_append]

theorem leavesOfFields_eq (fields : List DecodedField) :
    leavesOfFields fields = fields.flatMap (·.leaves) := by
  induction fields with
  | nil => rfl
  | cons f fields ih => rw [leavesOfFields, ih, List.flatMap_cons]

theorem leavesOfFields_append (as bs : List DecodedField) :
    leavesOfFields (as ++ bs) = leavesOfFields as ++ leavesOfFields bs := by
  simp only [leavesOfFields_eq, List.flatMap_append]

theorem DecodedStructure.mem_parts {s t : DecodedStructure} :
    t ∈ s.parts ↔ t = s ∨ ∃ f ∈ s.fields, t ∈ f.parts := by
  obtain ⟨name, fields, start, stop⟩ := s
  rw [parts, List.mem_cons, partsOfFields_eq, List.mem_flatMap]

end WireGrammar
