import WireGrammar.Dissect.Structure

/-!
# Decoding structures by name

A name stands for the structure of that name or else for an abstract type, whose alternatives are
tried in order, each from the same context, until one fits.  A structure that is already being
decoded at an offset is not entered there again; since its offsets stay within the slice, this
bounds how deep structures can be nested.
-/

namespace WireGrammar

/-- A way of decoding a given structure. -/
abbrev StructureParser := Structure → Slice → StreamContext → Attempt StructureOutcome

/-- The decoded structure with the place it was found at. -/
def StructureOutcome.resolved (out : StructureOutcome) (s : Structure) (input : Slice) :
    Resolved where
  decoded := ⟨s.name, out.fields, input.offset, input.offset + out.consumed⟩
  consumed := out.consumed
  next := out.next
  context := out.context

/-- The first of the structures that fits. -/
def firstFit (enter : StructureParser) (input : Slice) (ctx : StreamContext) :
    List Structure → Option Resolved
  | [] => none
  | s :: ss =>
    match enter s input ctx with
    | .ok out => some (out.resolved s input)
    | .error _ => firstFit enter input ctx ss

/-- Decodes the first alternative of a type that fits. -/
def resolveTypeBy (g : Grammar) (enter : StructureParser) (typeName : String) (input : Slice)
    (ctx : StreamContext) : Attempt Resolved :=
  match firstFit enter input ctx (g.structuresOfType typeName) with
  | some r => .ok r
  | none => .error ⟨.noMatchingStructure typeName input.offset input.bytes.head?, ctx⟩

/-- Decodes the structure with the given name, or else an alternative of the type. -/
def parseTargetBy (g : Grammar) (enter : StructureParser) (name : String) (input : Slice)
    (ctx : StreamContext) : Attempt Resolved :=
  match g.getStructure? name with
  | some s => (enter s input ctx).map (·.resolved s input)
  | none => resolveTypeBy g enter name input ctx

/-- Structures being decoded, by name and offset, the innermost first. -/
abbrev Active := List (String × Nat)

/-- Decodes a structure within others that are being decoded, at most `depth` further ones inside
each other. -/
def enterStructure (g : Grammar) (o : Options) : (depth : Nat) → Active → StructureParser
  | 0, _, s, input, ctx => .error ⟨.recursiveStructure s.name input.offset, ctx⟩
  | depth + 1, active, s, input, ctx =>
    if active.contains (s.name, input.offset) then
      .error ⟨.recursiveStructure s.name input.offset, ctx⟩
    else
      let nested := enterStructure g o depth ((s.name, input.offset) :: active)
      parseDescriptors o (parseTargetBy g nested) s input ctx

/-- A bound on the depth of structures on a slice: no structure is entered twice at an offset. -/
def depthBound (g : Grammar) (input : Slice) : Nat :=
  g.structures.length * (input.length + 1) + 1

/-- Decodes a structure that no other is being decoded around. -/
def enterOutermost (g : Grammar) (o : Options) : StructureParser := fun s input ctx =>
  enterStructure g o (depthBound g input) [] s input ctx

/-! ### Entry points -/

/-- Decodes the structure `name` at the front of a slice. -/
def parseStructure (g : Grammar) (o : Options) (name : String) (input : Slice)
    (ctx : StreamContext) : Attempt StructureOutcome :=
  match g.getStructure? name with
  | some s => enterOutermost g o s input ctx
  | none => .error ⟨.unknownStructure name, ctx⟩

/-- Decodes the first alternative of the type `typeName` that fits. -/
def resolveType (g : Grammar) (o : Options) (typeName : String) (input : Slice)
    (ctx : StreamContext) : Attempt Resolved :=
  resolveTypeBy g (enterOutermost g o) typeName input ctx

/-- Decodes the structure with the given name, or else an alternative of the type. -/
def parseTarget (g : Grammar) (o : Options) (name : String) (input : Slice)
    (ctx : StreamContext) : Attempt Resolved :=
  parseTargetBy g (enterOutermost g o) name input ctx

end WireGrammar
