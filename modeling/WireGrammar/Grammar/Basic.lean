import WireGrammar.Grammar.Attribute

/-!
# Grammars

A grammar describes packets by structures, each an ordered list of descriptors.  A leading `type`
descriptor makes a structure one of the alternatives of an abstract type; a `next` descriptor ends
it and names the structure that follows.  The roots are the structures that a whole packet may start
with.
-/

namespace WireGrammar

/-- A field as a structure declares it. -/
structure FieldDescriptor where
  name : String
  attributes : FieldAttributes
  /-- The field is tried again while bytes are left. -/
  repeated : Bool
  deriving Inhabited

/-- One item of a structure. -/
inductive Descriptor where
  /-- The structure is an alternative of this abstract type. -/
  | type (name : String)
  /-- The structure ends here and this one follows. -/
  | next (name : String)
  | field (f : FieldDescriptor)
  deriving Inhabited

/-- The field that a descriptor declares. -/
def Descriptor.field? : Descriptor → Option FieldDescriptor
  | .field f => some f
  | _ => none

/-- A named list of descriptors. -/
structure Structure where
  name : String
  descriptors : List Descriptor
  deriving Inhabited

/-- The abstract type that a structure is an alternative of: the one its first descriptor names. -/
def Structure.typeName? (s : Structure) : Option String :=
  match s.descriptors with
  | .type name :: _ => some name
  | _ => none

/-- Roots and structures, in the order they are tried in. -/
structure Grammar where
  roots : List String
  structures : List Structure
  deriving Inhabited

/-- A name is found in a list where it occurs just once. -/
theorem find?_of_nodup {α : Type} {name : α → String} {as : List α} (h : (as.map name).Nodup)
    {a : α} (mem : a ∈ as) : as.find? (name · == name a) = some a := by
  induction as with
  | nil => cases mem
  | cons b bs ih =>
    obtain ⟨fresh, rest⟩ := List.nodup_cons.mp h
    rw [List.find?_cons]
    rcases List.mem_cons.mp mem with rfl | mem
    · rw [beq_self_eq_true]
    · have other : name b ≠ name a := fun eq => fresh (eq ▸ List.mem_map_of_mem mem)
      rw [beq_false_of_ne other]
      exact ih rest mem

namespace Grammar

/-- The structure with the given name. -/
def getStructure? (g : Grammar) (name : String) : Option Structure :=
  g.structures.find? (·.name == name)

/-- The alternatives of an abstract type, in the order they are tried in. -/
def structuresOfType (g : Grammar) (typeName : String) : List Structure :=
  g.structures.filter (·.typeName? == some typeName)

/-- Names of structures are distinct, and there are roots, each naming a structure. -/
structure WellFormed (g : Grammar) : Prop where
  distinct : (g.structures.map (·.name)).Nodup
  rooted : g.roots ≠ []
  known : ∀ root ∈ g.roots, root ∈ g.structures.map (·.name)

/-- What is found under a name is a structure with that name. -/
theorem mem_of_getStructure? {g : Grammar} {name : String} {s : Structure}
    (h : g.getStructure? name = some s) : s ∈ g.structures ∧ s.name = name := by
  have named : (s.name == name) = true :=
    List.find?_some (p := fun s : Structure => s.name == name) h
  exact ⟨List.mem_of_find?_eq_some h, eq_of_beq named⟩

/-- Nothing is found under a name just if no structure has it. -/
theorem getStructure?_eq_none {g : Grammar} {name : String} :
    g.getStructure? name = none ↔ name ∉ g.structures.map (·.name) := by
  simp only [getStructure?, List.find?_eq_none, beq_iff_eq, List.mem_map, not_exists, not_and]

/-- The structure that is found under a name is the one with that name. -/
theorem WellFormed.getStructure?_eq_some {g : Grammar} (wf : g.WellFormed) {name : String}
    {s : Structure} : g.getStructure? name = some s ↔ s ∈ g.structures ∧ s.name = name := by
  constructor
  · exact mem_of_getStructure?
  · rintro ⟨mem, rfl⟩
    exact find?_of_nodup wf.distinct mem

/-- The first name that occurs a second time, in the order of the second occurrences. -/
def firstRepeated? (seen : List String) : List String → Option String
  | [] => none
  | name :: names =>
    if seen.contains name then some name else firstRepeated? (name :: seen) names

end Grammar

end WireGrammar
