import WireGrammar.Proofs.Tree.Part

/-!
# Looking for a scalar by its name

Going through the fields of a packet, and into each nested structure on the way, comes upon the
first scalar of the packet that has the name.  A nested structure of that name does not hide it.

* `value?_of_mem_leaves`: what is found among the scalars has a value;
* `ParseTree.find?_eq`: looking for a name in a packet is looking for it among its scalars.
-/

namespace WireGrammar

/-! ### Scalars have values -/

mutual

theorem DecodedField.value?_of_mem_leaves : (f : DecodedField) →
    ∀ leaf ∈ f.leaves, leaf.value?.isSome = true
  | .scalar name value start stop => by
    intro leaf mem
    rw [DecodedField.leaves, List.mem_singleton] at mem
    rw [mem]
    rfl
  | .nested _ inner _ _ => inner.value?_of_mem_leaves

theorem DecodedStructure.value?_of_mem_leaves : (s : DecodedStructure) →
    ∀ leaf ∈ s.leaves, leaf.value?.isSome = true
  | ⟨_, fields, _, _⟩ => value?_of_mem_leavesOfFields fields

theorem value?_of_mem_leavesOfFields : (fields : List DecodedField) →
    ∀ leaf ∈ leavesOfFields fields, leaf.value?.isSome = true
  | [] => by simp [leavesOfFields]
  | f :: fields => by
    intro leaf mem
    rcases List.mem_append.mp mem with here | later
    · exact f.value?_of_mem_leaves leaf here
    · exact value?_of_mem_leavesOfFields fields leaf later

end

/-! ### The first scalar with a name -/

/-- The value of the first of several scalars that has the given name. -/
def firstNamed? (name : String) (leaves : List DecodedField) : Option Value :=
  (leaves.find? (·.name == name)).bind DecodedField.value?

/-- What is found among the first scalars is found first. -/
theorem firstNamed?_append {name : String} {as bs : List DecodedField}
    (scalars : ∀ leaf ∈ as, leaf.value?.isSome = true) :
    firstNamed? name (as ++ bs) = (firstNamed? name as).or (firstNamed? name bs) := by
  rw [firstNamed?, firstNamed?, List.find?_append]
  cases found : as.find? (·.name == name) with
  | none => rfl
  | some leaf =>
    obtain ⟨value, has⟩ := Option.isSome_iff_exists.mp (scalars leaf (List.mem_of_find?_eq_some found))
    rw [Option.some_or, Option.bind_some, has, Option.some_or]

theorem findInFields_cons (name : String) (f : DecodedField) (fields : List DecodedField) :
    findInFields name (f :: fields) = (f.find? name).or (findInFields name fields) := by
  rw [findInFields]
  cases f.find? name <;> rfl

mutual

theorem DecodedField.find?_eq (name : String) : (f : DecodedField) →
    f.find? name = firstNamed? name f.leaves
  | .scalar own value start stop => by
    rw [DecodedField.find?, DecodedField.leaves, firstNamed?, List.find?_singleton]
    by_cases named : own = name <;> simp [DecodedField.name, DecodedField.value?, named]
  | .nested _ inner _ _ => inner.find?_eq name

theorem DecodedStructure.find?_eq (name : String) : (s : DecodedStructure) →
    s.find? name = firstNamed? name s.leaves
  | ⟨_, fields, _, _⟩ => findInFields_eq name fields

theorem findInFields_eq (name : String) : (fields : List DecodedField) →
    findInFields name fields = firstNamed? name (leavesOfFields fields)
  | [] => rfl
  | f :: fields => by
    rw [findInFields_cons, f.find?_eq name, findInFields_eq name fields, leavesOfFields,
      firstNamed?_append f.value?_of_mem_leaves]

end

/-- Looking for a name at any depth finds the first scalar of the packet that has it. -/
theorem ParseTree.find?_eq (t : ParseTree) (name : String) :
    t.find? name = firstNamed? name t.leaves := by
  obtain ⟨structures⟩ := t
  rw [ParseTree.find?, ParseTree.leaves]
  dsimp only
  induction structures with
  | nil => rfl
  | cons s structures ih =>
    rw [List.flatMap_cons, firstNamed?_append s.value?_of_mem_leaves, ← ih, ← s.find?_eq name,
      List.findSome?_cons]
    cases s.find? name <;> rfl

end WireGrammar
