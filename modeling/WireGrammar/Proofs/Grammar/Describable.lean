import WireGrammar.Grammar.Document
import WireGrammar.Proofs.Attribute.Every

/-!
# Grammars that a document can describe

A document says less than the data types of grammars allow for.  Numbers are held by 64 bits, the
keys of a mapping are distinct, and some words have a meaning of their own.  What this leaves of the
grammars can be told without documents.

Keys of a mapping may be distinct by nothing but their tags, which do not count where a key is a
word.  So there are two readings of all this: with keys that are distinct somehow, and with keys
that are distinct without their tags.

* `Node.isProper`: the values that the text of a document has;
* `Grammar.Describable`: the grammars that a document can describe.
-/

namespace WireGrammar

/-! ### Documents -/

namespace Yaml

/-- An integer is held by 64 bits, with or without a sign. -/
def Number.isProper : Number → Bool
  | .int i => -(Word.size 63 : Int) ≤ i ∧ i < Word.size 64
  | _ => true

/-- The entries of a mapping, their keys without tags. -/
def untagKeys (entries : List (Node × Node)) : List (Node × Node) :=
  entries.map fun e => (e.1.untagged, e.2)

mutual

/-- All integers in the value are held by 64 bits, and all its mappings have distinct keys, if
`apart` is set not by their tags alone. -/
def Node.isProper (apart : Bool) : Node → Bool
  | .number n => n.isProper
  | .sequence items => Node.properItems apart items
  | .mapping entries =>
    (distinctKeys entries && (!apart || distinctKeys (untagKeys entries))) &&
      Node.properEntries apart entries
  | .tagged _ n => n.isProper apart
  | .null => true
  | .bool _ => true
  | .text _ => true

/-- All items are proper. -/
def Node.properItems (apart : Bool) : List Node → Bool
  | [] => true
  | item :: items => item.isProper apart && Node.properItems apart items

/-- All keys and values are proper. -/
def Node.properEntries (apart : Bool) : List (Node × Node) → Bool
  | [] => true
  | (key, value) :: entries =>
    key.isProper apart && value.isProper apart && Node.properEntries apart entries

end

variable {apart : Bool}

/-- The keys of a mapping are distinct if no two of them are equal. -/
theorem distinctKeys_iff {entries : List (Node × Node)} :
    distinctKeys entries = true ↔ entries.Pairwise fun a b => Node.same a.1 b.1 = false := by
  induction entries with
  | nil => simp [distinctKeys]
  | cons entry entries ih =>
    rw [distinctKeys, Bool.and_eq_true, ih, List.pairwise_cons]
    simp

theorem Node.isProper_mapping {entries : List (Node × Node)} :
    (Node.mapping entries).isProper apart = true ↔ distinctKeys entries = true ∧
      (apart = true → distinctKeys (untagKeys entries) = true) ∧
      Node.properEntries apart entries = true := by
  rw [Node.isProper, Bool.and_eq_true, Bool.and_eq_true, and_assoc]
  cases apart <;> simp

theorem Node.properItems_iff {items : List Node} :
    Node.properItems apart items = true ↔ ∀ item ∈ items, item.isProper apart = true := by
  induction items with
  | nil => simp [Node.properItems]
  | cons item items ih => rw [Node.properItems, Bool.and_eq_true, ih, List.forall_mem_cons]

theorem Node.properEntries_iff {entries : List (Node × Node)} :
    Node.properEntries apart entries = true ↔
      ∀ e ∈ entries, e.1.isProper apart = true ∧ e.2.isProper apart = true := by
  induction entries with
  | nil => simp [Node.properEntries]
  | cons entry entries ih =>
    rw [Node.properEntries, Bool.and_eq_true, Bool.and_eq_true, ih, List.forall_mem_cons]

/-- A value is proper if the one behind its tags is. -/
theorem Node.isProper_untagged : (n : Node) → n.untagged.isProper apart = n.isProper apart
  | .tagged _ n => Node.isProper_untagged n
  | .null | .bool _ | .number _ | .text _ | .sequence _ | .mapping _ => rfl

theorem Node.properItems_of_sequence? {n : Node} (proper : n.isProper apart = true)
    {items : List Node} (h : n.sequence? = some items) :
    ∀ item ∈ items, item.isProper apart = true := by
  rw [← Node.isProper_untagged, Node.sequence?_eq_some_iff.mp h] at proper
  exact Node.properItems_iff.mp proper

theorem Node.isProper_of_mapping? {n : Node} (proper : n.isProper apart = true)
    {entries : List (Node × Node)} (h : n.mapping? = some entries) :
    distinctKeys entries = true ∧ (apart = true → distinctKeys (untagKeys entries) = true) ∧
      Node.properEntries apart entries = true := by
  rw [← Node.isProper_untagged, Node.mapping?_eq_some_iff.mp h] at proper
  exact Node.isProper_mapping.mp proper

theorem untagKeys_eq_self {entries : List (Node × Node)}
    (plain : ∀ e ∈ entries, e.1.untagged = e.1) : untagKeys entries = entries := by
  refine (List.map_congr_left fun e mem => ?_).trans (List.map_id _)
  rw [plain e mem, id_def]

/-- Keys without tags are distinct if they are distinct at all. -/
theorem Node.isProper_mapping_of_plain {entries : List (Node × Node)}
    (plain : ∀ e ∈ entries, e.1.untagged = e.1) (keys : distinctKeys entries = true)
    (parts : Node.properEntries apart entries = true) :
    (Node.mapping entries).isProper apart = true :=
  Node.isProper_mapping.mpr ⟨keys, fun _ => (untagKeys_eq_self plain).symm ▸ keys, parts⟩

end Yaml

/-! ### Attributes -/

/-- The integer of the literal is held by 64 bits, one of which is the sign. -/
def Literal.describable : Literal → Bool
  | .int i => Word.FitsSigned 64 i
  | _ => true

/-- The number of bits is held by 64 bits. -/
def Length.describable : Length → Bool
  | .bits n => n < Word.size 64
  | _ => true

/-- Each comparison is made once at most, if keys are distinct without their tags. -/
def ValueSpec.describable (apart : Bool) : ValueSpec → Bool
  | .single l => l.describable
  | .oneOf ls => ls.all Literal.describable
  | .ops tests => (!apart || decide (tests.map Prod.fst).Nodup) &&
    tests.all fun t => t.2.describable

theorem ValueSpec.describable_ops {apart : Bool} {tests : List (CompareOp × Literal)} :
    (ValueSpec.ops tests).describable apart = true ↔
      (apart = true → (tests.map Prod.fst).Nodup) ∧ ∀ t ∈ tests, t.2.describable = true := by
  rw [describable, Bool.and_eq_true, List.all_eq_true]
  cases apart <;> simp

/-- The literals of a table are distinct, and its values are of the attribute that the rule
changes. -/
def TriggerRule.describable : TriggerRule → Bool
  | .set _ => true
  | .lookup kind table => (table.map Prod.fst).Nodup &&
    table.all fun row => row.1.describable && row.2.kind == kind

/-- The word for keeping changes is no name of a target, and no attribute is changed twice, if keys
are distinct without their tags. -/
def Trigger.describable (apart : Bool) : Trigger → Bool
  | .saveToContext => true
  | .onField target rules => target != saveToContextWord &&
    (!apart || decide (rules.map TriggerRule.kind).Nodup) && rules.all TriggerRule.describable

theorem Trigger.describable_onField {apart : Bool} {target : String} {rules : List TriggerRule} :
    (Trigger.onField target rules).describable apart = true ↔ target ≠ saveToContextWord ∧
      (apart = true → (rules.map TriggerRule.kind).Nodup) ∧
      ∀ rule ∈ rules, rule.describable = true := by
  rw [describable, Bool.and_eq_true, Bool.and_eq_true, bne_iff_ne, List.all_eq_true, and_assoc]
  cases apart <;> simp

/-- The value can be described, the tables of its triggers aside. -/
def AttributeValue.describable (apart : Bool) : AttributeValue → Bool
  | .length l => l.describable
  | .values spec => spec.describable apart
  | .parse _ => true
  | .conditions cs => cs.all fun c => c.literal.describable
  | .triggers ts => ts.all (·.describable apart)
  | .byteLength n => n < Word.size 64
  | .format _ => true

/-! ### Grammars -/

/-- The grammar can be described by a document, one with keys that are distinct without their tags
if `apart` is set. -/
structure Grammar.Describable (g : Grammar) (apart : Bool) : Prop extends g.WellFormed where
  /-- The key of the roots is no name of a structure. -/
  unreserved : Grammar.rootsKey ∉ g.structures.map (·.name)
  /-- The words for the type of a structure and for the one that follows are no names of fields. -/
  fields : ∀ s ∈ g.structures, ∀ f, .field f ∈ s.descriptors → f.name ≠ "type" ∧ f.name ≠ "next"
  /-- All attributes can be described, in declarations and in tables. -/
  attributes : g.every (·.describable apart) = true

end WireGrammar
