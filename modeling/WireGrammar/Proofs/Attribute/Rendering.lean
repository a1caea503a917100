import Mathlib.Data.List.Forall2
import WireGrammar.Proofs.Grammar.Describable

/-!
# Attributes back to documents

An attribute that can be described is written as a value of a document: scalars, lists and mappings,
with one mapping for each condition and each trigger.

* `AttributeValue.toNode`: the value for an attribute;
* `checked_mapM`: lists that are loaded item by item;
* `distinctKeys_iff_nodup`: mappings with distinct keys are written for distinct things;
* `AttributeValue.ofNode_toNode`: an attribute is loaded as it was, tables of triggers included.
-/

namespace WireGrammar

open Yaml (Node)

/-! ### Checks one after the other -/

section Checks

variable {ε α β : Type}

theorem checked_bind {x : Except ε α} {f : α → Except ε β} {b : β} :
    (x >>= f) = .ok b ↔ ∃ a, x = .ok a ∧ f a = .ok b := by
  cases x <;> simp [bind, Except.bind]

theorem checked_map {x : Except ε α} {f : α → β} {b : β} :
    x.map f = .ok b ↔ ∃ a, x = .ok a ∧ f a = b := by
  cases x <;> simp [Except.map]

theorem checked_mapM {f : α → Except ε β} {as : List α} {bs : List β} :
    as.mapM f = .ok bs ↔ List.Forall₂ (fun a b => f a = .ok b) as bs := by
  induction as generalizing bs with
  | nil =>
    rw [List.mapM_nil, List.forall₂_nil_left_iff]
    exact ⟨fun h => (Except.ok.inj h).symm, fun h => congrArg _ h.symm⟩
  | cons a as ih =>
    rw [List.mapM_cons, checked_bind, List.forall₂_cons_left_iff]
    constructor
    · rintro ⟨b, first, rest⟩
      obtain ⟨bs', others, done⟩ := checked_bind.mp rest
      cases done
      exact ⟨b, bs', first, ih.mp others, rfl⟩
    · rintro ⟨b, bs', first, others, rfl⟩
      exact ⟨b, first, checked_bind.mpr ⟨bs', ih.mpr others, rfl⟩⟩

/-- A list is loaded from what it is written as, if its items are, and from nothing else. -/
theorem checked_mapM_of_inverse {f : α → Except ε β} {g : β → α} {P : β → Prop}
    (h : ∀ a b, f a = .ok b ↔ a = g b ∧ P b) {as : List α} {bs : List β} :
    as.mapM f = .ok bs ↔ as = bs.map g ∧ ∀ b ∈ bs, P b := by
  rw [checked_mapM]
  constructor
  · intro related
    induction related with
    | nil => exact ⟨rfl, by simp⟩
    | @cons a b as bs first others ih =>
      obtain ⟨rfl, good⟩ := (h a b).mp first
      exact ⟨congrArg _ ih.1, List.forall_mem_cons.mpr ⟨good, ih.2⟩⟩
  · rintro ⟨rfl, good⟩
    induction bs with
    | nil => exact .nil
    | cons b bs ih =>
      obtain ⟨first, others⟩ := List.forall_mem_cons.mp good
      exact .cons ((h _ b).mpr ⟨rfl, first⟩) (ih others)

theorem exists_of_forall₂ {R : α → β → Prop} {as : List α} {bs : List β}
    (h : List.Forall₂ R as bs) {a : α} (mem : a ∈ as) : ∃ b ∈ bs, R a b := by
  induction h with
  | nil => cases mem
  | @cons a' b as bs first others ih =>
    rcases List.mem_cons.mp mem with rfl | mem
    · exact ⟨b, List.mem_cons_self, first⟩
    · obtain ⟨b', own, related⟩ := ih mem
      exact ⟨b', List.mem_cons_of_mem _ own, related⟩

/-- What is true of the items on the right alone can be told apart. -/
theorem forall₂_and_iff {R : α → β → Prop} {P : β → Prop} {as : List α} {bs : List β} :
    List.Forall₂ (fun a b => R a b ∧ P b) as bs ↔ List.Forall₂ R as bs ∧ ∀ b ∈ bs, P b := by
  constructor
  · intro h
    induction h with
    | nil => exact ⟨.nil, nofun⟩
    | cons first _ ih => exact ⟨.cons first.1 ih.1, List.forall_mem_cons.mpr ⟨first.2, ih.2⟩⟩
  · rintro ⟨h, all⟩
    induction h with
    | nil => exact .nil
    | cons first _ ih =>
      obtain ⟨own, others⟩ := List.forall_mem_cons.mp all
      exact .cons ⟨first, own⟩ (ih others)

/-- Each item of a list that is loaded item by item comes from one of the list. -/
theorem exists_of_checked_mapM {f : α → Except ε β} {as : List α} {bs : List β}
    (h : as.mapM f = .ok bs) {b : β} (mem : b ∈ bs) : ∃ a ∈ as, f a = .ok b :=
  exists_of_forall₂ (checked_mapM.mp h).flip mem

end Checks

/-- A mapping has distinct keys just if they are written for distinct things. -/
theorem distinctKeys_iff_nodup {α : Type} {key : α → Node}
    (same : ∀ a b, Node.same (key a) (key b) = true ↔ a = b) {entries : List (Node × Node)}
    {as : List α} (keys : entries.map Prod.fst = as.map key) :
    Yaml.distinctKeys entries = true ↔ as.Nodup := by
  have pairwise : Yaml.distinctKeys entries = true ↔
      (entries.map Prod.fst).Pairwise fun a b => Node.same a b = false := by
    rw [Yaml.distinctKeys_iff, List.pairwise_map]
  rw [pairwise, keys, List.pairwise_map]
  have other : ∀ {a b}, Node.same (key a) (key b) = false ↔ a ≠ b := fun {a b} => by
    rw [← Bool.not_eq_true, same]
  exact ⟨List.Pairwise.imp other.mp, List.Pairwise.imp other.mpr⟩

theorem same_text_iff {s t : String} : Node.same (.text s) (.text t) = true ↔ s = t := by
  rw [Node.same, beq_iff_eq]

/-! ### Words -/

theorem AttributeKind.ofName?_eq_some {name : String} {kind : AttributeKind} :
    AttributeKind.ofName? name = some kind ↔ name = kind.name := by
  constructor
  · intro h
    unfold ofName? at h
    split at h <;> cases h <;> rfl
  · rintro rfl
    cases kind <;> rfl

theorem AttributeKind.same_name_iff (kind kind' : AttributeKind) :
    Node.same (.text kind.name) (.text kind'.name) = true ↔ kind = kind' := by
  rw [same_text_iff, ← AttributeKind.ofName?_eq_some, AttributeKind.ofName?_eq_some.mpr rfl,
    Option.some.injEq, eq_comm]

theorem Format.ofName?_eq_some {name : String} {f : Format} :
    Format.ofName? name = some f ↔ name = f.name := by
  constructor
  · intro h
    unfold ofName? at h
    split at h <;> cases h <;> rfl
  · rintro rfl
    cases f <;> rfl

/-- A comparison is loaded from its word, whatever tags it has, and from nothing else. -/
theorem CompareOp.ofNode_eq_ok {key : Node} {op : CompareOp} :
    CompareOp.ofNode key = .ok op ↔ key.text? = some op.name := by
  have word : ∀ name, CompareOp.ofName? name = some op ↔ name = op.name := by
    intro name
    constructor
    · intro h
      unfold ofName? at h
      split at h <;> cases h <;> rfl
    · rintro rfl
      cases op <;> rfl
  unfold CompareOp.ofNode
  cases key.text? with
  | none => simp
  | some s =>
    rw [Option.bind_some, Option.some.injEq, ← word s]
    cases CompareOp.ofName? s <;> simp

/-! ### Literals and tests -/

/-- The literal as a scalar. -/
def Literal.toNode : Literal → Node
  | .int i => .number (.int i)
  | .str s => .text s
  | .bool b => .bool b

/-- A literal is loaded from the scalar that it is written as, and from nothing else. -/
theorem Literal.ofNode_eq_ok {n : Node} {l : Literal} :
    Literal.ofNode n = .ok l ↔ n = l.toNode ∧ l.describable = true := by
  constructor
  · intro h
    cases n with
    | number number =>
      cases number with
      | int i =>
        rw [ofNode] at h
        split at h
        · next fits =>
          cases h
          exact ⟨rfl, by simpa [describable] using fits⟩
        · cases h
      | _ => cases h
    | text s => cases h; exact ⟨rfl, rfl⟩
    | bool b => cases h; exact ⟨rfl, rfl⟩
    | _ => cases h
  · rintro ⟨rfl, fits⟩
    cases l with
    | int i =>
      rw [toNode, ofNode, if_pos (by simpa [describable] using fits)]
    | _ => rfl

/-- Two literals are written alike just if they are equal. -/
theorem Literal.same_toNode_iff (l l' : Literal) :
    Node.same l.toNode l'.toNode = true ↔ l = l' := by
  cases l <;> cases l' <;> simp [toNode, Node.same, Yaml.Number.same]

theorem Literal.untagged_toNode (l : Literal) : l.toNode.untagged = l.toNode := by
  cases l <;> rfl

theorem Literal.isProper_toNode {apart : Bool} {l : Literal} (h : l.describable = true) :
    l.toNode.isProper apart = true := by
  cases l with
  | int i =>
    simp only [describable, Word.FitsSigned, decide_eq_true_eq] at h
    have wider : Word.size 63 ≤ Word.size 64 := Word.size_le (by decide)
    simp only [toNode, Node.isProper, Yaml.Number.isProper, decide_eq_true_eq]
    simp only [show 64 - 1 = 63 from rfl] at h
    omega
  | _ => rfl

/-- Comparisons as the entries of a mapping. -/
def comparisonEntries (tests : List (CompareOp × Literal)) : List (Node × Node) :=
  tests.map fun t => (.text t.1.name, t.2.toNode)

/-- Comparisons are loaded from the entries that they are written as, whatever tags the words have,
and from no others. -/
theorem comparisons_eq_ok {entries : List (Node × Node)} {tests : List (CompareOp × Literal)} :
    comparisons entries = .ok tests ↔
      Yaml.untagKeys entries = comparisonEntries tests ∧ ∀ t ∈ tests, t.2.describable = true := by
  have single (e : Node × Node) (t : CompareOp × Literal) :
      (do let op ← CompareOp.ofNode e.1; let l ← Literal.ofNode e.2; return (op, l) :
        Except AttributeFault (CompareOp × Literal)) = .ok t ↔
      (e.1.untagged, e.2) = (.text t.1.name, t.2.toNode) ∧ t.2.describable = true := by
    rw [checked_bind, Prod.mk.injEq, ← Node.text?_eq_some_iff, ← CompareOp.ofNode_eq_ok, and_assoc,
      ← Literal.ofNode_eq_ok]
    constructor
    · rintro ⟨op, named, rest⟩
      obtain ⟨l, literal, done⟩ := checked_bind.mp rest
      cases done
      exact ⟨named, literal⟩
    · rintro ⟨named, literal⟩
      exact ⟨t.1, named, checked_bind.mpr ⟨t.2, literal, rfl⟩⟩
  rw [comparisons, checked_mapM]
  simp only [single]
  rw [Yaml.untagKeys, comparisonEntries, ← List.forall₂_eq_eq_eq, List.forall₂_map_left_iff,
    List.forall₂_map_right_iff]
  exact forall₂_and_iff

theorem properEntries_comparisonEntries {apart : Bool} {tests : List (CompareOp × Literal)}
    (h : ∀ t ∈ tests, t.2.describable = true) :
    Node.properEntries apart (comparisonEntries tests) = true := by
  refine Node.properEntries_iff.mpr fun e mem => ?_
  obtain ⟨t, own, rfl⟩ := List.mem_map.mp mem
  exact ⟨rfl, Literal.isProper_toNode (h t own)⟩

/-- A mapping of comparisons has distinct keys just if no comparison is made twice. -/
theorem distinctKeys_comparisonEntries {tests : List (CompareOp × Literal)} :
    Yaml.distinctKeys (comparisonEntries tests) = true ↔ (tests.map Prod.fst).Nodup := by
  have same : ∀ a b : CompareOp, Node.same (.text a.name) (.text b.name) = true ↔ a = b := by
    intro a b
    cases a <;> cases b <;> decide
  refine distinctKeys_iff_nodup same ?_
  simp [comparisonEntries, Function.comp_def]

/-- What a field accepts as a value of a document: a scalar, a sequence or a mapping. -/
def ValueSpec.toNode : ValueSpec → Node
  | .single l => l.toNode
  | .oneOf ls => .sequence (ls.map Literal.toNode)
  | .ops tests => .mapping (comparisonEntries tests)

/-- The literals of a test. -/
def ValueSpec.literals : ValueSpec → List Literal
  | .single l => [l]
  | .oneOf ls => ls
  | .ops tests => tests.map Prod.snd

theorem comparisonEntries_untagged (tests : List (CompareOp × Literal)) :
    ∀ e ∈ comparisonEntries tests, e.1.untagged = e.1 :=
  List.forall_mem_map.mpr fun _ _ => rfl

/-- A test is loaded from a literal, a list of them or comparisons. -/
theorem ValueSpec.ofNode_eq_ok {n : Node} {spec : ValueSpec} (h : ValueSpec.ofNode n = .ok spec) :
    (∃ l, Literal.ofNode n = .ok l ∧ spec = .single l) ∨
    (∃ items ls, n = .sequence items ∧ items.mapM Literal.ofNode = .ok ls ∧ spec = .oneOf ls) ∨
    ∃ entries tests, n = .mapping entries ∧ comparisons entries = .ok tests ∧
      spec = .ops tests := by
  have literal {n : Node} (h : (Literal.ofNode n).map .single = .ok spec) :
      ∃ l, Literal.ofNode n = .ok l ∧ spec = .single l := by
    obtain ⟨l, loaded, rfl⟩ := checked_map.mp h
    exact ⟨l, loaded, rfl⟩
  cases n with
  | sequence items =>
    obtain ⟨ls, loaded, rfl⟩ := checked_map.mp h
    exact .inr (.inl ⟨items, ls, rfl, loaded, rfl⟩)
  | mapping entries =>
    obtain ⟨tests, loaded, rfl⟩ := checked_map.mp h
    exact .inr (.inr ⟨entries, tests, rfl, loaded, rfl⟩)
  | _ => exact .inl (literal h)

/-- A test is loaded as it was. -/
theorem ValueSpec.ofNode_toNode {spec : ValueSpec}
    (fits : ∀ l ∈ spec.literals, l.describable = true) :
    ValueSpec.ofNode spec.toNode = .ok spec := by
  cases spec with
  | single l =>
    have loaded := Literal.ofNode_eq_ok.mpr ⟨rfl, fits l List.mem_cons_self⟩
    cases l <;> exact checked_map.mpr ⟨_, loaded, rfl⟩
  | oneOf ls =>
    exact checked_map.mpr
      ⟨ls, (checked_mapM_of_inverse fun _ _ => Literal.ofNode_eq_ok).mpr ⟨rfl, fits⟩, rfl⟩
  | ops tests =>
    have same := Yaml.untagKeys_eq_self (comparisonEntries_untagged tests)
    exact checked_map.mpr ⟨tests, comparisons_eq_ok.mpr ⟨same, List.forall_mem_map.mp fits⟩, rfl⟩

/-- What a test is written as is proper. -/
theorem ValueSpec.isProper_toNode {spec : ValueSpec} (h : spec.describable true = true) :
    spec.toNode.isProper true = true ∧ ∀ l ∈ spec.literals, l.describable = true := by
  cases spec with
  | single l => exact ⟨Literal.isProper_toNode h, List.forall_mem_singleton.mpr h⟩
  | oneOf ls =>
    have fits := List.all_eq_true.mp h
    refine ⟨Node.properItems_iff.mpr (List.forall_mem_map.mpr fun l mem => ?_), fits⟩
    exact Literal.isProper_toNode (fits l mem)
  | ops tests =>
    obtain ⟨distinct, fits⟩ := ValueSpec.describable_ops.mp h
    refine ⟨?_, List.forall_mem_map.mpr fits⟩
    exact Node.isProper_mapping_of_plain (comparisonEntries_untagged tests)
      (distinctKeys_comparisonEntries.mpr (distinct rfl)) (properEntries_comparisonEntries fits)

/-! ### Attributes -/

/-- A length as a scalar. -/
def Length.toNode : Length → Node
  | .bits n => .number (.int n)
  | .varint => .text "varint"
  | .packetNumber => .text "pn"
  | .rest => .text "*"

theorem Length.ofNode_toNode (l : Length) : Length.ofNode l.toNode = .ok l := by
  cases l with
  | bits n => simp [toNode, ofNode, natOfNode?, Node.int?, Node.untagged]
  | _ => rfl

/-- A condition as a mapping of its field to a mapping of its comparison. -/
def Condition.toNode (c : Condition) : Node :=
  .mapping [(.text c.field, .mapping (comparisonEntries [(c.op, c.literal)]))]

theorem Condition.ofNode_toNode {c : Condition} (h : c.literal.describable = true) :
    Condition.ofNode c.toNode = .ok [c] := by
  have entry : Condition.ofEntry
      (.text c.field, .mapping (comparisonEntries [(c.op, c.literal)])) = .ok [c] := by
    have loaded : comparisons (comparisonEntries [(c.op, c.literal)]) = .ok [(c.op, c.literal)] :=
      comparisons_eq_ok.mpr ⟨rfl, List.forall_mem_singleton.mpr h⟩
    simp only [ofEntry, Node.text?_text, Node.mapping?_mapping, loaded]
    rfl
  simp only [ofNode, toNode, Node.mapping?_mapping, List.mapM_cons, List.mapM_nil, entry]
  rfl

mutual

/-- The value of an attribute as a value of a document. -/
def AttributeValue.toNode : AttributeValue → Node
  | .length l => l.toNode
  | .values spec => spec.toNode
  | .parse target => .text target
  | .conditions cs => .sequence (cs.map Condition.toNode)
  | .triggers ts => .sequence (Trigger.toItems ts)
  | .byteLength n => .number (.int n)
  | .format f => .text f.name

/-- Triggers as mappings with a single entry each. -/
def Trigger.toItems : List Trigger → List Node
  | [] => []
  | .saveToContext :: ts => .mapping [(.text saveToContextWord, .null)] :: Trigger.toItems ts
  | .onField target rules :: ts =>
    .mapping [(.text target, .mapping (TriggerRule.toEntries rules))] :: Trigger.toItems ts

/-- Rules as the entries of a mapping. -/
def TriggerRule.toEntries : List TriggerRule → List (Node × Node)
  | [] => []
  | .set kind :: rules => (.text kind.name, .text "set") :: TriggerRule.toEntries rules
  | .lookup kind table :: rules =>
    (.text kind.name, .mapping (TriggerRule.toTable table)) :: TriggerRule.toEntries rules

/-- The table of a rule as the entries of a mapping. -/
def TriggerRule.toTable : List (Literal × AttributeValue) → List (Node × Node)
  | [] => []
  | (literal, v) :: rows => (literal.toNode, v.toNode) :: TriggerRule.toTable rows

end

theorem TriggerRule.map_fst_toEntries (rules : List TriggerRule) :
    (TriggerRule.toEntries rules).map Prod.fst = rules.map fun rule => .text rule.kind.name := by
  induction rules with
  | nil => rfl
  | cons rule rules ih => cases rule <;> rw [toEntries, List.map_cons, ih] <;> rfl

theorem TriggerRule.map_fst_toTable (table : List (Literal × AttributeValue)) :
    (TriggerRule.toTable table).map Prod.fst = (table.map Prod.fst).map Literal.toNode := by
  induction table with
  | nil => rfl
  | cons row table ih => rw [toTable, List.map_cons, ih]; rfl

/-- The value of an attribute other than a list of triggers is loaded by itself. -/
theorem AttributeValue.ofNode_of_ne_triggers {kind : AttributeKind} (h : kind ≠ .triggers)
    (n : Node) : AttributeValue.ofNode kind n = AttributeValue.ofPlainNode kind n := by
  cases n with
  | sequence | tagged =>
    cases kind with
    | triggers => exact absurd rfl h
    | _ => rfl
  | _ => rfl

/-- Conditions that are written are proper and are loaded as they were. -/
theorem Condition.mapM_ofNode_toNode {cs : List Condition}
    (h : ∀ c ∈ cs, c.literal.describable = true) :
    (cs.map Condition.toNode).mapM Condition.ofNode = .ok (cs.map fun c => [c]) := by
  refine checked_mapM.mpr (List.forall₂_map_left_iff.mpr (List.forall₂_map_right_iff.mpr ?_))
  refine List.forall₂_same.mpr fun c mem => ?_
  exact Condition.ofNode_toNode (h c mem)

/-- A mapping with a single entry is proper if its key and its value are. -/
theorem Yaml.isProper_singleEntry {apart : Bool} {key value : Node} (h : key.isProper apart = true)
    (h' : value.isProper apart = true) : (Node.mapping [(key, value)]).isProper apart = true := by
  simp [Node.isProper, Node.properEntries, Yaml.distinctKeys, Yaml.untagKeys, h, h']

theorem Condition.isProper_toNode {apart : Bool} {c : Condition}
    (h : c.literal.describable = true) : c.toNode.isProper apart = true :=
  Yaml.isProper_singleEntry rfl (Yaml.isProper_singleEntry rfl (Literal.isProper_toNode h))

theorem Yaml.isProper_number_natCast {apart : Bool} {n : Nat} (h : n < Word.size 64) :
    (Node.number (.int n)).isProper apart = true := by
  simp only [Node.isProper, Yaml.Number.isProper, decide_eq_true_eq]
  omega

/-- What an attribute other than a list of triggers is written as is proper and is loaded as it
was. -/
theorem AttributeValue.ofNode_toNode_of_ne_triggers {v : AttributeValue}
    (plain : v.kind ≠ .triggers) (h : v.describable true = true) :
    AttributeValue.ofNode v.kind v.toNode = .ok v ∧ v.toNode.isProper true = true := by
  rw [ofNode_of_ne_triggers plain]
  cases v with
  | length l =>
    refine ⟨checked_map.mpr ⟨l, Length.ofNode_toNode l, rfl⟩, ?_⟩
    cases l with
    | bits n => exact Yaml.isProper_number_natCast (of_decide_eq_true h)
    | _ => rfl
  | values spec =>
    obtain ⟨proper, fits⟩ := ValueSpec.isProper_toNode h
    exact ⟨checked_map.mpr ⟨spec, ValueSpec.ofNode_toNode fits, rfl⟩, proper⟩
  | parse target => exact ⟨rfl, rfl⟩
  | conditions cs =>
    have fits := List.all_eq_true.mp h
    constructor
    · refine checked_map.mpr ⟨cs.map fun c => [c], Condition.mapM_ofNode_toNode fits, ?_⟩
      rw [← List.flatMap_def, List.flatMap_singleton']
    · refine Node.properItems_iff.mpr (List.forall_mem_map.mpr fun c mem => ?_)
      exact Condition.isProper_toNode (fits c mem)
  | triggers ts => exact absurd rfl plain
  | byteLength n =>
    refine ⟨?_, Yaml.isProper_number_natCast (of_decide_eq_true h)⟩
    simp [kind, toNode, ofPlainNode, natOfNode?, Node.int?, Node.untagged]
  | format f =>
    refine ⟨?_, rfl⟩
    simp only [kind, toNode, ofPlainNode, Node.text?_text, Format.ofName?_eq_some.mpr rfl]

theorem TriggerRule.untagged_toEntries (rules : List TriggerRule) :
    ∀ e ∈ TriggerRule.toEntries rules, e.1.untagged = e.1 := by
  induction rules with
  | nil => exact nofun
  | cons rule rules ih => cases rule <;> exact List.forall_mem_cons.mpr ⟨rfl, ih⟩

theorem TriggerRule.untagged_toTable (table : List (Literal × AttributeValue)) :
    ∀ e ∈ TriggerRule.toTable table, e.1.untagged = e.1 := by
  induction table with
  | nil => exact nofun
  | cons row table ih => exact List.forall_mem_cons.mpr ⟨row.1.untagged_toNode, ih⟩

/-- The rules of a trigger as a mapping have distinct keys just if no attribute is changed twice. -/
theorem TriggerRule.distinctKeys_toEntries {rules : List TriggerRule} :
    Yaml.distinctKeys (TriggerRule.toEntries rules) = true ↔
      (rules.map TriggerRule.kind).Nodup :=
  distinctKeys_iff_nodup AttributeKind.same_name_iff (by rw [map_fst_toEntries, List.map_map]; rfl)

/-- The table of a rule as a mapping has distinct keys just if its literals are distinct. -/
theorem TriggerRule.distinctKeys_toTable {table : List (Literal × AttributeValue)} :
    Yaml.distinctKeys (TriggerRule.toTable table) = true ↔ (table.map Prod.fst).Nodup :=
  distinctKeys_iff_nodup Literal.same_toNode_iff (map_fst_toTable table)

mutual

/-- What an attribute is written as is proper and is loaded as it was, if it can be described. -/
theorem AttributeValue.ofNode_toNode : (v : AttributeValue) →
    v.every (·.describable true) = true →
    AttributeValue.ofNode v.kind v.toNode = .ok v ∧ v.toNode.isProper true = true
  | .triggers ts, h => by
    obtain ⟨here, tables⟩ := Bool.and_eq_true_iff.mp h
    obtain ⟨loaded, proper⟩ := Trigger.ofItems_toItems ts (List.all_eq_true.mp here) tables
    exact ⟨checked_map.mpr ⟨ts, loaded, rfl⟩, proper⟩
  | .length _, h => AttributeValue.ofNode_toNode_of_ne_triggers nofun h
  | .values _, h => AttributeValue.ofNode_toNode_of_ne_triggers nofun h
  | .parse _, h => AttributeValue.ofNode_toNode_of_ne_triggers nofun h
  | .conditions _, h => AttributeValue.ofNode_toNode_of_ne_triggers nofun h
  | .byteLength _, h => AttributeValue.ofNode_toNode_of_ne_triggers nofun h
  | .format _, h => AttributeValue.ofNode_toNode_of_ne_triggers nofun h

/-- Triggers are loaded as they were. -/
theorem Trigger.ofItems_toItems : (ts : List Trigger) → (∀ t ∈ ts, t.describable true = true) →
    everyTrigger (·.describable true) ts = true →
    Trigger.ofItems (Trigger.toItems ts) = .ok ts ∧
      Node.properItems true (Trigger.toItems ts) = true
  | [], _, _ => ⟨rfl, rfl⟩
  | .saveToContext :: ts, h, tables => by
    obtain ⟨loaded, proper⟩ := Trigger.ofItems_toItems ts
      (fun t mem => h t (List.mem_cons_of_mem _ mem)) tables
    constructor
    · simp only [Trigger.toItems, Trigger.ofItems, Trigger.ofItem, loaded]
      rfl
    · exact Bool.and_eq_true_iff.mpr ⟨rfl, proper⟩
  | .onField target rules :: ts, h, tables => by
    obtain ⟨own, others⟩ := Bool.and_eq_true_iff.mp tables
    obtain ⟨loaded, proper⟩ := Trigger.ofItems_toItems ts
      (fun t mem => h t (List.mem_cons_of_mem _ mem)) others
    obtain ⟨named, distinct, good⟩ := Trigger.describable_onField.mp (h _ List.mem_cons_self)
    obtain ⟨loaded', proper'⟩ := TriggerRule.ofEntries_toEntries rules good own
    have keys := TriggerRule.distinctKeys_toEntries.mpr (distinct rfl)
    constructor
    · simp only [Trigger.toItems, Trigger.ofItems, Trigger.ofItem, Trigger.ofEntries,
        Node.text?_text, if_neg named, Trigger.ofActions, loaded', loaded]
      rfl
    · refine Bool.and_eq_true_iff.mpr ⟨?_, proper⟩
      exact Yaml.isProper_singleEntry rfl
        (Node.isProper_mapping_of_plain (TriggerRule.untagged_toEntries rules) keys proper')

/-- The rules of a trigger are loaded as they were. -/
theorem TriggerRule.ofEntries_toEntries : (rules : List TriggerRule) →
    (∀ rule ∈ rules, rule.describable = true) → everyRule (·.describable true) rules = true →
    TriggerRule.ofEntries (TriggerRule.toEntries rules) = .ok rules ∧
      Node.properEntries true (TriggerRule.toEntries rules) = true
  | [], _, _ => ⟨rfl, rfl⟩
  | .set kind :: rules, h, tables => by
    obtain ⟨loaded, proper⟩ := TriggerRule.ofEntries_toEntries rules
      (fun rule mem => h rule (List.mem_cons_of_mem _ mem)) tables
    constructor
    · simp only [TriggerRule.toEntries, TriggerRule.ofEntries, Node.text?_text, Option.getD_some,
        AttributeKind.ofName?_eq_some.mpr rfl, loaded]
      rfl
    · exact Bool.and_eq_true_iff.mpr ⟨rfl, proper⟩
  | .lookup kind table :: rules, h, tables => by
    obtain ⟨own, others⟩ := Bool.and_eq_true_iff.mp tables
    obtain ⟨loaded, proper⟩ := TriggerRule.ofEntries_toEntries rules
      (fun rule mem => h rule (List.mem_cons_of_mem _ mem)) others
    have here := h _ List.mem_cons_self
    simp only [TriggerRule.describable, Bool.and_eq_true, beq_iff_eq, decide_eq_true_eq,
      List.all_eq_true] at here
    obtain ⟨distinct, rows⟩ := here
    obtain ⟨loaded', proper'⟩ := TriggerRule.tableOfEntries_toTable kind table rows own
    have keys := TriggerRule.distinctKeys_toTable.mpr distinct
    constructor
    · simp only [TriggerRule.toEntries, TriggerRule.ofEntries, Node.text?_text, Option.getD_some,
        AttributeKind.ofName?_eq_some.mpr rfl, loaded', loaded]
      rfl
    · have written :=
        Node.isProper_mapping_of_plain (TriggerRule.untagged_toTable table) keys proper'
      exact Bool.and_eq_true_iff.mpr ⟨Bool.and_eq_true_iff.mpr ⟨rfl, written⟩, proper⟩

/-- The table of a rule is loaded as it was. -/
theorem TriggerRule.tableOfEntries_toTable (kind : AttributeKind) :
    (table : List (Literal × AttributeValue)) →
    (∀ row ∈ table, row.1.describable = true ∧ row.2.kind = kind) →
    everyRow (·.describable true) table = true →
    TriggerRule.tableOfEntries kind (TriggerRule.toTable table) = .ok table ∧
      Node.properEntries true (TriggerRule.toTable table) = true
  | [], _, _ => ⟨rfl, rfl⟩
  | (literal, v) :: table, h, values => by
    obtain ⟨own, others⟩ := Bool.and_eq_true_iff.mp values
    obtain ⟨fits, same⟩ := h _ List.mem_cons_self
    obtain ⟨loaded', proper'⟩ := AttributeValue.ofNode_toNode v own
    obtain ⟨loaded, proper⟩ := TriggerRule.tableOfEntries_toTable kind table
      (fun row mem => h row (List.mem_cons_of_mem _ mem)) others
    constructor
    · rw [← same] at loaded ⊢
      simp only [TriggerRule.toTable, TriggerRule.tableOfEntries,
        Literal.ofNode_eq_ok.mpr ⟨rfl, fits⟩, loaded', loaded]
      rfl
    · refine Bool.and_eq_true_iff.mpr ⟨?_, proper⟩
      exact Bool.and_eq_true_iff.mpr ⟨Literal.isProper_toNode fits, proper'⟩

end

end WireGrammar
