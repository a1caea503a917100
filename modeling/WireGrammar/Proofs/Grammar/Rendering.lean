import WireGrammar.Proofs.Attribute.Origin
import WireGrammar.Proofs.Attribute.Rendering

/-!
# Grammars back to documents

A grammar that can be described is written as a document: one entry for its roots and one for each
structure, a list with one mapping for each item.

* `Grammar.toNode`: the document of a grammar;
* `Grammar.isProper_toNode`: it is a value that the text of a document has;
* `Grammar.ofNode_toNode`: the grammar is loaded from it as it was.
-/

namespace WireGrammar

open Yaml (Node)

/-! ### Fields -/

/-- The attributes that are given, as entries of a mapping. -/
def FieldAttributes.toEntries (a : FieldAttributes) (kinds : List AttributeKind) :
    List (Node × Node) :=
  kinds.filterMap fun kind => (a.get? kind).map fun v => (.text kind.name, v.toNode)

/-- Whether a field is repeated, as entries of a mapping: the word alone if it is, or the word with
a truth value. -/
def FieldDescriptor.repeatedEntries (short : Bool) (f : FieldDescriptor) : List (Node × Node) :=
  if short then
    if f.repeated then [(.text repeatedWord, .null)] else []
  else [(.text repeatedWord, .bool f.repeated)]

/-- What is said of a field, as entries of a mapping. -/
def FieldDescriptor.toEntries (short : Bool) (f : FieldDescriptor) : List (Node × Node) :=
  f.repeatedEntries short ++ f.attributes.toEntries AttributeKind.all

/-- What is said of a field as a value of a document: nothing, or a mapping. -/
def FieldDescriptor.toNode (short : Bool) (f : FieldDescriptor) : Node :=
  match f.toEntries short with
  | [] => .null
  | entries => .mapping entries

/-- One more attribute is loaded as it was. -/
theorem FieldDescriptor.addEntry_toNode {f : FieldDescriptor} {v : AttributeValue}
    (h : v.every (·.describable true) = true) :
    f.addEntry (.text v.kind.name, v.toNode) = .ok { f with attributes := f.attributes.set v } := by
  have other : v.kind.name ≠ repeatedWord := by
    cases v.kind <;> decide
  have loaded := (AttributeValue.ofNode_toNode v h).1
  simp only [addEntry, Node.text?_text, if_neg other, AttributeKind.ofName?_eq_some.mpr rfl, loaded]
  rfl

/-- The attributes of the given kinds are loaded on top of those that are there. -/
theorem FieldDescriptor.foldlM_addEntry_toEntries {a : FieldAttributes}
    (h : a.every (·.describable true) = true) (kinds : List AttributeKind) (f : FieldDescriptor) :
    ∃ b, (a.toEntries kinds).foldlM addEntry f = .ok { f with attributes := b } ∧
      ∀ kind, b.get? kind = if kind ∈ kinds then a.get? kind <|> f.attributes.get? kind
        else f.attributes.get? kind := by
  induction kinds generalizing f with
  | nil => exact ⟨f.attributes, rfl, fun kind => by simp⟩
  | cons first kinds ih =>
    cases given : a.get? first with
    | none =>
      obtain ⟨b, loaded, same⟩ := ih f
      refine ⟨b, ?_, fun kind => ?_⟩
      · simpa [FieldAttributes.toEntries, given] using loaded
      · rw [same]
        by_cases eq : kind = first
        · subst eq
          simp [given]
        · simp [eq]
    | some v =>
      have kind_v := FieldAttributes.kind_of_get? given
      have step : f.addEntry (.text first.name, v.toNode) =
          .ok { f with attributes := f.attributes.set v } := by
        rw [← kind_v]
        exact addEntry_toNode (FieldAttributes.every_iff.mp h first v given)
      obtain ⟨b, loaded, same⟩ := ih { f with attributes := f.attributes.set v }
      refine ⟨b, ?_, fun kind => ?_⟩
      · have entries : a.toEntries (first :: kinds) =
            (.text first.name, v.toNode) :: a.toEntries kinds := by
          simp [FieldAttributes.toEntries, given]
        rw [entries, List.foldlM_cons, step]
        exact loaded
      · rw [same, FieldAttributes.get?_set, kind_v]
        by_cases eq : kind = first
        · subst eq
          rw [if_pos rfl, if_pos List.mem_cons_self, given]
          split <;> rfl
        · simp [eq]

/-- A field is loaded as it was. -/
theorem FieldDescriptor.ofNode_toNode {f : FieldDescriptor} (short : Bool)
    (h : f.attributes.every (·.describable true) = true) :
    FieldDescriptor.ofNode f.name (f.toNode short) = .ok f := by
  have repetition : (f.repeatedEntries short).foldlM addEntry ⟨f.name, .empty, false⟩ =
      .ok ⟨f.name, .empty, f.repeated⟩ := by
    unfold repeatedEntries
    cases short <;> cases f.repeated <;> rfl
  obtain ⟨b, loaded, same⟩ :=
    foldlM_addEntry_toEntries h AttributeKind.all ⟨f.name, .empty, f.repeated⟩
  have eq : b = f.attributes := by
    refine FieldAttributes.ext_get? fun kind => ?_
    rw [same, if_pos kind.mem_all]
    cases kind <;> simp [FieldAttributes.get?, FieldAttributes.empty]
  have whole : (f.toEntries short).foldlM addEntry ⟨f.name, .empty, false⟩ = .ok f := by
    rw [toEntries, List.foldlM_append, repetition]
    exact loaded.trans (by rw [eq])
  unfold toNode
  generalize f.toEntries short = entries at whole
  cases entries with
  | nil => exact whole
  | cons entry entries => exact whole

/-- The keys of what is said of a field are distinct. -/
theorem FieldDescriptor.distinctKeys_toEntries (short : Bool) (f : FieldDescriptor) :
    Yaml.distinctKeys (f.toEntries short) = true := by
  refine Yaml.distinctKeys_iff.mpr (List.pairwise_append.mpr ⟨?_, ?_, ?_⟩)
  · unfold repeatedEntries
    cases short <;> cases f.repeated <;> simp
  · refine List.pairwise_filterMap.mpr ?_
    have distinct : AttributeKind.all.Nodup := by decide
    refine distinct.imp fun {kind kind'} other e own e' own' => ?_
    obtain ⟨v, -, rfl⟩ := Option.map_eq_some_iff.mp own
    obtain ⟨v', -, rfl⟩ := Option.map_eq_some_iff.mp own'
    exact Bool.eq_false_iff.mpr fun same =>
      other ((AttributeKind.same_name_iff kind kind').mp same)
  · intro e mem e' mem'
    have key : e.1 = .text repeatedWord := by
      unfold repeatedEntries at mem
      split at mem
      · split at mem
        · rw [List.mem_singleton.mp mem]
        · cases mem
      · rw [List.mem_singleton.mp mem]
    obtain ⟨kind, -, own⟩ := List.mem_filterMap.mp mem'
    obtain ⟨v, -, rfl⟩ := Option.map_eq_some_iff.mp own
    rw [key, Node.same]
    cases kind <;> decide

theorem FieldDescriptor.untagged_toEntries (short : Bool) (f : FieldDescriptor) :
    ∀ e ∈ f.toEntries short, e.1.untagged = e.1 := by
  intro e mem
  rcases List.mem_append.mp mem with repetition | given
  · unfold repeatedEntries at repetition
    split at repetition
    · split at repetition
      · rw [List.mem_singleton.mp repetition]
        rfl
      · cases repetition
    · rw [List.mem_singleton.mp repetition]
      rfl
  · obtain ⟨kind, -, own⟩ := List.mem_filterMap.mp given
    obtain ⟨v, -, rfl⟩ := Option.map_eq_some_iff.mp own
    rfl

/-- What is said of a field is proper. -/
theorem FieldDescriptor.isProper_toNode {f : FieldDescriptor} (short : Bool)
    (h : f.attributes.every (·.describable true) = true) :
    (f.toNode short).isProper true = true := by
  have entries : Node.properEntries true (f.toEntries short) = true := by
    refine Node.properEntries_iff.mpr fun e mem => ?_
    rcases List.mem_append.mp mem with repetition | given
    · unfold repeatedEntries at repetition
      split at repetition
      · split at repetition
        · rw [List.mem_singleton.mp repetition]
          exact ⟨rfl, rfl⟩
        · cases repetition
      · rw [List.mem_singleton.mp repetition]
        exact ⟨rfl, rfl⟩
    · obtain ⟨kind, -, own⟩ := List.mem_filterMap.mp given
      obtain ⟨v, held, rfl⟩ := Option.map_eq_some_iff.mp own
      exact ⟨rfl, (AttributeValue.ofNode_toNode v (FieldAttributes.every_iff.mp h kind v held)).2⟩
  have whole := Node.isProper_mapping_of_plain (f.untagged_toEntries short)
    (f.distinctKeys_toEntries short) entries
  unfold toNode
  generalize f.toEntries short = entries' at whole
  cases entries' with
  | nil => rfl
  | cons entry entries' => exact whole

/-! ### Structures -/

/-- An item of a structure as a mapping with a single entry. -/
def Descriptor.toNode (short : Bool) : Descriptor → Node
  | .type name => .mapping [(.text "type", .text name)]
  | .next name => .mapping [(.text "next", .text name)]
  | .field f => .mapping [(.text f.name, f.toNode short)]

/-- What a document can say of a field: its name is no other word, and its attributes can be
described. -/
def FieldDescriptor.Describable (f : FieldDescriptor) (apart : Bool) : Prop :=
  f.name ≠ "type" ∧ f.name ≠ "next" ∧ f.attributes.every (·.describable apart) = true

/-- An item of a structure is proper and is loaded as it was. -/
theorem Descriptor.ofNode_toNode {d : Descriptor} (owner : String) (short : Bool)
    (h : ∀ f, d = .field f → f.Describable true) :
    Descriptor.ofNode owner (d.toNode short) = .ok d ∧
      (d.toNode short).isProper true = true := by
  cases d with
  | type name => exact ⟨rfl, rfl⟩
  | next name => exact ⟨rfl, rfl⟩
  | field f =>
    obtain ⟨noType, noNext, attributes⟩ := h f rfl
    have loaded := FieldDescriptor.ofNode_toNode short attributes
    constructor
    · simp only [toNode, ofNode, singleEntry?, nameOfKey?, Node.mapping?_mapping, Node.untagged,
        loaded]
      rfl
    · exact Yaml.isProper_singleEntry rfl (FieldDescriptor.isProper_toNode short attributes)

/-- A structure as an entry of a document. -/
def Structure.toEntry (short : Bool) (s : Structure) : Node × Node :=
  (.text s.name, .sequence (s.descriptors.map (Descriptor.toNode short)))

/-- A structure is proper and is loaded as it was. -/
theorem Structure.ofNode_toEntry {s : Structure} (short : Bool)
    (h : ∀ f, .field f ∈ s.descriptors → f.Describable true) :
    Structure.ofNode s.name (s.toEntry short).2 = .ok s ∧
      (s.toEntry short).2.isProper true = true := by
  have items : ∀ d ∈ s.descriptors, Descriptor.ofNode s.name (d.toNode short) = .ok d ∧
      (d.toNode short).isProper true = true :=
    fun d mem => Descriptor.ofNode_toNode s.name short fun f eq => h f (eq ▸ mem)
  constructor
  · refine checked_map.mpr ⟨s.descriptors, checked_mapM.mpr ?_, rfl⟩
    refine List.forall₂_map_left_iff.mpr (List.forall₂_same.mpr fun d mem => ?_)
    exact (items d mem).1
  · exact Node.properItems_iff.mpr (List.forall_mem_map.mpr fun d mem => (items d mem).2)

/-! ### Grammars -/

/-- A grammar as a document: its roots, and then its structures. -/
def Grammar.toNode (short : Bool) (g : Grammar) : Node :=
  .mapping ((.text Grammar.rootsKey, .sequence (g.roots.map .text)) ::
    g.structures.map (Structure.toEntry short))

theorem Grammar.firstRepeated?_eq_none {seen names : List String} :
    Grammar.firstRepeated? seen names = none ↔ names.Nodup ∧ ∀ name ∈ names, name ∉ seen := by
  induction names generalizing seen with
  | nil => simp [firstRepeated?]
  | cons name names ih =>
    rw [firstRepeated?, List.nodup_cons, List.forall_mem_cons]
    by_cases known : name ∈ seen
    · simp [known]
    · rw [if_neg (by simpa using known), ih]
      constructor
      · rintro ⟨distinct, fresh⟩
        refine ⟨⟨fun mem => fresh name mem List.mem_cons_self, distinct⟩, known, ?_⟩
        exact fun other mem seen => fresh other mem (List.mem_cons_of_mem _ seen)
      · rintro ⟨⟨single, distinct⟩, -, fresh⟩
        refine ⟨distinct, fun other mem => ?_⟩
        rw [List.mem_cons, not_or]
        exact ⟨fun eq => single (eq ▸ mem), fresh other mem⟩

/-- The parts of a document make a grammar just if it is well formed. -/
theorem Grammar.ofParts_eq_ok {roots : List String} {structures : List Structure} {g : Grammar} :
    Grammar.ofParts roots structures = .ok g ↔ g = ⟨roots, structures⟩ ∧ g.WellFormed := by
  constructor
  · intro h
    simp only [ofParts] at h
    split at h
    · cases h
    · next distinct =>
      split at h
      · cases h
      · next rooted =>
        split at h
        · cases h
        · next known =>
          cases h
          refine ⟨rfl, (firstRepeated?_eq_none.mp distinct).1, fun eq => rooted ?_, ?_⟩
          · exact List.isEmpty_iff.mpr eq
          · simpa using known
  · rintro ⟨rfl, distinct, rooted, known⟩
    have unrepeated : firstRepeated? [] (structures.map (·.name)) = none :=
      firstRepeated?_eq_none.mpr ⟨distinct, by simp⟩
    have found : roots.find? (fun root => !(structures.map (·.name)).contains root) = none := by
      simpa using known
    simp only [ofParts, unrepeated, found]
    rw [if_neg (by simpa using rooted)]

/-- The structures are loaded after those that are there. -/
theorem Grammar.foldlM_addEntry_toEntry {structures : List Structure} (short : Bool)
    (unreserved : ∀ s ∈ structures, s.name ≠ rootsKey)
    (fields : ∀ s ∈ structures, ∀ f, .field f ∈ s.descriptors → f.Describable true)
    (parts : Parts) :
    (structures.map (Structure.toEntry short)).foldlM Parts.addEntry parts =
      .ok { parts with structures := structures.reverse ++ parts.structures } := by
  induction structures generalizing parts with
  | nil => rfl
  | cons s structures ih =>
    obtain ⟨other, others⟩ := List.forall_mem_cons.mp unreserved
    obtain ⟨own, rest⟩ := List.forall_mem_cons.mp fields
    have step : parts.addEntry (s.toEntry short) =
        .ok { parts with structures := s :: parts.structures } := by
      have loaded := (Structure.ofNode_toEntry short own).1
      simp only [Structure.toEntry] at loaded
      simp only [Structure.toEntry, Parts.addEntry, Node.text?_text, if_neg other, loaded]
      rfl
    rw [List.map_cons, List.foldlM_cons, step]
    refine (ih others rest _).trans ?_
    rw [List.reverse_cons, List.append_assoc]
    rfl

theorem Grammar.Describable.field {g : Grammar} {apart : Bool} (h : g.Describable apart)
    {s : Structure} (mem : s ∈ g.structures) {f : FieldDescriptor}
    (own : .field f ∈ s.descriptors) : f.Describable apart := by
  obtain ⟨noType, noNext⟩ := h.fields s mem f own
  exact ⟨noType, noNext, Grammar.every_of_field h.attributes mem own⟩

/-- A grammar that can be described is loaded as it was from what it is written as. -/
theorem Grammar.ofNode_toNode {g : Grammar} (h : g.Describable true) (short : Bool) :
    Grammar.ofNode (g.toNode short) = .ok g := by
  have unreserved : ∀ s ∈ g.structures, s.name ≠ rootsKey :=
    fun s mem eq => h.unreserved (eq ▸ List.mem_map_of_mem mem)
  have roots : rootsOfNode (.sequence (g.roots.map .text)) = .ok g.roots :=
    checked_mapM.mpr (List.forall₂_map_left_iff.mpr (List.forall₂_same.mpr fun _ _ => rfl))
  have first : Parts.addEntry {} (.text rootsKey, .sequence (g.roots.map .text)) =
      .ok { roots := some g.roots } := by
    simp only [Parts.addEntry, Node.text?_text, if_pos, roots]
    rfl
  have structures := foldlM_addEntry_toEntry short unreserved (fun s mem f => h.field mem)
    { roots := some g.roots }
  simp only [ofNode, toNode, Node.mapping?_mapping, List.foldlM_cons, first]
  refine checked_bind.mpr ⟨_, structures, ?_⟩
  rw [List.append_nil, List.reverse_reverse]
  exact ofParts_eq_ok.mpr ⟨rfl, h.toWellFormed⟩

/-- What a grammar that can be described is written as is proper. -/
theorem Grammar.isProper_toNode {g : Grammar} (h : g.Describable true) (short : Bool) :
    (g.toNode short).isProper true = true := by
  have keys : Yaml.distinctKeys ((.text rootsKey, .sequence (g.roots.map .text)) ::
      g.structures.map (Structure.toEntry short)) = true := by
    refine (distinctKeys_iff_nodup (fun _ _ => same_text_iff) ?_).mpr
      (List.nodup_cons.mpr ⟨h.unreserved, h.distinct⟩)
    simp [Structure.toEntry, Function.comp_def]
  have roots : Node.properItems true (g.roots.map .text) = true :=
    Node.properItems_iff.mpr (List.forall_mem_map.mpr fun _ _ => rfl)
  have plain : ∀ e ∈ (.text rootsKey, .sequence (g.roots.map .text)) ::
      g.structures.map (Structure.toEntry short), e.1.untagged = e.1 :=
    List.forall_mem_cons.mpr ⟨rfl, List.forall_mem_map.mpr fun _ _ => rfl⟩
  refine Node.isProper_mapping_of_plain plain keys (Node.properEntries_iff.mpr ?_)
  refine List.forall_mem_cons.mpr ⟨⟨rfl, roots⟩, List.forall_mem_map.mpr fun s mem => ?_⟩
  exact ⟨rfl, (Structure.ofNode_toEntry short fun f => h.field mem).2⟩

end WireGrammar
