import WireGrammar.Proofs.Attribute.Loading
import WireGrammar.Proofs.Grammar.Rendering

/-!
# What grammars are loaded as

A document that is loaded gives a grammar that can be described: its structures follow the entries
of the document, and their descriptors the items of the lists.  With the document of a grammar this
tells which grammars can be loaded: just those that can be described, and nothing of them is lost.

* `Structure.StandsFor`: a structure and the entry that it is loaded from;
* `Grammar.Follows`: a grammar and the entries that it is loaded from;
* `Grammar.follows_of_ofNode`, `Grammar.describable_of_ofNode`: loaded grammars;
* `Grammar.ofNode_exact`: loading gives the grammars that can be described and no others.
-/

namespace WireGrammar

open Yaml (Node)

/-! ### Fields and structures -/

/-- What holds at first and is kept by each item that is folded in holds at last. -/
theorem checked_foldlM_property {ε α β : Type} {f : β → α → Except ε β} {P : β → Prop}
    {as : List α} (step : ∀ a ∈ as, ∀ b b', P b → f b a = .ok b' → P b') {b b' : β} (first : P b)
    (h : as.foldlM f b = .ok b') : P b' := by
  induction as generalizing b with
  | nil =>
    cases h
    exact first
  | cons a as ih =>
    obtain ⟨own, others⟩ := List.forall_mem_cons.mp step
    obtain ⟨next, here, rest⟩ := checked_bind.mp h
    exact ih others (own b next first here) rest

/-- A loaded field has the name that was asked for, and its attributes pass a test that loaded
attributes pass. -/
theorem FieldDescriptor.every_of_ofNode {p : AttributeValue → Bool} {name : String} {n : Node}
    (values : ∀ entries, n = .mapping entries → ∀ e ∈ entries, ∀ kind v,
      AttributeValue.ofNode kind e.2 = .ok v → v.every p = true)
    {f : FieldDescriptor} (h : FieldDescriptor.ofNode name n = .ok f) :
    f.name = name ∧ f.attributes.every p = true := by
  cases n with
  | null =>
    cases h
    exact ⟨rfl, rfl⟩
  | mapping entries =>
    refine checked_foldlM_property
      (P := fun f => f.name = name ∧ f.attributes.every p = true) ?_ ⟨rfl, rfl⟩ h
    intro e mem f f' before step
    unfold addEntry at step
    split at step
    · cases step
    · split at step
      · obtain ⟨b, -, rfl⟩ := checked_map.mp step
        exact before
      · split at step
        · cases step
        · next kind _ =>
          obtain ⟨v, loaded, rfl⟩ := checked_map.mp step
          refine ⟨before.1, FieldAttributes.every_iff.mpr fun kind' v' given => ?_⟩
          rw [FieldAttributes.get?_set] at given
          split at given
          · cases given
            exact values entries rfl e mem kind _ loaded
          · exact FieldAttributes.every_iff.mp before.2 kind' v' given
  | _ => cases h

/-- A field of a structure is loaded from a mapping with one entry, whose key is not one of the
words for other descriptors. -/
theorem Descriptor.field_of_ofNode {owner : String} {item : Node} {f : FieldDescriptor}
    (h : Descriptor.ofNode owner item = .ok (.field f)) :
    ∃ key arguments name, item.mapping? = some [(key, arguments)] ∧ name ≠ "type" ∧
      name ≠ "next" ∧ FieldDescriptor.ofNode name arguments = .ok f := by
  unfold Descriptor.ofNode at h
  split at h
  · cases h
  · next key arguments single =>
    have isMapping : item.mapping? = some [(key, arguments)] := by
      unfold singleEntry? at single
      split at single
      · next isMapping =>
        cases single
        exact isMapping
      · cases single
    split at h
    · cases h
    · split at h <;> cases h
    · split at h <;> cases h
    · next name noType noNext _ =>
      split at h
      · next loaded =>
        cases h
        exact ⟨key, arguments, name, isMapping, noType, noNext, loaded⟩
      · cases h

/-- A loaded field of a structure can be described. -/
theorem Descriptor.describable_of_ofNode {owner : String} {item : Node} {apart : Bool}
    (proper : item.isProper apart = true) {f : FieldDescriptor}
    (h : Descriptor.ofNode owner item = .ok (.field f)) : f.Describable apart := by
  obtain ⟨key, arguments, name, isMapping, noType, noNext, loaded⟩ := Descriptor.field_of_ofNode h
  obtain ⟨-, -, parts⟩ := Node.isProper_of_mapping? proper isMapping
  have arguments_proper := (Node.properEntries_iff.mp parts _ List.mem_cons_self).2
  have values : ∀ entries, arguments = .mapping entries → ∀ e ∈ entries, ∀ kind v,
      AttributeValue.ofNode kind e.2 = .ok v → v.every (·.describable apart) = true := by
    rintro entries rfl e mem kind v ofNode
    obtain ⟨-, -, parts⟩ := Node.isProper_mapping.mp arguments_proper
    exact (AttributeValue.every_of_ofNode kind e.2 (Node.properEntries_iff.mp parts e mem).2
      ofNode).2
  obtain ⟨rfl, attributes⟩ := FieldDescriptor.every_of_ofNode values loaded
  exact ⟨noType, noNext, attributes⟩

/-- The entry has the name of the structure, and a list of items that its descriptors are loaded
from, one by one. -/
def Structure.StandsFor (s : Structure) (entry : Node × Node) : Prop :=
  entry.1.text? = some s.name ∧ ∃ items, entry.2.sequence? = some items ∧
    List.Forall₂ (fun item d => Descriptor.ofNode s.name item = .ok d) items s.descriptors

theorem Structure.standsFor_of_ofNode {name : String} {entry : Node × Node} {s : Structure}
    (named : entry.1.text? = some name) (h : Structure.ofNode name entry.2 = .ok s) :
    s.name = name ∧ s.StandsFor entry := by
  unfold Structure.ofNode at h
  split at h
  · cases h
  · next items isList =>
    obtain ⟨ds, loaded, rfl⟩ := checked_map.mp h
    exact ⟨rfl, named, items, isList, checked_mapM.mp loaded⟩

/-- A descriptor of the structure is loaded from one of the items. -/
theorem Structure.StandsFor.item {s : Structure} {entry : Node × Node} (h : s.StandsFor entry)
    {d : Descriptor} (own : d ∈ s.descriptors) : ∃ items, entry.2.sequence? = some items ∧
      ∃ item ∈ items, Descriptor.ofNode s.name item = .ok d := by
  obtain ⟨-, items, isList, loaded⟩ := h
  exact ⟨items, isList, exists_of_checked_mapM (checked_mapM.mpr loaded) own⟩

theorem Structure.StandsFor.describable {s : Structure} {entry : Node × Node} {apart : Bool}
    (h : s.StandsFor entry) (proper : entry.2.isProper apart = true) {f : FieldDescriptor}
    (own : .field f ∈ s.descriptors) : f.Describable apart := by
  obtain ⟨items, isList, item, mem, ofNode⟩ := h.item own
  exact Descriptor.describable_of_ofNode (Node.properItems_of_sequence? proper isList item mem)
    ofNode

/-! ### Grammars -/

namespace Grammar

/-- The roots are the texts of a list. -/
theorem rootsOfNode_eq_ok {body : Node} {roots : List String} :
    rootsOfNode body = .ok roots ↔ ∃ items, body.sequence? = some items ∧
      items.map Node.text? = roots.map some := by
  have single (item : Node) (root : String) :
      rootOfNode item = .ok root ↔ item.text? = some root := by
    unfold rootOfNode
    cases item.text? <;> simp
  unfold rootsOfNode
  cases body.sequence? with
  | none => simp
  | some items =>
    simp only [checked_mapM, single, Option.some.injEq, exists_eq_left']
    rw [← List.forall₂_eq_eq_eq, List.forall₂_map_left_iff, List.forall₂_map_right_iff]

/-- The entry of a document is one for the roots. -/
def isRoots (entry : Node × Node) : Bool := entry.1.text? == some rootsKey

/-- The structures stand for the entries of a document in their order, those for the roots aside.
Of these the last one counts, which lists the roots. -/
structure Follows (g : Grammar) (entries : List (Node × Node)) : Prop where
  roots : ∃ entry items, (entries.filter isRoots).getLast? = some entry ∧
    entry.2.sequence? = some items ∧ items.map Node.text? = g.roots.map some
  structures : List.Forall₂ Structure.StandsFor g.structures (entries.filter (!isRoots ·))

/-- One more entry of a document is one for the roots, or that of a structure. -/
theorem Parts.addEntry_eq_ok {parts parts' : Parts} {entry : Node × Node}
    (h : parts.addEntry entry = .ok parts') :
    (∃ roots, isRoots entry = true ∧ rootsOfNode entry.2 = .ok roots ∧
      parts' = { parts with roots := some roots }) ∨
    ∃ s : Structure, s.name ≠ rootsKey ∧ isRoots entry = false ∧ s.StandsFor entry ∧
      parts' = { parts with structures := s :: parts.structures } := by
  unfold Parts.addEntry at h
  unfold isRoots
  split at h
  · cases h
  · next name named =>
    rw [named]
    split at h
    · next isRoots =>
      obtain ⟨roots, loaded, rfl⟩ := checked_map.mp h
      exact .inl ⟨roots, by simp [isRoots], loaded, rfl⟩
    · next other =>
      obtain ⟨s, loaded, rfl⟩ := checked_map.mp h
      obtain ⟨rfl, stands⟩ := Structure.standsFor_of_ofNode named loaded
      exact .inr ⟨s, other, by simpa using other, stands, rfl⟩

/-- The entries of a document give their structures in their order, and the roots of the last entry
for roots. -/
theorem foldlM_addEntry_eq_ok {entries : List (Node × Node)} {parts parts' : Parts}
    (h : entries.foldlM Parts.addEntry parts = .ok parts') :
    ∃ structures, parts'.structures = structures.reverse ++ parts.structures ∧
      (∀ s ∈ structures, s.name ≠ rootsKey) ∧
      List.Forall₂ Structure.StandsFor structures (entries.filter (!isRoots ·)) ∧
      (entries.filter isRoots = [] ∧ parts'.roots = parts.roots ∨
        ∃ entry roots, (entries.filter isRoots).getLast? = some entry ∧
          rootsOfNode entry.2 = .ok roots ∧ parts'.roots = some roots) := by
  induction entries generalizing parts with
  | nil =>
    cases h
    exact ⟨[], rfl, nofun, .nil, .inl ⟨rfl, rfl⟩⟩
  | cons entry entries ih =>
    obtain ⟨next, first, rest⟩ := checked_bind.mp h
    obtain ⟨structures, given, unreserved, stand, roots⟩ := ih rest
    rcases Parts.addEntry_eq_ok first with
      ⟨own, isRoots, loaded, rfl⟩ | ⟨s, other, isOther, stands, rfl⟩
    · rw [List.filter_cons_of_neg (by simp [isRoots]), List.filter_cons_of_pos isRoots]
      refine ⟨structures, given, unreserved, stand, .inr ?_⟩
      rcases roots with ⟨none, kept⟩ | ⟨later, roots, last, loaded', eq⟩
      · exact ⟨entry, own, by rw [none, List.getLast?_singleton], loaded, kept⟩
      · exact ⟨later, roots, by rw [List.getLast?_cons, last, Option.getD_some], loaded', eq⟩
    · rw [List.filter_cons_of_pos (by simp [isOther]), List.filter_cons_of_neg (by simp [isOther])]
      refine ⟨s :: structures, ?_, List.forall_mem_cons.mpr ⟨other, unreserved⟩,
        .cons stands stand, roots⟩
      rw [given, List.reverse_cons, List.append_assoc]
      rfl

/-- A loaded grammar is well formed and follows the entries of its document; none of its structures
has the name of the roots. -/
theorem follows_of_ofNode {document : Node} {g : Grammar} (h : Grammar.ofNode document = .ok g) :
    ∃ entries, document.mapping? = some entries ∧ g.Follows entries ∧ g.WellFormed ∧
      rootsKey ∉ g.structures.map (·.name) := by
  unfold Grammar.ofNode at h
  split at h
  · cases h
  · next entries isMapping =>
    obtain ⟨parts, loaded, rest⟩ := checked_bind.mp h
    obtain ⟨structures, given, unreserved, stand, roots⟩ := foldlM_addEntry_eq_ok loaded
    split at rest
    · cases rest
    · next own isRoots =>
      obtain ⟨rfl, wf⟩ := ofParts_eq_ok.mp rest
      rw [List.append_nil] at given
      have order : parts.structures.reverse = structures := by
        rw [given, List.reverse_reverse]
      refine ⟨entries, isMapping, ⟨?_, ?_⟩, wf, ?_⟩
      · rcases roots with ⟨-, none⟩ | ⟨entry, roots, last, loaded, eq⟩
        · rw [none] at isRoots
          cases isRoots
        · rw [isRoots] at eq
          cases eq
          obtain ⟨items, isList, texts⟩ := rootsOfNode_eq_ok.mp loaded
          exact ⟨entry, items, last, isList, texts⟩
      · exact order ▸ stand
      · intro mem
        obtain ⟨s, own, named⟩ := List.mem_map.mp mem
        exact unreserved s (order ▸ own) named

/-- A grammar that is loaded from a proper document can be described. -/
theorem describable_of_ofNode {document : Node} {apart : Bool}
    (proper : document.isProper apart = true) {g : Grammar}
    (h : Grammar.ofNode document = .ok g) : g.Describable apart := by
  obtain ⟨entries, isMapping, follows, wf, unreserved⟩ := follows_of_ofNode h
  obtain ⟨-, -, parts⟩ := Node.isProper_of_mapping? proper isMapping
  have values := Node.properEntries_iff.mp parts
  have fields : ∀ s ∈ g.structures, ∀ f, .field f ∈ s.descriptors → f.Describable apart := by
    intro s mem f own
    obtain ⟨entry, among, stands⟩ := exists_of_forall₂ follows.structures mem
    exact stands.describable (values entry (List.mem_of_mem_filter among)).2 own
  refine ⟨wf, unreserved, fun s mem f own => ?_, ?_⟩
  · obtain ⟨noType, noNext, -⟩ := fields s mem f own
    exact ⟨noType, noNext⟩
  · refine List.all_eq_true.mpr fun s mem => List.all_eq_true.mpr fun d own => ?_
    cases d with
    | field f => exact (fields s mem f own).2.2
    | _ => rfl

/-- Loading gives just the grammars that can be described.  A grammar that is loaded can be
described, follows its document, and finds its structures by their names.  If no two keys of a
mapping in the document differ in nothing but their tags, no comparison of a test is made twice and
no attribute is changed twice by a trigger, and a grammar of which this is true is loaded as it was
from what it is written as. -/
theorem ofNode_exact :
    (∀ document g apart, document.isProper apart = true → Grammar.ofNode document = .ok g →
      g.Describable apart ∧ (∃ entries, document.mapping? = some entries ∧ g.Follows entries) ∧
        ∀ name s, g.getStructure? name = some s ↔ s ∈ g.structures ∧ s.name = name) ∧
    ∀ (g : Grammar) (short : Bool), g.Describable true →
      (g.toNode short).isProper true = true ∧ Grammar.ofNode (g.toNode short) = .ok g := by
  constructor
  · intro document g apart proper loaded
    obtain ⟨entries, eq, follows, wf, -⟩ := follows_of_ofNode loaded
    exact ⟨describable_of_ofNode proper loaded, ⟨entries, eq, follows⟩,
      fun _ _ => wf.getStructure?_eq_some⟩
  · intro g short h
    exact ⟨isProper_toNode h short, ofNode_toNode h short⟩

/-- A structure whose first field changes what the second one accepts by a table. -/
def tabulated : Grammar where
  roots := ["frame"]
  structures := [⟨"frame", [
    .type "unit",
    .field ⟨"kind", {
      length := some (.bits 8)
      values := some (.ops [(.neq, .int 0)])
      triggers := some [
        .onField "body" [
          .lookup .values [(.int 1, .values (.oneOf [.str "0x01", .bool true]))],
          .set .length],
        .saveToContext] }, false⟩,
    .field ⟨"body", { conditions := some [⟨"kind", .eq, .int 1⟩] }, true⟩,
    .field ⟨"end", .empty, false⟩,
    .next "frame"]⟩]

/-- A grammar with a table is loaded as it was, and can be described since it was loaded. -/
theorem ofNode_exact_tabulated : tabulated.Describable true ∧
    (tabulated.toNode true).isProper true = true ∧
    Grammar.ofNode (tabulated.toNode true) = .ok tabulated ∧
    ∀ name s, tabulated.getStructure? name = some s ↔ s ∈ tabulated.structures ∧ s.name = name := by
  have fields : ∀ s ∈ tabulated.structures, ∀ f, .field f ∈ s.descriptors →
      f.name ≠ "type" ∧ f.name ≠ "next" := by
    simp [tabulated]
  have describable : tabulated.Describable true :=
    ⟨⟨by decide, by decide, by decide⟩, by decide, fields, by decide⟩
  obtain ⟨proper, loaded⟩ := ofNode_exact.2 tabulated true describable
  obtain ⟨again, -, found⟩ := ofNode_exact.1 (tabulated.toNode true) tabulated true proper loaded
  exact ⟨again, proper, loaded, found⟩

/-- The document of a structure with a test whose comparisons are equal but for the tag of a
word. -/
def retaggedDocument : Node :=
  .mapping [(.text rootsKey, .sequence [.text "S"]),
    (.text "S", .sequence [.mapping [(.text "f", .mapping [
      (.text "length", .number (.int 8)),
      (.text "values", .mapping [
        (.text "eq", .number (.int 1)), (.tagged "x" (.text "eq"), .number (.int 2))])])]])]

/-- The structure, whose test makes a comparison twice. -/
def retested : Grammar where
  roots := ["S"]
  structures := [⟨"S", [.field ⟨"f", {
    length := some (.bits 8), values := some (.ops [(.eq, .int 1), (.eq, .int 2)]) }, false⟩]⟩]

/-- Keys that differ in nothing but a tag are distinct, and yet read alike: the grammar that is
loaded makes a comparison twice. -/
theorem retested_of_retagged : retaggedDocument.isProper false = true ∧
    Grammar.ofNode retaggedDocument = .ok retested ∧ retested.Describable false ∧
    ¬ retested.Describable true := by
  have fields : ∀ s ∈ retested.structures, ∀ f, .field f ∈ s.descriptors →
      f.name ≠ "type" ∧ f.name ≠ "next" := by
    simp [retested]
  refine ⟨by decide +kernel, rfl, ⟨⟨by decide, by decide, by decide⟩, by decide, fields, by decide⟩,
    fun describable => ?_⟩
  exact absurd describable.attributes (by decide)

end Grammar

end WireGrammar
