import WireGrammar.Proofs.Context.Growth
import WireGrammar.Proofs.Grammar.Loading

/-!
# Well-typed tables

A rule that looks a value up changes the attribute that the value belongs to, whatever attribute the
rule is about.  Loading sees to it that these are the same: for the tables of a declaration, for
those of triggers in such tables, and so on.  As fields and contexts are given nothing but such
values, no table ever becomes ill-typed.

* `AttributeValue.isTyped`: the tables of triggers hold values of the kinds of their rules;
* `Grammar.typed_of_isLoaded`: loaded grammars are well-typed at any depth;
* `LeftByPackets.typed`: so is every context that packets leave.
-/

namespace WireGrammar

open Yaml (Node)

/-! ### Types -/

/-- A table has values of the kind of its rule. -/
def TriggerRule.isTyped : TriggerRule → Bool
  | .set _ => true
  | .lookup kind table => table.all fun row => row.2.kind == kind

def Trigger.isTyped : Trigger → Bool
  | .saveToContext => true
  | .onField _ rules => rules.all (·.isTyped)

/-- The tables of the value are well-typed, if it is a list of triggers.  This does not look into
the tables. -/
def AttributeValue.isTyped : AttributeValue → Bool
  | .triggers ts => ts.all (·.isTyped)
  | _ => true

/-- What is no list of triggers has no tables. -/
theorem AttributeValue.typed_of_ne_triggers {v : AttributeValue} (h : v.kind ≠ .triggers) :
    v.every (·.isTyped) = true := by
  cases v with
  | triggers ts => exact absurd rfl h
  | _ => rfl

/-- A scalar sets no tables. -/
theorem AttributeValue.isTyped_of_ofValue? {kind : AttributeKind} {raw : Value} {v : AttributeValue}
    (h : ofValue? kind raw = some v) : v.isTyped = true := by
  obtain ⟨same, other⟩ := kind_of_ofValue? h
  exact self_of_every (typed_of_ne_triggers (same ▸ other))

/-! ### Loaded attributes -/

/-- A loaded attribute other than a list of triggers is of the kind that was asked for. -/
theorem AttributeValue.kind_of_ofPlainNode {kind : AttributeKind} {n : Node} {v : AttributeValue}
    (h : AttributeValue.ofPlainNode kind n = .ok v) : v.kind = kind ∧ kind ≠ .triggers := by
  cases kind with
  | length | values =>
    obtain ⟨x, -, rfl⟩ := checked_map.mp h
    exact ⟨rfl, by decide⟩
  | conditions =>
    rw [ofPlainNode] at h
    split at h
    · obtain ⟨css, -, rfl⟩ := checked_map.mp h
      exact ⟨rfl, by decide⟩
    · cases h
  | triggers => cases h
  | parse | byteLength =>
    rw [ofPlainNode] at h
    split at h
    · cases h
      exact ⟨rfl, by decide⟩
    · cases h
  | format =>
    rw [ofPlainNode] at h
    split at h
    · cases h
    · split at h
      · cases h
        exact ⟨rfl, by decide⟩
      · cases h

theorem AttributeValue.typed_of_ofPlainNode {kind : AttributeKind} {n : Node} {v : AttributeValue}
    (h : AttributeValue.ofPlainNode kind n = .ok v) :
    v.kind = kind ∧ v.every (·.isTyped) = true := by
  obtain ⟨same, plain⟩ := kind_of_ofPlainNode h
  exact ⟨same, typed_of_ne_triggers (same ▸ plain)⟩

mutual

/-- **A loaded attribute is of the kind that was asked for, and well-typed at any depth.** -/
theorem AttributeValue.typed_of_ofNode (kind : AttributeKind) (n : Node) {v : AttributeValue}
    (h : AttributeValue.ofNode kind n = .ok v) : v.kind = kind ∧ v.every (·.isTyped) = true := by
  by_cases isTriggers : kind = .triggers
  · subst isTriggers
    obtain ⟨items, ts, isList, loaded, rfl⟩ := AttributeValue.ofNode_triggers_eq_ok n h
    have smaller := Node.sizeOf_lt_of_sequence? isList
    exact ⟨rfl, Trigger.typed_of_ofItems items loaded⟩
  · rw [AttributeValue.ofNode_of_ne_triggers isTriggers] at h
    exact AttributeValue.typed_of_ofPlainNode h
termination_by sizeOf n

/-- Loaded triggers are well-typed. -/
theorem Trigger.typed_of_ofItems : (items : List Node) → ∀ {ts}, Trigger.ofItems items = .ok ts →
    (AttributeValue.triggers ts).every (·.isTyped) = true
  | [], ts, h => by
    cases h
    rfl
  | item :: items, ts, h => by
    obtain ⟨entries, first, more, isMapping, loaded, loaded', rfl⟩ :=
      Trigger.ofItems_cons_eq_ok h
    have smaller := Node.sizeOf_lt_of_mapping? isMapping
    exact (AttributeValue.every_triggers_append fun _ => rfl).mpr
      ⟨Trigger.typed_of_ofEntries entries loaded, Trigger.typed_of_ofItems items loaded'⟩
termination_by items => sizeOf items

/-- The triggers of one mapping are well-typed. -/
theorem Trigger.typed_of_ofEntries : (entries : List (Node × Node)) →
    ∀ {ts}, Trigger.ofEntries entries = .ok ts →
    (AttributeValue.triggers ts).every (·.isTyped) = true
  | [], ts, h => by
    cases h
    rfl
  | (target, actions) :: entries, ts, h => by
    obtain ⟨t, more, rfl, loaded', first⟩ := Trigger.ofEntries_cons_eq_ok h
    have rest := Trigger.typed_of_ofEntries entries loaded'
    apply (AttributeValue.every_triggers_cons fun _ => rfl).mpr
    rcases first with rfl | ⟨name, entries', rules, -, isMapping, loaded, rfl⟩
    · exact ⟨rfl, rfl, rest⟩
    · have smaller := Node.sizeOf_lt_of_mapping? isMapping
      obtain ⟨typed, tables⟩ := TriggerRule.typed_of_ofEntries entries' loaded
      exact ⟨List.all_eq_true.mpr typed, Bool.and_eq_true_iff.mpr ⟨tables, rfl⟩, rest⟩
termination_by entries => sizeOf entries

/-- Loaded rules are well-typed. -/
theorem TriggerRule.typed_of_ofEntries : (entries : List (Node × Node)) →
    ∀ {rules}, TriggerRule.ofEntries entries = .ok rules →
    (∀ rule ∈ rules, rule.isTyped = true) ∧ everyRule (·.isTyped) rules = true
  | [], rules, h => by
    cases h
    exact ⟨nofun, rfl⟩
  | (key, action) :: entries, rules, h => by
    obtain ⟨rule, more, rfl, loaded', -, first⟩ := TriggerRule.ofEntries_cons_eq_ok h
    obtain ⟨typed, tables⟩ := TriggerRule.typed_of_ofEntries entries loaded'
    rcases first with eq | ⟨entries', table, eq', loaded, eq⟩
    · rw [eq]
      exact ⟨List.forall_mem_cons.mpr ⟨rfl, typed⟩, tables⟩
    · have smaller : sizeOf entries' < sizeOf action := by
        rw [eq']
        simp
      obtain ⟨rows, values⟩ := TriggerRule.typed_of_tableOfEntries rule.kind entries' loaded
      rw [eq]
      refine ⟨List.forall_mem_cons.mpr ⟨?_, typed⟩, Bool.and_eq_true_iff.mpr ⟨values, tables⟩⟩
      simpa [TriggerRule.isTyped] using rows
termination_by entries => sizeOf entries

/-- A loaded table has values of the kind that was asked for, which are well-typed. -/
theorem TriggerRule.typed_of_tableOfEntries (kind : AttributeKind) :
    (entries : List (Node × Node)) →
    ∀ {table}, TriggerRule.tableOfEntries kind entries = .ok table →
    (∀ row ∈ table, row.2.kind = kind) ∧ everyRow (·.isTyped) table = true
  | [], table, h => by
    cases h
    exact ⟨nofun, rfl⟩
  | (key, value) :: entries, table, h => by
    obtain ⟨literal, v, more, rfl, loaded', -, second⟩ := TriggerRule.tableOfEntries_cons_eq_ok h
    obtain ⟨same, typed⟩ := AttributeValue.typed_of_ofNode kind value second
    obtain ⟨rows, tables⟩ := TriggerRule.typed_of_tableOfEntries kind entries loaded'
    exact ⟨List.forall_mem_cons.mpr ⟨same, rows⟩, Bool.and_eq_true_iff.mpr ⟨typed, tables⟩⟩
termination_by entries => sizeOf entries

end

/-! ### Loaded grammars -/

/-- The grammar is loaded from a document. -/
def Grammar.IsLoaded (g : Grammar) : Prop := ∃ document, Grammar.ofNode document = .ok g

/-- So is the grammar that a text describes, however it is read. -/
theorem Grammar.isLoaded_of_parseWith {read : Yaml.Reader} {text : String} {g : Grammar}
    (h : Grammar.parseWith read text = .ok g) : g.IsLoaded := by
  unfold Grammar.parseWith at h
  split at h
  · cases h
  · next document _ => exact ⟨document, h⟩

/-- **Loaded grammars are well-typed**, with the tables of triggers in tables. -/
theorem Grammar.typed_of_isLoaded {g : Grammar} (h : g.IsLoaded) : g.every (·.isTyped) = true := by
  obtain ⟨document, loaded⟩ := h
  obtain ⟨entries, -, follows, -⟩ := follows_of_ofNode loaded
  refine List.all_eq_true.mpr fun s mem => List.all_eq_true.mpr fun d own => ?_
  obtain ⟨entry, -, stands⟩ := exists_of_forall₂ follows.structures mem
  obtain ⟨items, -, item, -, ofNode⟩ := stands.item own
  cases d with
  | field f =>
    obtain ⟨key, arguments, name, -, -, -, field⟩ := Descriptor.field_of_ofNode ofNode
    exact (FieldDescriptor.every_of_ofNode
      (fun _ _ e _ kind _ value => (AttributeValue.typed_of_ofNode kind e.2 value).2) field).2
  | type | next => rfl

/-! ### Contexts -/

/-- A loaded grammar leaves a well-typed context, if it found one. -/
theorem SourcedContext.typed {g : Grammar} {entry ctx : StreamContext}
    (h : SourcedContext g entry ctx) (loaded : g.IsLoaded)
    (typed : entry.every (·.isTyped) = true) : ctx.every (·.isTyped) = true :=
  h.every (Grammar.typed_of_isLoaded loaded) typed
    fun _ _ _ _ set => AttributeValue.isTyped_of_ofValue? set

/-- The contexts that packets lead to from the empty one, by whatever loaded grammars. -/
inductive LeftByPackets : StreamContext → Prop where
  | empty : LeftByPackets .empty
  /-- A packet is decoded by one grammar. -/
  | packet {g : Grammar} {o : Options} {bytes : List UInt8} {ctx : StreamContext}
      (loaded : g.IsLoaded) (before : LeftByPackets ctx) :
      LeftByPackets (parseTopLevel g o bytes ctx).2
  /-- A packet is decoded by the first grammar of a set that can. -/
  | call {c : Call} {ctx : StreamContext} (loaded : ∀ entry ∈ c.grammars.entries, entry.2.IsLoaded)
      (before : LeftByPackets ctx) : LeftByPackets (c.outcome ctx).2

/-- **Every context that packets leave is well-typed.** -/
theorem LeftByPackets.typed {ctx : StreamContext} (h : LeftByPackets ctx) :
    ctx.every (·.isTyped) = true := by
  induction h with
  | empty => rfl
  | @packet g o bytes ctx loaded _ ih =>
    cases result : parseTopLevel g o bytes ctx with
    | mk outcome after =>
      cases outcome with
      | error e => rw [context_of_parseTopLevel_eq_error result]; exact ih
      | ok tree => exact (extends_of_parseTopLevel result).2.typed loaded ih
  | @call c ctx loaded _ ih =>
    rcases c.outcome_cases ctx with same | ⟨entry, own, -, sourced⟩
    · rw [same]
      exact ih
    · exact sourced.typed (loaded entry own) ih

end WireGrammar
