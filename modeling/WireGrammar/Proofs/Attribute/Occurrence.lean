import WireGrammar.Proofs.Attribute.Arises

/-!
# Where triggers come from

The tables of a trigger may hold triggers for other fields, whose tables hold further ones.  However
often such attributes are handed on, from one field to the next and from packet to packet, no
trigger ever fires that is not written in a grammar.

* `Grammar.Has`: a trigger occurs in a grammar, at any depth in the tables of others;
* `SourcedContext.knownFrom`: the context has attributes for targets of such triggers only, and
  holds no other triggers.
-/

namespace WireGrammar

/-- The trigger stands in the value, or in a table of a trigger that does, however deep. -/
inductive AttributeValue.Holds : AttributeValue → Trigger → Prop where
  | own {ts t} (mem : t ∈ ts) : Holds (.triggers ts) t
  | inTable {ts target rules kind table row t} (trigger : .onField target rules ∈ ts)
      (rule : .lookup kind table ∈ rules) (mem : row ∈ table) (deeper : Holds row.2 t) :
      Holds (.triggers ts) t

/-- The trigger occurs in the declaration of a field, or in a table of a trigger that does. -/
def Grammar.Has (g : Grammar) (t : Trigger) : Prop :=
  ∃ s ∈ g.structures, ∃ f, .field f ∈ s.descriptors ∧
    ∃ kind v, f.attributes.get? kind = some v ∧ v.Holds t

/-- The table gives attributes to targets of known triggers only, and holds no others. -/
structure AttributeTable.KnownFrom (Known : Trigger → Prop) (t : AttributeTable) : Prop where
  target : ∀ ⦃field kind v⦄, (Memory.given t field).get? kind = some v →
    ∃ rules, Known (.onField field rules)
  held : ∀ ⦃field kind v⦄, (Memory.given t field).get? kind = some v →
    ∀ trigger, v.Holds trigger → Known trigger

theorem AttributeTable.KnownFrom.empty (Known : Trigger → Prop) :
    AttributeTable.KnownFrom Known .empty := by
  constructor
  · intro field kind v given
    cases kind <;> cases given
  · intro field kind v given
    cases kind <;> cases given

/-- The name that an attribute is held for, if it is not held by a field itself. -/
def Holder.heldFor? : Holder → Option String
  | .context name => some name
  | .pending _ name => some name
  | .field _ _ => none

section Arises

variable {Known : Trigger → Prop} {g : Grammar} {ctx ctx' : StreamContext}

/-- If all triggers of the grammar and of the context are known, so is every trigger that can come
about, and so is one that changes the field that an attribute is held for. -/
theorem Arises.known (declared : ∀ t, g.Has t → Known t)
    (kept : AttributeTable.KnownFrom Known ctx) {holder : Holder} {v : AttributeValue}
    (h : Arises g ctx holder v) :
    (∀ t, v.Holds t → Known t) ∧
      ∀ field, holder.heldFor? = some field → ∃ rules, Known (.onField field rules) := by
  induction h with
  | kept given =>
    refine ⟨kept.held given, fun field named => ?_⟩
    cases named
    exact kept.target given
  | declared mem own given =>
    refine ⟨fun t held => declared t ⟨_, mem, _, own, _, _, given, held⟩, fun field named => ?_⟩
    cases named
  | fromContext mem own h ih => exact ⟨ih.1, fun field named => by cases named⟩
  | fromPending mem own h ih => exact ⟨ih.1, fun field named => by cases named⟩
  | set h trigger rule read value ih =>
    constructor
    · intro t held
      obtain ⟨same, other⟩ := AttributeValue.kind_of_ofValue? value
      cases held with
      | own => exact absurd same.symm other
      | inTable => exact absurd same.symm other
    · intro field named
      cases named
      exact ⟨_, ih.1 _ (.own trigger)⟩
  | lookup h trigger rule mem ih =>
    constructor
    · intro t held
      exact ih.1 t (.inTable trigger rule mem held)
    · intro field named
      cases named
      exact ⟨_, ih.1 _ (.own trigger)⟩
  | saved h trigger pending ih ih' =>
    refine ⟨ih'.1, fun field named => ?_⟩
    cases named
    exact ih'.2 _ rfl

/-- What can come about in a context knows no further triggers. -/
theorem SourcedContext.knownFrom (declared : ∀ t, g.Has t → Known t)
    (kept : AttributeTable.KnownFrom Known ctx) (h : SourcedContext g ctx ctx') :
    AttributeTable.KnownFrom Known ctx' where
  target _ _ _ given := ((h given).known declared kept).2 _ rfl
  held _ _ _ given := ((h given).known declared kept).1

/-- Without a known trigger that saves, an attribute in the context was there before. -/
theorem SourcedContext.given_of_unsaved (declared : ∀ t, g.Has t → Known t)
    (kept : AttributeTable.KnownFrom Known ctx) (unsaved : ¬Known .saveToContext)
    (h : SourcedContext g ctx ctx') {field : String} {kind : AttributeKind} {v : AttributeValue}
    (given : (Memory.given ctx' field).get? kind = some v) :
    ∃ kind, (Memory.given ctx field).get? kind = some v := by
  cases h given with
  | kept before => exact ⟨_, before⟩
  | saved holds trigger pending =>
    exact absurd ((holds.known declared kept).1 _ (.own trigger)) unsaved

end Arises

end WireGrammar
