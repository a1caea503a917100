import WireGrammar.Grammar.Attribute
import WireGrammar.Table

/-!
# Attributes kept for later

Within a structure, triggers leave pending attributes for the fields to come; saved into the context
of a stream, they last for the packets to come.  Each direction of a conversation has a context of
its own.

* `get?_override`, `get?_mergeRow`, `get?_merge`: what a table holds after each kind of change;
* `forDirection_update`: a change of one direction is seen by no other.
-/

namespace WireGrammar

/-- Attributes by the name of the field they are for. -/
abbrev AttributeTable := Table FieldAttributes

/-- What the packets of one direction have left for those to come. -/
abbrev StreamContext := AttributeTable

namespace AttributeTable

/-- The table with one attribute of a field replaced. -/
def override (t : AttributeTable) (field : String) (v : AttributeValue) : AttributeTable :=
  t.alter field fun a => (a.getD .empty).set v

/-- The table with the attributes of one row laid over those it has. -/
def mergeRow (t : AttributeTable) (row : String × FieldAttributes) : AttributeTable :=
  t.alter row.1 fun a => (a.getD .empty).merge row.2

/-- The table with the attributes of another laid over it; attributes that the other does not give
stay. -/
def merge (t upper : AttributeTable) : AttributeTable := upper.entries.foldl mergeRow t

theorem get?_override (t : AttributeTable) (field other : String) (v : AttributeValue) :
    (t.override field v).get? other =
      if other = field then some (((t.get? field).getD .empty).set v) else t.get? other := by
  rw [override, Table.get?_alter]

theorem get?_mergeRow (t : AttributeTable) (row : String × FieldAttributes) (field : String) :
    (t.mergeRow row).get? field =
      if field = row.1 then some (((t.get? row.1).getD .empty).merge row.2) else t.get? field := by
  rw [mergeRow, Table.get?_alter]

/-- Merging works field by field. -/
theorem get?_merge (t upper : AttributeTable) (field : String) :
    (t.merge upper).get? field =
      match upper.get? field with
      | some a => some (((t.get? field).getD .empty).merge a)
      | none => t.get? field := by
  obtain ⟨rows, ascending⟩ := upper
  simp only [merge, Table.get?]
  rw [← Table.get?, ← Table.get?]
  induction rows generalizing t with
  | nil => rfl
  | cons row rows ih =>
    have pr := List.pairwise_cons.mp ascending
    rw [List.foldl_cons, ih _ pr.2, Table.lookupIn]
    by_cases h : field = row.1
    · subst h
      rw [if_pos rfl, Table.lookupIn_eq_none pr.1]
      simp only [get?_mergeRow, if_true]
    · rw [if_neg h]
      simp only [get?_mergeRow, if_neg h]

end AttributeTable

/-! ### Directions -/

/-- A context for each direction that has been used. -/
abbrev DirectionContexts := Table StreamContext

namespace DirectionContexts

/-- The context of a direction, which is empty before its first use. -/
def forDirection (contexts : DirectionContexts) (direction : String) : StreamContext :=
  (contexts.get? direction).getD .empty

/-- The contexts after that of one direction became `ctx`. -/
def update (contexts : DirectionContexts) (direction : String) (ctx : StreamContext) :
    DirectionContexts :=
  contexts.alter direction fun _ => ctx

/-- Directions do not share a context. -/
theorem forDirection_update (contexts : DirectionContexts) (direction other : String)
    (ctx : StreamContext) :
    (contexts.update direction ctx).forDirection other =
      if other = direction then ctx else contexts.forDirection other := by
  unfold forDirection update
  rw [Table.get?_alter]
  split <;> rfl

end DirectionContexts

end WireGrammar
