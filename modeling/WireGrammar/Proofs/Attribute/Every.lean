import WireGrammar.Dissect.Effective

/-!
# A test on all attributes

The attributes of a grammar stand in declarations, and in the tables of triggers, which may be the
attributes of further triggers.  A test that all of them pass can be computed.

* `AttributeValue.every_of_row`: from the triggers to the rows of their tables;
* `AttributeTable.every_given`: what a table gives a field passes as well.
-/

namespace WireGrammar

/-! ### The test -/

mutual

/-- The value passes, and so do all values in the tables of its triggers. -/
def AttributeValue.every (p : AttributeValue → Bool) : AttributeValue → Bool
  | .triggers ts => p (.triggers ts) && everyTrigger p ts
  | .length l => p (.length l)
  | .values spec => p (.values spec)
  | .parse target => p (.parse target)
  | .conditions cs => p (.conditions cs)
  | .byteLength n => p (.byteLength n)
  | .format f => p (.format f)

/-- All values in the tables of the triggers pass. -/
def everyTrigger (p : AttributeValue → Bool) : List Trigger → Bool
  | [] => true
  | .saveToContext :: ts => everyTrigger p ts
  | .onField _ rules :: ts => everyRule p rules && everyTrigger p ts

/-- All values in the tables of the rules pass. -/
def everyRule (p : AttributeValue → Bool) : List TriggerRule → Bool
  | [] => true
  | .set _ :: rules => everyRule p rules
  | .lookup _ table :: rules => everyRow p table && everyRule p rules

/-- All values of the table pass. -/
def everyRow (p : AttributeValue → Bool) : List (Literal × AttributeValue) → Bool
  | [] => true
  | (_, v) :: rows => v.every p && everyRow p rows

end

/-- The seven kinds. -/
def AttributeKind.all : List AttributeKind :=
  [.length, .values, .parse, .conditions, .triggers, .byteLength, .format]

theorem AttributeKind.mem_all (kind : AttributeKind) : kind ∈ AttributeKind.all := by
  cases kind <;> decide

/-- All attributes that are given pass. -/
def FieldAttributes.every (p : AttributeValue → Bool) (a : FieldAttributes) : Bool :=
  AttributeKind.all.all fun kind => (a.get? kind).all (·.every p)

/-- All attributes in the table pass. -/
def AttributeTable.every (p : AttributeValue → Bool) (t : AttributeTable) : Bool :=
  t.entries.all fun row => row.2.every p

/-- All attributes of the declarations pass. -/
def Grammar.every (p : AttributeValue → Bool) (g : Grammar) : Bool :=
  g.structures.all fun s => s.descriptors.all fun d => d.field?.all (·.attributes.every p)

/-! ### What passes -/

variable {p : AttributeValue → Bool}

theorem AttributeValue.self_of_every {v : AttributeValue} (h : v.every p = true) : p v = true := by
  cases v with
  | triggers ts => exact (Bool.and_eq_true_iff.mp h).1
  | _ => exact h

theorem AttributeValue.every_eq_self {v : AttributeValue} (h : v.kind ≠ .triggers) :
    v.every p = p v := by
  cases v with
  | triggers ts => exact absurd rfl h
  | _ => rfl

theorem every_of_everyRow {table : List (Literal × AttributeValue)} (h : everyRow p table = true)
    {row : Literal × AttributeValue} (mem : row ∈ table) : row.2.every p = true := by
  induction table with
  | nil => cases mem
  | cons first rows ih =>
    obtain ⟨here, rest⟩ := Bool.and_eq_true_iff.mp h
    rcases List.mem_cons.mp mem with rfl | mem
    · exact here
    · exact ih rest mem

theorem everyRow_of_lookup {rules : List TriggerRule} (h : everyRule p rules = true)
    {kind : AttributeKind} {table : List (Literal × AttributeValue)}
    (mem : .lookup kind table ∈ rules) : everyRow p table = true := by
  induction rules with
  | nil => cases mem
  | cons first rules ih =>
    cases first with
    | set own =>
      rcases List.mem_cons.mp mem with eq | mem
      · cases eq
      · exact ih h mem
    | lookup own rows =>
      obtain ⟨here, rest⟩ := Bool.and_eq_true_iff.mp h
      rcases List.mem_cons.mp mem with eq | mem
      · cases eq
        exact here
      · exact ih rest mem

theorem everyRule_of_onField {ts : List Trigger} (h : everyTrigger p ts = true) {target : String}
    {rules : List TriggerRule} (mem : .onField target rules ∈ ts) : everyRule p rules = true := by
  induction ts with
  | nil => cases mem
  | cons first ts ih =>
    cases first with
    | saveToContext =>
      rcases List.mem_cons.mp mem with eq | mem
      · cases eq
      · exact ih h mem
    | onField own others =>
      obtain ⟨here, rest⟩ := Bool.and_eq_true_iff.mp h
      rcases List.mem_cons.mp mem with eq | mem
      · cases eq
        exact here
      · exact ih rest mem

/-- The rows in the tables of triggers that pass do so themselves. -/
theorem AttributeValue.every_of_row {ts : List Trigger}
    (h : (AttributeValue.triggers ts).every p = true) {target : String} {rules : List TriggerRule}
    (trigger : .onField target rules ∈ ts) {kind : AttributeKind}
    {table : List (Literal × AttributeValue)} (rule : .lookup kind table ∈ rules)
    {row : Literal × AttributeValue} (mem : row ∈ table) : row.2.every p = true := by
  have triggers := (Bool.and_eq_true_iff.mp h).2
  exact every_of_everyRow
    (everyRow_of_lookup (everyRule_of_onField triggers trigger) rule) mem

theorem everyTrigger_append {as bs : List Trigger} :
    everyTrigger p (as ++ bs) = (everyTrigger p as && everyTrigger p bs) := by
  induction as with
  | nil => rfl
  | cons t as ih => cases t <;> simp only [List.cons_append, everyTrigger, ih, Bool.and_assoc]

section Lists

variable {q : Trigger → Bool} (own : ∀ ts, p (.triggers ts) = ts.all q)

include own

/-- Where lists of triggers are tested one by one, they can be put together. -/
theorem AttributeValue.every_triggers_append {ts more : List Trigger} :
    (AttributeValue.triggers (ts ++ more)).every p = true ↔
      (AttributeValue.triggers ts).every p = true ∧
        (AttributeValue.triggers more).every p = true := by
  simp only [every, own, List.all_append, everyTrigger_append, Bool.and_eq_true]
  exact ⟨fun ⟨⟨a, b⟩, c, d⟩ => ⟨⟨a, c⟩, b, d⟩, fun ⟨⟨a, c⟩, b, d⟩ => ⟨⟨a, b⟩, c, d⟩⟩

theorem AttributeValue.every_triggers_cons {t : Trigger} {ts : List Trigger} :
    (AttributeValue.triggers (t :: ts)).every p = true ↔
      q t = true ∧ everyTrigger p [t] = true ∧ (AttributeValue.triggers ts).every p = true := by
  rw [← List.singleton_append, every_triggers_append own]
  simp only [every, own, List.all_cons, List.all_nil, Bool.and_true, Bool.and_eq_true, and_assoc]

end Lists

theorem FieldAttributes.every_iff {a : FieldAttributes} :
    a.every p = true ↔ ∀ kind v, a.get? kind = some v → v.every p = true := by
  simp only [every, List.all_eq_true, Option.all_eq_true]
  exact ⟨fun h kind => h kind kind.mem_all, fun h kind _ => h kind⟩

theorem Grammar.every_of_field {g : Grammar} (h : g.every p = true) {s : Structure}
    (mem : s ∈ g.structures) {f : FieldDescriptor} (own : .field f ∈ s.descriptors) :
    f.attributes.every p = true := by
  simp only [every, List.all_eq_true] at h
  exact h s mem _ own

/-- A table gives a field the attributes under its name, or none. -/
theorem Memory.given_eq_empty_or_mem (t : AttributeTable) (field : String) :
    given t field = .empty ∨ (field, given t field) ∈ t.entries := by
  obtain ⟨rows, ascending⟩ := t
  unfold given Table.get?
  induction rows with
  | nil => exact .inl rfl
  | cons row rows ih =>
    rw [Table.lookupIn]
    split
    · next same => exact .inr (same ▸ List.mem_cons_self)
    · rcases ih (List.Pairwise.of_cons ascending) with none | mem
      · exact .inl none
      · exact .inr (List.mem_cons_of_mem _ mem)

/-- A table gives what it holds. -/
theorem Memory.given_of_mem {t : AttributeTable} {row : String × FieldAttributes}
    (mem : row ∈ t.entries) : given t row.1 = row.2 := by
  obtain ⟨rows, ascending⟩ := t
  unfold given Table.get?
  induction rows with
  | nil => cases mem
  | cons first rows ih =>
    have later := List.pairwise_cons.mp ascending
    rw [Table.lookupIn]
    rcases List.mem_cons.mp mem with rfl | further
    · rw [if_pos rfl]
      rfl
    · have other : row.1 ≠ first.1 := by
        intro same
        exact String.lt_irrefl _ (same ▸ later.1 row further)
      rw [if_neg other]
      exact ih later.2 further

/-- What a table gives a field passes. -/
theorem AttributeTable.every_given {t : AttributeTable} (h : t.every p = true) (field : String) :
    (Memory.given t field).every p = true := by
  rcases Memory.given_eq_empty_or_mem t field with none | mem
  · rw [none]
    rfl
  · exact List.all_eq_true.mp h _ mem

/-- A table passes if all that it gives does. -/
theorem AttributeTable.every_iff {t : AttributeTable} :
    t.every p = true ↔ ∀ field, (Memory.given t field).every p = true := by
  constructor
  · exact every_given
  · intro h
    refine List.all_eq_true.mpr fun row mem => ?_
    rw [← Memory.given_of_mem mem]
    exact h row.1

end WireGrammar
