import WireGrammar.Proofs.Attribute.Arises

/-!
# Attributes that stay as they are declared

Triggers change the attributes of fields by their names, and so does the context.  What neither of
them gives a name stays as the fields of that name declare it.

* `Arises.every_of_byName`: a test on all that fields can be given by their names;
* `Untouched`: neither a trigger nor the context gives a name anything;
* `Untouched.effective_eq`: such fields are decoded with the attributes of their declarations.
-/

namespace WireGrammar

variable {g : Grammar} {entry : StreamContext} {s : Structure} {m : Memory} {name : String}

/-! ### Records of attributes -/

theorem FieldAttributes.kind_of_get? {a : FieldAttributes} {kind : AttributeKind}
    {v : AttributeValue} (h : a.get? kind = some v) : v.kind = kind := by
  cases kind <;> (obtain ⟨x, -, rfl⟩ := Option.map_eq_some_iff.mp h; rfl)

/-- Records that give the same attributes are equal. -/
theorem FieldAttributes.ext_get? {a b : FieldAttributes} (h : ∀ kind, a.get? kind = b.get? kind) :
    a = b := by
  have length := Option.map_injective (fun _ _ e => AttributeValue.length.inj e) (h .length)
  have values := Option.map_injective (fun _ _ e => AttributeValue.values.inj e) (h .values)
  have parse := Option.map_injective (fun _ _ e => AttributeValue.parse.inj e) (h .parse)
  have conditions :=
    Option.map_injective (fun _ _ e => AttributeValue.conditions.inj e) (h .conditions)
  have triggers := Option.map_injective (fun _ _ e => AttributeValue.triggers.inj e) (h .triggers)
  have byteLength :=
    Option.map_injective (fun _ _ e => AttributeValue.byteLength.inj e) (h .byteLength)
  have format := Option.map_injective (fun _ _ e => AttributeValue.format.inj e) (h .format)
  obtain ⟨_, _, _, _, _, _, _⟩ := a
  obtain ⟨_, _, _, _, _, _, _⟩ := b
  rw [FieldAttributes.mk.injEq]
  exact ⟨length, values, parse, conditions, triggers, byteLength, format⟩

/-- An attribute that does not come about for the name of a field is that of its declaration. -/
theorem Memory.Sourced.get?_effective (h : m.Sourced g entry s) (f : FieldDescriptor)
    {kind : AttributeKind}
    (pending : ∀ v, v.kind = kind → ¬Arises g entry (.pending s f.name) v)
    (kept : ∀ v, v.kind = kind → ¬Arises g entry (.context f.name) v) :
    (m.effective f).get? kind = f.attributes.get? kind := by
  have noPending : (given m.overrides f.name).get? kind = none := by
    cases held : (given m.overrides f.name).get? kind with
    | none => rfl
    | some v => exact absurd (h.pending held) (pending v (FieldAttributes.kind_of_get? held))
  have noKept : (given m.context f.name).get? kind = none := by
    cases held : (given m.context f.name).get? kind with
    | none => rfl
    | some v => exact absurd (h.context held) (kept v (FieldAttributes.kind_of_get? held))
  rw [Memory.effective, FieldAttributes.get?_merge, FieldAttributes.get?_merge, noPending, noKept]
  rfl

/-! ### What fields are given by their names -/

/-- All values in the tables of the declarations pass, whatever is declared itself. -/
def Grammar.everyInTables (p : AttributeValue → Bool) (g : Grammar) : Bool :=
  g.structures.all fun s => s.descriptors.all fun d => d.field?.all fun f =>
    everyTrigger p (f.attributes.triggers.getD [])

/-- All values in the tables of the value pass. -/
def AttributeValue.everyInTables (p : AttributeValue → Bool) : AttributeValue → Bool
  | .triggers ts => everyTrigger p ts
  | _ => true

theorem AttributeValue.everyInTables_of_every {p : AttributeValue → Bool} {v : AttributeValue}
    (h : v.every p = true) : v.everyInTables p = true := by
  cases v with
  | triggers ts => exact (Bool.and_eq_true_iff.mp h).2
  | _ => rfl

/-- The attribute is held for the fields of a name, not by a declaration. -/
def Holder.isByName : Holder → Bool
  | .context _ => true
  | .pending _ _ => true
  | .field _ _ => false

/-- A test that tables, scalars and the context pass is passed by all that comes about for the
fields of a name.  Declarations need not pass it, as triggers take nothing from them but tables. -/
theorem Arises.every_of_byName {p : AttributeValue → Bool} (tables : g.everyInTables p = true)
    (kept : entry.every p = true)
    (set : ∀ kind raw v, raw.text? = none → AttributeValue.ofValue? kind raw = some v →
      p v = true)
    {holder : Holder} {v : AttributeValue} (h : Arises g entry holder v) :
    v.everyInTables p = true ∧ (holder.isByName = true → v.every p = true) := by
  induction h with
  | kept h =>
    have passes := FieldAttributes.every_iff.mp (AttributeTable.every_given kept _) _ _ h
    exact ⟨AttributeValue.everyInTables_of_every passes, fun _ => passes⟩
  | @declared s f kind v mem own h =>
    refine ⟨?_, fun byName => by cases byName⟩
    cases v with
    | triggers ts =>
      have given : f.attributes.triggers = some ts := by
        obtain rfl := FieldAttributes.kind_of_get? h
        obtain ⟨ts', given, same⟩ := Option.map_eq_some_iff.mp h
        cases same
        exact given
      simp only [Grammar.everyInTables, List.all_eq_true] at tables
      have passes := tables s mem _ own
      simp only [Descriptor.field?, Option.all_some, given, Option.getD_some] at passes
      exact passes
    | _ => rfl
  | fromContext mem own h ih => exact ⟨ih.1, fun byName => by cases byName⟩
  | fromPending mem own h ih => exact ⟨ih.1, fun byName => by cases byName⟩
  | @set s f ts target rules kind raw v h trigger rule read value ih =>
    obtain ⟨same, other⟩ := AttributeValue.kind_of_ofValue? value
    have passes : v.every p = true := by
      rw [AttributeValue.every_eq_self (same ▸ other)]
      exact set _ _ _ read value
    exact ⟨AttributeValue.everyInTables_of_every passes, fun _ => passes⟩
  | lookup h trigger rule mem ih =>
    have passes := every_of_everyRow
      (everyRow_of_lookup (everyRule_of_onField ih.1 trigger) rule) mem
    exact ⟨AttributeValue.everyInTables_of_every passes, fun _ => passes⟩
  | saved h trigger pending ih ih' => exact ⟨ih'.1, fun _ => ih'.2 rfl⟩

/-! ### Names that are given nothing -/

/-- The trigger changes the fields of this name. -/
def Trigger.targets (name : String) : Trigger → Bool
  | .saveToContext => false
  | .onField target _ => target == name

/-- The value is no list of triggers with one that changes the fields of this name. -/
def AttributeValue.spares (name : String) : AttributeValue → Bool
  | .triggers ts => !ts.any (·.targets name)
  | _ => true

/-- A scalar sets no list of triggers. -/
theorem AttributeValue.spares_of_ofValue? {kind : AttributeKind} {raw : Value} {v : AttributeValue}
    (value : ofValue? kind raw = some v) (name : String) : v.spares name = true := by
  obtain ⟨same, other⟩ := AttributeValue.kind_of_ofValue? value
  cases v with
  | triggers ts => exact absurd same.symm other
  | _ => rfl

theorem targets_eq_false_of_every {ts : List Trigger}
    (h : (AttributeValue.triggers ts).every (·.spares name) = true) {t : Trigger} (mem : t ∈ ts) :
    t.targets name = false := by
  have none := AttributeValue.self_of_every h
  simp only [AttributeValue.spares, Bool.not_eq_true', List.any_eq_false] at none
  simpa using none t mem

/-- Fields of this name are decoded with the attributes of their declarations. -/
structure Untouched (g : Grammar) (ctx : StreamContext) (name : String) : Prop where
  /-- The context gives them nothing. -/
  absent : ctx.get? name = none
  /-- The triggers of the grammar leave them alone. -/
  declared : g.every (·.spares name) = true
  /-- So do the triggers that the context holds for other fields. -/
  kept : ctx.every (·.spares name) = true

instance (g : Grammar) (ctx : StreamContext) (name : String) : Decidable (Untouched g ctx name) :=
  decidable_of_iff ((ctx.get? name).isNone = true ∧ g.every (·.spares name) = true ∧
    ctx.every (·.spares name) = true)
    ⟨fun h => ⟨Option.isNone_iff_eq_none.mp h.1, h.2.1, h.2.2⟩,
      fun h => ⟨Option.isNone_iff_eq_none.mpr h.absent, h.declared, h.kept⟩⟩

namespace Untouched

variable (h : Untouched g entry name)

include h

/-- No trigger that can come about changes the fields of the name. -/
theorem targets_eq_false {holder : Holder} {ts : List Trigger}
    (arises : Arises g entry holder (.triggers ts)) {t : Trigger} (mem : t ∈ ts) :
    t.targets name = false := by
  have passes := arises.every h.declared h.kept fun kind raw v _ value =>
    AttributeValue.spares_of_ofValue? value name
  exact targets_eq_false_of_every passes mem

theorem not_pending {s : Structure} {v : AttributeValue} :
    ¬Arises g entry (.pending s name) v := by
  intro arises
  cases arises with
  | set holds trigger rule read value =>
    have other := h.targets_eq_false holds trigger
    simp [Trigger.targets] at other
  | lookup holds trigger rule mem =>
    have other := h.targets_eq_false holds trigger
    simp [Trigger.targets] at other

theorem not_kept {v : AttributeValue} : ¬Arises g entry (.context name) v := by
  intro arises
  cases arises with
  | @kept field kind v held =>
    rw [Memory.given, h.absent] at held
    cases kind <;> cases held
  | saved holds trigger pending => exact h.not_pending pending

/-- A field of the name is decoded with the attributes of its declaration. -/
theorem effective_eq (sourced : m.Sourced g entry s) {f : FieldDescriptor} (named : f.name = name) :
    m.effective f = f.attributes := by
  subst named
  exact FieldAttributes.ext_get? fun kind => sourced.get?_effective f
    (fun v _ => h.not_pending) (fun v _ => h.not_kept)

end Untouched

end WireGrammar
