import WireGrammar.Proofs.Attribute.Arises
import WireGrammar.Proofs.Encoding.Scalar

/-!
# Fields that are always written in one way

Lengths come from declarations, tables, scalars and the context.  Bytes can be told from scalars if
none of these gives a field a length that another way of writing goes with.

* `Coded`: what this says of the lengths that can come about;
* `coded_of_isCoded`: a condition on the lengths that are there, which can be computed.
-/

namespace WireGrammar

/-- The way in which the scalars of each field are written, by the names of structure and field. -/
abbrev CodingTable := String → String → Coding

/-- No field that is read as a scalar comes to have a length that its coding does not go with. -/
def Coded (g : Grammar) (ctx : StreamContext) (coding : CodingTable) : Prop :=
  ∀ ⦃s f l⦄, f.attributes.parse = none → Arises g ctx (.field s f) (.length l) →
    (coding s.name f.name).admits l = true

/-! ### A condition that can be computed -/

/-- If the value is a length, the fields of the name have a coding that goes with it. -/
def AttributeValue.coded (g : Grammar) (coding : CodingTable) (field : String) :
    AttributeValue → Bool
  | .length l => g.structures.all fun s => (coding s.name field).admits l
  | _ => true

/-- The rule gives the fields named `target` no length that their coding does not go with. -/
def TriggerRule.coded (g : Grammar) (coding : CodingTable) (target : String) : TriggerRule → Bool
  | .set .length => g.structures.all fun s => coding s.name target == .plain
  | .set _ => true
  | .lookup _ table => table.all fun row => row.2.coded g coding target

def Trigger.coded (g : Grammar) (coding : CodingTable) : Trigger → Bool
  | .saveToContext => true
  | .onField target rules => rules.all (·.coded g coding target)

/-- If the value is a list of triggers, they give no such length. -/
def AttributeValue.triggersCoded (g : Grammar) (coding : CodingTable) : AttributeValue → Bool
  | .triggers ts => ts.all (·.coded g coding)
  | _ => true

/-- Nothing that is there gives a field a length that its coding does not go with. -/
def isCoded (g : Grammar) (ctx : StreamContext) (coding : CodingTable) : Bool :=
  g.every (·.triggersCoded g coding) && ctx.every (·.triggersCoded g coding) &&
  (ctx.entries.all fun row => row.2.length.all fun l =>
    (AttributeValue.length l).coded g coding row.1) &&
  g.structures.all fun s => s.descriptors.all fun d => d.field?.all fun f =>
    f.attributes.parse.isSome || f.attributes.length.all (coding s.name f.name).admits

namespace AttributeValue

variable {g : Grammar} {coding : CodingTable} {field : String}

theorem admits_of_coded {l : Length} (h : (AttributeValue.length l).coded g coding field = true)
    {s : Structure} (mem : s ∈ g.structures) : (coding s.name field).admits l = true :=
  List.all_eq_true.mp h s mem

/-- A scalar gives lengths in whole bytes. -/
theorem coded_of_ofValue? {kind : AttributeKind}
    (h : (TriggerRule.set kind).coded g coding field = true) {raw : Value} {v : AttributeValue}
    (set : ofValue? kind raw = some v) : v.coded g coding field = true := by
  cases v with
  | length l =>
    obtain ⟨rfl, -⟩ := kind_of_ofValue? set
    obtain ⟨n, -, bits⟩ := Option.bind_eq_some_iff.mp set
    split at bits
    · cases bits
      refine List.all_eq_true.mpr fun s mem => ?_
      have plain := List.all_eq_true.mp h s mem
      rw [eq_of_beq plain]
      simp [Coding.admits]
    · cases bits
  | _ => rfl

theorem triggersCoded_of_ofValue? {kind : AttributeKind} {raw : Value} {v : AttributeValue}
    (set : ofValue? kind raw = some v) : v.triggersCoded g coding = true := by
  cases v with
  | triggers ts =>
    obtain ⟨rfl, other⟩ := kind_of_ofValue? set
    exact absurd rfl other
  | _ => rfl

end AttributeValue

theorem FieldAttributes.length_of_get? {a : FieldAttributes} {kind : AttributeKind} {l : Length}
    (h : a.get? kind = some (.length l)) : a.length = some l := by
  cases kind with
  | length =>
    obtain ⟨m, given, eq⟩ := Option.map_eq_some_iff.mp h
    cases eq
    exact given
  | _ =>
    obtain ⟨m, given, eq⟩ := Option.map_eq_some_iff.mp h
    cases eq

/-- What a holder comes to have goes with the coding of the fields it is for. -/
def Holder.Coded (g : Grammar) (coding : CodingTable) (v : AttributeValue) : Holder → Prop
  | .context name => v.coded g coding name = true
  | .pending _ name => v.coded g coding name = true
  | .field s f => f.attributes.parse = none → ∀ l, v = .length l →
      (coding s.name f.name).admits l = true

theorem coded_of_isCoded {g : Grammar} {ctx : StreamContext} {coding : CodingTable}
    (h : isCoded g ctx coding = true) : Coded g ctx coding := by
  simp only [isCoded, Bool.and_eq_true, List.all_eq_true] at h
  obtain ⟨⟨⟨declared, kept⟩, lengths⟩, fields⟩ := h
  have triggers {s f ts target rules} (arises : Arises g ctx (.field s f) (.triggers ts))
      (trigger : .onField target rules ∈ ts) :
      ∀ rule : TriggerRule, rule ∈ rules → rule.coded g coding target = true := by
    have passes := arises.every declared kept fun kind raw v read set =>
      AttributeValue.triggersCoded_of_ofValue? set
    have all := List.all_eq_true.mp (AttributeValue.self_of_every passes) _ trigger
    exact List.all_eq_true.mp all
  have holds : ∀ holder v, Arises g ctx holder v → holder.Coded g coding v := by
    intro holder v arises
    induction arises with
    | @kept field kind v h =>
      cases v with
      | length l =>
        rcases Memory.given_eq_empty_or_mem ctx field with none | mem
        · rw [none] at h
          cases kind <;> cases h
        · have given := lengths _ mem
          rw [FieldAttributes.length_of_get? h] at given
          exact given
      | _ => rfl
    | declared mem own h =>
      intro scalar l eq
      subst eq
      have admitted := (Option.all_eq_true ..).mp (fields _ mem _ own) _ rfl
      rw [scalar, FieldAttributes.length_of_get? h] at admitted
      exact admitted
    | fromContext mem own h ih | fromPending mem own h ih =>
      intro scalar l eq
      subst eq
      exact AttributeValue.admits_of_coded ih mem
    | set h trigger rule read value =>
      exact AttributeValue.coded_of_ofValue? (triggers h trigger _ rule) value
    | lookup h trigger rule mem => exact List.all_eq_true.mp (triggers h trigger _ rule) _ mem
    | saved h trigger pending ih ih' => exact ih'
  intro s f l scalar arises
  have field : f.attributes.parse = none → ∀ m, AttributeValue.length l = .length m →
    (coding s.name f.name).admits m = true := holds _ _ arises
  exact field scalar l rfl

end WireGrammar
