import WireGrammar.Dissect.Effective
import WireGrammar.Dissect.Error

/-!
# Firing triggers

A rule changes one attribute of the pending ones of its target, by the decoded scalar itself or by
what a table holds for it; saving lays the pending attributes over the context.
-/

namespace WireGrammar

/-- Ways of decoding that a user chooses. -/
structure Options where
  /-- A field that sets an attribute from the number zero removes its target from the rest of the
  structure instead. -/
  pruneZero : Bool := false
  deriving DecidableEq, Repr, Inhabited

/-! ### Attributes from scalars -/

/-- The literal that only a scalar equal to this one agrees with. -/
def Value.echo? : Value → Option Literal
  | .uint n => if n < Word.size 63 then some (.int n) else none
  | .wide n => some (.str (Text.hexadecimal n))
  | .bytes bs => some (.str (Bytes.toHex bs))
  | .text s => some (.str s)

/-- The attribute that a scalar sets.  A length counts bytes, and as bits it has to stay below
`2 ^ 64`. -/
def AttributeValue.ofValue? (kind : AttributeKind) (v : Value) : Option AttributeValue :=
  match kind with
  | .length => v.number?.bind fun n =>
    if 8 * n < Word.size 64 then some (.length (.bits (8 * n))) else none
  | .byteLength => v.number?.map .byteLength
  | .values => v.echo?.map fun l => .values (.single l)
  | .parse => v.text?.map .parse
  | .format => (v.text?.bind Format.ofName?).map .format
  | .conditions => none
  | .triggers => none

/-- The value of the first row of a table whose literal the scalar agrees with. -/
def lookupRow (v : Value) (table : List (Literal × AttributeValue)) : Option AttributeValue :=
  (table.find? fun row => v.matches row.1).map Prod.snd

/-! ### Firing -/

/-- The number zero removes targets instead of setting their attributes. -/
def Options.prunes (o : Options) (raw : Value) : Bool := o.pruneZero && raw.number? == some 0

/-- The memory after a rule of the field `field`, decoded to `raw`, was fired for `target`. -/
def TriggerRule.fire (o : Options) (field : String) (raw : Value) (target : String) (m : Memory) :
    TriggerRule → Attempt Memory
  | .set kind =>
    if o.prunes raw then .ok m
    else
      match AttributeValue.ofValue? kind raw with
      | some v => .ok { m with overrides := m.overrides.override target v }
      | none => .error ⟨.invalidTrigger field kind raw, m.context⟩
  | .lookup kind table =>
    match lookupRow raw table with
    | some v => .ok { m with overrides := m.overrides.override target v }
    | none => .error ⟨.valueMismatch field raw (.tableKey kind target), m.context⟩

/-- The memory after a trigger was fired. -/
def Trigger.fire (o : Options) (field : String) (raw : Value) (m : Memory) :
    Trigger → Attempt Memory
  | .saveToContext => .ok { m with context := m.context.merge m.overrides }
  | .onField target rules => rules.foldlM (TriggerRule.fire o field raw target) m

/-- The memory after all triggers of a field were fired, in their order. -/
def fireAll (o : Options) (field : String) (raw : Value) (triggers : List Trigger) (m : Memory) :
    Attempt Memory :=
  triggers.foldlM (Trigger.fire o field raw) m

/-- The rule sets an attribute from the decoded scalar. -/
def TriggerRule.isSet : TriggerRule → Bool
  | .set _ => true
  | .lookup .. => false

/-- The trigger removes the fields named `target` when the decoded scalar is zero. -/
def Trigger.prunesTarget (target : String) : Trigger → Bool
  | .saveToContext => false
  | .onField own rules => own == target && rules.any TriggerRule.isSet

/-- Firing the triggers on `raw` removes the fields named `target`. -/
def prunesField (o : Options) (raw : Value) (triggers : List Trigger) (target : String) : Bool :=
  o.prunes raw && triggers.any (Trigger.prunesTarget target)

end WireGrammar
