import WireGrammar.Proofs.Attribute.Typing
import WireGrammar.Proofs.Decoding.Entry

/-!
# Triggers are local

What a field sets off is told by its triggers alone: a rule changes one attribute of one name, the
one that it is about, and saving lays over the context what is pending.  That a rule changes the
attribute that it is about takes well-typed tables, also for triggers that were found in tables,
left pending or saved for later packets.

* `Firing`, `Entry.firings`: the lists of triggers that are fired, wherever structures are entered;
* `FieldTry.parseField_of_firing`, `FieldTry.parseField_of_not_firing`: triggers matter there only;
* `TriggerRule.Local`, `Firing.Local`: what rules do, and what lists of triggers do;
* `local_of_firing`: every firing is local, for loaded grammars.
-/

namespace WireGrammar

/-! ### Firings -/

/-- A list of triggers is fired: the field that was decoded, to which scalar, and the memory
then. -/
structure Firing where
  field : String
  raw : Value
  triggers : List Trigger
  memory : Memory

/-- The memory after the triggers were fired. -/
def Firing.run (o : Options) (call : Firing) : Attempt Memory :=
  fireAll o call.field call.raw call.triggers call.memory

/-- What the turn fires, if it reads a scalar and accepts it. -/
def FieldTry.firing? (t : FieldTry) : Option Firing :=
  match t.attributes.parse, t.attributes.length with
  | none, some length =>
    match t.progress.cursor.readScalar length with
    | .ok r =>
      if t.attributes.isPresent t.progress.fields && (t.attributes.rejects? r.value).isNone then
        some ⟨t.field.name, r.value, t.attributes.triggers.getD [], t.progress.memory⟩
      else none
    | .error _ => none
  | _, _ => none

/-- A turn fires the triggers that its field is decoded with. -/
theorem FieldTry.firing?_eq_some {t : FieldTry} {call : Firing} (h : t.firing? = some call) :
    ∃ length r, t.attributes.isPresent t.progress.fields = true ∧ t.attributes.parse = none ∧
      t.attributes.length = some length ∧ t.progress.cursor.readScalar length = .ok r ∧
      t.attributes.rejects? r.value = none ∧
      call = ⟨t.field.name, r.value, t.attributes.triggers.getD [], t.progress.memory⟩ := by
  unfold firing? at h
  split at h
  · next length own sized =>
    split at h
    · next r read =>
      split at h
      · next accepted =>
        cases h
        obtain ⟨present, accepted⟩ := Bool.and_eq_true_iff.mp accepted
        exact ⟨length, r, present, own, sized, read, Option.isNone_iff_eq_none.mp accepted, rfl⟩
      · cases h
    · cases h
  · cases h

/-- A turn that fires triggers comes to what they come to. -/
theorem FieldTry.parseField_of_firing {o : Options} {parse : TargetParser} {t : FieldTry}
    {call : Firing} (h : t.firing? = some call) : ∃ length r,
      t.progress.cursor.readScalar length = .ok r ∧ r.value = call.raw ∧
      parseField o parse t.field t.progress = (call.run o).map fun memory =>
        (t.progress.afterScalar o t.field.name t.attributes r memory).requeueIf t.field
          t.progress.cursor (enoughLeft r.cursor length) := by
  obtain ⟨length, r, present, own, sized, read, accepted, rfl⟩ := firing?_eq_some h
  refine ⟨length, r, read, rfl, ?_⟩
  unfold attributes at *
  simp only [parseField, parseWith, present, own, sized, if_true, parseScalar, read, accepted,
    Firing.run]
  split
  · next failed => rw [failed]; rfl
  · next fired => rw [fired]; rfl

/-- A turn that fires none comes to the same as without triggers. -/
theorem FieldTry.parseField_of_not_firing {o : Options} {parse : TargetParser} {t : FieldTry}
    (h : t.firing? = none) : parseField o parse t.field t.progress =
      parseWith o parse t.field { t.attributes with triggers := none } t.progress := by
  change parseWith o parse t.field t.attributes t.progress = _
  unfold firing? at h
  generalize t.attributes = a at h ⊢
  obtain ⟨length, values, target, conditions, triggers, byteLength, format⟩ := a
  cases target with
  | some target => rfl
  | none =>
    cases length with
    | none => rfl
    | some length =>
      simp only [parseWith, parseScalar, FieldAttributes.isPresent, FieldAttributes.rejects?] at h ⊢
      cases read : t.progress.cursor.readScalar length with
      | error cause => rfl
      | ok r =>
        cases rejected : values.filter fun spec => !spec.accepts r.value with
        | some spec => simp only [rejected]
        | none =>
          -- An accepted scalar fires, so the field is not present.
          simp only [read, rejected, Option.isNone_none, Bool.and_true, ite_eq_right_iff,
            reduceCtorEq, imp_false] at h
          exact (if_neg h).trans (if_neg h).symm

/-- What is fired in the entry. -/
def Entry.firings (g : Grammar) (o : Options) (e : Entry) : List Firing :=
  (e.turns g o).filterMap (·.firing?)

/-! ### Changes of tables -/

namespace AttributeTable

/-- The tables differ in nothing but the attribute that the value belongs to, of one name, which is
that value in the second one. -/
structure SetsOnly (t : AttributeTable) (target : String) (v : AttributeValue)
    (t' : AttributeTable) : Prop where
  others : ∀ name, name ≠ target → t'.get? name = t.get? name
  value : (Memory.given t' target).get? v.kind = some v
  kept : ∀ kind, kind ≠ v.kind →
    (Memory.given t' target).get? kind = (Memory.given t target).get? kind

theorem setsOnly_override (t : AttributeTable) (target : String) (v : AttributeValue) :
    t.SetsOnly target v (t.override target v) := by
  have held : Memory.given (t.override target v) target = (Memory.given t target).set v := by
    rw [Memory.given_override, if_pos rfl]
  constructor
  · intro name other
    rw [get?_override, if_neg other]
  · rw [held, FieldAttributes.get?_set, if_pos rfl]
  · intro kind other
    rw [held, FieldAttributes.get?_set, if_neg other]

/-- The second table is the first one with the attributes of `upper` laid over it. -/
structure LaidOver (upper t t' : AttributeTable) : Prop where
  absent : ∀ name, upper.get? name = none → t'.get? name = t.get? name
  /-- Attributes that `upper` does not give stay. -/
  present : ∀ name a, upper.get? name = some a → ∃ b, t'.get? name = some b ∧
    ∀ kind, b.get? kind = (a.get? kind <|> (Memory.given t name).get? kind)

theorem laidOver_merge (t upper : AttributeTable) : upper.LaidOver t (t.merge upper) := by
  constructor
  · intro name none
    rw [get?_merge, none]
  · intro name a held
    refine ⟨(Memory.given t name).merge a, ?_, FieldAttributes.get?_merge _ a⟩
    rw [get?_merge, held]
    rfl

end AttributeTable

/-! ### Rules -/

/-- What a rule makes of a scalar. -/
inductive TriggerRule.Gives (raw : Value) : TriggerRule → AttributeValue → Prop where
  /-- The value is computed from the scalar, and a length counts whole bytes. -/
  | set {kind v} (computed : AttributeValue.ofValue? kind raw = some v)
      (whole : ∀ l, v = .length l → ∃ n, l = .bits (8 * n)) : Gives raw (.set kind) v
  /-- The value is that of the first row whose literal agrees with the scalar. -/
  | lookup {kind before literal v after} (agrees : raw.matches literal = true)
      (first : ∀ row ∈ before, raw.matches row.1 = false) :
      Gives raw (.lookup kind (before ++ (literal, v) :: after)) v

/-- A length that a scalar sets is a number of bytes. -/
theorem AttributeValue.whole_of_ofValue? {kind : AttributeKind} {raw : Value} {l : Length}
    (h : ofValue? kind raw = some (.length l)) : ∃ n, l = .bits (8 * n) := by
  obtain ⟨same, -⟩ := kind_of_ofValue? h
  subst same
  obtain ⟨n, -, set⟩ := Option.bind_eq_some_iff.mp h
  split at set
  · cases set
    exact ⟨n, rfl⟩
  · cases set

theorem TriggerRule.gives_of_lookupRow {raw : Value} {kind : AttributeKind}
    {table : List (Literal × AttributeValue)} {v : AttributeValue}
    (h : lookupRow raw table = some v) :
    (∃ row ∈ table, row.2 = v) ∧ Gives raw (.lookup kind table) v := by
  obtain ⟨⟨literal, w⟩, hit, rfl⟩ := Option.map_eq_some_iff.mp h
  obtain ⟨agrees, before, after, rfl, first⟩ := List.find?_eq_some_iff_append.mp hit
  refine ⟨⟨(literal, w), List.mem_append_right _ List.mem_cons_self, rfl⟩, .lookup agrees ?_⟩
  intro row mem
  simpa using first row mem

theorem lookupRow_of_first {raw : Value} {before after : List (Literal × AttributeValue)}
    {literal : Literal} {v : AttributeValue} (agrees : raw.matches literal = true)
    (first : ∀ row ∈ before, raw.matches row.1 = false) :
    lookupRow raw (before ++ (literal, v) :: after) = some v := by
  have found : (before ++ (literal, v) :: after).find? (fun row => raw.matches row.1) =
      some (literal, v) := by
    refine List.find?_eq_some_iff_append.mpr ⟨agrees, before, after, rfl, ?_⟩
    intro row mem
    rw [first row mem]
    rfl
  rw [lookupRow, found]
  rfl

theorem lookupRow_eq_none {raw : Value} {table : List (Literal × AttributeValue)}
    (h : ∀ row ∈ table, raw.matches row.1 = false) : lookupRow raw table = none := by
  have none : table.find? (fun row => raw.matches row.1) = none := by
    apply List.find?_eq_none.mpr
    intro row mem
    rw [h row mem]
    exact Bool.false_ne_true
  rw [lookupRow, none]
  rfl

/-- Firing the rule for `target`, after the field `field` was decoded to `raw`, is local. -/
structure TriggerRule.Local (o : Options) (field : String) (raw : Value) (target : String)
    (rule : TriggerRule) : Prop where
  /-- If it succeeds, it changes the attribute that the rule is about, of the target, and no more,
  to a value of the right kind. -/
  sets : ∀ m m', rule.fire o field raw target m = .ok m' → m'.context = m.context ∧
    ∃ v, rule.Gives raw v ∧ v.kind = rule.kind ∧ m.overrides.SetsOnly target v m'.overrides
  /-- It succeeds where it makes something of the scalar. -/
  succeeds : ∀ m v, rule.Gives raw v → ∃ m', rule.fire o field raw target m = .ok m'
  /-- Scalars set neither conditions nor triggers. -/
  invalid : ∀ m kind, rule = .set kind → kind = .conditions ∨ kind = .triggers →
    rule.fire o field raw target m = .error ⟨.invalidTrigger field kind raw, m.context⟩
  /-- The table has to have a literal that agrees. -/
  unmatched : ∀ m kind table, rule = .lookup kind table →
    (∀ row ∈ table, raw.matches row.1 = false) → rule.fire o field raw target m =
      .error ⟨.valueMismatch field raw (.tableKey kind target), m.context⟩

/-- A rule with a well-typed table changes the attribute that it is about. -/
theorem TriggerRule.setsOnly_of_fire {o : Options} {field : String} {raw : Value} {target : String}
    {rule : TriggerRule} {m m' : Memory} (noPruning : o.prunes raw = false)
    (typed : rule.isTyped = true) (fired : rule.fire o field raw target m = .ok m') :
    m'.context = m.context ∧
      ∃ v, rule.Gives raw v ∧ v.kind = rule.kind ∧ m.overrides.SetsOnly target v m'.overrides := by
  cases rule with
  | set kind =>
    simp only [fire, noPruning, Bool.false_eq_true, if_false] at fired
    split at fired
    · next v computed =>
      cases fired
      refine ⟨rfl, v, .set computed ?_, (AttributeValue.kind_of_ofValue? computed).1,
        AttributeTable.setsOnly_override _ _ _⟩
      rintro l rfl
      exact AttributeValue.whole_of_ofValue? computed
    · cases fired
  | lookup kind table =>
    rw [fire] at fired
    split at fired
    · next v found =>
      cases fired
      obtain ⟨⟨row, mem, rfl⟩, gives⟩ := gives_of_lookupRow found
      -- The value belongs to the attribute of the rule as the table is well-typed.
      have same : row.2.kind = kind := by simpa using List.all_eq_true.mp typed row mem
      exact ⟨rfl, row.2, gives, same, AttributeTable.setsOnly_override _ _ _⟩
    · cases fired

/-- **Rules with well-typed tables are local**, unless zeros remove targets instead. -/
theorem TriggerRule.local_of_isTyped {o : Options} (off : o.pruneZero = false) (field : String)
    (raw : Value) (target : String) {rule : TriggerRule} (typed : rule.isTyped = true) :
    rule.Local o field raw target := by
  have noPruning : o.prunes raw = false := by rw [Options.prunes, off, Bool.false_and]
  constructor
  · intro m m' fired
    exact setsOnly_of_fire noPruning typed fired
  · intro m v gives
    cases gives with
    | set computed =>
      refine ⟨{ m with overrides := m.overrides.override target v }, ?_⟩
      simp only [fire, noPruning, computed, Bool.false_eq_true, if_false]
    | lookup agrees first =>
      refine ⟨{ m with overrides := m.overrides.override target v }, ?_⟩
      rw [fire, lookupRow_of_first agrees first]
  · rintro m kind rfl (rfl | rfl)
    · simp only [fire, noPruning, AttributeValue.ofValue?, Bool.false_eq_true, if_false]
    · simp only [fire, noPruning, AttributeValue.ofValue?, Bool.false_eq_true, if_false]
  · rintro m kind table rfl none
    rw [fire, lookupRow_eq_none none]

/-! ### Lists of triggers -/

/-- Firing the list of triggers is local. -/
structure Firing.Local (o : Options) (call : Firing) : Prop where
  /-- Each rule is, from whatever memory. -/
  rule : ∀ target rules, .onField target rules ∈ call.triggers → ∀ rule ∈ rules,
    rule.Local o call.field call.raw target
  /-- Saving lays over the context what is pending, from whatever memory. -/
  save : ∀ m, ∃ m', Trigger.fire o call.field call.raw m .saveToContext = .ok m' ∧
    m'.overrides = m.overrides ∧ m.overrides.LaidOver m.context m'.context
  /-- From first to last, pending attributes that no rule is about stay as they are. -/
  frame : ∀ m, call.run o = .ok m → ∀ name kind,
    (∀ rules, .onField name rules ∈ call.triggers → ∀ rule ∈ rules, rule.kind ≠ kind) →
      (Memory.given m.overrides name).get? kind =
        (Memory.given call.memory.overrides name).get? kind

/-- What changes of the memory keep, if the triggers are well-typed and have no rule about it. -/
theorem Memory.Change.get?_given {raw : Value} {triggers : List Trigger} {m m' : Memory}
    (h : m.Change raw triggers m') (typed : ∀ t ∈ triggers, t.isTyped = true) {name : String}
    {kind : AttributeKind}
    (spared : ∀ rules, .onField name rules ∈ triggers → ∀ rule ∈ rules, rule.kind ≠ kind) :
    (given m'.overrides name).get? kind = (given m.overrides name).get? kind := by
  -- A value of another attribute, or for another name, leaves this one alone.
  have override (target : String) (v : AttributeValue) (other : name = target → v.kind ≠ kind) :
      (given (m.overrides.override target v) name).get? kind =
        (given m.overrides name).get? kind := by
    rw [given_override]
    split
    · next same => rw [FieldAttributes.get?_set, if_neg (other same).symm, same]
    · rfl
  cases h with
  | set trigger rule value =>
    apply override
    rintro rfl
    rw [(AttributeValue.kind_of_ofValue? value).1]
    exact spared _ trigger _ rule
  | @lookup target rules own table row trigger rule mem =>
    apply override
    rintro rfl
    have tables := List.all_eq_true.mp (typed _ trigger) _ rule
    have same : row.2.kind = own := by simpa using List.all_eq_true.mp tables row mem
    rw [same]
    exact spared _ trigger _ rule
  | save => rfl

/-- **Well-typed lists of triggers are local.** -/
theorem Firing.local_of_isTyped {o : Options} (off : o.pruneZero = false) {call : Firing}
    (typed : ∀ t ∈ call.triggers, t.isTyped = true) : call.Local o := by
  constructor
  · intro target rules trigger rule mem
    exact TriggerRule.local_of_isTyped off _ _ _ (List.all_eq_true.mp (typed _ trigger) rule mem)
  · intro m
    exact ⟨_, rfl, rfl, AttributeTable.laidOver_merge m.context m.overrides⟩
  · intro m run name kind spared
    refine fireAll_invariant (fun m => (Memory.given m.overrides name).get? kind =
      (Memory.given call.memory.overrides name).get? kind) ?_ rfl run
    intro m m' before changed
    rw [changed.get?_given typed spared, before]

/-! ### Firings in loaded grammars -/

section Loaded

variable {g : Grammar} {o : Options} {q : Query} {e : Entry}

/-- The triggers that a field is decoded with are well-typed, wherever they come from. -/
theorem Query.Reaches.typed_of_turn (loaded : g.IsLoaded)
    (typed : q.context.every (·.isTyped) = true) (reached : q.Reaches g o e) {t : FieldTry}
    (turn : t ∈ e.turns g o) :
    ∀ trigger ∈ t.attributes.triggers.getD [], trigger.isTyped = true := by
  obtain ⟨mem, known⟩ := reached.sourced
  obtain ⟨own, sourced⟩ := Entry.sourced_of_turn mem known t turn
  cases given : t.attributes.triggers with
  | none => exact nofun
  | some ts =>
    have held : (t.progress.memory.effective t.field).get? .triggers = some (.triggers ts) :=
      congrArg (Option.map AttributeValue.triggers) given
    have arises := sourced.effective mem own held
    have every := arises.every (Grammar.typed_of_isLoaded loaded) typed
      fun _ _ _ _ set => AttributeValue.isTyped_of_ofValue? set
    exact List.all_eq_true.mp (AttributeValue.self_of_every every)

/-- **Triggers are well-typed and local.**  Whatever is asked of a loaded grammar, from a context
that packets have left, and wherever triggers are fired for it, with whatever result: each rule
changes the attribute that it is about, of its target, to what is computed from the scalar or stands
in the first row that agrees with it, or fails; saving lays over the context what is pending; and
nothing else happens. -/
theorem local_of_firing (loaded : g.IsLoaded) (left : LeftByPackets q.context)
    (off : o.pruneZero = false) (reached : q.Reaches g o e) :
    ∀ call ∈ e.firings g o, call.Local o := by
  intro call mem
  obtain ⟨t, turn, fires⟩ := List.mem_filterMap.mp mem
  obtain ⟨length, r, -, -, -, -, -, rfl⟩ := FieldTry.firing?_eq_some fires
  exact Firing.local_of_isTyped off (reached.typed_of_turn loaded left.typed turn)

end Loaded

/-- A structure that declares no triggers itself. -/
def untriggered : Grammar where
  roots := ["Reply"]
  structures := [⟨"Reply", [
    .field ⟨"size", { length := some (.bits 8) }, false⟩,
    .field ⟨"load", { length := some .rest }, false⟩]⟩]

theorem isLoaded_instructed : instructed.IsLoaded := by
  have fields : ∀ s ∈ instructed.structures, ∀ f, .field f ∈ s.descriptors →
      f.name ≠ "type" ∧ f.name ≠ "next" := by
    simp [instructed]
  exact ⟨_, Grammar.ofNode_toNode
    ⟨⟨by decide, by decide, by decide⟩, by decide, fields, by decide⟩ true⟩

theorem isLoaded_untriggered : untriggered.IsLoaded := by
  have fields : ∀ s ∈ untriggered.structures, ∀ f, .field f ∈ s.descriptors →
      f.name ≠ "type" ∧ f.name ≠ "next" := by
    simp [untriggered]
  exact ⟨_, Grammar.ofNode_toNode
    ⟨⟨by decide, by decide, by decide⟩, by decide, fields, by decide⟩ true⟩

/-- What a packet leaves that has its triggers for later sizes from a table. -/
def instructedContext : StreamContext := (parseTopLevel instructed {} [1, 2, 7, 8] .empty).2

/-- The triggers from the table are fired for a packet of another grammar. -/
theorem local_of_firing_untriggered :
    untriggered.IsLoaded ∧ LeftByPackets instructedContext ∧
    ∃ e, (Query.packet [1, 9] instructedContext).Reaches untriggered {} e ∧
      ∃ call ∈ e.firings untriggered {}, call.field = "size" ∧
        call.triggers.map (·.targets "load") = [true, false] ∧ call.Local {} := by
  have left : LeftByPackets instructedContext := .packet isLoaded_instructed .empty
  have fired : ((Query.packet [1, 9] instructedContext).outermost untriggered {}).flatMap
      (fun e => (e.firings untriggered {}).map fun call =>
        (call.field, call.triggers.map (·.targets "load"))) =
      [("size", [true, false]), ("load", [])] := by
    decide +kernel
  obtain ⟨e, outermost, calls⟩ := List.mem_flatMap.mp (fired ▸ List.mem_cons_self)
  obtain ⟨call, mem, same⟩ := List.mem_map.mp calls
  obtain ⟨field, triggers⟩ := Prod.mk.inj same
  have reached : (Query.packet [1, 9] instructedContext).Reaches untriggered {} e :=
    .outermost outermost
  exact ⟨isLoaded_untriggered, left, e, reached, call, mem, field, triggers,
    local_of_firing (q := .packet [1, 9] instructedContext) isLoaded_untriggered left rfl reached
      call mem⟩

end WireGrammar
