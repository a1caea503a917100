import WireGrammar.Proofs.Structure.Completeness

/-!
# Sizes that an earlier field announces

A field may set an attribute of a later one from its own number: the bytes of a scalar, or the bytes
that a target is decoded in.  If no other trigger aims at the later field, it has this attribute
from the turn of the first one on, whatever its declaration and the context say, and nothing else of
it is changed.

* `Announces`: one field sets an attribute of another, and no other trigger does anything to it;
* `Announces.announced`: the attribute that is set is the one the later field is decoded with;
* `Announces.takesBytes_of_length`: a scalar takes just the bytes that are announced for it;
* `Announces.window_of_byteLength`: a target is decoded in just the bytes that are announced for it,
  if it is decoded at all;
* `resized_of_retargeted`: a trigger of the context may come between the two fields;
* `unwindowed_of_exhausted`: bytes may be announced where none are left.
-/

namespace WireGrammar

variable {g : Grammar} {o : Options} {s : Structure} {input : Slice} {ctx : StreamContext}
  {out : StructureOutcome} {ts : List Turn} {stop : Nat} {fin : Stage}

/-! ### Triggers that leave a field alone -/

section Triggers

variable {field name : String} {raw : Value} {m m' : Memory}

/-- Triggers that leave the fields of a name alone change nothing that is pending for them. -/
theorem given_overrides_of_spared {triggers : List Trigger}
    (spared : ∀ t ∈ triggers, t.targets name = false)
    (fired : fireAll o field raw triggers m = .ok m') :
    Memory.given m'.overrides name = Memory.given m.overrides name := by
  refine fireAll_invariant
    (fun m' => Memory.given m'.overrides name = Memory.given m.overrides name) ?_ rfl fired
  intro m₁ m₂ same changed
  have other {target : String} {rules : List TriggerRule}
      (trigger : .onField target rules ∈ triggers) : name ≠ target := by
    have spared := spared _ trigger
    simp only [Trigger.targets, beq_eq_false_iff_ne] at spared
    exact spared.symm
  cases changed with
  | set trigger rule value => rw [Memory.given_override, if_neg (other trigger), same]
  | lookup trigger rule mem => rw [Memory.given_override, if_neg (other trigger), same]
  | save trigger => exact same

/-- The only trigger on the fields of a name leaves pending for them what it sets. -/
theorem given_overrides_of_set (off : o.pruneZero = false) {earlier later : List Trigger}
    {kind : AttributeKind} (spared : ∀ t ∈ earlier ++ later, t.targets name = false)
    (fired : fireAll o field raw (earlier ++ .onField name [.set kind] :: later) m = .ok m') :
    ∃ v, AttributeValue.ofValue? kind raw = some v ∧
      (Memory.given m'.overrides name).get? kind = some v := by
  rw [fireAll, List.foldlM_append] at fired
  obtain ⟨m₁, -, fired⟩ := bind_eq_ok.mp fired
  rw [List.foldlM_cons] at fired
  obtain ⟨m₂, set, last⟩ := bind_eq_ok.mp fired
  rw [Trigger.fire, List.foldlM_cons] at set
  obtain ⟨m₃, rule, same⟩ := bind_eq_ok.mp set
  cases same
  have unpruned : ¬o.prunes raw := by simp [Options.prunes, off]
  rw [TriggerRule.fire, if_neg unpruned] at rule
  cases value : AttributeValue.ofValue? kind raw with
  | none =>
    rw [value] at rule
    cases rule
  | some v =>
    rw [value] at rule
    cases rule
    refine ⟨v, rfl, ?_⟩
    rw [given_overrides_of_spared (fun t mem => spared t (List.mem_append_right _ mem)) last,
      Memory.given_override, if_pos rfl, FieldAttributes.get?_set,
      (AttributeValue.kind_of_ofValue? value).1, if_pos rfl]

end Triggers

/-- Only the triggers that a field is decoded with change what is pending. -/
theorem Turn.Taken.given_overrides {parse : TargetParser} {place : Nat} {f : FieldDescriptor}
    {st : Stage} {t : Turn} (h : Turn.Taken o parse place f st t) {name : String}
    (spared : ∀ trigger ∈ t.attributes.triggers.getD [], trigger.targets name = false) :
    Memory.given t.after.memory.overrides name = Memory.given t.before.memory.overrides name := by
  cases h with
  | idle => rfl
  | scalar turn => exact given_overrides_of_spared spared turn.fired
  | target => rfl

/-! ### Announcements -/

/-- The structure declares at the place `i` the field `lead`, which sets one attribute of the field
`f` at the later place `j`.  No other trigger changes `f`, and none changes `lead`. -/
structure Announces (g : Grammar) (ctx : StreamContext) (s : Structure) (kind : AttributeKind)
    (i j : Nat) (lead f : FieldDescriptor) : Prop where
  lead_at : s.descriptors[i]? = some (.field lead)
  at_ : s.descriptors[j]? = some (.field f)
  behind : i < j
  distinct : (s.fields.map (·.name)).Nodup
  once : lead.repeated = false
  own : lead.attributes.parse = none
  untouched : Untouched g ctx lead.name
  sets : ∃ earlier later,
    lead.attributes.triggers = some (earlier ++ .onField f.name [.set kind] :: later) ∧
      (AttributeValue.triggers (earlier ++ later)).every (·.spares f.name) = true
  others : ∀ s' ∈ g.structures, ∀ d ∈ s'.descriptors,
    d = .field lead ∨ d.field?.all (·.attributes.every (·.spares f.name)) = true
  /-- The triggers that the context holds leave `f` alone. -/
  kept : ctx.every (·.spares f.name) = true

namespace Announces

variable {kind : AttributeKind} {i j : Nat} {lead f : FieldDescriptor}
  (a : Announces g ctx s kind i j lead f)

include a

/-- No table of the grammar holds a trigger on the later field. -/
theorem everyInTables : g.everyInTables (·.spares f.name) = true := by
  simp only [Grammar.everyInTables, List.all_eq_true, Option.all_eq_true]
  intro s' mem d declared h here
  rcases a.others s' mem d declared with rfl | spares
  · cases here
    obtain ⟨earlier, later, given, spares⟩ := a.sets
    have rest := (Bool.and_eq_true_iff.mp spares).2
    rw [everyTrigger_append, Bool.and_eq_true] at rest
    rw [given, Option.getD_some, everyTrigger_append, Bool.and_eq_true, everyTrigger,
      Bool.and_eq_true]
    exact ⟨rest.1, rfl, rest.2⟩
  · rw [here, Option.all_some] at spares
    cases given : h.attributes.triggers with
    | none => rfl
    | some triggers =>
      have held : h.attributes.get? .triggers = some (.triggers triggers) :=
        congrArg (Option.map AttributeValue.triggers) given
      exact (Bool.and_eq_true_iff.mp (FieldAttributes.every_iff.mp spares _ _ held)).2

/-- A trigger on the later field is the one that the first field declares. -/
theorem eq_set_of_arises {s' : Structure} {h : FieldDescriptor} {triggers : List Trigger}
    (arises : Arises g ctx (.field s' h) (.triggers triggers)) {rules : List TriggerRule}
    (mem : .onField f.name rules ∈ triggers) : h = lead ∧ rules = [.set kind] := by
  have targets : (Trigger.onField f.name rules).targets f.name = true := by
    simp [Trigger.targets]
  have set {kind raw v} (_ : Value.text? raw = none)
      (value : AttributeValue.ofValue? kind raw = some v) : v.spares f.name = true :=
    AttributeValue.spares_of_ofValue? value f.name
  have byName {holder : Holder} (arises : Arises g ctx holder (.triggers triggers))
      (isByName : holder.isByName = true) : False := by
    have passes := (arises.every_of_byName a.everyInTables a.kept
      fun _ _ _ read value => set read value).2 isByName
    rw [targets_eq_false_of_every passes mem] at targets
    cases targets
  cases arises with
  | fromContext _ _ arises => exact (byName arises rfl).elim
  | fromPending _ _ arises => exact (byName arises rfl).elim
  | @declared _ _ kind' _ inside own held =>
    obtain rfl : AttributeKind.triggers = kind' := FieldAttributes.kind_of_get? held
    obtain ⟨triggers', given, same⟩ := Option.map_eq_some_iff.mp held
    cases same
    rcases a.others s' inside _ own with same | spares
    · cases same
      obtain ⟨earlier, later, given', spares⟩ := a.sets
      rw [given] at given'
      cases given'
      refine ⟨rfl, ?_⟩
      rcases List.mem_append.mp mem with before | rest
      · have other := targets_eq_false_of_every spares (List.mem_append_left _ before)
        rw [other] at targets
        cases targets
      · rcases List.mem_cons.mp rest with here | after
        · cases here
          rfl
        · have other := targets_eq_false_of_every spares (List.mem_append_right _ after)
          rw [other] at targets
          cases targets
    · have passes := FieldAttributes.every_iff.mp spares _ _ held
      rw [targets_eq_false_of_every passes mem] at targets
      cases targets

/-- Pending for the later field is nothing but the attribute that is announced. -/
theorem kind_of_pending {s' : Structure} {v : AttributeValue}
    (arises : Arises g ctx (.pending s' f.name) v) : v.kind = kind := by
  cases arises with
  | set holds trigger rule read value =>
    obtain ⟨-, rfl⟩ := a.eq_set_of_arises holds trigger
    cases List.mem_singleton.mp rule
    exact (AttributeValue.kind_of_ofValue? value).1
  | lookup holds trigger rule mem =>
    obtain ⟨-, rfl⟩ := a.eq_set_of_arises holds trigger
    cases List.mem_singleton.mp rule

/-- What the context does not give the later field stays as it is declared. -/
theorem get?_effective {m : Memory} (sourced : m.Sourced g ctx s) (other : AttributeKind)
    (ne : other ≠ kind) (none : (Memory.given ctx f.name).get? other = none) :
    (m.effective f).get? other = f.attributes.get? other := by
  refine sourced.get?_effective f (fun v same arises => ?_) fun v same arises => ?_
  · exact ne (same.symm.trans (a.kind_of_pending arises))
  · cases arises with
    | kept held =>
      cases FieldAttributes.kind_of_get? held
      rw [← same, held] at none
      cases none
    | saved holds trigger pending => exact ne (same.symm.trans (a.kind_of_pending pending))

/-- Unless it is announced, the target that the later field declares is its target. -/
theorem parse_effective {m : Memory} (sourced : m.Sourced g ctx s) (ne : .parse ≠ kind)
    (none : (Memory.given ctx f.name).parse = none) :
    (m.effective f).parse = f.attributes.parse :=
  Option.map_injective (fun _ _ h => AttributeValue.parse.inj h)
    (a.get?_effective sourced .parse ne (congrArg (Option.map AttributeValue.parse) none))

theorem length_effective {m : Memory} (sourced : m.Sourced g ctx s) (ne : .length ≠ kind)
    (none : (Memory.given ctx f.name).length = none) :
    (m.effective f).length = f.attributes.length :=
  Option.map_injective (fun _ _ h => AttributeValue.length.inj h)
    (a.get?_effective sourced .length ne (congrArg (Option.map AttributeValue.length) none))

/-- A later field without conditions is always present. -/
theorem isPresent_effective {m : Memory} (sourced : m.Sourced g ctx s) (ne : .conditions ≠ kind)
    (none : (Memory.given ctx f.name).conditions = none)
    (always : f.attributes.conditions.getD [] = []) (fields : List DecodedField) :
    (m.effective f).isPresent fields = true := by
  have same : (m.effective f).conditions = f.attributes.conditions :=
    Option.map_injective (fun _ _ h => AttributeValue.conditions.inj h)
      (a.get?_effective sourced .conditions ne (congrArg (Option.map AttributeValue.conditions) none))
  rw [FieldAttributes.isPresent, same, always]
  rfl

/-- A turn of any other field leaves what is pending for the later field. -/
theorem pending_eq (h : Account g o s input ctx out ts stop fin) {t : Turn} (mem : t ∈ ts)
    (other : i < t.place) :
    Memory.given t.after.memory.overrides f.name = Memory.given t.before.memory.overrides f.name := by
  obtain ⟨parse, taken⟩ := h.taken mem
  refine taken.given_overrides fun trigger own => ?_
  obtain ⟨triggers, arises, own⟩ := h.arises_of_trigger mem own
  refine Bool.eq_false_iff.mpr fun targets => ?_
  cases trigger with
  | saveToContext => cases targets
  | onField target rules =>
    obtain rfl : target = f.name := eq_of_beq targets
    obtain ⟨same, -⟩ := a.eq_set_of_arises arises own
    have := Structure.place_inj a.distinct (h.declared_at mem) a.lead_at (congrArg (·.name) same)
    omega

/-- What the number of the first field sets is what the later field is decoded with: at each of its
turns, and if it has none, where the bytes have ended. -/
theorem announced (h : Account g o s input ctx out ts stop fin) (off : o.pruneZero = false)
    {t : Turn} (mem : t ∈ ts) (place : t.place = i) {length : Length} {r : Reading}
    (reads : t.Reads o length r) :
    ∃ v, AttributeValue.ofValue? kind r.value = some v ∧
      (∀ u ∈ ts, u.place = j → u.attributes.get? kind = some v) ∧
      (fin.memory.effective f).get? kind = some v := by
  have field := h.field_eq mem (place ▸ a.lead_at)
  -- The trigger is fired, and what it sets is pending behind the turn.
  obtain ⟨v, value, pending⟩ : ∃ v, AttributeValue.ofValue? kind r.value = some v ∧
      (Memory.given t.after.memory.overrides f.name).get? kind = some v := by
    obtain ⟨earlier, later, given, spares⟩ := a.sets
    have fired := reads.scalar.fired
    rw [field, a.untouched.effective_eq (h.sourced.1 t mem) rfl, given, Option.getD_some] at fired
    exact given_overrides_of_set off (fun t mem => targets_eq_false_of_every spares mem) fired
  -- It stays pending, at the turns of later fields and to the end.
  obtain ⟨stays, last⟩ := h.invariant_behind
    (P := fun st => (Memory.given st.memory.overrides f.name).get? kind = some v) mem
    (field ▸ a.once) pending fun u turn later pending => by
      rw [a.pending_eq h turn (place ▸ later)]
      exact pending
  have effective {m : Memory} (pending : (Memory.given m.overrides f.name).get? kind = some v) :
      (m.effective f).get? kind = some v := by
    rw [Memory.effective, FieldAttributes.get?_merge, pending]
    rfl
  refine ⟨v, value, fun u turn at_ => ?_, effective last⟩
  have behind := a.behind
  rw [Turn.attributes, h.field_eq turn (at_ ▸ a.at_)]
  exact effective (stays u turn (by omega))

end Announces

/-! ### Announced lengths -/

/-- The length that a scalar sets is that of as many bytes as its number says, if so many bits can
be counted. -/
theorem AttributeValue.ofValue?_length_eq_some {raw : Value} {v : AttributeValue} :
    ofValue? .length raw = some v ↔
      ∃ n, raw.number? = some n ∧ 8 * n < Word.size 64 ∧ v = .length (.bits (8 * n)) := by
  simp only [ofValue?, Option.bind_eq_some_iff]
  refine exists_congr fun n => and_congr_right fun _ => ?_
  by_cases fits : 8 * n < Word.size 64 <;> simp [fits, eq_comm]

theorem AttributeValue.ofValue?_byteLength_eq_some {raw : Value} {v : AttributeValue} :
    ofValue? .byteLength raw = some v ↔ ∃ n, raw.number? = some n ∧ v = .byteLength n := by
  simp only [ofValue?, Option.map_eq_some_iff]
  exact exists_congr fun n => and_congr_right fun _ => eq_comm

/-- A scalar of a number of bits takes these bits and no others. -/
theorem BitCursor.Reads.eq_of_bits {c : BitCursor} {bits : Nat} {r : Reading}
    (h : c.Reads (.bits bits) r) : r.bits = bits ∧ r.cursor = c.skip bits ∧
      bits ≤ c.remainingBits ∧ (bits = 0 → r.value = .bytes []) := by
  generalize same : Length.bits bits = length at h
  cases h with
  | varint | packetNumber | rest => cases same
  | nothing =>
    cases same
    exact ⟨rfl, rfl, Nat.zero_le _, fun _ => rfl⟩
  | block aligned some enough =>
    cases same
    refine ⟨rfl, rfl, ?_, fun none => by omega⟩
    have index := byteIndex_of_isAligned aligned
    simp only [remainingBytes, remainingBits] at *
    omega
  | run some ragged narrow enough =>
    cases same
    exact ⟨rfl, rfl, enough, fun none => absurd none some⟩

/-- The turn decodes the scalar `d` from just the next `n` bytes, wherever these start. -/
structure Turn.TakesBytes (t : Turn) (n : Nat) (d : DecodedField) : Prop where
  added : t.added = [d]
  enough : 8 * n ≤ t.before.cursor.remainingBits
  cursor : t.after.cursor = t.before.cursor.skip (8 * n)
  read : ∃ r, t.before.cursor.Reads (.bits (8 * n)) r ∧
    d = .scalar t.field.name (t.attributes.shown r.value) t.before.cursor.absolute
      (scalarStop t.before.cursor (8 * n))
  aligned : t.before.cursor.isAligned = true → d.stop = d.start + n
  empty : n = 0 →
    d.value? = some (t.attributes.shown (.bytes [])) ∧ d.stop = d.start

theorem Turn.Reads.takesBytes {t : Turn} {n : Nat} {r : Reading}
    (h : t.Reads o (.bits (8 * n)) r) :
    t.TakesBytes n (scalarField t.field t.before.cursor t.before.memory r) := by
  have reads := BitCursor.readScalar_eq_ok.mp h.scalar.read
  obtain ⟨bits, cursor, enough, empty⟩ := reads.eq_of_bits
  have shape : scalarField t.field t.before.cursor t.before.memory r =
      .scalar t.field.name (t.attributes.shown r.value) t.before.cursor.absolute
        (scalarStop t.before.cursor (8 * n)) := by
    rw [scalarField, bits]
    rfl
  refine ⟨h.added, enough, h.cursor.trans cursor, ⟨r, reads, shape⟩, fun aligned => ?_,
    fun none => ?_⟩
  · rw [shape]
    simp only [BitCursor.isAligned, beq_iff_eq] at aligned
    simp only [DecodedField.start, DecodedField.stop, scalarStop, aligned]
    split <;> omega
  · rw [shape, empty (by omega)]
    simp [DecodedField.value?, DecodedField.start, DecodedField.stop, scalarStop, none]

namespace Announces

variable {kind : AttributeKind} {i j : Nat} {lead f : FieldDescriptor}

/-- A decoded field that announces something has the turn that reads it. -/
theorem exists_reads (a : Announces g ctx s kind i j lead f)
    (h : Account g o s input ctx out ts stop fin) {d : DecodedField} (mem : d ∈ out.fields)
    (name : d.name = lead.name) : ∃ t ∈ ts, t.place = i ∧ ∃ length r, t.Reads o length r ∧
      d = scalarField lead t.before.cursor t.before.memory r := by
  obtain ⟨t, turn, place, rfl, added⟩ := h.exists_turn a.distinct a.lead_at mem name
  obtain ⟨parse, taken⟩ := h.taken turn
  have own : t.attributes.parse = none := by
    rw [Turn.attributes, a.untouched.effective_eq (h.sourced.1 t turn) rfl]
    exact a.own
  obtain ⟨length, r, reads⟩ := taken.reads_of_mem own added
  rw [reads.added] at added
  exact ⟨t, turn, place, length, r, reads, List.mem_singleton.mp added⟩

/-- **Length-prefixed fields.**  A decoded field with the number `n` announces `n` bytes for a later
scalar: these are taken, all of them and no others, whatever the declaration and the context say of
the length.  So the structure is not decoded if they are not there, or if their bits cannot be
counted; only where no byte is announced may the bytes of the structure have ended before. -/
theorem takesBytes_of_length (a : Announces g ctx s .length i j lead f) (off : o.pruneZero = false)
    (once : f.repeated = false) (own : f.attributes.parse = none)
    (always : f.attributes.conditions.getD [] = [])
    (noParse : (Memory.given ctx f.name).parse = none)
    (noConditions : (Memory.given ctx f.name).conditions = none)
    (h : s.Decodes g o input ctx out) (early : j < s.nextPlace ∨ out.next = none)
    {d : DecodedField} (mem : d ∈ out.fields) (name : d.name = lead.name) :
    ∃ ts stop fin, Account g o s input ctx out ts stop fin ∧
      ∃ t ∈ ts, t.place = i ∧ ∃ length r n, t.Reads o length r ∧
        d = scalarField lead t.before.cursor t.before.memory r ∧
        r.value.number? = some n ∧ 8 * n < Word.size 64 ∧
        ((∃ u ∈ ts, u.place = j ∧ ∃ d', u.TakesBytes n d' ∧
            out.fields.filter (·.name == f.name) = [d']) ∨
          n = 0 ∧ fin.cursor.isExhausted = true ∧
            out.fields.filter (·.name == f.name) = []) := by
  obtain ⟨ts, stop, fin, account⟩ := h.account
  obtain ⟨t, turn, place, length, r, reads, shown⟩ := a.exists_reads account mem name
  obtain ⟨v, value, held, last⟩ := a.announced account off turn place reads
  obtain ⟨n, number, fits, rfl⟩ := AttributeValue.ofValue?_length_eq_some.mp value
  refine ⟨ts, stop, fin, account, t, turn, place, length, r, n, reads, shown, number, fits, ?_⟩
  have present {m : Memory} (sourced : m.Sourced g ctx s) (fields : List DecodedField) :
      (m.effective f).isPresent fields = true :=
    a.isPresent_effective sourced (by decide) noConditions always fields
  rcases account.turn_or_ended a.at_ early (account.kept_of_not_pruneZero off _) with
    ⟨u, turn', at_⟩ | ⟨ended, behind, missing⟩
  · left
    have field := account.field_eq turn' (at_ ▸ a.at_)
    have sourced := account.sourced.1 u turn'
    obtain ⟨parse, taken⟩ := account.taken turn'
    have noTarget : u.attributes.parse = none := by
      rw [Turn.attributes, field, a.parse_effective sourced (by decide) noParse]
      exact own
    have sized : u.attributes.length = some (.bits (8 * n)) :=
      Option.map_injective (fun _ _ h => AttributeValue.length.inj h) (held u turn' at_)
    have here : u.attributes.isPresent u.before.fields = true := by
      rw [Turn.attributes, field]
      exact present sourced _
    obtain ⟨r', reads'⟩ := taken.reads_of_sized noTarget sized here
    refine ⟨u, turn', at_, _, reads'.takesBytes, ?_⟩
    have alone := account.once_of_reads turn' reads' (field ▸ once)
    rw [account.filter_name_eq a.distinct a.at_, ← at_, alone]
    rfl
  · right
    have sized : (fin.memory.effective f).length = some (.bits (8 * n)) :=
      Option.map_injective (fun _ _ h => AttributeValue.length.inj h) last
    rw [present account.sourced.2, Bool.true_and, FieldAttributes.isRequired, sized] at missing
    refine ⟨?_, ended, account.filter_eq_nil a.distinct a.at_ behind⟩
    simp only [bne_eq_false_iff_eq] at missing
    omega

end Announces

/-- A size in front of a field, and another field between the two. -/
def prefixed (kind : AttributeKind) (a : FieldAttributes) : Structure where
  name := "S"
  descriptors := [
    .field ⟨"n", {
      length := some (.bits 8), triggers := some [.onField "f" [.set kind]] }, false⟩,
    .field ⟨"h", { length := some (.bits 8) }, false⟩,
    .field ⟨"f", a, false⟩]

def prefixing (kind : AttributeKind) (a : FieldAttributes) : Grammar where
  roots := ["S"]
  structures := [prefixed kind a, ⟨"T", [.field ⟨"x", { length := some (.bits 8) }, false⟩]⟩]

theorem announces_prefixed (kind : AttributeKind) (a : FieldAttributes) (ctx : StreamContext)
    (untouched : Untouched (prefixing kind a) ctx "n") (spares : a.every (·.spares "f") = true)
    (kept : ctx.every (·.spares "f") = true) :
    Announces (prefixing kind a) ctx (prefixed kind a) kind 0 2
      ⟨"n", { length := some (.bits 8), triggers := some [.onField "f" [.set kind]] }, false⟩
      ⟨"f", a, false⟩ where
  lead_at := rfl
  at_ := rfl
  behind := by decide
  distinct := by simp [prefixed, Structure.fields, Descriptor.field?]
  once := rfl
  own := rfl
  untouched := untouched
  sets := ⟨[], [], rfl, rfl⟩
  others := by
    have plain : ({ length := some (.bits 8) } : FieldAttributes).every (·.spares "f") = true := rfl
    simp [prefixing, prefixed, Descriptor.field?, plain, spares]
  kept := kept

/-- The declaration and the context give the field other lengths than the one that is announced. -/
theorem Announces.takesBytes_of_length_prefixed :
    ∃ a ctx out, a = ({ length := some .varint, format := some .hex } : FieldAttributes) ∧
      ctx = AttributeTable.override .empty "f" (.length (.bits 64)) ∧
      parseStructure (prefixing .length a) {} "S" ⟨3, [2, 9, 0x61, 0x62]⟩ ctx = .ok out ∧
      out.fields.map (fun d => (d.name, d.value?, d.start, d.stop)) =
        [("n", some (.uint 2), 3, 4), ("h", some (.uint 9), 4, 5),
          ("f", some (.text "0x6162"), 5, 7)] ∧
      ∃ ts stop fin, Account (prefixing .length a) {} (prefixed .length a)
          ⟨3, [2, 9, 0x61, 0x62]⟩ ctx out ts stop fin ∧
        ∃ t ∈ ts, t.place = 0 ∧ ∃ length r n, t.Reads {} length r ∧ r.value.number? = some n ∧
          ∃ u ∈ ts, u.place = 2 ∧ ∃ d', u.TakesBytes n d' ∧
            out.fields.filter (·.name == "f") = [d'] := by
  have fields : (parseStructure
      (prefixing .length { length := some .varint, format := some .hex }) {} "S"
      ⟨3, [2, 9, 0x61, 0x62]⟩
      (AttributeTable.override .empty "f" (.length (.bits 64)))).toOption.map
        (fun out => out.fields.map fun d => (d.name, d.value?, d.start, d.stop)) =
      some [("n", some (.uint 2), 3, 4), ("h", some (.uint 9), 4, 5),
        ("f", some (.text "0x6162"), 5, 7)] := by
    decide +kernel
  have announces := announces_prefixed .length
    { length := some .varint, format := some .hex }
    (AttributeTable.override .empty "f" (.length (.bits 64)))
    (by decide +kernel) (by decide) (by decide +kernel)
  obtain ⟨out, decoded, fields⟩ := Option.map_eq_some_iff.mp fields
  have ok := Attempt.eq_ok_of_toOption decoded
  have names : out.fields.map (·.name) = ["n", "h", "f"] := by
    simpa [Function.comp_def] using congrArg (List.map Prod.fst) fields
  have here {name : String} (mem : name ∈ ["n", "h", "f"]) : ∃ d ∈ out.fields, d.name = name :=
    List.mem_map.mp (names ▸ mem)
  obtain ⟨d, mem, name⟩ := here (List.mem_cons_self (a := "n"))
  obtain ⟨ts, stop, fin, account, t, turn, place, length, r, n, reads, -, number, -, sized | none⟩ :=
    Announces.takesBytes_of_length announces rfl rfl rfl rfl rfl rfl (.called rfl ok)
      (.inl (by decide)) mem name
  · exact ⟨_, _, out, rfl, rfl, ok, fields, ts, stop, fin, account, t, turn, place, length, r, n,
      reads, number, sized⟩
  · obtain ⟨d', mem', name'⟩ := here (by simp : "f" ∈ ["n", "h", "f"])
    have other := List.filter_eq_nil_iff.mp none.2.2 d' mem'
    simp [name'] at other

/-- It is not enough that the context has no entry for the two fields: a trigger that it holds for
another field can still change the length behind the one that announces it. -/
theorem resized_of_retargeted :
    ∃ a ctx out, a = ({ length := some (.bits 8) } : FieldAttributes) ∧
      ctx = keptContext [.lookup .length [(.int 5, .length (.bits 16))]] ∧
      (∃ lead f, Announces (prefixing .length a) .empty (prefixed .length a) .length 0 2 lead f ∧
        f.attributes = a ∧ ctx.get? lead.name = none ∧ ctx.get? f.name = none) ∧
      parseStructure (prefixing .length a) {} "S" ⟨0, [1, 5, 0xAA, 0xBB]⟩ ctx = .ok out ∧
      out.fields.map (fun d => (d.name, d.value?, d.start, d.stop)) =
        [("n", some (.uint 1), 0, 1), ("h", some (.uint 5), 1, 2),
          ("f", some (.uint 0xAABB), 2, 4)] := by
  have fields : (parseStructure (prefixing .length { length := some (.bits 8) }) {} "S"
      ⟨0, [1, 5, 0xAA, 0xBB]⟩
      (keptContext [.lookup .length [(.int 5, .length (.bits 16))]])).toOption.map
        (fun out => out.fields.map fun d => (d.name, d.value?, d.start, d.stop)) =
      some [("n", some (.uint 1), 0, 1), ("h", some (.uint 5), 1, 2),
        ("f", some (.uint 0xAABB), 2, 4)] := by
    decide +kernel
  have announces := announces_prefixed .length { length := some (.bits 8) } .empty
    (by decide +kernel) (by decide) (by decide)
  obtain ⟨out, decoded, fields⟩ := Option.map_eq_some_iff.mp fields
  exact ⟨_, _, out, rfl, rfl, ⟨_, _, announces, rfl, Option.isNone_iff_eq_none.mp (by decide +kernel),
    Option.isNone_iff_eq_none.mp (by decide +kernel)⟩, Attempt.eq_ok_of_toOption decoded, fields⟩

/-! ### Announced windows -/

/-- **Announced windows.**  A decoded field with the number `n` announces `n` bytes for the target
of a later field: at the first turn of that field, behind those of all earlier fields, there are so
many, and its target is decoded in them and in nothing else.  So it is at each further turn of the
field, if it is repeated; a further try without so many bytes fails and is no turn.  The first turn
may be missing only where the bytes of the structure have ended before it, whatever was announced,
and no length of its own says that the field has to be there. -/
theorem Announces.window_of_byteLength {i j : Nat} {lead f : FieldDescriptor}
    (a : Announces g ctx s .byteLength i j lead f) (off : o.pruneZero = false)
    {target : String} (delegated : f.attributes.parse = some target)
    (always : f.attributes.conditions.getD [] = []) (absent : ctx.get? f.name = none)
    (h : s.Decodes g o input ctx out) (early : j < s.nextPlace ∨ out.next = none)
    {d : DecodedField} (mem : d ∈ out.fields) (name : d.name = lead.name) :
    ∃ ts stop fin, Account g o s input ctx out ts stop fin ∧
      ∃ t ∈ ts, t.place = i ∧ ∃ length r n, t.Reads o length r ∧
        d = scalarField lead t.before.cursor t.before.memory r ∧ r.value.number? = some n ∧
        (∀ u ∈ ts, u.place = j → n ≤ u.before.cursor.remainingBytes ∧ ∃ parse ch,
          TargetTurn parse f u.before.cursor u.before.fields u.before.memory target
            (u.before.cursor.remaining.take n) ch ∧
          u.added = nestedFields f ch.structures) ∧
        ((∃ earlier u later, ts = earlier ++ u :: later ∧ u.place = j ∧
            ∀ w ∈ earlier, w.place < j) ∨
          fin.cursor.isExhausted = true ∧
            (∀ length, f.attributes.length = some length → length.takesBits = false) ∧
            out.fields.filter (·.name == f.name) = []) := by
  obtain ⟨ts, stop, fin, account⟩ := h.account
  obtain ⟨t, turn, place, length, r, reads, shown⟩ := a.exists_reads account mem name
  obtain ⟨v, value, held, -⟩ := a.announced account off turn place reads
  obtain ⟨n, number, rfl⟩ := AttributeValue.ofValue?_byteLength_eq_some.mp value
  have none : Memory.given ctx f.name = .empty := by
    rw [Memory.given, absent]
    rfl
  refine ⟨ts, stop, fin, account, t, turn, place, length, r, n, reads, shown, number, ?_, ?_⟩
  · intro u turn' at_
    have field := account.field_eq turn' (at_ ▸ a.at_)
    have sourced := account.sourced.1 u turn'
    obtain ⟨parse, taken⟩ := account.taken turn'
    have present : u.attributes.isPresent u.before.fields = true := by
      rw [Turn.attributes, field]
      exact a.isPresent_effective sourced (by decide) (congrArg (·.conditions) none) always _
    have parse_eq : u.attributes.parse = some target := by
      rw [Turn.attributes, field, a.parse_effective sourced (by decide) (congrArg (·.parse) none)]
      exact delegated
    have window : u.attributes.byteLength = some n :=
      Option.map_injective (fun _ _ h => AttributeValue.byteLength.inj h) (held u turn' at_)
    obtain ⟨view, ch, within, added⟩ := taken.target_of_delegated parse_eq present
    have viewed : u.attributes.view u.before.cursor = .ok view := within.viewed
    rw [FieldAttributes.view, window] at viewed
    obtain ⟨-, enough, rfl⟩ := BitCursor.window_eq_ok.mp viewed
    rw [field] at within added
    exact ⟨enough, parse, ch, within, added⟩
  · rcases account.turn_or_ended a.at_ early (account.kept_of_not_pruneZero off _) with
      here | ⟨ended, behind, missing⟩
    · exact .inl (account.exists_first_turn here)
    · rw [a.isPresent_effective account.sourced.2 (by decide) (congrArg (·.conditions) none) always,
        Bool.true_and] at missing
      refine .inr ⟨ended, fun length sized => ?_, account.filter_eq_nil a.distinct a.at_ behind⟩
      have same := a.length_effective account.sourced.2 (by decide) (congrArg (·.length) none)
      refine Bool.eq_false_iff.mpr fun takesBits => ?_
      rw [FieldAttributes.isRequired_of_takesBits (same.trans sized) takesBits] at missing
      cases missing

theorem Announces.window_of_byteLength_prefixed :
    ∃ out, parseStructure (prefixing .byteLength { parse := some "T" }) {} "S"
        ⟨3, [2, 9, 7, 8, 6]⟩ .empty = .ok out ∧
      out.fields.map (fun d => (d.name, d.start, d.stop)) =
        [("n", 3, 4), ("h", 4, 5), ("f", 5, 6), ("f", 6, 7)] ∧
      ∃ ts stop fin, Account (prefixing .byteLength { parse := some "T" }) {}
          (prefixed .byteLength { parse := some "T" }) ⟨3, [2, 9, 7, 8, 6]⟩ .empty out ts stop fin ∧
        ∃ t ∈ ts, t.place = 0 ∧ ∃ length r n, t.Reads {} length r ∧ r.value.number? = some n ∧
          ∃ earlier u later, ts = earlier ++ u :: later ∧ u.place = 2 ∧
            (∀ w ∈ earlier, w.place < 2) ∧ n ≤ u.before.cursor.remainingBytes ∧ ∃ parse ch,
            TargetTurn parse ⟨"f", { parse := some "T" }, false⟩ u.before.cursor u.before.fields
              u.before.memory "T" (u.before.cursor.remaining.take n) ch := by
  have fields : (parseStructure (prefixing .byteLength { parse := some "T" }) {} "S"
      ⟨3, [2, 9, 7, 8, 6]⟩ .empty).toOption.map
        (fun out => out.fields.map fun d => (d.name, d.start, d.stop)) =
      some [("n", 3, 4), ("h", 4, 5), ("f", 5, 6), ("f", 6, 7)] := by
    decide +kernel
  have announces := announces_prefixed .byteLength { parse := some "T" } .empty
    (by decide +kernel) (by decide) (by decide)
  obtain ⟨out, decoded, fields⟩ := Option.map_eq_some_iff.mp fields
  have ok := Attempt.eq_ok_of_toOption decoded
  have names : out.fields.map (·.name) = ["n", "h", "f", "f"] := by
    simpa [Function.comp_def] using congrArg (List.map Prod.fst) fields
  have here {name : String} (mem : name ∈ ["n", "h", "f", "f"]) :
      ∃ d ∈ out.fields, d.name = name :=
    List.mem_map.mp (names ▸ mem)
  obtain ⟨d, mem, name⟩ := here (List.mem_cons_self (a := "n"))
  obtain ⟨ts, stop, fin, account, t, turn, place, length, r, n, reads, -, number, each,
      ⟨earlier, u, later, split, at_, before⟩ | none⟩ :=
    Announces.window_of_byteLength announces rfl rfl rfl rfl (.called rfl ok) (.inl (by decide))
      mem name
  · obtain ⟨enough, parse, ch, within, -⟩ := each u (split ▸ List.mem_append_cons_self) at_
    exact ⟨out, ok, fields, ts, stop, fin, account, t, turn, place, length, r, n, reads, number,
      earlier, u, later, split, at_, before, enough, parse, ch, within⟩
  · obtain ⟨d', mem', name'⟩ := here (by simp : "f" ∈ ["n", "h", "f", "f"])
    have other := List.filter_eq_nil_iff.mp none.2.2 d' mem'
    simp [name'] at other

/-- Five bytes are announced, and the bytes end where they would start: the structure is decoded all
the same, without the field they were announced for. -/
theorem unwindowed_of_exhausted :
    ∃ out, (∃ lead f, Announces (prefixing .byteLength { parse := some "T" }) .empty
        (prefixed .byteLength { parse := some "T" }) .byteLength 0 2 lead f) ∧
      parseStructure (prefixing .byteLength { parse := some "T" }) {} "S" ⟨0, [5, 9]⟩ .empty =
        .ok out ∧
      out.fields.map (fun d => (d.name, d.value?)) =
        [("n", some (.uint 5)), ("h", some (.uint 9))] ∧
      out.consumed = 2 ∧ out.next = none := by
  have shape : (parseStructure (prefixing .byteLength { parse := some "T" }) {} "S" ⟨0, [5, 9]⟩
      .empty).toOption.map (fun out =>
        (out.fields.map fun d => (d.name, d.value?), out.consumed, out.next)) =
      some ([("n", some (.uint 5)), ("h", some (.uint 9))], 2, none) := by
    decide +kernel
  have announces := announces_prefixed .byteLength { parse := some "T" } .empty
    (by decide +kernel) (by decide) (by decide)
  obtain ⟨out, decoded, shape⟩ := Option.map_eq_some_iff.mp shape
  obtain ⟨fields, rest⟩ := Prod.mk.inj shape
  obtain ⟨consumed, next⟩ := Prod.mk.inj rest
  exact ⟨out, ⟨_, _, announces⟩, Attempt.eq_ok_of_toOption decoded, fields, consumed, next⟩

end WireGrammar
