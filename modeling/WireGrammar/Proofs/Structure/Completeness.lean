import WireGrammar.Proofs.Structure.Account

/-!
# No field is left out without a reason

The decoding of a structure may end because its descriptors or its bytes have, or because a
structure follows; on the way fields are tried again, passed over and rolled back.  However it ends,
a field that has to be there is there.  For a field with conditions the decoded fields tell whether
it had to be: the conditions may be read off them in the end, since fields decoded later do not
matter to conditions on earlier ones.

* `FixedScalar`: a scalar that is decoded as it is declared;
* `Account.isPresent_eq`: conditions on earlier fields can be asked in the end as well;
* `decoded_of_required`: a field without conditions is decoded;
* `decoded_iff_conditions`: a field with conditions is decoded just if they hold;
* `missing_of_retargeted`, `absent_of_retargeted`: it is not enough that the triggers of the grammar
  leave the field alone, since the context may bring triggers of its own.
-/

namespace WireGrammar

variable {g : Grammar} {o : Options} {s : Structure} {input : Slice} {ctx : StreamContext}
  {out : StructureOutcome} {ts : List Turn} {stop : Nat} {fin : Stage}

/-! ### Conditions on earlier fields -/

/-- A condition holds if the first field of its name is a scalar that passes the comparison. -/
theorem Condition.holds_iff {fields : List DecodedField} {c : Condition} :
    c.holds fields = true ↔ ∃ d v, fields.find? (·.name == c.field) = some d ∧
      d.value? = some v ∧ c.op.holds v c.literal = true := by
  unfold Condition.holds
  cases fields.find? (·.name == c.field) with
  | none => simp
  | some d => cases value : d.value? <;> simp [value]

theorem FieldAttributes.isPresent_iff {a : FieldAttributes} {fields : List DecodedField} :
    a.isPresent fields = true ↔ ∀ c ∈ a.conditions.getD [], ∃ d v,
      fields.find? (·.name == c.field) = some d ∧ d.value? = some v ∧
        c.op.holds v c.literal = true := by
  simp only [FieldAttributes.isPresent, List.all_eq_true, Condition.holds_iff]

/-- Fields of other names do not matter to a condition. -/
theorem Condition.holds_append {fields behind : List DecodedField} {c : Condition}
    (other : ∀ d ∈ behind, d.name ≠ c.field) : c.holds (fields ++ behind) = c.holds fields := by
  have none : behind.find? (·.name == c.field) = none := by
    simpa using other
  unfold Condition.holds
  rw [List.find?_append, none, Option.or_none]

/-- No condition asks for a field that is declared at the place or behind it. -/
def FieldAttributes.AsksBefore (a : FieldAttributes) (s : Structure) (place : Nat) : Prop :=
  ∀ d ∈ s.descriptors.drop place, ∀ c ∈ a.conditions.getD [],
    d.field?.any (·.name == c.field) = false

instance (a : FieldAttributes) (s : Structure) (place : Nat) : Decidable (a.AsksBefore s place) := by
  unfold FieldAttributes.AsksBefore
  infer_instance

/-- Conditions on earlier fields come to the same at the turn of a field and in the end. -/
theorem Account.isPresent_eq (h : Account g o s input ctx out ts stop fin) {t : Turn}
    (mem : t ∈ ts) {a : FieldAttributes} (asks : a.AsksBefore s t.place) :
    a.isPresent out.fields = a.isPresent t.before.fields := by
  obtain ⟨behind, fields, places⟩ := h.fields_behind mem
  have same : ∀ c ∈ a.conditions.getD [],
      c.holds (t.before.fields ++ behind) = c.holds t.before.fields := by
    intro c own
    refine Condition.holds_append fun d decoded named => ?_
    obtain ⟨f, declared, name⟩ := places d decoded
    have other := asks _ declared c own
    simp [Descriptor.field?, name, named] at other
  rw [fields, FieldAttributes.isPresent, FieldAttributes.isPresent, Bool.eq_iff_iff,
    List.all_eq_true, List.all_eq_true]
  exact forall₂_congr fun c own => by rw [same c own]

/-! ### Scalars that are decoded as they are declared -/

/-- Scalars of this length take at least a bit. -/
def Length.takesBits : Length → Bool
  | .bits n => n != 0
  | .varint => true
  | .packetNumber => true
  | .rest => false

/-- The bytes must not end before a field of such a length. -/
theorem FieldAttributes.isRequired_of_takesBits {a : FieldAttributes} {length : Length}
    (sized : a.length = some length) (takesBits : length.takesBits = true) :
    a.isRequired = true := by
  unfold isRequired
  rw [sized]
  cases length with
  | rest => cases takesBits
  | bits n => exact takesBits
  | varint | packetNumber => rfl

/-- The structure declares at the place `i` the scalar field `f`, of a length that takes bits, and
neither triggers nor the context change it. -/
structure FixedScalar (g : Grammar) (ctx : StreamContext) (s : Structure) (i : Nat)
    (f : FieldDescriptor) (length : Length) : Prop where
  at_ : s.descriptors[i]? = some (.field f)
  own : f.attributes.parse = none
  sized : f.attributes.length = some length
  takesBits : length.takesBits = true
  untouched : Untouched g ctx f.name

namespace FixedScalar

variable {i : Nat} {f : FieldDescriptor} {length : Length} (fixed : FixedScalar g ctx s i f length)
  (h : Account g o s input ctx out ts stop fin)

include fixed h

/-- The turns at the place are decoded as the field is declared. -/
theorem attributes_eq {t : Turn} (mem : t ∈ ts) (place : t.place = i) :
    t.field = f ∧ t.attributes = f.attributes := by
  have field := h.field_eq mem (place ▸ fixed.at_)
  have attributes := fixed.untouched.effective_eq (h.sourced.1 t mem) (congrArg (·.name) field)
  exact ⟨field, attributes.trans (congrArg (·.attributes) field)⟩

/-- Such a field takes its turn, or its conditions fail in the end. -/
theorem turn_or_absent (early : i < s.nextPlace ∨ out.next = none) :
    (∃ t ∈ ts, t.place = i) ∨ f.attributes.isPresent out.fields = false := by
  rcases h.turn_or_ended fixed.at_ early (h.kept_of_untouched fixed.untouched) with
    turn | ⟨-, -, missing⟩
  · exact .inl turn
  · rw [fixed.untouched.effective_eq h.sourced.2 rfl,
      FieldAttributes.isRequired_of_takesBits fixed.sized fixed.takesBits, Bool.and_true,
      ← h.fields_eq] at missing
    exact .inr missing

/-- A turn at the place decodes a scalar, if the field is present. -/
theorem reads_of_present {t : Turn} (mem : t ∈ ts) (place : t.place = i)
    (present : f.attributes.isPresent t.before.fields = true) : ∃ r, t.Reads o length r := by
  obtain ⟨-, attributes⟩ := fixed.attributes_eq h mem place
  obtain ⟨parse, taken⟩ := h.taken mem
  exact taken.reads_of_sized (attributes ▸ fixed.own) (attributes ▸ fixed.sized)
    (attributes ▸ present)

/-- What a turn at the place decodes is a scalar of the declared length. -/
theorem reads_of_mem {t : Turn} (mem : t ∈ ts) (place : t.place = i) {d : DecodedField}
    (added : d ∈ t.added) :
    ∃ r, t.Reads o length r ∧ d = scalarField t.field t.before.cursor t.before.memory r := by
  obtain ⟨-, attributes⟩ := fixed.attributes_eq h mem place
  obtain ⟨parse, taken⟩ := h.taken mem
  obtain ⟨length', r, reads⟩ := taken.reads_of_mem (attributes ▸ fixed.own) added
  have sized : t.attributes.length = some length' := reads.scalar.sized
  rw [attributes, fixed.sized] at sized
  cases sized
  rw [reads.added] at added
  exact ⟨r, reads, List.mem_singleton.mp added⟩

end FixedScalar

/-! ### Fields that have to be there -/

/-- A decoded structure has every scalar that it declares without conditions and with a length that
takes bits, if neither triggers nor the context change the field: as far as a structure is named
that follows, and to the end of the declaration if none is.  A field that is not repeated is there
once, and with distinct names that is all there is of its name. -/
theorem decoded_of_required (h : s.Decodes g o input ctx out) {i : Nat} {f : FieldDescriptor}
    {length : Length} (fixed : FixedScalar g ctx s i f length)
    (always : f.attributes.conditions.getD [] = [])
    (early : i < s.nextPlace ∨ out.next = none) :
    ∃ ts stop fin, Account g o s input ctx out ts stop fin ∧
      ∃ d ∈ out.fields, (i, d) ∈ placed ts ∧ d.name = f.name ∧
        (f.repeated = false → (placed ts).filter (·.1 == i) = [(i, d)] ∧
          ((s.fields.map (·.name)).Nodup → out.fields.filter (·.name == f.name) = [d])) := by
  obtain ⟨ts, stop, fin, account⟩ := h.account
  have present (fields : List DecodedField) : f.attributes.isPresent fields = true := by
    rw [FieldAttributes.isPresent, always]
    rfl
  obtain ⟨t, mem, rfl⟩ : ∃ t ∈ ts, t.place = i := by
    rcases fixed.turn_or_absent account early with turn | absent
    · exact turn
    · rw [present] at absent
      cases absent
  obtain ⟨r, reads⟩ := fixed.reads_of_present account mem rfl (present _)
  obtain ⟨rfl, -⟩ := fixed.attributes_eq account mem rfl
  have added : scalarField t.field t.before.cursor t.before.memory r ∈ t.added := by
    rw [reads.added]
    exact List.mem_singleton_self _
  refine ⟨ts, stop, fin, account, _, account.mem_fields mem added, mem_placed mem added, rfl,
    fun once => ?_⟩
  have alone := account.once_of_reads mem reads once
  refine ⟨alone, fun distinct => ?_⟩
  rw [account.filter_name_eq distinct fixed.at_, alone]
  rfl

/-- A repeated field, one behind it that has to be there, and one that is there on two
conditions. -/
def tallied : Structure where
  name := "Tally"
  descriptors := [
    .field ⟨"kind", { length := some (.bits 8) }, false⟩,
    .field ⟨"mark", {
      length := some (.bits 8), values := some (.oneOf [.int 1, .int 2]) }, true⟩,
    .field ⟨"total", { length := some (.bits 8) }, false⟩,
    .field ⟨"label", {
      length := some (.bits 8)
      values := some (.oneOf [.int 5, .int 6])
      format := some .hex
      conditions := some [⟨"kind", .eq, .int 7⟩, ⟨"mark", .neq, .int 2⟩] }, false⟩]

def tally : Grammar := ⟨["Tally"], [tallied]⟩

/-- The bytes end before the last field, and behind one on which the repeated field failed. -/
theorem decoded_of_required_tallied :
    ∃ out, parseStructure tally {} "Tally" ⟨3, [6, 1, 2, 9]⟩ .empty = .ok out ∧
      out.fields.map (·.name) = ["kind", "mark", "mark", "total"] ∧
      ∃ ts stop fin, Account tally {} tallied ⟨3, [6, 1, 2, 9]⟩ .empty out ts stop fin ∧
        ∃ d, (placed ts).filter (·.1 == 2) = [(2, d)] ∧
          out.fields.filter (·.name == "total") = [d] := by
  have fixed : FixedScalar tally .empty tallied 2
      ⟨"total", { length := some (.bits 8) }, false⟩ (.bits 8) :=
    ⟨rfl, rfl, rfl, rfl, by decide +kernel⟩
  have names : (parseStructure tally {} "Tally" ⟨3, [6, 1, 2, 9]⟩ .empty).toOption.map
      (fun out => out.fields.map (·.name)) = some ["kind", "mark", "mark", "total"] := by
    decide +kernel
  obtain ⟨out, decoded, names⟩ := Option.map_eq_some_iff.mp names
  have ok := Attempt.eq_ok_of_toOption decoded
  obtain ⟨ts, stop, fin, account, d, -, -, -, once⟩ :=
    decoded_of_required (.called rfl ok) fixed rfl (.inl (by decide))
  obtain ⟨alone, named⟩ := once rfl
  exact ⟨out, ok, names, ts, stop, fin, account, d, alone, named (by decide)⟩

/-- A scalar with a length that takes bits, which neither triggers nor the context change, is
decoded just if all its conditions hold of the decoded structure: each asks for an earlier field, or
for none, and looks at the first field of that name.  What is decoded of it is read with the
declared length, passes the declared test, and is shown in the declared format. -/
theorem decoded_iff_conditions (h : s.Decodes g o input ctx out)
    (distinct : (s.fields.map (·.name)).Nodup) {i : Nat} {f : FieldDescriptor} {length : Length}
    (fixed : FixedScalar g ctx s i f length) (early : i < s.nextPlace ∨ out.next = none)
    (asks : f.attributes.AsksBefore s i) :
    ((∃ d ∈ out.fields, d.name = f.name) ↔
      ∀ c ∈ f.attributes.conditions.getD [], ∃ d v, out.fields.find? (·.name == c.field) = some d ∧
        d.value? = some v ∧ c.op.holds v c.literal = true) ∧
    ∀ d ∈ out.fields, d.name = f.name → ∃ c r, c.slice = input ∧ BitCursor.Reads c length r ∧
      (∀ spec, f.attributes.values = some spec → spec.accepts r.value = true) ∧
      d = .scalar f.name (f.attributes.shown r.value) c.absolute (scalarStop c r.bits) := by
  obtain ⟨ts, stop, fin, account⟩ := h.account
  rw [← FieldAttributes.isPresent_iff]
  constructor
  · constructor
    · rintro ⟨d, mem, name⟩
      obtain ⟨t, turn, rfl, -, added⟩ := account.exists_turn distinct fixed.at_ mem name
      obtain ⟨-, attributes⟩ := fixed.attributes_eq account turn rfl
      obtain ⟨r, reads, -⟩ := fixed.reads_of_mem account turn rfl added
      rw [account.isPresent_eq turn asks, ← attributes]
      exact reads.scalar.present
    · intro present
      rcases fixed.turn_or_absent account early with ⟨t, turn, rfl⟩ | absent
      · rw [account.isPresent_eq turn asks] at present
        obtain ⟨r, reads⟩ := fixed.reads_of_present account turn rfl present
        obtain ⟨rfl, -⟩ := fixed.attributes_eq account turn rfl
        refine ⟨_, account.mem_fields turn (reads.added ▸ List.mem_singleton_self _), rfl⟩
      · rw [present] at absent
        cases absent
  · intro d mem name
    obtain ⟨t, turn, rfl, rfl, added⟩ := account.exists_turn distinct fixed.at_ mem name
    obtain ⟨-, attributes⟩ := fixed.attributes_eq account turn rfl
    obtain ⟨r, reads, rfl⟩ := fixed.reads_of_mem account turn rfl added
    refine ⟨t.before.cursor, r, account.slice_eq turn,
      BitCursor.readScalar_eq_ok.mp reads.scalar.read, fun spec given => ?_, ?_⟩
    · have accepted : t.attributes.rejects? r.value = none := reads.scalar.accepted
      rw [attributes, FieldAttributes.rejects?, given] at accepted
      simpa [Option.filter] using accepted
    · rw [← attributes]
      rfl

theorem decoded_iff_conditions_tallied :
    ∃ out, parseStructure tally {} "Tally" ⟨3, [7, 1, 2, 9, 5]⟩ .empty = .ok out ∧
      out.fields.map (·.name) = ["kind", "mark", "mark", "total", "label"] ∧
      (∀ c ∈ ([⟨"kind", .eq, .int 7⟩, ⟨"mark", .neq, .int 2⟩] : List Condition), ∃ d v,
        out.fields.find? (·.name == c.field) = some d ∧ d.value? = some v ∧
          c.op.holds v c.literal = true) ∧
      ∀ d ∈ out.fields, d.name = "label" → ∃ c r, c.slice = ⟨3, [7, 1, 2, 9, 5]⟩ ∧
        BitCursor.Reads c (.bits 8) r ∧
        (ValueSpec.oneOf [.int 5, .int 6]).accepts r.value = true ∧
        d = .scalar "label" (Format.hex.apply r.value) c.absolute (scalarStop c r.bits) := by
  have fixed : FixedScalar tally .empty tallied 3
      ⟨"label", {
        length := some (.bits 8)
        values := some (.oneOf [.int 5, .int 6])
        format := some .hex
        conditions := some [⟨"kind", .eq, .int 7⟩, ⟨"mark", .neq, .int 2⟩] }, false⟩ (.bits 8) :=
    ⟨rfl, rfl, rfl, rfl, by decide +kernel⟩
  have names : (parseStructure tally {} "Tally" ⟨3, [7, 1, 2, 9, 5]⟩ .empty).toOption.map
      (fun out => out.fields.map (·.name)) = some ["kind", "mark", "mark", "total", "label"] := by
    decide +kernel
  obtain ⟨out, decoded, names⟩ := Option.map_eq_some_iff.mp names
  have ok := Attempt.eq_ok_of_toOption decoded
  have label : ∃ d ∈ out.fields, d.name = "label" := by
    refine List.mem_map.mp ?_
    rw [names]
    decide
  obtain ⟨conditions, scalars⟩ := decoded_iff_conditions (.called rfl ok) (by decide) fixed
    (.inl (by decide)) (by decide)
  refine ⟨out, ok, names, conditions.mp label, fun d mem name => ?_⟩
  obtain ⟨c, r, slice, reads, accepted, shown⟩ := scalars d mem name
  exact ⟨c, r, slice, reads, accepted _ rfl, shown⟩

/-! ### Triggers of the context -/

/-- Keeps triggers for the fields named `h`, by which they change the fields named `f`. -/
def keeping (changes : List TriggerRule) : Grammar where
  roots := ["S"]
  structures := [
    ⟨"S", [.field ⟨"a", { length := some (.bits 8), triggers := some [
      .onField "h" [.lookup .triggers [(.int 1, .triggers [.onField "f" changes])]],
      .saveToContext] }, false⟩]⟩]

/-- The context with these triggers. -/
def keptContext (changes : List TriggerRule) : StreamContext :=
  (parseTopLevel (keeping changes) {} [1] .empty).2

/-- Two fields without triggers. -/
def pair (a : FieldAttributes) : Structure where
  name := "S"
  descriptors := [.field ⟨"h", { length := some (.bits 8) }, false⟩, .field ⟨"f", a, false⟩]

/-- The bytes may end before a field that has to be there, if only the triggers of the grammar leave
the field alone, and the context has nothing for it: a trigger that the context holds for another
field can still take its bits away. -/
theorem missing_of_retargeted :
    ∃ a ctx out, a = ({ length := some (.bits 8) } : FieldAttributes) ∧
      ctx = keptContext [.lookup .length [(.int 5, .length (.bits 0))]] ∧
      ((pair a).fields.map (·.name)).Nodup ∧ (pair a).nextPlace = 2 ∧
      (pair a).descriptors[1]? = some (.field ⟨"f", a, false⟩) ∧
      ctx.get? "f" = none ∧ (Grammar.mk ["S"] [pair a]).every (·.spares "f") = true ∧
      parseStructure ⟨["S"], [pair a]⟩ {} "S" ⟨0, [5]⟩ ctx = .ok out ∧
      ¬∃ d ∈ out.fields, d.name = "f" := by
  have absent : (keptContext [.lookup .length [(.int 5, .length (.bits 0))]]).get? "f" = none :=
    Option.isNone_iff_eq_none.mp (by decide +kernel)
  have names : (parseStructure ⟨["S"], [pair { length := some (.bits 8) }]⟩ {} "S" ⟨0, [5]⟩
      (keptContext [.lookup .length [(.int 5, .length (.bits 0))]])).toOption.map
        (fun out => out.fields.map (·.name)) = some ["h"] := by
    decide +kernel
  obtain ⟨out, decoded, names⟩ := Option.map_eq_some_iff.mp names
  refine ⟨_, _, out, rfl, rfl, by decide, by decide, rfl, absent, by decide +kernel,
    Attempt.eq_ok_of_toOption decoded, fun found => ?_⟩
  have here := List.mem_map.mpr found
  rw [names] at here
  revert here
  decide

/-- In the same way the field may be missing although its conditions hold. -/
theorem absent_of_retargeted :
    ∃ a ctx out,
      a = ({
        length := some (.bits 8)
        conditions := some [⟨"h", .eq, .int 5⟩] } : FieldAttributes) ∧
      ctx = keptContext [.lookup .conditions [(.int 5, .conditions [⟨"h", .eq, .int 6⟩])]] ∧
      ((pair a).fields.map (·.name)).Nodup ∧ (pair a).nextPlace = 2 ∧
      (pair a).descriptors[1]? = some (.field ⟨"f", a, false⟩) ∧ a.AsksBefore (pair a) 1 ∧
      ctx.get? "f" = none ∧ (Grammar.mk ["S"] [pair a]).every (·.spares "f") = true ∧
      parseStructure ⟨["S"], [pair a]⟩ {} "S" ⟨0, [5, 7]⟩ ctx = .ok out ∧
      (∃ d v, out.fields.find? (·.name == "h") = some d ∧ d.value? = some v ∧
        CompareOp.eq.holds v (.int 5) = true) ∧
      ¬∃ d ∈ out.fields, d.name = "f" := by
  have absent : (keptContext
      [.lookup .conditions [(.int 5, .conditions [⟨"h", .eq, .int 6⟩])]]).get? "f" = none :=
    Option.isNone_iff_eq_none.mp (by decide +kernel)
  have shape : (parseStructure
      ⟨["S"], [pair { length := some (.bits 8), conditions := some [⟨"h", .eq, .int 5⟩] }]⟩ {} "S"
      ⟨0, [5, 7]⟩ (keptContext
        [.lookup .conditions [(.int 5, .conditions [⟨"h", .eq, .int 6⟩])]])).toOption.map
          (fun out => (out.fields.map (·.name), Condition.holds out.fields ⟨"h", .eq, .int 5⟩)) =
      some (["h"], true) := by
    decide +kernel
  obtain ⟨out, decoded, shape⟩ := Option.map_eq_some_iff.mp shape
  obtain ⟨names, holds⟩ := Prod.mk.inj shape
  refine ⟨_, _, out, rfl, rfl, by decide, by decide, rfl, by decide, absent, by decide +kernel,
    Attempt.eq_ok_of_toOption decoded, Condition.holds_iff.mp holds, fun found => ?_⟩
  have here := List.mem_map.mpr found
  rw [names] at here
  revert here
  decide

end WireGrammar
