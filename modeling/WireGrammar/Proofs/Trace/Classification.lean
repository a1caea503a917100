import Mathlib.Data.List.Forall2
import WireGrammar.Proofs.Trace.Direction
import WireGrammar.Proofs.Tree.Leaves
import WireGrammar.Proofs.Value.Numeral

/-!
# Kinds and numbers of reported packets

The kind of a reported packet tells whether it was decoded, and its number stands among the scalars
of its tree.  Both depend on nothing but the names of fields and the numbers they are read as, so it
makes no difference how numbers are shown.

* `DecodedField.reading`: what kind and number are told from;
* `fits_of_parseTopLevel`: the numbers of a decoded packet are below `2 ^ 64`;
* `ParseTree.Reformatted`: the same tree, with some of its numbers shown as numerals;
* `Trace.classified`: the kind and the number of each report.
-/

namespace WireGrammar

/-! ### What kind and number are told from -/

/-- The number that a field is read as. -/
def DecodedField.number? (f : DecodedField) : Option Nat := f.value?.bind Value.number?

/-- The name of a field with the number it is read as. -/
def DecodedField.reading (f : DecodedField) : String × Option Nat := (f.name, f.number?)

/-- The kind that a field of the root decides, by its name and the number it is read as. -/
def PacketKind.ofReading? (reading : String × Option Nat) : Option PacketKind :=
  if reading.1 = "Header Form" then (if reading.2 = some 0 then some .oneRtt else none)
  else if reading.1 = "Long Packet Type" then reading.2.bind PacketKind.ofLongType?
  else none

theorem PacketKind.ofField?_eq (f : DecodedField) : ofField? f = ofReading? f.reading := by
  unfold ofField? ofReading? DecodedField.reading DecodedField.number?
  cases f.value? with
  | none => simp
  | some v => rfl

theorem PacketKind.ofLongType?_ne_undecoded (n : Nat) : ofLongType? n ≠ some .undecoded := by
  unfold ofLongType?
  split <;> decide

/-- Fields decide for kinds of decoded packets only. -/
theorem PacketKind.ofReading?_ne_undecoded (reading : String × Option Nat) :
    ofReading? reading ≠ some .undecoded := by
  unfold ofReading?
  split
  · split <;> decide
  · split
    · cases reading.2 with
      | none => decide
      | some n => exact ofLongType?_ne_undecoded n
    · decide

namespace ParseTree

variable {t : ParseTree}

theorem kind_eq (root : DecodedStructure) (structures : List DecodedStructure) :
    kind ⟨root :: structures⟩ =
      ((root.fields.map (·.reading)).findSome? PacketKind.ofReading?).getD .versionNegotiation := by
  rw [kind, root?, List.head?_cons, List.findSome?_map]
  simp only [Function.comp_def, ← PacketKind.ofField?_eq]

/-- A tree with a root has one of the kinds of decoded packets. -/
theorem kind_ne_undecoded (some : t.structures ≠ []) : t.kind ≠ .undecoded := by
  obtain ⟨_ | ⟨root, structures⟩⟩ := t
  · exact absurd rfl some
  · rw [kind_eq]
    cases decided : (root.fields.map (·.reading)).findSome? PacketKind.ofReading? with
    | none => decide
    | some kind =>
      obtain ⟨reading, -, eq⟩ := List.exists_of_findSome?_eq_some decided
      rintro rfl
      exact PacketKind.ofReading?_ne_undecoded reading eq

/-- The number of a packet stands among its scalars. -/
theorem packetNumber?_eq (t : ParseTree) {kind : PacketKind} (decoded : kind ≠ .undecoded)
    (established : kind ≠ .versionNegotiation) :
    t.packetNumber? kind =
      (t.leaves.find? (·.name == "Packet Number")).bind DecodedField.number? := by
  have found : t.packetNumber? kind = (t.find? "Packet Number").bind Value.number? := by
    cases kind with
    | undecoded => exact absurd rfl decoded
    | versionNegotiation => exact absurd rfl established
    | _ => rfl
  rw [found, find?_eq, firstNamed?, Option.bind_assoc]
  rfl

end ParseTree

/-! ### Numbers below `2 ^ 64` -/

/-- The field is no scalar that a word of 64 bits could not hold. -/
def DecodedField.Fits (f : DecodedField) : Prop :=
  ∀ n, f.value? = some (.uint n) → n < Word.size 64

/-- So are all scalars of the structure. -/
def DecodedStructure.Fits (s : DecodedStructure) : Prop := ∀ leaf ∈ s.leaves, leaf.Fits

/-- So are all scalars of the packet. -/
def ParseTree.Fits (t : ParseTree) : Prop := ∀ s ∈ t.structures, s.Fits

/-- No format makes a number of what is none. -/
theorem Format.eq_of_apply_eq_uint {format : Format} {v : Value} {n : Nat}
    (h : format.apply v = .uint n) : v = .uint n := by
  cases v <;> cases format <;> first | exact h | cases h

theorem fits_scalarField {c : BitCursor} {length : Length} {r : Reading} (read : c.Reads length r)
    (f : FieldDescriptor) (m : Memory) : (scalarField f c m r).Fits := by
  intro n value
  have shown : (m.effective f).shown r.value = .uint n := Option.some.inj value
  have number : r.value = .uint n := by
    rw [FieldAttributes.shown] at shown
    cases format : (m.effective f).format with
    | none =>
      rw [format] at shown
      exact shown
    | some format' =>
      rw [format] at shown
      exact Format.eq_of_apply_eq_uint shown
  exact read.lt_of_uint number

theorem fits_nestedFields {structures : List DecodedStructure} (f : FieldDescriptor)
    (fits : ∀ s ∈ structures, s.Fits) :
    ∀ leaf ∈ leavesOfFields (nestedFields f structures), leaf.Fits := by
  intro leaf mem
  rw [leavesOfFields_nestedFields] at mem
  obtain ⟨s, own, inside⟩ := List.mem_flatMap.mp mem
  exact fits s own leaf inside

/-- To have numbers below `2 ^ 64` only is an invariant of decoding. -/
theorem decodingInvariant_fits (g : Grammar) (o : Options) (entry : StreamContext) :
    DecodingInvariant g o entry
      (fun _ _ _ _ fields _ => ∀ leaf ∈ leavesOfFields fields, leaf.Fits)
      (fun _ _ r => r.decoded.Fits) where
  start _ := by simp [leavesOfFields]
  scalar := by
    intro s input ctx c fields m f length r m' mem own more sourced fits turn
    rw [leavesOfFields_append]
    intro leaf inside
    rcases List.mem_append.mp inside with before | here
    · exact fits leaf before
    · obtain rfl := List.mem_singleton.mp here
      exact fits_scalarField (BitCursor.readScalar_eq_ok.mp turn.read) f m
  target := by
    intro s input ctx c fields m f view structures rest ctx' mem own more sourced fits viewed row
    rw [leavesOfFields_append]
    intro leaf inside
    rcases List.mem_append.mp inside with before | here
    · exact fits leaf before
    · exact fits_nestedFields f row.forall_mem leaf here
  finish := by
    intro s input ctx c fields m mem fits next
    exact fits

/-- All numbers of a decoded packet are below `2 ^ 64`. -/
theorem fits_of_parseTopLevel {g : Grammar} {o : Options} {packet : List UInt8}
    {ctx ctx' : StreamContext} {tree : ParseTree}
    (h : parseTopLevel g o packet ctx = (.ok tree, ctx')) : tree.Fits := by
  obtain ⟨rest, row, -⟩ := (decodingInvariant_fits g o ctx).row_of_parseTopLevel h
  exact row.forall_mem

/-! ### Numbers shown as numerals -/

/-- The second scalar is the first one, or if that is a number, a format of it. -/
inductive Value.Reformatted : Value → Value → Prop where
  | kept (v : Value) : Reformatted v v
  | number (n : Nat) (format : Format) : Reformatted (.uint n) (format.apply (.uint n))

mutual

/-- The second field is the first one with formats of some of its numbers. -/
inductive DecodedField.Reformatted : DecodedField → DecodedField → Prop where
  | scalar {v w : Value} (value : v.Reformatted w) (name : String) (start stop : Nat) :
    DecodedField.Reformatted (.scalar name v start stop) (.scalar name w start stop)
  | nested {s s' : DecodedStructure} (inner : DecodedStructure.Reformatted s s') (name : String)
      (start stop : Nat) :
    DecodedField.Reformatted (.nested name s start stop) (.nested name s' start stop)

/-- The second structure is the first one with formats of some of its numbers. -/
inductive DecodedStructure.Reformatted : DecodedStructure → DecodedStructure → Prop where
  | mk {fields fields' : List DecodedField} (inner : FieldsReformatted fields fields')
      (name : String) (start stop : Nat) :
    DecodedStructure.Reformatted ⟨name, fields, start, stop⟩ ⟨name, fields', start, stop⟩

/-- The second fields are the first ones with formats of some of their numbers. -/
inductive FieldsReformatted : List DecodedField → List DecodedField → Prop where
  | nil : FieldsReformatted [] []
  | cons {f f' : DecodedField} {fields fields' : List DecodedField}
      (head : DecodedField.Reformatted f f') (tail : FieldsReformatted fields fields') :
    FieldsReformatted (f :: fields) (f' :: fields')

end

/-- The second packet is the first one with formats of some of its numbers. -/
def ParseTree.Reformatted (t t' : ParseTree) : Prop :=
  List.Forall₂ DecodedStructure.Reformatted t.structures t'.structures

/-- Formats do not change the number that a scalar is read as. -/
theorem Value.Reformatted.number?_eq {v w : Value} (h : v.Reformatted w)
    (fits : ∀ n, v = .uint n → n < Word.size 64) : w.number? = v.number? := by
  cases h with
  | kept => rfl
  | number n format => exact number?_apply_of_number (.inl ⟨rfl, fits n rfl⟩) format

/-- Formats do not change the reading of a field. -/
theorem DecodedField.Reformatted.reading_eq {f f' : DecodedField} (h : f.Reformatted f')
    (fits : ∀ leaf ∈ f.leaves, leaf.Fits) : f'.reading = f.reading := by
  cases h with
  | scalar value name start stop =>
    have own := fits _ (List.mem_singleton_self _)
    have number := value.number?_eq fun n eq => own n (congrArg some eq)
    exact Prod.ext rfl number
  | nested => rfl

/-- Formats do not change the readings of fields. -/
theorem FieldsReformatted.readings_eq {fields fields' : List DecodedField}
    (h : FieldsReformatted fields fields') (fits : ∀ leaf ∈ leavesOfFields fields, leaf.Fits) :
    fields'.map (·.reading) = fields.map (·.reading) := by
  induction fields generalizing fields' with
  | nil => cases h; rfl
  | cons f fields ih =>
    cases h with
    | cons head tail =>
      obtain ⟨own, others⟩ := List.forall_mem_append.mp fits
      rw [List.map_cons, List.map_cons, head.reading_eq own, ih tail others]

mutual

/-- Formats do not change the readings of the scalars of a packet. -/
theorem DecodedField.Reformatted.leaves_eq : (f : DecodedField) → ∀ {f'}, f.Reformatted f' →
    (∀ leaf ∈ f.leaves, leaf.Fits) → f'.leaves.map (·.reading) = f.leaves.map (·.reading)
  | .scalar name v start stop, f', h, fits => by
    have same := h.reading_eq fits
    cases h with
    | scalar value => exact congrArg (fun reading => [reading]) same
  | .nested name s start stop, f', h, fits => by
    cases h with
    | nested inner => exact DecodedStructure.Reformatted.leaves_eq s inner fits

theorem DecodedStructure.Reformatted.leaves_eq : (s : DecodedStructure) → ∀ {s'},
    s.Reformatted s' → s.Fits →
    s'.leaves.map (·.reading) = s.leaves.map (·.reading)
  | ⟨name, fields, start, stop⟩, s', h, fits => by
    cases h with
    | mk inner => exact FieldsReformatted.leaves_eq fields inner fits

theorem FieldsReformatted.leaves_eq : (fields : List DecodedField) → ∀ {fields'},
    FieldsReformatted fields fields' → (∀ leaf ∈ leavesOfFields fields, leaf.Fits) →
    (leavesOfFields fields').map (·.reading) = (leavesOfFields fields).map (·.reading)
  | [], fields', h, _ => by
    cases h
    rfl
  | f :: fields, fields', h, fits => by
    cases h with
    | cons head tail =>
      obtain ⟨own, others⟩ := List.forall_mem_append.mp fits
      rw [leavesOfFields, leavesOfFields, List.map_append, List.map_append,
        DecodedField.Reformatted.leaves_eq f head own,
        FieldsReformatted.leaves_eq fields tail others]

end

/-- The number of the first of several scalars with a name, by their readings. -/
theorem find?_bind_number?_eq (name : String) (leaves : List DecodedField) :
    (leaves.find? (·.name == name)).bind DecodedField.number? =
      ((leaves.map (·.reading)).find? (·.1 == name)).bind Prod.snd := by
  rw [List.find?_map, Option.bind_map]
  rfl

namespace ParseTree.Reformatted

variable {t t' : ParseTree}

theorem leaves_eq (h : t.Reformatted t') (fits : t.Fits) :
    t'.leaves.map (·.reading) = t.leaves.map (·.reading) := by
  obtain ⟨structures⟩ := t
  obtain ⟨structures'⟩ := t'
  change List.Forall₂ _ structures structures' at h
  induction h with
  | nil => rfl
  | @cons s s' structures structures' head tail ih =>
    obtain ⟨own, others⟩ := List.forall_mem_cons.mp fits
    rw [ParseTree.leaves, ParseTree.leaves, List.flatMap_cons, List.flatMap_cons, List.map_append,
      List.map_append, head.leaves_eq s own]
    exact congrArg _ (ih others)

theorem kind_eq (h : t.Reformatted t') (fits : t.Fits) : t'.kind = t.kind := by
  obtain ⟨structures⟩ := t
  obtain ⟨structures'⟩ := t'
  change List.Forall₂ _ structures structures' at h
  cases h with
  | nil => rfl
  | @cons s s' structures structures' head tail =>
    obtain ⟨own, -⟩ := List.forall_mem_cons.mp fits
    cases head with
    | mk inner => rw [ParseTree.kind_eq, ParseTree.kind_eq, inner.readings_eq own]

theorem packetNumber?_eq (h : t.Reformatted t') (fits : t.Fits) (kind : PacketKind) :
    t'.packetNumber? kind = t.packetNumber? kind := by
  by_cases decoded : kind = .undecoded
  · rw [decoded]
    rfl
  · by_cases negotiates : kind = .versionNegotiation
    · rw [negotiates]
      rfl
    · rw [ParseTree.packetNumber?_eq t' decoded negotiates,
        ParseTree.packetNumber?_eq t decoded negotiates, find?_bind_number?_eq,
        find?_bind_number?_eq, h.leaves_eq fits]

end ParseTree.Reformatted

/-! ### Reports -/

section Reports

variable {decode : Bytes.Base64.Decoder} {t : Trace} {gs : GrammarSet} {options : TraceOptions}
  {r : DissectedPacket}

/-- A report is on a packet that could not be decoded, or on one that a grammar of the set
decodes. -/
theorem Trace.mem_dissectWith (reported : r ∈ t.dissectWith decode gs options) :
    (∃ cause, r.outcome = .error cause ∧ r.kind = .undecoded ∧ r.number = none) ∨
    ∃ d, r.outcome = .ok d ∧ r.kind = d.tree.kind ∧ r.number = d.tree.packetNumber? d.tree.kind ∧
      ∃ entry ∈ gs.entries, ∃ packet ctx after,
        parseTopLevel entry.2 options.dissector packet ctx = (.ok d.tree, after) := by
  obtain ⟨k, there⟩ := List.mem_iff_getElem?.mp reported
  rw [Trace.getElem?_dissectWith] at there
  by_cases within : k < t.limit options
  · rw [if_pos within] at there
    obtain ⟨p, -, rfl⟩ := Option.map_eq_some_iff.mp there
    unfold TracePacket.reportFrom
    cases p.bytes decode with
    | error cause => exact .inl ⟨_, rfl, rfl, rfl⟩
    | ok bytes =>
      dsimp only
      cases result : WireGrammar.dissect gs options.dissector bytes
          (contextBefore decode gs options.dissector p.direction t.packets k) with
      | mk outcome after =>
        cases outcome with
        | error cause => exact .inl ⟨_, rfl, rfl, rfl⟩
        | ok d =>
          obtain ⟨entry, mem, ok⟩ := dissect_eq_ok result
          exact .inr ⟨d, rfl, rfl, rfl, entry, mem, _, _, _, ok⟩
  · rw [if_neg within] at there
    cases there

/-- Bytes may be read off base 64 by whatever decoder.  A reported packet is undecoded just if its
outcome is a failure, and then it has no number.  A packet that negotiates versions has the number
zero, and any other one the number that the first of its scalars called `Packet Number` is read as,
if there is one and it is read as a number; looking for a scalar at any depth finds the first one
with the name.  And in whatever formats numbers of the packet are shown instead, its kind and its
number stay the same. -/
theorem Trace.classified (reported : r ∈ t.dissectWith decode gs options) :
    (r.kind = .undecoded ↔ ∃ cause, r.outcome = .error cause) ∧
    (r.kind = .undecoded → r.number = none) ∧
    (r.kind = .versionNegotiation → r.number = some 0) ∧
    ∀ d, r.outcome = .ok d →
      (r.kind ≠ .versionNegotiation →
        r.number = (d.tree.leaves.find? (·.name == "Packet Number")).bind DecodedField.number?) ∧
      (∀ name,
        d.tree.find? name = (d.tree.leaves.find? (·.name == name)).bind DecodedField.value?) ∧
      ∀ tree, d.tree.Reformatted tree →
        tree.kind = r.kind ∧ tree.packetNumber? tree.kind = r.number := by
  rcases mem_dissectWith reported with
    ⟨cause, failed, kind, number⟩ | ⟨d, decoded, kind, number, entry, -, packet, ctx, after, ok⟩
  · rw [failed, kind, number]
    refine ⟨⟨fun _ => ⟨cause, rfl⟩, fun _ => rfl⟩, fun _ => rfl, nofun, nofun⟩
  · have known : d.tree.kind ≠ .undecoded :=
      ParseTree.kind_ne_undecoded (structures_ne_nil_of_parseTopLevel ok)
    rw [decoded, kind, number]
    refine ⟨⟨fun none => absurd none known, nofun⟩, fun none => absurd none known, ?_, ?_⟩
    · intro negotiates
      rw [negotiates]
      rfl
    · rintro _ ⟨rfl⟩
      refine ⟨d.tree.packetNumber?_eq known, d.tree.find?_eq, fun tree formats => ?_⟩
      have fits := fits_of_parseTopLevel ok
      exact ⟨formats.kind_eq fits, formats.kind_eq fits ▸ formats.packetNumber?_eq fits _⟩

/-- A header whose number stands in a structure of the same name, and is shown in base sixteen. -/
def numbered : GrammarSet where
  entries := [("only", {
    roots := ["Header"]
    structures := [
      ⟨"Header", [
        .field ⟨"Header Form", { length := some (.bits 8) }, false⟩,
        .field ⟨"Packet Number", { parse := some "Number" }, false⟩]⟩,
      ⟨"Number", [
        .field ⟨"Flags", { length := some (.bits 8) }, false⟩,
        .field ⟨"Packet Number", { length := some (.bits 8), format := some .hex }, false⟩]⟩] })]

/-- A packet whose number is 161. -/
def counted : Trace where
  host := ""
  scenario := ""
  stream := some [⟨"up", 0, "AAeh"⟩]

theorem Trace.classified_counted :
    ∃ r ∈ counted.dissect numbered {}, r.kind = .oneRtt ∧ r.number = some 161 ∧
      ∃ d, r.outcome = .ok d ∧
        r.number = (d.tree.leaves.find? (·.name == "Packet Number")).bind DecodedField.number? := by
  have told : (counted.dissect numbered {}).map (fun r => (r.kind, r.number, r.outcome.isOk)) =
      [(.oneRtt, some 161, true)] := by
    decide +kernel
  obtain ⟨r, reported, same⟩ := List.mem_map.mp (told ▸ List.mem_singleton_self _)
  obtain ⟨kind, same⟩ := Prod.mk.inj same
  obtain ⟨number, ok⟩ := Prod.mk.inj same
  obtain ⟨-, -, -, decoded⟩ := Trace.classified reported
  cases outcome : r.outcome with
  | error cause =>
    rw [outcome] at ok
    cases ok
  | ok d =>
    obtain ⟨found, -, -⟩ := decoded d outcome
    exact ⟨r, reported, kind, number, d, outcome, found (by rw [kind]; decide)⟩

end Reports

end WireGrammar
