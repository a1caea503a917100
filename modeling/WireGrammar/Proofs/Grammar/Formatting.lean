import WireGrammar.Proofs.Attribute.Origin
import WireGrammar.Proofs.Decoding.Invariant
import WireGrammar.Proofs.Decoding.Lockstep
import WireGrammar.Proofs.Value.Numeral

/-!
# Formats are for show

Tests and triggers look at scalars as they are read, but conditions look at them as they are shown.
Still the formats of a grammar do not steer the decoding, and any of them can be erased, as long as
no condition asks for the field, or the field is always a number: then its numeral agrees with the
same literals.

* `Erasable`: the fields whose formats can be erased;
* `parseTopLevel_of_erases`: a packet is decoded alike without these formats;
* `parseTopLevel_retargeted`: it is not enough that the triggers of the grammar leave a field alone,
  since the context may bring triggers of its own.
-/

namespace WireGrammar

variable {g g' : Grammar} {o : Options} {entry ctx : StreamContext} {s s' : Structure}
  {f : FieldDescriptor}

/-! ### Formats that no trigger sets -/

/-- Formats stand in declarations only: not in a table, not in the context. -/
def FixedFormats (g : Grammar) (ctx : StreamContext) : Prop :=
  g.everyInTables (·.notFormat) = true ∧ ctx.every (·.notFormat) = true

instance (g : Grammar) (ctx : StreamContext) : Decidable (FixedFormats g ctx) := by
  unfold FixedFormats
  infer_instance

/-- Where formats stand in declarations only, a field is shown in the format of its own. -/
theorem Memory.Sourced.format_effective (fixed : FixedFormats g entry) {m : Memory}
    (h : m.Sourced g entry s) (f : FieldDescriptor) :
    (m.effective f).format = f.attributes.format := by
  have none : ∀ holder v, v.kind = .format → holder.isByName = true →
      ¬Arises g entry holder v := by
    intro holder v format byName arises
    have passes := (arises.every_of_byName fixed.1 fixed.2
      fun _ _ _ read set => AttributeValue.notFormat_of_ofValue? read set).2 byName
    have other := AttributeValue.self_of_every passes
    rw [AttributeValue.notFormat, format] at other
    cases other
  have same : (m.effective f).get? .format = f.attributes.get? .format :=
    h.get?_effective f (fun v format => none _ v format rfl) fun v format => none _ v format rfl
  exact Option.map_injective (fun _ _ h => AttributeValue.format.inj h) same

/-! ### Fields whose formats can be erased -/

/-- The value is no list of conditions with one on the fields of this name. -/
def AttributeValue.asksNot (name : String) : AttributeValue → Bool
  | .conditions cs => cs.all (·.field != name)
  | _ => true

/-- No condition asks for the fields of this name: not in a declaration, not in a table, not in the
context. -/
def Unasked (g : Grammar) (ctx : StreamContext) (name : String) : Prop :=
  g.every (·.asksNot name) = true ∧ ctx.every (·.asksNot name) = true

/-- Scalars of this length are numbers below `2 ^ 64`. -/
def Length.isInteger : Length → Bool
  | .varint => true
  | .packetNumber => true
  | .bits n => 1 ≤ n && n ≤ 64 && (n % 8 != 0 || n == 8 || n == 16 || n == 32 || n == 64)
  | .rest => false

/-- The format of the field can be erased: no condition asks for it, or it is declared as a number
and nothing changes that. -/
def Erasable (g : Grammar) (ctx : StreamContext) (f : FieldDescriptor) : Prop :=
  Unasked g ctx f.name ∨
    f.attributes.length.any (·.isInteger) = true ∧ Untouched g ctx f.name

/-- The same descriptor, or a field that loses its format. -/
inductive Descriptor.Erases (may : FieldDescriptor → Prop) : Descriptor → Descriptor → Prop where
  | kept (d : Descriptor) : Erases may d d
  | erased (f : FieldDescriptor) (h : may f) : Erases may (.field f) (.field (f.withFormat none))

/-- The same structure, but some fields lose their formats. -/
structure Structure.Erases (may : FieldDescriptor → Prop) (s s' : Structure) : Prop where
  name : s'.name = s.name
  descriptors : List.Forall₂ (Descriptor.Erases may) s.descriptors s'.descriptors

/-- The same grammar, but some fields lose their formats. -/
structure Grammar.Erases (may : FieldDescriptor → Prop) (g g' : Grammar) : Prop where
  roots : g'.roots = g.roots
  structures : List.Forall₂ (Structure.Erases may) g.structures g'.structures

section Erases

variable {may : FieldDescriptor → Prop} {d d' : Descriptor}

theorem Descriptor.Erases.like (h : d.Erases may d') : d.Like d' := by
  cases h with
  | kept d => exact .refl d
  | erased f h => exact .field f none

theorem Structure.Erases.like (h : s.Erases may s') : s.Like s' where
  name := h.name
  descriptors := h.descriptors.imp fun _ _ erases => erases.like

theorem Grammar.Erases.like (h : g.Erases may g') : g.Like g' where
  roots := h.roots
  structures := h.structures.imp fun _ _ erases => erases.like

/-- A field with another format has lost it. -/
theorem Grammar.Erases.field (h : g.Erases may g') (pair : g.Pair g' s s')
    {format : Option Format} (own : s.Pair s' (.field f) (.field (f.withFormat format))) :
    f.withFormat format = f ∨ format = none ∧ may f := by
  have structures := (List.forall₂_iff_zip.mp h.structures).2 pair
  have erases := (List.forall₂_iff_zip.mp structures.descriptors).2 own
  generalize there : Descriptor.field (f.withFormat format) = d' at erases
  cases erases with
  | kept => exact .inl (Descriptor.field.inj there)
  | erased _ allowed =>
    have same := congrArg (·.attributes.format) (Descriptor.field.inj there)
    exact .inr ⟨same, allowed⟩

end Erases

/-! ### The same tree without formats -/

mutual

/-- The second field is the first one without its format, if its descriptor has lost it. -/
inductive DecodedField.Unformatted (g g' : Grammar) :
    Structure → Structure → DecodedField → DecodedField → Prop where
  | kept {s s' : Structure} {f : FieldDescriptor} (own : s.Pair s' (.field f) (.field f))
      (value : Value) (start stop : Nat) :
      DecodedField.Unformatted g g' s s' (.scalar f.name value start stop)
        (.scalar f.name value start stop)
  | erased {s s' : Structure} {f : FieldDescriptor} {format : Format}
      (own : s.Pair s' (.field f) (.field (f.withFormat none)))
      (given : f.attributes.format = some format) (raw : Value) (start stop : Nat) :
      DecodedField.Unformatted g g' s s' (.scalar f.name (format.apply raw) start stop)
        (.scalar f.name raw start stop)
  | nested {s s' : Structure} {d d' : DecodedStructure} (name : String) (start stop : Nat)
      (inner : DecodedStructure.Unformatted g g' d d') :
      DecodedField.Unformatted g g' s s' (.nested name d start stop) (.nested name d' start stop)

/-- The second structure is the first one without the formats that its descriptors have lost; names,
fields and places are the same. -/
inductive DecodedStructure.Unformatted (g g' : Grammar) :
    DecodedStructure → DecodedStructure → Prop where
  | mk {s s' : Structure} {fields fields' : List DecodedField} (pair : g.Pair g' s s')
      (start stop : Nat) (as_many : fields.length = fields'.length)
      (each : ∀ a a', (a, a') ∈ fields.zip fields' → DecodedField.Unformatted g g' s s' a a') :
      DecodedStructure.Unformatted g g' ⟨s.name, fields, start, stop⟩
        ⟨s.name, fields', start, stop⟩

end

/-! ### What conditions can tell -/

/-- A condition that a field may be decoded with. -/
def Asks (g : Grammar) (entry : StreamContext) (c : Condition) : Prop :=
  ∃ s f cs, Arises g entry (.field s f) (.conditions cs) ∧ c ∈ cs

/-- Conditions cannot tell the fields apart. -/
structure DecodedField.Indistinct (g : Grammar) (entry : StreamContext) (a a' : DecodedField) :
    Prop where
  name : a'.name = a.name
  agree : ∀ c, Asks g entry c → c.field = a.name →
    a'.value?.any (c.op.holds · c.literal) = a.value?.any (c.op.holds · c.literal)

theorem Condition.holds_eq (fields : List DecodedField) (c : Condition) :
    c.holds fields =
      (fields.find? (·.name == c.field)).any fun a => a.value?.any (c.op.holds · c.literal) := by
  unfold Condition.holds
  cases fields.find? (·.name == c.field) with
  | none => rfl
  | some a => cases h : a.value? <;> simp [h]

/-- Among fields that cannot be told apart, all fields are present alike. -/
theorem isPresent_of_indistinct {fields fields' : List DecodedField}
    (h : List.Forall₂ (DecodedField.Indistinct g entry) fields fields') {m : Memory}
    (sourced : m.Sourced g entry s) (mem : s ∈ g.structures) (own : .field f ∈ s.descriptors) :
    (m.effective f).isPresent fields' = (m.effective f).isPresent fields := by
  unfold FieldAttributes.isPresent
  cases given : (m.effective f).conditions with
  | none => rfl
  | some cs =>
    have effective : (m.effective f).get? .conditions = some (.conditions cs) := by
      rw [FieldAttributes.get?, given]
      rfl
    have arises := sourced.effective mem own effective
    have same : ∀ c ∈ cs, c.holds fields' = c.holds fields := by
      intro c asked
      rw [Condition.holds_eq, Condition.holds_eq]
      have search := find?_of_forall₂ h (p := (·.name == c.field)) (q := (·.name == c.field))
        fun a a' alike => by rw [alike.name]
      rcases search with ⟨here, there⟩ | ⟨a, a', here, there, alike⟩
      · rw [here, there]
      · have named := List.find?_some here
        rw [here, there, Option.any_some, Option.any_some]
        exact alike.agree c ⟨s, f, cs, arises, asked⟩ (eq_of_beq named).symm
    rw [Option.getD_some, Bool.eq_iff_iff, List.all_eq_true, List.all_eq_true]
    exact forall₂_congr fun c asked => by rw [same c asked]

/-- The scalar of such a length is a number below `2 ^ 64`. -/
theorem BitCursor.Reads.number_of_isInteger {c : BitCursor} {length : Length} {r : Reading}
    (h : c.Reads length r) (integer : length.isInteger = true) :
    ∃ n, r.value = .uint n ∧ n < Word.size 64 := by
  obtain ⟨n, number⟩ : ∃ n, r.value = .uint n := by
    cases h with
    | varint => exact ⟨_, rfl⟩
    | packetNumber => exact ⟨_, rfl⟩
    | rest => cases integer
    | nothing => cases integer
    | @block width aligned some enough =>
      have few : (c.peekBytes width).length = width := BitCursor.length_peekBytes enough
      have small : width = 1 ∨ width = 2 ∨ width = 4 ∨ width = 8 := by
        simp [Length.isInteger] at integer
        omega
      refine ⟨Bytes.number (c.peekBytes width), ?_⟩
      rw [Value.ofBytes, few, if_pos small]
    | run => exact ⟨_, rfl⟩
  exact ⟨n, number, h.lt_of_uint number⟩

/-! ### The two runs -/

/-- A field that may lose its format is either not asked for, or shown as a text that agrees with
the same literals as the number it is. -/
theorem matches_apply_of_erasable (h : Erasable g entry f) (asked : ¬Unasked g entry f.name)
    {m : Memory} (sourced : m.Sourced g entry s) {c : BitCursor} {fields : List DecodedField}
    {length : Length} {r : Reading} {m' : Memory} (turn : ScalarTurn o f c fields m length r m')
    (format : Format) (l : Literal) : (format.apply r.value).matches l = r.value.matches l := by
  rcases h with unasked | ⟨integer, untouched⟩
  · exact absurd unasked asked
  · have sized : f.attributes.length = some length := by
      rw [← untouched.effective_eq sourced rfl]
      exact turn.sized
    rw [sized, Option.any_some] at integer
    obtain ⟨n, value, small⟩ :=
      (BitCursor.readScalar_eq_ok.mp turn.read).number_of_isInteger integer
    have fits : n < Word.size 127 := Nat.lt_of_lt_of_le small (Word.size_le (by decide))
    exact Value.matches_apply_of_number (.inl value) fits format l

/-- Literals that agree with the same scalars pass the same comparisons. -/
theorem CompareOp.holds_congr {v w : Value} {l : Literal} (h : v.matches l = w.matches l)
    (op : CompareOp) : op.holds v l = op.holds w l := by
  cases op with
  | eq => exact h
  | neq => exact congrArg (!·) h

/-- A condition that comes about for a field asks for none that no condition asks for. -/
theorem not_asks_of_unasked {name : String} (h : Unasked g entry name) {c : Condition}
    (asks : Asks g entry c) : c.field ≠ name := by
  obtain ⟨s, f, cs, arises, mem⟩ := asks
  have passes := arises.every h.1 h.2 fun kind raw v _ value => by
    obtain ⟨same, -⟩ := AttributeValue.kind_of_ofValue? value
    cases v with
    | conditions cs =>
      rw [← same] at value
      cases value
    | _ => rfl
  have none := AttributeValue.self_of_every passes
  simp only [AttributeValue.asksNot, List.all_eq_true, bne_iff_ne] at none
  exact none c mem

/-- A scalar with its format and the same scalar without it are fields that conditions cannot tell
apart. -/
theorem lockstep_scalar (fixed : FixedFormats g entry) (h : g.Erases (Erasable g entry) g')
    (pair : g.Pair g' s s') {format : Option Format}
    (own : s.Pair s' (.field f) (.field (f.withFormat format))) {m m' : Memory}
    (sourced : m.Sourced g entry s) {c : BitCursor} {fields : List DecodedField}
    {length : Length} {r : Reading} (turn : ScalarTurn o f c fields m length r m') :
    DecodedField.Unformatted g g' s s' (scalarField f c m r)
        (scalarField (f.withFormat format) c m r) ∧
      DecodedField.Indistinct g entry (scalarField f c m r)
        (scalarField (f.withFormat format) c m r) := by
  have kept (same : f.withFormat format = f) :
      DecodedField.Unformatted g g' s s' (scalarField f c m r)
          (scalarField (f.withFormat format) c m r) ∧
        DecodedField.Indistinct g entry (scalarField f c m r)
          (scalarField (f.withFormat format) c m r) := by
    rw [same] at own ⊢
    exact ⟨.kept own _ _ _, rfl, fun _ _ _ => rfl⟩
  rcases h.field pair own with same | ⟨rfl, erasable⟩
  · exact kept same
  · cases given : f.attributes.format with
    | none =>
      refine kept ?_
      rw [FieldDescriptor.withFormat, ← given]
    | some format =>
      have shown : (m.effective f).shown r.value = format.apply r.value := by
        rw [FieldAttributes.shown, sourced.format_effective fixed, given]
      have bare : (m.effective (f.withFormat none)).shown r.value = r.value := by
        rw [FieldAttributes.shown, sourced.format_effective fixed]
        rfl
      unfold scalarField
      rw [shown, bare]
      refine ⟨.erased own given _ _ _, rfl, fun condition asks named => ?_⟩
      by_cases unasked : Unasked g entry f.name
      · exact absurd named (not_asks_of_unasked unasked asks)
      · have agree := matches_apply_of_erasable erasable unasked sourced turn format
        exact (condition.op.holds_congr (agree condition.literal)).symm

/-- A run with formats and one without them are in step. -/
theorem lockstep_of_erases (fixed : FixedFormats g entry) (h : g.Erases (Erasable g entry) g') :
    Lockstep g g' o entry 0
      (fun s s' a a' => DecodedField.Unformatted g g' s s' a a' ∧
        DecodedField.Indistinct g entry a a')
      (DecodedStructure.Unformatted g g') where
  like := h.like
  present := by
    intro s s' f m fields fields' pair own sourced related
    have indistinct : List.Forall₂ (DecodedField.Indistinct g entry) fields fields' :=
      related.imp fun _ _ both => both.2
    exact isPresent_of_indistinct indistinct sourced (List.of_mem_zip pair).1 own
  scalar := by
    intro s s' f format c fields m length r m' pair own sourced turn
    exact lockstep_scalar fixed h pair own sourced turn
  nested := by
    intro s s' d d' name related
    have places : d'.start = d.start ∧ d'.stop = d.stop := by
      cases related
      exact ⟨rfl, rfl⟩
    rw [places.1, places.2]
    exact ⟨.nested name d.start d.stop related, rfl, fun _ _ _ => rfl⟩
  finish := by
    intro s s' fields fields' pair related offset n
    obtain ⟨as_many, each⟩ := List.forall₂_iff_zip.mp related
    exact .mk pair offset (offset + n) as_many fun a a' mem => (each mem).1

/-- If formats stand in declarations only, they can be erased from fields that no condition asks
for, and from fields that are declared as numbers and stay so: a packet fails for the same reason in
the same context, or is decoded to the same tree, which shows the scalars of these fields as they
are. -/
theorem parseTopLevel_of_erases (fixed : FixedFormats g ctx) (h : g.Erases (Erasable g ctx) g')
    (o : Options) (packet : List UInt8) :
    (∃ cause, parseTopLevel g o packet ctx = (.error cause, ctx) ∧
      parseTopLevel g' o packet ctx = (.error cause, ctx)) ∨
    ∃ tree tree' ctx', parseTopLevel g o packet ctx = (.ok tree, ctx') ∧
      parseTopLevel g' o packet ctx = (.ok tree', ctx') ∧
      List.Forall₂ (DecodedStructure.Unformatted g g') tree.structures tree'.structures :=
  (lockstep_of_erases fixed h).parseTopLevel packet

/-- A field that no condition asks for, one that a condition asks for, and one that is there only if
the condition holds. -/
def labelled (first second : Option Format) : Grammar where
  roots := ["Packet"]
  structures := [
    ⟨"Packet", [
      .field ⟨"label", { length := some (.bits 24), format := first }, false⟩,
      .field ⟨"size", { length := some .varint, format := second }, false⟩,
      .field ⟨"body", {
        length := some (.bits 8)
        format := some .dec
        conditions := some [⟨"size", .eq, .str " 0X0102 "⟩] }, false⟩]⟩]

theorem parseTopLevel_of_erases_labelled :
    FixedFormats (labelled (some .ascii) (some .hex)) .empty ∧
    (labelled (some .ascii) (some .hex)).Erases
      (Erasable (labelled (some .ascii) (some .hex)) .empty) (labelled none none) ∧
    ∃ tree tree' ctx',
      parseTopLevel (labelled (some .ascii) (some .hex)) {} [0x61, 0x62, 0x63, 0x41, 0x02, 7]
          .empty = (.ok tree, ctx') ∧
      parseTopLevel (labelled none none) {} [0x61, 0x62, 0x63, 0x41, 0x02, 7] .empty =
        (.ok tree', ctx') ∧
      tree.leaves.map (·.value?) = [some (.text "abc"), some (.text "0x102"), some (.text "7")] ∧
      tree'.leaves.map (·.value?) =
        [some (.bytes [0x61, 0x62, 0x63]), some (.uint 0x102), some (.text "7")] ∧
      List.Forall₂ (DecodedStructure.Unformatted (labelled (some .ascii) (some .hex))
        (labelled none none)) tree.structures tree'.structures := by
  have fixed : FixedFormats (labelled (some .ascii) (some .hex)) .empty := by decide +kernel
  have label : Erasable (labelled (some .ascii) (some .hex)) .empty
      ⟨"label", { length := some (.bits 24), format := some .ascii }, false⟩ :=
    .inl ⟨by decide +kernel, by decide⟩
  have size : Erasable (labelled (some .ascii) (some .hex)) .empty
      ⟨"size", { length := some .varint, format := some .hex }, false⟩ :=
    .inr ⟨by decide, by decide +kernel⟩
  have erases : (labelled (some .ascii) (some .hex)).Erases
      (Erasable (labelled (some .ascii) (some .hex)) .empty) (labelled none none) :=
    ⟨rfl, .cons ⟨rfl, .cons (.erased _ label) (.cons (.erased _ size) (.cons (.kept _) .nil))⟩ .nil⟩
  have shown : (parseTopLevel (labelled (some .ascii) (some .hex)) {}
      [0x61, 0x62, 0x63, 0x41, 0x02, 7] .empty).1.toOption.map
        (fun tree => tree.leaves.map (·.value?)) =
      some [some (.text "abc"), some (.text "0x102"), some (.text "7")] := by decide +kernel
  have bare : (parseTopLevel (labelled none none) {}
      [0x61, 0x62, 0x63, 0x41, 0x02, 7] .empty).1.toOption.map
        (fun tree => tree.leaves.map (·.value?)) =
      some [some (.bytes [0x61, 0x62, 0x63]), some (.uint 0x102), some (.text "7")] := by
    decide +kernel
  refine ⟨fixed, erases, ?_⟩
  rcases parseTopLevel_of_erases fixed erases {} [0x61, 0x62, 0x63, 0x41, 0x02, 7] with
    ⟨cause, failed, -⟩ | ⟨tree, tree', ctx', ok, ok', related⟩
  · rw [failed] at shown
    cases shown
  · rw [ok] at shown
    rw [ok'] at bare
    exact ⟨tree, tree', ctx', ok, ok', Option.some.inj shown, Option.some.inj bare, related⟩

/-! ### Triggers of the context -/

/-- Keeps triggers for the fields named `h`, by which they give `f` another length. -/
def retargeting : Grammar where
  roots := ["S"]
  structures := [
    ⟨"S", [.field ⟨"a", { length := some (.bits 8), triggers := some [
      .onField "h" [.lookup .triggers [(.int 1, .triggers [
        .onField "f" [.lookup .length [(.int 5, .length (.bits 128))]]])]],
      .saveToContext] }, false⟩]⟩]

/-- Without triggers of its own; `z` is there only if `f` is shown as this numeral. -/
def retargeted (format : Option Format) : Grammar where
  roots := ["S"]
  structures := [
    ⟨"S", [
      .field ⟨"h", { length := some (.bits 8) }, false⟩,
      .field ⟨"f", { length := some (.bits 8), format }, false⟩,
      .field ⟨"z", {
        length := some (.bits 8)
        conditions := some [⟨"f", .eq, .str "0x80000000000000000000000000000000"⟩] }, false⟩]⟩]

/-- The format of a field may be missed if only the triggers of the grammar leave the field alone,
and the context has nothing for it: a trigger that the context holds for another field can still
make it a wide number, of which the numeral agrees with more literals than the number. -/
theorem parseTopLevel_retargeted :
    ∃ ctx, ctx = (parseTopLevel retargeting {} [1] .empty).2 ∧
      FixedFormats (retargeted (some .hex)) ctx ∧
      (retargeted (some .hex)).Erases (fun f =>
        Unasked (retargeted (some .hex)) ctx f.name ∨
          f.attributes.length.any (·.isInteger) = true ∧ ctx.get? f.name = none ∧
            (retargeted (some .hex)).every (·.spares f.name) = true) (retargeted none) ∧
      (∃ tree ctx', parseTopLevel (retargeted (some .hex)) {} (5 :: 0x80 :: .replicate 15 0 ++ [7])
        ctx = (.ok tree, ctx')) ∧
      ∃ cause ctx', parseTopLevel (retargeted none) {} (5 :: 0x80 :: .replicate 15 0 ++ [7]) ctx =
        (.error cause, ctx') := by
  have fixed : FixedFormats (retargeted (some .hex))
      (parseTopLevel retargeting {} [1] .empty).2 := by
    decide +kernel
  have absent : (parseTopLevel retargeting {} [1] .empty).2.get? "f" = none :=
    Option.isNone_iff_eq_none.mp (by decide +kernel)
  have shown : (parseTopLevel (retargeted (some .hex)) {} (5 :: 0x80 :: .replicate 15 0 ++ [7])
      (parseTopLevel retargeting {} [1] .empty).2).1.toOption.isSome = true := by decide +kernel
  have bare : (parseTopLevel (retargeted none) {} (5 :: 0x80 :: .replicate 15 0 ++ [7])
      (parseTopLevel retargeting {} [1] .empty).2).1.toOption.isSome = false := by decide +kernel
  refine ⟨_, rfl, fixed, ⟨rfl, .cons ⟨rfl, ?_⟩ .nil⟩, ?_, ?_⟩
  · exact .cons (.kept _) (.cons (.erased _ (.inr ⟨by decide, absent, by decide +kernel⟩))
      (.cons (.kept _) .nil))
  · obtain ⟨tree, decoded⟩ := Option.isSome_iff_exists.mp shown
    exact ⟨tree, _, eq_ok_of_toOption decoded⟩
  · cases decoded : parseTopLevel (retargeted none) {} (5 :: 0x80 :: .replicate 15 0 ++ [7])
      (parseTopLevel retargeting {} [1] .empty).2 with
    | mk res after =>
      rw [decoded] at bare
      cases res with
      | ok tree => cases bare
      | error cause => exact ⟨cause, after, rfl⟩

end WireGrammar
