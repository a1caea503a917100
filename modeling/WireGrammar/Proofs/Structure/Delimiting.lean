import WireGrammar.Proofs.Attribute.Layering
import WireGrammar.Proofs.Structure.Cut
import WireGrammar.Proofs.Structure.Repetition

/-!
# Structures that depend on the bytes they take, and on no others

Where the bytes end, a structure ends, unless something is missing; where they go on, fields that
are not present are passed over.  For scalars that take bits this makes no difference.  So it can be
told without looking at the end of the bytes what such a structure comes to, and bytes behind those
it takes may be cut off, added or changed.

* `Structure.Delimiting`: the fields of a structure are scalars that take bits;
* `Walk`: what they come to, wherever the bytes end;
* `parseDescriptors_iff_walk`: such a structure is decoded by a walk over its fields;
* `Walk.on`: a walk is the same on all bytes that start with those it takes;
* `parseStructure_of_take`: and so is the structure.
-/

namespace WireGrammar

variable {o : Options} {parse : TargetParser} {s : Structure} {ctx : StreamContext}
  {input input' : Slice}

/-! ### Fields that stay as they are declared -/

/-- The fields of the structure are scalars of lengths that take bits, neither repeated nor changed
by triggers of the structure or the context, and no structure follows. -/
structure Structure.Delimiting (s : Structure) (ctx : StreamContext) : Prop where
  last : ∀ name, .next name ∉ s.descriptors
  once : ∀ f ∈ s.fields, f.repeated = false
  own : ∀ f ∈ s.fields, f.attributes.parse = none
  sized : ∀ f ∈ s.fields, f.attributes.length.any Length.takesBits = true
  untargeted : ∀ f ∈ s.fields, ∀ t ∈ f.attributes.triggers.getD [], ∀ h ∈ s.fields,
    t.targets h.name = false
  absent : ∀ f ∈ s.fields, ctx.get? f.name = none

theorem Structure.mem_fields {f : FieldDescriptor} :
    f ∈ s.fields ↔ .field f ∈ s.descriptors := by
  simp only [fields, List.mem_filterMap]
  constructor
  · rintro ⟨d, mem, own⟩
    cases d <;> cases own
    exact mem
  · exact fun mem => ⟨_, mem, rfl⟩

/-- Nothing is kept for the fields of the structure. -/
def Memory.Silent (s : Structure) (m : Memory) : Prop :=
  ∀ f ∈ s.fields, m.overrides.get? f.name = none ∧ m.context.get? f.name = none

namespace Memory.Silent

variable {m m' : Memory} {f : FieldDescriptor}

theorem effective_eq (h : m.Silent s) (mem : f ∈ s.fields) : m.effective f = f.attributes := by
  obtain ⟨pending, kept⟩ := h f mem
  rw [effective, given, given, pending, kept, Option.getD_none, FieldAttributes.merge_empty,
    FieldAttributes.merge_empty]

/-- Triggers that leave the fields alone keep the memory silent about them. -/
theorem change {raw : Value} {ts : List Trigger} (h : m.Silent s)
    (others : ∀ t ∈ ts, ∀ f ∈ s.fields, t.targets f.name = false) (changed : m.Change raw ts m') :
    m'.Silent s := by
  have override {target : String} {rules : List TriggerRule}
      (trigger : .onField target rules ∈ ts) (v : AttributeValue) :
      Silent s { m with overrides := m.overrides.override target v } := by
    intro f mem
    have other := others _ trigger f mem
    simp only [Trigger.targets, beq_eq_false_iff_ne] at other
    refine ⟨?_, (h f mem).2⟩
    rw [AttributeTable.get?_override, if_neg (Ne.symm other)]
    exact (h f mem).1
  cases changed with
  | set trigger rule value => exact override trigger _
  | lookup trigger rule mem => exact override trigger _
  | save trigger =>
    intro f mem
    refine ⟨(h f mem).1, ?_⟩
    rw [AttributeTable.get?_merge, (h f mem).1]
    exact (h f mem).2

end Memory.Silent

namespace Structure.Delimiting

variable (delimiting : s.Delimiting ctx) {m m' : Memory} {f : FieldDescriptor}

include delimiting

theorem silent_start : Memory.Silent s ⟨.empty, ctx⟩ :=
  fun f mem => ⟨rfl, delimiting.absent f mem⟩

theorem exists_length (mem : f ∈ s.fields) :
    ∃ length, f.attributes.length = some length ∧ length.takesBits = true :=
  (Option.any_eq_true _ _).mp (delimiting.sized f mem)

/-- A field that is present is decoded as a scalar. -/
theorem not_idle (mem : f ∈ s.fields) (silent : m.Silent s) {fields : List DecodedField}
    (idle : Idle f fields m) : (m.effective f).isPresent fields = false := by
  obtain ⟨length, sized, -⟩ := delimiting.exists_length mem
  refine idle.resolve_right fun unsized => ?_
  rw [silent.effective_eq mem, sized] at unsized
  cases unsized.2

theorem silent_of_turn (mem : f ∈ s.fields) (silent : m.Silent s) {c : BitCursor}
    {fields : List DecodedField} {length : Length} {r : Reading}
    (turn : ScalarTurn o f c fields m length r m') :
    m'.Silent s ∧ length.takesBits = true := by
  have attributes := silent.effective_eq mem
  have fired := turn.fired
  rw [attributes] at fired
  obtain ⟨length', sized, takesBits⟩ := delimiting.exists_length mem
  have same := turn.sized
  rw [attributes, sized] at same
  cases same
  exact ⟨fireAll_invariant (Memory.Silent s)
    (fun _ _ h changed => h.change (delimiting.untargeted f mem) changed) silent fired, takesBits⟩

/-- No field is taken out. -/
theorem prunesField_eq_false (mem : f ∈ s.fields) (silent : m.Silent s) (raw : Value)
    {h : FieldDescriptor} (own : h ∈ s.fields) :
    prunesField o raw ((m.effective f).triggers.getD []) h.name = false := by
  rw [silent.effective_eq mem, prunesField, Bool.and_eq_false_iff]
  refine .inr (List.any_eq_false.mpr fun t trigger prunes => ?_)
  have other := delimiting.untargeted f mem t trigger h own
  cases t with
  | saveToContext => cases prunes
  | onField target rules =>
    rw [Trigger.targets] at other
    rw [Trigger.prunesTarget, other] at prunes
    cases prunes

end Structure.Delimiting

/-! ### Walks -/

/-- The stage after a scalar. -/
def Stage.afterScalar (st : Stage) (f : FieldDescriptor) (r : Reading) (m : Memory) : Stage :=
  ⟨r.cursor, st.fields ++ [scalarField f st.cursor st.memory r], m⟩

/-- Fields are decoded one after the other, or passed over where they are not present, without
regard to the end of the bytes. -/
inductive Walk (o : Options) : Stage → List FieldDescriptor → Stage → Prop where
  | done (st : Stage) : Walk o st [] st
  | absent {st last : Stage} {f : FieldDescriptor} {fs : List FieldDescriptor}
      (here : (st.memory.effective f).isPresent st.fields = false) (rest : Walk o st fs last) :
      Walk o st (f :: fs) last
  | scalar {st last : Stage} {f : FieldDescriptor} {fs : List FieldDescriptor} {length : Length}
      {r : Reading} {m : Memory}
      (turn : ScalarTurn o f st.cursor st.fields st.memory length r m)
      (rest : Walk o (st.afterScalar f r m) fs last) : Walk o st (f :: fs) last

namespace Walk

variable {st last : Stage} {fs : List FieldDescriptor}

/-- Fields that are not present are passed over. -/
theorem of_absent (h : ∀ f ∈ fs, (st.memory.effective f).isPresent st.fields = false) :
    Walk o st fs st := by
  induction fs with
  | nil => exact .done st
  | cons f fs ih =>
    obtain ⟨first, later⟩ := List.forall_mem_cons.mp h
    exact .absent first (ih later)

variable (delimiting : s.Delimiting ctx)

include delimiting

theorem position_le (walk : Walk o st fs last) (own : ∀ f ∈ fs, f ∈ s.fields)
    (silent : st.memory.Silent s) : st.cursor.position ≤ last.cursor.position := by
  induction walk with
  | done => exact Nat.le_refl _
  | absent here rest ih => exact ih (List.forall_mem_cons.mp own).2 silent
  | scalar turn rest ih =>
    obtain ⟨mem, others⟩ := List.forall_mem_cons.mp own
    obtain ⟨silent', takesBits⟩ := delimiting.silent_of_turn mem silent turn
    have forward := (BitCursor.readScalar_eq_ok.mp turn.read).position_lt takesBits
    exact Nat.le_of_lt (Nat.lt_of_lt_of_le forward (ih others silent'))

/-- Where the bytes have ended, no field of a walk is present. -/
theorem eq_of_isExhausted (walk : Walk o st fs last) (own : ∀ f ∈ fs, f ∈ s.fields)
    (silent : st.memory.Silent s) (within : st.cursor.Within)
    (ended : st.cursor.isExhausted = true) :
    last = st ∧ ∀ f ∈ fs, (st.memory.effective f).isPresent st.fields = false := by
  induction walk with
  | done => exact ⟨rfl, List.forall_mem_nil _⟩
  | absent here rest ih =>
    obtain ⟨same, later⟩ := ih (List.forall_mem_cons.mp own).2 silent within ended
    exact ⟨same, List.forall_mem_cons.mpr ⟨here, later⟩⟩
  | scalar turn rest ih =>
    have takesBits :=
      (delimiting.silent_of_turn (List.forall_mem_cons.mp own).1 silent turn).2
    have reads := BitCursor.readScalar_eq_ok.mp turn.read
    have forward := reads.position_lt takesBits
    have inside := reads.within within
    have slice := (BitCursor.readScalar_forward turn.read).1
    rw [BitCursor.Within, slice] at inside
    have left := BitCursor.isExhausted_eq_false_iff.mpr (Nat.lt_of_lt_of_le forward inside)
    rw [ended] at left
    cases left

end Walk

/-! ### Structures are decoded by walks -/

/-- What the end of a walk is the outcome of. -/
def Stage.outcome (st : Stage) : StructureOutcome :=
  ⟨st.fields, st.cursor.consumedBytes, none, st.memory.context⟩

section Run

variable (delimiting : s.Delimiting ctx) {p : Progress} {ds : List Descriptor}

/-- The descriptors `ds` of the structure are left, and nothing is kept for its fields. -/
structure Progress.Left (s : Structure) (p : Progress) (ds : List Descriptor) : Prop where
  queue : p.queue = ds.map fun d => ⟨d, false⟩
  own : ∀ d ∈ ds, d ∈ s.descriptors
  silent : p.memory.Silent s
  within : p.cursor.Within

namespace Progress.Left

theorem mem_fields (h : p.Left s ds) : ∀ f ∈ ds.filterMap (·.field?), f ∈ s.fields := by
  intro f mem
  obtain ⟨d, mem, field⟩ := List.mem_filterMap.mp mem
  exact List.mem_filterMap.mpr ⟨d, h.own d mem, field⟩

theorem tail {d : Descriptor} (h : p.Left s (d :: ds)) :
    Left s { p with queue := ds.map fun d => ⟨d, false⟩ } ds where
  queue := rfl
  own := (List.forall_mem_cons.mp h.own).2
  silent := h.silent
  within := h.within

include delimiting

/-- The turn of a scalar takes nothing out and puts nothing back. -/
theorem afterScalar {f : FieldDescriptor} (h : p.Left s (.field f :: ds)) {length : Length}
    {r : Reading} {m : Memory} (turn : ScalarTurn o f p.cursor p.fields p.memory length r m) :
    ∃ q, q = (Progress.afterScalar o { p with queue := ds.map fun d => ⟨d, false⟩ } f.name
        (p.memory.effective f) r m).requeueIf f p.cursor (enoughLeft r.cursor length) ∧
      q.Left s ds ∧ q.stage = p.stage.afterScalar f r m := by
  have mem : f ∈ s.fields := Structure.mem_fields.mpr (h.own _ List.mem_cons_self)
  obtain ⟨silent, -⟩ := delimiting.silent_of_turn mem h.silent turn
  refine ⟨_, rfl, ?_, ?_⟩
  · rw [requeueIf, delimiting.once f mem]
    refine ⟨?_, h.tail.own, silent, (BitCursor.readScalar_eq_ok.mp turn.read).within h.within⟩
    refine List.filter_eq_self.mpr fun item waits => ?_
    obtain ⟨d, own, rfl⟩ := List.mem_map.mp waits
    cases d with
    | type | next => rfl
    | field g =>
      have kept := delimiting.prunesField_eq_false (o := o) mem h.silent r.value
        (Structure.mem_fields.mpr (h.tail.own _ own))
      simp only [Descriptor.field?, Option.any_some, kept, Bool.not_false]
  · rw [requeueIf, delimiting.once f mem]
    rfl

/-- At the end of the bytes, none of the fields left is present if none is missing, and the other
way round, as each of them would have to be there. -/
theorem missing?_eq_none (h : p.Left s ds) : p.missing? = none ↔
    ∀ f ∈ ds.filterMap (·.field?), (p.memory.effective f).isPresent p.fields = false := by
  have required {f : FieldDescriptor} (mem : f ∈ s.fields) :
      (p.memory.effective f).isRequired = true := by
    obtain ⟨length, sized, takesBits⟩ := delimiting.exists_length mem
    rw [h.silent.effective_eq mem]
    exact FieldAttributes.isRequired_of_takesBits sized takesBits
  have first : p.queue.filter (fun item => !item.again) = p.queue := by
    rw [h.queue]
    refine List.filter_eq_self.mpr fun item waits => ?_
    obtain ⟨d, -, rfl⟩ := List.mem_map.mp waits
    rfl
  rw [missing?, first, h.queue, List.findSome?_map, List.findSome?_eq_none_iff]
  constructor
  · intro none f mem
    have own := h.mem_fields f mem
    obtain ⟨d, mem, field⟩ := List.mem_filterMap.mp mem
    have here := none d mem
    simp only [Function.comp_apply, field, Option.filter, required own, Bool.and_true] at here
    simpa using here
  · intro absent d mem
    cases field : d.field? with
    | none => simp [Function.comp_apply, field]
    | some f =>
      have here := absent f (List.mem_filterMap.mpr ⟨d, mem, field⟩)
      simp [Function.comp_apply, field, Option.filter, here]

end Progress.Left

include delimiting

/-- A structure of such fields is decoded by a walk over them. -/
theorem walk_of_parseFields (h : p.Left s ds) {fin : Finish} {out : StructureOutcome}
    (run : parseFields o parse p = .ok fin) (ended : fin.outcome s = .ok out) :
    ∃ last, Walk o p.stage (ds.filterMap (·.field?)) last ∧ out = last.outcome := by
  induction ds generalizing p with
  | nil =>
    rw [parseFields_of_nil h.queue] at run
    cases run
    exact ⟨p.stage, .done _, Finish.outcome_eq_ok ended⟩
  | cons d ds ih =>
    cases left : p.cursor.isExhausted with
    | true =>
      -- The fields left are not looked at again, and it is the check for missing ones that tells
      -- that they are not present.
      rw [parseFields_of_exhausted left] at run
      cases run
      have complete := Finish.missing?_eq_none ended rfl left
      have absent := (h.missing?_eq_none delimiting).mp complete
      exact ⟨p.stage, .of_absent absent, Finish.outcome_eq_ok ended⟩
    | false =>
      cases d with
      | type name =>
        rw [parseFields_of_type left h.queue rfl] at run
        obtain ⟨last, walk, outcome⟩ := ih h.tail run
        exact ⟨last, walk, outcome⟩
      | next name => exact absurd (h.own _ List.mem_cons_self) (delimiting.last name)
      | field f =>
        have mem : f ∈ s.fields := Structure.mem_fields.mpr (h.own _ List.mem_cons_self)
        rw [parseFields_of_field left h.queue] at run
        obtain ⟨q, taken, run⟩ := bind_eq_ok.mp run
        cases parseField_eq_ok.mp taken with
        | idle idle =>
          obtain ⟨last, walk, outcome⟩ := ih h.tail run
          exact ⟨last, .absent (delimiting.not_idle mem h.silent idle) walk, outcome⟩
        | scalar turn =>
          obtain ⟨q, rfl, left', stage⟩ := h.afterScalar delimiting turn
          obtain ⟨last, walk, outcome⟩ := ih left' run
          rw [stage] at walk
          exact ⟨last, .scalar turn walk, outcome⟩
        | target turn =>
          have delegated := turn.delegated
          rw [h.silent.effective_eq mem, delimiting.own f mem] at delegated
          cases delegated

/-- What a walk comes to, a structure of such fields is decoded to. -/
theorem parseFields_of_walk (h : p.Left s ds) {last : Stage}
    (walk : Walk o p.stage (ds.filterMap (·.field?)) last) :
    (parseFields o parse p).bind (·.outcome s) = .ok last.outcome := by
  induction ds generalizing p with
  | nil =>
    cases walk
    rw [parseFields_of_nil h.queue]
    exact Finish.outcome_of_complete fun _ =>
      (h.missing?_eq_none delimiting).mpr (List.forall_mem_nil _)
  | cons d ds ih =>
    cases left : p.cursor.isExhausted with
    | true =>
      obtain ⟨rfl, absent⟩ :=
        walk.eq_of_isExhausted delimiting h.mem_fields h.silent h.within left
      rw [parseFields_of_exhausted left]
      exact Finish.outcome_of_complete fun _ => (h.missing?_eq_none delimiting).mpr absent
    | false =>
      cases d with
      | type name =>
        rw [parseFields_of_type left h.queue rfl]
        exact ih h.tail walk
      | next name => exact absurd (h.own _ List.mem_cons_self) (delimiting.last name)
      | field f =>
        rw [parseFields_of_field left h.queue]
        cases walk with
        | absent here rest =>
          have turn : parseField o parse f { p with queue := ds.map fun d => ⟨d, false⟩ } = .ok _ :=
            parseField_eq_ok.mpr (.idle (.inl here))
          rw [turn]
          exact ih h.tail rest
        | scalar turn rest =>
          obtain ⟨q, same, left', stage⟩ := h.afterScalar delimiting turn
          have taken : parseField o parse f { p with queue := ds.map fun d => ⟨d, false⟩ } =
              .ok q := parseField_eq_ok.mpr (same ▸ .scalar turn)
          rw [taken]
          exact ih left' (stage ▸ rest)

/-- **Such a structure is decoded by a walk over its fields**, whatever the bytes behind it. -/
theorem parseDescriptors_iff_walk {out : StructureOutcome} :
    parseDescriptors o parse s input ctx = .ok out ↔
      ∃ last, Walk o (.start input ctx) s.fields last ∧ out = last.outcome := by
  have start : (Progress.start s input ctx).Left s s.descriptors :=
    ⟨rfl, fun _ mem => mem, delimiting.silent_start, BitCursor.within_start input⟩
  constructor
  · intro h
    obtain ⟨fin, run, ended⟩ := bind_eq_ok.mp h
    exact walk_of_parseFields delimiting start run ended
  · rintro ⟨last, walk, rfl⟩
    exact parseFields_of_walk delimiting start walk

end Run

/-! ### Bytes that start alike -/

/-- The slices start with the same `k` bytes, at the same offset. -/
structure Slice.Alike (k : Nat) (input input' : Slice) : Prop where
  offset : input'.offset = input.offset
  enough : k ≤ input'.length
  bytes : input'.bytes.take k = input.bytes.take k

namespace BitCursor

/-- The cursor at the same place of other bytes. -/
def on (c : BitCursor) (input : Slice) : BitCursor := { c with slice := input }

@[simp] theorem isAligned_on (c : BitCursor) (input : Slice) :
    (c.on input).isAligned = c.isAligned := rfl

variable {c : BitCursor} {k n width : Nat} {length : Length} {r : Reading}
  (alike : c.slice.Alike k input')

include alike

theorem remainingBytes_on (inside : c.byteIndex + n ≤ k) : n ≤ (c.on input').remainingBytes := by
  have enough := alike.enough
  have here : (c.on input').remainingBytes = input'.length - c.byteIndex := rfl
  omega

theorem peekBytes_on (inside : c.byteIndex + n ≤ k) :
    (c.on input').peekBytes n = c.peekBytes n := by
  have front (bytes : List UInt8) :
      (bytes.drop c.byteIndex).take n = ((bytes.take k).drop c.byteIndex).take n := by
    rw [List.drop_take, List.take_take, Nat.min_eq_left (by omega)]
  have there : (c.on input').peekBytes n = (input'.bytes.drop c.byteIndex).take n := rfl
  rw [there, front, alike.bytes, ← front]
  rfl

theorem pattern_on (inside : c.byteIndex + 1 ≤ k) : (c.on input').pattern = c.pattern := by
  rw [pattern, peekBytes_on alike inside]
  rfl

theorem prefixedValue_on (inside : c.byteIndex + width ≤ k) :
    (c.on input').prefixedValue width = c.prefixedValue width := by
  rw [prefixedValue, peekBytes_on alike inside]
  rfl

theorem peekBits_on (inside : c.position + n ≤ 8 * k) :
    (c.on input').peekBits n = c.peekBits n := by
  have held : c.byteIndex + (c.bitOffset + n + 7) / 8 ≤ k := by
    have := c.position_eq
    omega
  have same := peekBytes_on alike held
  simp only [peekBits]
  exact congrArg (Bytes.number · / _ % _) same

/-- A scalar is read from bytes that start with all it takes. -/
theorem Reads.on (h : c.Reads length r) (takesBits : length.takesBits = true)
    (inside : r.cursor.position ≤ 8 * k) :
    (c.on input').Reads length { r with cursor := r.cursor.on input' } := by
  have behind {width : Nat} (aligned : c.isAligned) (last : c.position + 8 * width ≤ 8 * k) :
      c.byteIndex + width ≤ k := by
    have := byteIndex_of_isAligned aligned
    omega
  cases h with
  | @varint width aligned announced enough =>
    have last := behind aligned inside
    have some : 1 ≤ width := announced ▸ one_le_varintWidth c.pattern
    rw [← pattern_on alike (by omega)] at announced
    rw [← prefixedValue_on alike last]
    exact .varint aligned announced
      ⟨remainingBytes_on alike (by omega), remainingBytes_on alike last⟩
  | @packetNumber width aligned announced enough =>
    have last := behind aligned inside
    have some := one_le_packetNumberWidth? announced
    rw [← pattern_on alike (by omega)] at announced
    rw [← prefixedValue_on alike last]
    exact .packetNumber aligned announced
      ⟨remainingBytes_on alike (by omega), remainingBytes_on alike last⟩
  | rest | nothing => cases takesBits
  | block aligned some enough =>
    have last := behind aligned inside
    rw [← peekBytes_on alike last]
    exact .block aligned some (remainingBytes_on alike last)
  | @run n some ragged narrow enough =>
    rw [← peekBits_on alike inside]
    refine .run some ragged narrow ?_
    have enough := alike.enough
    have here : (c.on input').remainingBits = 8 * input'.length - c.position := rfl
    rw [here]
    simp only [position_skip] at inside
    omega

end BitCursor

/-- The stage at the same place of other bytes. -/
def Stage.on (st : Stage) (input : Slice) : Stage := { st with cursor := st.cursor.on input }

/-- **A walk is the same on bytes that start with all it takes.** -/
theorem Walk.on {st last : Stage} {fs : List FieldDescriptor} {k : Nat}
    (walk : Walk o st fs last) (delimiting : s.Delimiting ctx) (own : ∀ f ∈ fs, f ∈ s.fields)
    (silent : st.memory.Silent s) (alike : st.cursor.slice.Alike k input')
    (inside : last.cursor.position ≤ 8 * k) : Walk o (st.on input') fs (last.on input') := by
  induction walk with
  | done => exact .done _
  | absent here rest ih =>
    exact .absent here (ih (List.forall_mem_cons.mp own).2 silent alike inside)
  | @scalar st last f fs length r m turn rest ih =>
    obtain ⟨mem, others⟩ := List.forall_mem_cons.mp own
    obtain ⟨silent', takesBits⟩ := delimiting.silent_of_turn mem silent turn
    have slice : r.cursor.slice = st.cursor.slice := (BitCursor.readScalar_forward turn.read).1
    have before : r.cursor.position ≤ last.cursor.position :=
      rest.position_le delimiting others silent'
    have reads := (BitCursor.readScalar_eq_ok.mp turn.read).on alike takesBits
      (Nat.le_trans before inside)
    have field : scalarField f (st.cursor.on input') st.memory r =
        scalarField f st.cursor st.memory r := by
      have absolute : (st.cursor.on input').absolute = st.cursor.absolute :=
        congrArg (· + st.cursor.byteIndex) alike.offset
      simp only [scalarField, scalarStop, absolute]
      rfl
    refine .scalar ⟨turn.present, turn.noTarget, turn.sized, BitCursor.readScalar_eq_ok.mpr reads,
      turn.accepted, turn.fired⟩ ?_
    have later := ih others silent' (slice.symm ▸ alike) inside
    have same : (st.on input').afterScalar f { r with cursor := r.cursor.on input' } m =
        (st.afterScalar f r m).on input' := by
      exact congrArg (fun d => Stage.mk (r.cursor.on input') (st.fields ++ [d]) m) field
    rw [same]
    exact later

/-! ### The structure on other bytes -/

/-- Called from outside, a structure is decoded by its descriptors. -/
theorem parseStructure_eq {g : Grammar} {name : String} (found : g.getStructure? name = some s)
    (input : Slice) (ctx : StreamContext) : ∃ parse,
      parseStructure g o name input ctx = parseDescriptors o parse s input ctx := by
  rw [parseStructure, found]
  exact ⟨_, rfl⟩

/-- **A structure of scalars that take bits depends on the bytes it takes, and on no others.**  If
no trigger of the structure and no entry of the context changes its fields, then what is decoded of
some bytes is decoded of all bytes that start with those taken, be there more of them or fewer, with
the same context behind it. -/
theorem parseStructure_of_take {g : Grammar} {name : String} {offset : Nat}
    {bytes bytes' : List UInt8} {out : StructureOutcome} (found : g.getStructure? name = some s)
    (delimiting : s.Delimiting ctx)
    (h : parseStructure g o name ⟨offset, bytes⟩ ctx = .ok out)
    (enough : out.consumed ≤ bytes'.length)
    (same : bytes'.take out.consumed = bytes.take out.consumed) :
    parseStructure g o name ⟨offset, bytes'⟩ ctx = .ok out := by
  obtain ⟨parse, here⟩ := parseStructure_eq (o := o) found ⟨offset, bytes⟩ ctx
  obtain ⟨parse', there⟩ := parseStructure_eq (o := o) found ⟨offset, bytes'⟩ ctx
  rw [here, parseDescriptors_iff_walk delimiting] at h
  rw [there, parseDescriptors_iff_walk delimiting]
  obtain ⟨last, walk, rfl⟩ := h
  have alike : Slice.Alike last.outcome.consumed ⟨offset, bytes⟩ ⟨offset, bytes'⟩ :=
    ⟨rfl, enough, same⟩
  have inside : last.cursor.position ≤ 8 * last.outcome.consumed := by
    simp only [Stage.outcome, BitCursor.consumedBytes]
    omega
  exact ⟨last.on ⟨offset, bytes'⟩, walk.on delimiting (fun _ mem => mem)
    delimiting.silent_start alike inside, rfl⟩

/-- Two numbers in one byte, and a third one behind it for some of the first. -/
def branching : Structure where
  name := "S"
  descriptors := [
    .type "U",
    .field ⟨"kind", {
      length := some (.bits 4)
      triggers := some [.onField "other" [.set .byteLength], .saveToContext] }, false⟩,
    .field ⟨"low", { length := some (.bits 4), format := some .hex }, false⟩,
    .field ⟨"more", {
      length := some .varint
      conditions := some [⟨"kind", .eq, .int 2⟩] }, false⟩]

/-- A grammar that has nothing else. -/
def branchingOnly : Grammar := ⟨["S"], [branching]⟩

theorem delimiting_branching : branching.Delimiting .empty where
  last := by simp [branching]
  once := by decide
  own := by decide
  sized := by decide
  untargeted := by decide
  absent := fun _ _ => rfl

/-- The first byte announces no number behind it, so that the second one need not be there. -/
theorem parseStructure_of_take_branching : ∃ out,
    parseStructure branchingOnly {} "S" ⟨3, [0x15, 7]⟩ .empty = .ok out ∧ out.consumed = 1 ∧
    out.fields.map (fun d => (d.name, d.value?)) =
      [("kind", some (.uint 1)), ("low", some (.text "0x5"))] ∧
    parseStructure branchingOnly {} "S" ⟨3, [0x15]⟩ .empty = .ok out := by
  have shape : (parseStructure branchingOnly {} "S" ⟨3, [0x15, 7]⟩ .empty).toOption.map (fun out =>
      (out.consumed, out.fields.map fun d => (d.name, d.value?))) =
      some (1, [("kind", some (.uint 1)), ("low", some (.text "0x5"))]) := by
    decide +kernel
  obtain ⟨out, decoded, shape⟩ := Option.map_eq_some_iff.mp shape
  obtain ⟨consumed, fields⟩ := Prod.mk.inj shape
  have decoded := Attempt.eq_ok_of_toOption decoded
  refine ⟨out, decoded, consumed, fields, ?_⟩
  exact parseStructure_of_take rfl delimiting_branching decoded (by rw [consumed]; decide)
    (by rw [consumed]; decide)

end WireGrammar
