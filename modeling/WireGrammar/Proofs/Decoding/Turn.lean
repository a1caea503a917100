import WireGrammar.Packet.Dissection
import WireGrammar.Proofs.Tree.Part

/-!
# What one turn does

A descriptor that takes its turn without failing does one of three things: it is passed over, it
decodes a scalar, or it decodes the structures of a target.  Everything else that is proved about
the decoding of a structure starts from these three cases, so nobody else has to open the
definitions.

* `parseField_eq_ok`: the turns of a field are exactly these three;
* `parseDescriptors_induct`: what scalars and targets keep is true of every decoded structure.
-/

namespace WireGrammar

theorem bind_eq_ok {ε α β : Type} {x : Except ε α} {f : α → Except ε β} {b : β} :
    x.bind f = .ok b ↔ ∃ a, x = .ok a ∧ f a = .ok b := by
  cases x <;> simp [Except.bind]

theorem map_eq_ok {ε α β : Type} {x : Except ε α} {f : α → β} {b : β} :
    x.map f = .ok b ↔ ∃ a, x = .ok a ∧ f a = b := by
  cases x <;> simp [Except.map]

variable {o : Options} {parse : TargetParser} {f : FieldDescriptor}

/-! ### The three cases -/

/-- The field is passed over: its conditions fail, or there is nothing to decode. -/
def Idle (f : FieldDescriptor) (fields : List DecodedField) (m : Memory) : Prop :=
  (m.effective f).isPresent fields = false ∨
    ((m.effective f).parse = none ∧ (m.effective f).length = none)

/-- The field is decoded as the scalar `r`, which leaves the memory `m'`. -/
structure ScalarTurn (o : Options) (f : FieldDescriptor) (c : BitCursor)
    (fields : List DecodedField) (m : Memory) (length : Length) (r : Reading) (m' : Memory) :
    Prop where
  present : (m.effective f).isPresent fields = true
  noTarget : (m.effective f).parse = none
  sized : (m.effective f).length = some length
  read : c.readScalar length = .ok r
  accepted : (m.effective f).rejects? r.value = none
  fired : fireAll o f.name r.value ((m.effective f).triggers.getD []) m = .ok m'

/-- The field is decoded as the structures of a chain `ch` of the target `name` within `view`. -/
structure TargetTurn (parse : TargetParser) (f : FieldDescriptor) (c : BitCursor)
    (fields : List DecodedField) (m : Memory) (name : String) (view : Slice) (ch : Chain) :
    Prop where
  present : (m.effective f).isPresent fields = true
  delegated : (m.effective f).parse = some name
  viewed : (m.effective f).view c = .ok view
  decoded : chains parse ((m.effective f).repetition (m.dynamicLength f)) name view m.context =
    .ok ch

/-- The scalar field that a turn appends. -/
def scalarField (f : FieldDescriptor) (c : BitCursor) (m : Memory) (r : Reading) : DecodedField :=
  .scalar f.name ((m.effective f).shown r.value) c.absolute (scalarStop c r.bits)

/-- The nested fields that a turn appends. -/
def nestedFields (f : FieldDescriptor) (structures : List DecodedStructure) : List DecodedField :=
  structures.map fun s => .nested f.name s s.start s.stop

theorem leavesOfFields_nestedFields (f : FieldDescriptor) (structures : List DecodedStructure) :
    leavesOfFields (nestedFields f structures) = structures.flatMap (·.leaves) := by
  rw [leavesOfFields_eq, nestedFields, List.flatMap_map]
  rfl

theorem partsOfFields_nestedFields (f : FieldDescriptor) (structures : List DecodedStructure) :
    partsOfFields (nestedFields f structures) = structures.flatMap (·.parts) := by
  rw [partsOfFields_eq, nestedFields, List.flatMap_map]
  rfl

/-- What the turn of a field makes of the progress so far. -/
inductive FieldTurn (o : Options) (parse : TargetParser) (f : FieldDescriptor) (p : Progress) :
    Progress → Prop where
  | idle (h : Idle f p.fields p.memory) : FieldTurn o parse f p p
  | scalar {length : Length} {r : Reading} {m : Memory}
      (h : ScalarTurn o f p.cursor p.fields p.memory length r m) :
      FieldTurn o parse f p
        ((p.afterScalar o f.name (p.memory.effective f) r m).requeueIf f p.cursor
          (enoughLeft r.cursor length))
  | target {name : String} {view : Slice} {ch : Chain}
      (h : TargetTurn parse f p.cursor p.fields p.memory name view ch) :
      FieldTurn o parse f p
        ((p.afterChain f.name view ch).requeueIf f p.cursor
          (0 < (p.afterChain f.name view ch).cursor.remainingBytes))

theorem parseScalar_eq_ok {a : FieldAttributes} {length : Length} {p q : Progress} :
    parseScalar o f a length p = .ok q ↔ ∃ r m, p.cursor.readScalar length = .ok r ∧
      a.rejects? r.value = none ∧
      fireAll o f.name r.value (a.triggers.getD []) p.memory = .ok m ∧
      q = (p.afterScalar o f.name a r m).requeueIf f p.cursor (enoughLeft r.cursor length) := by
  unfold parseScalar
  cases read : p.cursor.readScalar length with
  | error cause => simp [Progress.fail]
  | ok r =>
    cases rejected : a.rejects? r.value with
    | some spec => simp [Progress.fail, rejected]
    | none =>
      cases fired : fireAll o f.name r.value (a.triggers.getD []) p.memory with
      | error failure => simp [rejected, fired]
      | ok m => simp [rejected, fired, eq_comm]

theorem parseTargetField_eq_ok {a : FieldAttributes} {name : String} {p q : Progress} :
    parseTargetField parse f a name p = .ok q ↔ ∃ view ch, a.view p.cursor = .ok view ∧
      chains parse (a.repetition (p.memory.dynamicLength f)) name view p.context = .ok ch ∧
      q = (p.afterChain f.name view ch).requeueIf f p.cursor
        (0 < (p.afterChain f.name view ch).cursor.remainingBytes) := by
  unfold parseTargetField
  cases viewed : a.view p.cursor with
  | error cause => simp [Progress.fail]
  | ok view =>
    cases decoded : chains parse (a.repetition (p.memory.dynamicLength f)) name view p.context with
    | error failure => simp [decoded]
    | ok ch => simp [decoded, eq_comm]

/-- A field that does not fail takes one of the three turns. -/
theorem parseField_eq_ok {p q : Progress} :
    parseField o parse f p = .ok q ↔ FieldTurn o parse f p q := by
  unfold parseField parseWith
  constructor
  · intro h
    split at h
    · next present =>
      split at h
      · next name delegated =>
        obtain ⟨view, ch, viewed, decoded, rfl⟩ := parseTargetField_eq_ok.mp h
        exact .target ⟨present, delegated, viewed, decoded⟩
      · next noTarget sized =>
        obtain ⟨r, m, read, accepted, fired, rfl⟩ := parseScalar_eq_ok.mp h
        exact .scalar ⟨present, noTarget, sized, read, accepted, fired⟩
      · next noTarget unsized => cases h; exact .idle (.inr ⟨noTarget, unsized⟩)
    · next absent => cases h; exact .idle (.inl (by simpa using absent))
  · intro h
    cases h with
    | idle h =>
      rcases h with absent | ⟨noTarget, unsized⟩
      · rw [if_neg (by simp [absent])]
      · rw [noTarget, unsized]
        split <;> rfl
    | scalar h =>
      rw [if_pos h.present, h.noTarget, h.sized]
      exact parseScalar_eq_ok.mpr ⟨_, _, h.read, h.accepted, h.fired, rfl⟩
    | target h =>
      rw [if_pos h.present, h.delegated]
      exact parseTargetField_eq_ok.mpr ⟨_, _, h.viewed, h.decoded, rfl⟩

/-! ### The queue -/

namespace Progress

@[simp] theorem cursor_requeueIf (p : Progress) (f : FieldDescriptor) (c : BitCursor)
    (enough : Bool) : (p.requeueIf f c enough).cursor = p.cursor := by
  unfold requeueIf; split <;> rfl

@[simp] theorem fields_requeueIf (p : Progress) (f : FieldDescriptor) (c : BitCursor)
    (enough : Bool) : (p.requeueIf f c enough).fields = p.fields := by
  unfold requeueIf; split <;> rfl

@[simp] theorem memory_requeueIf (p : Progress) (f : FieldDescriptor) (c : BitCursor)
    (enough : Bool) : (p.requeueIf f c enough).memory = p.memory := by
  unfold requeueIf; split <;> rfl

theorem mem_queue_requeueIf {p : Progress} {f : FieldDescriptor} {c : BitCursor} {enough : Bool}
    {item : Pending} (h : item ∈ (p.requeueIf f c enough).queue) :
    item = ⟨.field f, true⟩ ∨ item ∈ p.queue := by
  unfold requeueIf at h
  split at h
  · exact List.mem_cons.mp h
  · exact .inr h

end Progress

/-- The field that is missing is pending. -/
theorem Progress.mem_queue_of_missing? {p : Progress} (h : p.missing? = some f) :
    ∃ item ∈ p.queue, item.descriptor = .field f := by
  obtain ⟨item, mem, found⟩ := List.exists_of_findSome?_eq_some h
  obtain ⟨field, -⟩ := Option.filter_eq_some_iff.mp found
  refine ⟨item, (List.mem_filter.mp mem).1, ?_⟩
  cases kind : item.descriptor with
  | field f' =>
    rw [kind] at field
    cases field
    rfl
  | type | next =>
    rw [kind] at field
    cases field

/-- A turn queues nothing but the field itself. -/
theorem FieldTurn.mem_queue {p q : Progress} (h : FieldTurn o parse f p q) {item : Pending}
    (mem : item ∈ q.queue) : item = ⟨.field f, true⟩ ∨ item ∈ p.queue := by
  cases h with
  | idle => exact .inr mem
  | scalar =>
    rcases Progress.mem_queue_requeueIf mem with new | old
    · exact .inl new
    · exact .inr (List.mem_filter.mp old).1
  | target =>
    rcases Progress.mem_queue_requeueIf mem with new | old
    · exact .inl new
    · exact .inr old

/-- A field is decoded in the slice of its structure. -/
theorem FieldTurn.slice_eq {p q : Progress} (h : FieldTurn o parse f p q) :
    q.cursor.slice = p.cursor.slice := by
  cases h with
  | idle => rfl
  | scalar h =>
    rw [Progress.cursor_requeueIf]
    exact (BitCursor.readScalar_forward h.read).1
  | target h =>
    rw [Progress.cursor_requeueIf]
    rfl

/-- The pending descriptors are those of `s`. -/
def Progress.Own (p : Progress) (s : Structure) : Prop :=
  ∀ item ∈ p.queue, item.descriptor ∈ s.descriptors

namespace Progress.Own

variable {s : Structure} {p q : Progress} {item : Pending} {queue : List Pending}

theorem start (s : Structure) (input : Slice) (ctx : StreamContext) :
    (Progress.start s input ctx).Own s := by
  intro item mem
  obtain ⟨d, own, rfl⟩ := List.mem_map.mp mem
  exact own

theorem head (h : p.Own s) (first : p.queue = item :: queue) : item.descriptor ∈ s.descriptors :=
  h item (first ▸ List.mem_cons_self)

theorem tail (h : p.Own s) (first : p.queue = item :: queue) : Own { p with queue } s :=
  fun later mem => h later (first ▸ List.mem_cons_of_mem _ mem)

theorem turn (h : p.Own s) (own : .field f ∈ s.descriptors) (taken : FieldTurn o parse f p q) :
    q.Own s := by
  intro item mem
  rcases taken.mem_queue mem with rfl | old
  · exact own
  · exact h item old

end Progress.Own

/-! ### All turns of a structure -/

/-- What the turns of the fields of `s` keep is true where its descriptors end. -/
theorem parseFields_invariant {s : Structure} (Inv : Progress → Prop)
    (dequeue : ∀ p queue, Inv p → Inv { p with queue })
    (turn : ∀ p f q, Inv p → .field f ∈ s.descriptors → p.cursor.isExhausted = false →
      FieldTurn o parse f p q → Inv q)
    {p : Progress} {fin : Finish} (h : parseFields o parse p = .ok fin) (own : p.Own s)
    (hp : Inv p) : Inv fin.progress := by
  fun_induction parseFields o parse p generalizing fin with
  | case1 | case2 => cases h; exact hp
  | case3 p left item queue hq name hd ih => exact ih h (own.tail hq) (dequeue p queue hp)
  | case4 p left item queue hq name hd => cases h; exact dequeue p queue hp
  | case5 p left item queue hq f hd q ok ih =>
    have isOwn : .field f ∈ s.descriptors := hd ▸ own.head hq
    have taken := parseField_eq_ok.mp ok
    exact ih h ((own.tail hq).turn isOwn taken)
      (turn _ f q (dequeue p queue hp) isOwn (by simpa using left) taken)
  | case6 p left item queue hq f hd failure failed again ih =>
    exact ih h (own.tail hq) (dequeue p queue hp)
  | case7 => cases h

theorem Finish.outcome_eq_ok {s : Structure} {fin : Finish} {out : StructureOutcome}
    (h : fin.outcome s = .ok out) :
    out = ⟨fin.progress.fields, fin.progress.cursor.consumedBytes, fin.next,
      fin.progress.context⟩ := by
  unfold outcome at h
  simp only at h
  split at h
  · split at h
    · simp [Progress.fail] at h
    · cases h; rfl
  · cases h; rfl

/-- What scalars and targets keep is true of every decoded structure: of the cursor at its end, its
fields, and the memory it leaves. -/
theorem parseDescriptors_induct {s : Structure} {input : Slice} {ctx : StreamContext}
    (Inv : BitCursor → List DecodedField → Memory → Prop)
    (start : Inv (.start input) [] ⟨.empty, ctx⟩)
    (scalar : ∀ c fields m f length r m', Inv c fields m → .field f ∈ s.descriptors →
      c.isExhausted = false → ScalarTurn o f c fields m length r m' →
      Inv r.cursor (fields ++ [scalarField f c m r]) m')
    (target : ∀ c fields m f name view ch, Inv c fields m → .field f ∈ s.descriptors →
      c.isExhausted = false → TargetTurn parse f c fields m name view ch →
      Inv (c.advance (view.length - ch.rest.length)) (fields ++ nestedFields f ch.structures)
        { m with context := ch.context })
    {out : StructureOutcome} (h : parseDescriptors o parse s input ctx = .ok out) :
    ∃ c m, Inv c out.fields m ∧ out.consumed = c.consumedBytes ∧ out.context = m.context := by
  obtain ⟨fin, run, ended⟩ := bind_eq_ok.mp h
  obtain rfl := Finish.outcome_eq_ok ended
  have kept : Inv fin.progress.cursor fin.progress.fields fin.progress.memory := by
    refine parseFields_invariant (fun p => Inv p.cursor p.fields p.memory)
      (fun _ _ hp => hp) ?_ run (.start s input ctx) start
    intro p f q hp isOwn left taken
    cases taken with
    | idle => exact hp
    | scalar taken =>
      rw [Progress.cursor_requeueIf, Progress.fields_requeueIf, Progress.memory_requeueIf]
      exact scalar _ _ _ f _ _ _ hp isOwn left taken
    | target taken =>
      rw [Progress.cursor_requeueIf, Progress.fields_requeueIf, Progress.memory_requeueIf]
      exact target _ _ _ f _ _ _ hp isOwn left taken
  exact ⟨_, _, kept, rfl, rfl⟩

/-- The structure that follows is one that a descriptor names. -/
theorem next_mem_of_parseFields {s : Structure} {p : Progress} {fin : Finish}
    (h : parseFields o parse p = .ok fin) (own : p.Own s) {name : String}
    (next : fin.next = some name) : .next name ∈ s.descriptors := by
  fun_induction parseFields o parse p generalizing fin with
  | case1 | case2 => cases h; cases next
  | case3 p left item queue hq name hd ih => exact ih h (own.tail hq) next
  | case4 p left item queue hq name hd =>
    cases h
    cases next
    exact hd ▸ own.head hq
  | case5 p left item queue hq f hd q ok ih =>
    exact ih h ((own.tail hq).turn (hd ▸ own.head hq) (parseField_eq_ok.mp ok)) next
  | case6 p left item queue hq f hd failure failed again ih => exact ih h (own.tail hq) next
  | case7 => cases h

theorem next_mem_of_parseDescriptors {s : Structure} {input : Slice} {ctx : StreamContext}
    {out : StructureOutcome} (h : parseDescriptors o parse s input ctx = .ok out) {name : String}
    (next : out.next = some name) : .next name ∈ s.descriptors := by
  obtain ⟨fin, run, ended⟩ := bind_eq_ok.mp h
  obtain rfl := Finish.outcome_eq_ok ended
  exact next_mem_of_parseFields run (.start s input ctx) next

end WireGrammar
