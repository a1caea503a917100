import Mathlib.Data.List.Forall2
import WireGrammar.Proofs.Attribute.Arises
import WireGrammar.Proofs.Decoding.Loop
import WireGrammar.Proofs.Decoding.Shift

/-!
# Two runs in step

A run is compared with a second one, on the same bytes `k` bytes further on, with a grammar that
differs in the formats of its fields at most.  Formats are only looked at by conditions, through the
fields that are decoded.  So if conditions cannot tell the fields of the two runs apart, the runs
take the same turns to the end, however often they go back to an earlier point on the way.

* `InStep`: two attempts end alike, `k` bytes apart;
* `Lockstep`: what has to be shown of the fields and structures of the two runs;
* `Lockstep.parseTarget`, `Lockstep.parseTopLevel`: what follows for names and packets.
-/

namespace WireGrammar

/-! ### Attempts -/

/-- Both attempts succeed, with results that are related, or both fail for the same reason, the
second one `k` bytes further on. -/
inductive InStep {α β : Type} (k : Nat) (R : α → β → Prop) : Attempt α → Attempt β → Prop where
  | ok {a b} (h : R a b) : InStep k R (.ok a) (.ok b)
  | error (failure : Failure) : InStep k R (.error failure) (.error (failure.shift k))

namespace InStep

variable {α β γ δ : Type} {k : Nat} {R : α → β → Prop} {S : γ → δ → Prop} {x : Attempt α}
  {y : Attempt β}

theorem of_ok {a : α} (h : InStep k R x y) (ok : x = .ok a) : ∃ b, y = .ok b ∧ R a b := by
  subst ok
  cases h with
  | ok h => exact ⟨_, rfl, h⟩

theorem of_error {failure : Failure} (h : InStep k R x y) (failed : x = .error failure) :
    y = .error (failure.shift k) := by
  subst failed
  cases h with
  | error => rfl

theorem bind {f : α → Attempt γ} {f' : β → Attempt δ} (h : InStep k R x y)
    (rest : ∀ a b, R a b → InStep k S (f a) (f' b)) : InStep k S (x.bind f) (y.bind f') := by
  cases h with
  | ok related => exact rest _ _ related
  | error failure => exact .error failure

theorem map {f : α → γ} {f' : β → δ} (h : InStep k R x y) (rest : ∀ a b, R a b → S (f a) (f' b)) :
    InStep k S (x.map f) (y.map f') := by
  cases h with
  | ok related => exact .ok (rest _ _ related)
  | error failure => exact .error failure

theorem mono {S : α → β → Prop} (h : InStep k R x y) (weaker : ∀ a b, R a b → S a b) :
    InStep k S x y := by
  cases h with
  | ok related => exact .ok (weaker _ _ related)
  | error failure => exact .error failure

/-- An attempt that fails without an offset is in step with itself. -/
theorem of_placeless {x : Attempt α} (h : Placeless x) : InStep k (· = ·) x x := by
  cases x with
  | ok a => exact .ok rfl
  | error failure =>
    have step : InStep k (fun a b : α => a = b) (.error failure) (.error (failure.shift k)) :=
      .error failure
    rwa [h k failure rfl] at step

end InStep

/-! ### Grammars that differ in formats -/

/-- The field with another format, or none. -/
def FieldDescriptor.withFormat (f : FieldDescriptor) (format : Option Format) : FieldDescriptor :=
  { f with attributes := { f.attributes with format } }

/-- The same descriptor, but for the format of a field. -/
inductive Descriptor.Like : Descriptor → Descriptor → Prop where
  | type (name : String) : Like (.type name) (.type name)
  | next (name : String) : Like (.next name) (.next name)
  | field (f : FieldDescriptor) (format : Option Format) :
      Like (.field f) (.field (f.withFormat format))

/-- The same structure, but for the formats of its fields. -/
structure Structure.Like (s s' : Structure) : Prop where
  name : s'.name = s.name
  descriptors : List.Forall₂ Descriptor.Like s.descriptors s'.descriptors

/-- The same grammar, but for the formats of its fields. -/
structure Grammar.Like (g g' : Grammar) : Prop where
  roots : g'.roots = g.roots
  structures : List.Forall₂ Structure.Like g.structures g'.structures

theorem Descriptor.Like.refl (d : Descriptor) : d.Like d := by
  cases d with
  | type name => exact .type name
  | next name => exact .next name
  | field f => exact .field f f.attributes.format

theorem Structure.Like.refl (s : Structure) : s.Like s where
  name := rfl
  descriptors := List.forall₂_same.mpr fun d _ => .refl d

theorem Grammar.Like.refl (g : Grammar) : g.Like g where
  roots := rfl
  structures := List.forall₂_same.mpr fun s _ => .refl s

/-- The structures stand at the same place of the two grammars. -/
abbrev Grammar.Pair (g g' : Grammar) (s s' : Structure) : Prop :=
  (s, s') ∈ g.structures.zip g'.structures

/-- The descriptors stand at the same place of the two structures. -/
abbrev Structure.Pair (s s' : Structure) (d d' : Descriptor) : Prop :=
  (d, d') ∈ s.descriptors.zip s'.descriptors

section Like

variable {g g' : Grammar} {s s' : Structure} {d d' : Descriptor}

theorem Grammar.Like.structure (h : g.Like g') (pair : g.Pair g' s s') : s.Like s' :=
  (List.forall₂_iff_zip.mp h.structures).2 pair

theorem Structure.Like.descriptor (h : s.Like s') (pair : s.Pair s' d d') : d.Like d' :=
  (List.forall₂_iff_zip.mp h.descriptors).2 pair

/-- The alternatives of a type are the same structures. -/
theorem Structure.Like.typeName? (h : s.Like s') : s'.typeName? = s.typeName? := by
  have descriptors := h.descriptors
  unfold Structure.typeName?
  generalize s.descriptors = ds at descriptors
  generalize s'.descriptors = ds' at descriptors
  cases descriptors with
  | nil => rfl
  | cons first rest => cases first <;> rfl

/-- The structures at the same places, side by side. -/
theorem Grammar.Like.pairs (h : g.Like g') : List.Forall₂ (g.Pair g') g.structures g'.structures :=
  List.forall₂_iff_zip.mpr ⟨h.structures.length_eq, fun pair => pair⟩

theorem Structure.Like.pairs (h : s.Like s') :
    List.Forall₂ (s.Pair s') s.descriptors s'.descriptors :=
  List.forall₂_iff_zip.mpr ⟨h.descriptors.length_eq, fun pair => pair⟩

end Like

/-- A search in two lists side by side ends at the same place. -/
theorem find?_of_forall₂ {α β : Type} {R : α → β → Prop} {as : List α} {bs : List β} {p : α → Bool}
    {q : β → Bool} (h : List.Forall₂ R as bs) (same : ∀ a b, R a b → q b = p a) :
    as.find? p = none ∧ bs.find? q = none ∨
      ∃ a b, as.find? p = some a ∧ bs.find? q = some b ∧ R a b := by
  induction h with
  | nil => exact .inl ⟨rfl, rfl⟩
  | @cons a b as bs head tail ih =>
    rw [List.find?_cons, List.find?_cons, same a b head]
    cases p a with
    | true => exact .inr ⟨a, b, rfl, rfl, head⟩
    | false => exact ih

section Names

variable {g g' : Grammar}

/-- A name stands for structures at the same place, or in neither grammar for a structure. -/
theorem Grammar.Like.getStructure? (h : g.Like g') (name : String) :
    g.getStructure? name = none ∧ g'.getStructure? name = none ∨
      ∃ s s', g.getStructure? name = some s ∧ g'.getStructure? name = some s' ∧ g.Pair g' s s' := by
  refine find?_of_forall₂ h.pairs fun s s' pair => ?_
  rw [(h.structure pair).name]

theorem Grammar.Like.structuresOfType (h : g.Like g') (typeName : String) :
    List.Forall₂ (g.Pair g') (g.structuresOfType typeName) (g'.structuresOfType typeName) := by
  have same : ∀ s s', g.Pair g' s s' →
      (s.typeName? == some typeName ↔ s'.typeName? == some typeName) := by
    intro s s' pair
    rw [(h.structure pair).typeName?]
  exact List.rel_filter (fun s s' pair => same s s' pair) h.pairs

end Names

/-! ### What has to be shown -/

/-- The fields of the two runs are related by `F`, field by field, and their structures by `D`, if
contexts are those that `entry` leads to. -/
structure Lockstep (g g' : Grammar) (o : Options) (entry : StreamContext) (k : Nat)
    (F : Structure → Structure → DecodedField → DecodedField → Prop)
    (D : DecodedStructure → DecodedStructure → Prop) : Prop where
  like : g.Like g'
  /-- Conditions do not tell the fields apart. -/
  present : ∀ {s s' f} {m : Memory} {fields fields'}, g.Pair g' s s' → .field f ∈ s.descriptors →
    m.Sourced g entry s → List.Forall₂ (F s s') fields fields' →
    (m.effective f).isPresent fields' = (m.effective f).isPresent fields
  /-- A scalar, as each of the two formats shows it. -/
  scalar : ∀ {s s' f format c fields m length r m'}, g.Pair g' s s' →
    s.Pair s' (.field f) (.field (f.withFormat format)) → m.Sourced g entry s →
    ScalarTurn o f c fields m length r m' →
    F s s' (scalarField f c m r) (scalarField (f.withFormat format) (c.shift k) m (r.shift k))
  /-- A nested structure. -/
  nested : ∀ {s s' d d'} (name : String), D d d' →
    F s s' (.nested name d d.start d.stop) (.nested name d' d'.start d'.stop)
  /-- Behind the last field. -/
  finish : ∀ {s s' fields fields'}, g.Pair g' s s' → List.Forall₂ (F s s') fields fields' →
    ∀ offset n, D ⟨s.name, fields, offset, offset + n⟩
      ⟨s.name, fields', offset + k, offset + k + n⟩

/-! ### Chains and lists -/

section Targets

variable (g : Grammar) (entry : StreamContext) (k : Nat)
  (D : DecodedStructure → DecodedStructure → Prop)

/-- What a name is decoded to in the two runs. -/
structure Resolved.Paired (r r' : Resolved) : Prop where
  decoded : D r.decoded r'.decoded
  consumed : r'.consumed = r.consumed
  next : r'.next = r.next
  context : r'.context = r.context
  sourced : SourcedContext g entry r.context

/-- Chains of the two runs. -/
structure Chain.Paired (c c' : Chain) : Prop where
  structures : List.Forall₂ D c.structures c'.structures
  rest : c'.rest = c.rest.shift k
  context : c'.context = c.context
  sourced : SourcedContext g entry c.context

/-- Names are decoded in step. -/
def TargetsInStep (parse parse' : TargetParser) : Prop :=
  ∀ name input ctx, SourcedContext g entry ctx →
    InStep k (Resolved.Paired g entry D) (parse name input ctx) (parse' name (input.shift k) ctx)

end Targets

section Chains

variable {g : Grammar} {entry : StreamContext} {k : Nat}
  {D : DecodedStructure → DecodedStructure → Prop} {parse parse' : TargetParser}

theorem Resolved.Paired.continuation? {r r' : Resolved} (h : r.Paired g entry D r')
    (rest : Slice) : r'.continuation? (rest.shift k) = r.continuation? rest := by
  rw [Resolved.continuation?, Resolved.continuation?, h.consumed, h.next, Slice.bytes_shift]

theorem Chain.Paired.after {c c' : Chain} (h : c.Paired g entry k D c')
    {first first' : List DecodedStructure} (before : List.Forall₂ D first first') :
    (c.after first).Paired g entry k D (c'.after first') where
  structures := List.rel_append before h.structures
  rest := h.rest
  context := h.context
  sourced := h.sourced

theorem TargetsInStep.chain (h : TargetsInStep g entry k D parse parse') (name : String)
    (input : Slice) {ctx : StreamContext} (known : SourcedContext g entry ctx) :
    InStep k (Chain.Paired g entry k D) (chain parse name input ctx)
      (chain parse' name (input.shift k) ctx) := by
  fun_induction WireGrammar.chain parse name input ctx with
  | case1 name input ctx failure failed =>
    have step := h name input ctx known
    rw [chain_of_error (step.of_error failed)]
    exact .error failure
  | case2 name input ctx r ok stop =>
    have step := h name input ctx known
    obtain ⟨r', ok', paired⟩ := step.of_ok ok
    have stop' : r'.continuation? ((input.shift k).drop r'.consumed) = none := by
      rw [paired.consumed, Slice.drop_shift, paired.continuation?, stop]
    rw [chain_of_stop ok' stop']
    refine .ok ⟨.cons paired.decoded .nil, ?_, paired.context, paired.sourced⟩
    rw [paired.consumed, Slice.drop_shift]
  | case3 name input ctx r ok next go ih =>
    have step := h name input ctx known
    obtain ⟨r', ok', paired⟩ := step.of_ok ok
    have go' : r'.continuation? ((input.shift k).drop r'.consumed) = some next := by
      rw [paired.consumed, Slice.drop_shift, paired.continuation?, go]
    rw [chain_of_go ok' go', paired.consumed, paired.context, Slice.drop_shift]
    exact (ih paired.sourced).map fun c c' rest => rest.after (.cons paired.decoded .nil)

theorem TargetsInStep.chains (h : TargetsInStep g entry k D parse parse')
    (repetition : Repetition) (name : String) (input : Slice) {ctx : StreamContext}
    (known : SourcedContext g entry ctx) :
    InStep k (Chain.Paired g entry k D) (chains parse repetition name input ctx)
      (chains parse' repetition name (input.shift k) ctx) := by
  fun_induction WireGrammar.chains parse repetition name input ctx with
  | case1 repetition input ctx ended =>
    have ended' : repetition.isDone || (input.shift k).bytes.isEmpty := ended
    rw [chains_of_done ended']
    exact .ok ⟨.nil, rfl, rfl, known⟩
  | case2 repetition input ctx go failure failed =>
    have go' : ¬(repetition.isDone || (input.shift k).bytes.isEmpty) := go
    have step := h.chain name input known
    rw [chains_of_error go' (step.of_error failed)]
    exact .error failure
  | case3 repetition input ctx go c ok forward ih =>
    have go' : ¬(repetition.isDone || (input.shift k).bytes.isEmpty) := go
    have step := h.chain name input known
    obtain ⟨c', ok', paired⟩ := step.of_ok ok
    have forward' : c'.rest.length < (input.shift k).length := by
      rw [paired.rest]
      exact forward
    rw [chains_of_forward go' ok' forward', paired.rest, paired.context]
    exact (ih paired.sourced).map fun t t' rest => rest.after paired.structures
  | case4 repetition input ctx go c ok still =>
    have go' : ¬(repetition.isDone || (input.shift k).bytes.isEmpty) := go
    have step := h.chain name input known
    obtain ⟨c', ok', paired⟩ := step.of_ok ok
    have still' : ¬c'.rest.length < (input.shift k).length := by
      rw [paired.rest]
      exact still
    rw [chains_of_stuck go' ok' still']
    exact .ok paired

end Chains

/-! ### Fields -/

/-- The item and the one in its place are declared at the same place, and are tried alike. -/
structure Pending.Paired (s s' : Structure) (item item' : Pending) : Prop where
  declared : s.Pair s' item.descriptor item'.descriptor
  again : item'.again = item.again

section Progress

variable (g : Grammar) (entry : StreamContext) (k : Nat)
  (F : Structure → Structure → DecodedField → DecodedField → Prop) (s s' : Structure)

/-- How far the two runs have come. -/
structure Progress.Paired (p p' : Progress) : Prop where
  cursor : p'.cursor = p.cursor.shift k
  queue : List.Forall₂ (Pending.Paired s s') p.queue p'.queue
  fields : List.Forall₂ (F s s') p.fields p'.fields
  memory : p'.memory = p.memory
  sourced : p.memory.Sourced g entry s

/-- Where the two runs have ended. -/
structure Finish.Paired (fin fin' : Finish) : Prop where
  progress : fin.progress.Paired g entry k F s s' fin'.progress
  next : fin'.next = fin.next

/-- What a structure is decoded to in the two runs. -/
structure StructureOutcome.Paired (out out' : StructureOutcome) : Prop where
  fields : List.Forall₂ (F s s') out.fields out'.fields
  consumed : out'.consumed = out.consumed
  next : out'.next = out.next
  context : out'.context = out.context
  sourced : SourcedContext g entry out.context

end Progress

section Fields

variable {g g' : Grammar} {o : Options} {entry : StreamContext} {k : Nat}
  {F : Structure → Structure → DecodedField → DecodedField → Prop}
  {D : DecodedStructure → DecodedStructure → Prop} {parse parse' : TargetParser}
  {s s' : Structure} {p p' : Progress} {ctx : StreamContext}

theorem Progress.Paired.dequeue (h : p.Paired g entry k F s s' p') {queue queue' : List Pending}
    (rest : List.Forall₂ (Pending.Paired s s') queue queue') :
    Progress.Paired g entry k F s s' { p with queue } { p' with queue := queue' } :=
  { h with queue := rest }

/-- A repeated field is queued again in both runs, or in neither. -/
theorem Progress.Paired.requeueIf {f : FieldDescriptor} {format : Option Format}
    (h : p.Paired g entry k F s s' p') (own : s.Pair s' (.field f) (.field (f.withFormat format)))
    (before : BitCursor) (enough : Bool) :
    (p.requeueIf f before enough).Paired g entry k F s s'
      (p'.requeueIf (f.withFormat format) (before.shift k) enough) := by
  have same : ((f.withFormat format).repeated && (before.shift k).position < p'.cursor.position &&
      enough) = (f.repeated && before.position < p.cursor.position && enough) := by
    rw [h.cursor]
    rfl
  unfold Progress.requeueIf
  rw [same]
  by_cases again : (f.repeated && before.position < p.cursor.position && enough) = true
  · rw [if_pos again, if_pos again]
    exact { h with queue := .cons ⟨own, rfl⟩ h.queue }
  · rw [if_neg again, if_neg again]
    exact h

theorem Progress.Paired.context (h : p.Paired g entry k F s s' p') : p'.context = p.context :=
  congrArg Memory.context h.memory

/-- A failure of a field is the same in both runs, but for its offsets. -/
theorem Progress.Paired.fail {α β : Type} {R : α → β → Prop} (h : p.Paired g entry k F s s' p')
    (e : ParseError) : InStep k R (p.fail e) (p'.fail (e.shift k)) := by
  rw [Progress.fail, Progress.fail, h.context]
  exact .error ⟨e, p.context⟩

/-- What the triggers of a scalar remove from one queue, they remove from the other. -/
theorem Pending.rel_filter {queue queue' : List Pending} (like : s.Like s')
    (h : List.Forall₂ (Pending.Paired s s') queue queue') (removed : String → Bool) :
    List.Forall₂ (Pending.Paired s s')
      (queue.filter fun item => !(item.descriptor.field?.any fun f => removed f.name))
      (queue'.filter fun item => !(item.descriptor.field?.any fun f => removed f.name)) := by
  refine List.rel_filter (fun item item' paired => ?_) h
  obtain ⟨descriptor, again⟩ := item
  obtain ⟨descriptor', again'⟩ := item'
  cases like.descriptor paired.declared <;> exact Iff.rfl

/-- The next item is declared at the same place in both runs. -/
theorem Progress.Paired.first (h : p.Paired g entry k F s s' p') (left : ¬p.cursor.isExhausted)
    {item : Pending} {queue : List Pending} (first : p.queue = item :: queue) :
    p'.cursor.isExhausted = false ∧ ∃ d' again' queue', p'.queue = ⟨d', again'⟩ :: queue' ∧
      item.Paired s s' ⟨d', again'⟩ ∧ List.Forall₂ (Pending.Paired s s') queue queue' := by
  obtain ⟨⟨d', again'⟩, queue', head, tail, first'⟩ :=
    List.forall₂_cons_left_iff.mp (first ▸ h.queue)
  refine ⟨?_, d', again', queue', first', head, tail⟩
  rw [h.cursor, BitCursor.isExhausted_shift]
  simpa using left

/-- In the place of a field there is the same one, but for its format. -/
theorem Structure.Like.field (h : s.Like s') {f : FieldDescriptor} {d' : Descriptor}
    (pair : s.Pair s' (.field f) d') : ∃ format, d' = .field (f.withFormat format) ∧
      s.Pair s' (.field f) (.field (f.withFormat format)) := by
  cases h.descriptor pair with
  | field _ format => exact ⟨format, rfl, pair⟩

namespace Lockstep

variable {f : FieldDescriptor} {format : Option Format}

/-- A scalar is read, tested and appended, and its triggers are fired, in step. -/
theorem parseScalar (l : Lockstep g g' o entry k F D) (pair : g.Pair g' s s')
    (own : s.Pair s' (.field f) (.field (f.withFormat format)))
    (h : p.Paired g entry k F s s' p') {length : Length}
    (present : (p.memory.effective f).isPresent p.fields = true)
    (noTarget : (p.memory.effective f).parse = none)
    (sized : (p.memory.effective f).length = some length) :
    InStep k (Progress.Paired g entry k F s s')
      (WireGrammar.parseScalar o f (p.memory.effective f) length p)
      (WireGrammar.parseScalar o (f.withFormat format)
        (p.memory.effective (f.withFormat format)) length p') := by
  have triggers : (p.memory.effective (f.withFormat format)).triggers =
      (p.memory.effective f).triggers := rfl
  have tests : (p.memory.effective (f.withFormat format)).rejects? =
      (p.memory.effective f).rejects? := rfl
  unfold WireGrammar.parseScalar
  rw [h.cursor, BitCursor.readScalar_shift, h.memory, triggers, tests]
  cases read : p.cursor.readScalar length with
  | error cause => exact h.fail (.unreadable f.name cause)
  | ok r =>
    simp only [shiftRead, Reading.shift, enoughLeft_shift]
    cases accepted : (p.memory.effective f).rejects? r.value with
    | some spec => exact h.fail (.valueMismatch f.name r.value (.test spec))
    | none =>
      have fire : InStep k (· = ·)
          (fireAll o f.name r.value ((p.memory.effective f).triggers.getD []) p.memory)
          (fireAll o (f.withFormat format).name r.value
            ((p.memory.effective f).triggers.getD []) p.memory) :=
        .of_placeless (placeless_fireAll _ _ _ _ _)
      cases fired : fireAll o f.name r.value ((p.memory.effective f).triggers.getD []) p.memory with
      | error failure =>
        rw [fire.of_error fired]
        exact .error failure
      | ok m =>
        obtain ⟨_, fired', rfl⟩ := fire.of_ok fired
        rw [fired']
        have declared := l.like.structure pair
        have turn : ScalarTurn o f p.cursor p.fields p.memory length r m :=
          ⟨present, noTarget, sized, read, accepted, fired⟩
        have inner : .field f ∈ s.descriptors := (List.of_mem_zip own).1
        have sourced := h.sourced.fireAll (List.of_mem_zip pair).1 inner
          (BitCursor.text?_of_readScalar read) fired
        have shown := l.scalar pair own h.sourced turn
        have after : (p.afterScalar o f.name (p.memory.effective f) r m).Paired g entry k F s s'
            (p'.afterScalar o (f.withFormat format).name
              (p.memory.effective (f.withFormat format)) (r.shift k) m) := {
          cursor := rfl
          queue := Pending.rel_filter declared h.queue
            (prunesField o r.value ((p.memory.effective f).triggers.getD []))
          fields := by
            refine List.rel_append h.fields (.cons ?_ .nil)
            rw [h.cursor]
            exact shown
          memory := rfl
          sourced := sourced }
        exact .ok (after.requeueIf own p.cursor (enoughLeft r.cursor length))

/-- The structures of a target are decoded and appended in step. -/
theorem parseTargetField (l : Lockstep g g' o entry k F D)
    (targets : TargetsInStep g entry k D parse parse')
    (own : s.Pair s' (.field f) (.field (f.withFormat format)))
    (h : p.Paired g entry k F s s' p') (name : String) :
    InStep k (Progress.Paired g entry k F s s')
      (WireGrammar.parseTargetField parse f (p.memory.effective f) name p)
      (WireGrammar.parseTargetField parse' (f.withFormat format)
        (p.memory.effective (f.withFormat format)) name p') := by
  have view : (p.memory.effective (f.withFormat format)).view p'.cursor =
      shiftRead k (·.shift k) ((p.memory.effective f).view p.cursor) := by
    rw [h.cursor]
    exact (p.memory.effective f).view_shift k p.cursor
  have repetition : (p.memory.effective (f.withFormat format)).repetition
      (p'.memory.dynamicLength (f.withFormat format)) =
        (p.memory.effective f).repetition (p.memory.dynamicLength f) := by
    rw [h.memory]
    rfl
  unfold WireGrammar.parseTargetField
  rw [view, repetition, h.context]
  cases (p.memory.effective f).view p.cursor with
  | error cause => exact h.fail (.unreadable f.name cause)
  | ok view =>
    simp only [shiftRead]
    have step := targets.chains ((p.memory.effective f).repetition (p.memory.dynamicLength f)) name
      view h.sourced.context
    rw [Progress.context]
    cases decoded : chains parse
        ((p.memory.effective f).repetition (p.memory.dynamicLength f)) name view
        p.memory.context with
    | error failure =>
      rw [step.of_error decoded]
      exact .error failure
    | ok c =>
      obtain ⟨c', decoded', paired⟩ := step.of_ok decoded
      rw [decoded']
      have after : (p.afterChain f.name view c).Paired g entry k F s s'
          (p'.afterChain (f.withFormat format).name (view.shift k) c') := {
        cursor := by
          simp only [Progress.afterChain, h.cursor, paired.rest, Slice.length_shift,
            BitCursor.advance_shift]
        queue := h.queue
        fields := by
          refine List.rel_append h.fields (List.rel_map (fun d d' related => ?_) paired.structures)
          exact l.nested f.name related
        memory := by
          simp only [Progress.afterChain, h.memory, paired.context]
        sourced := ⟨h.sourced.pending, paired.sourced⟩ }
      have left :
          (p'.afterChain (f.withFormat format).name (view.shift k) c').cursor.remainingBytes =
            (p.afterChain f.name view c).cursor.remainingBytes := by
        rw [after.cursor, BitCursor.remainingBytes_shift]
      simp only [left, h.cursor]
      exact .ok (after.requeueIf own p.cursor _)

/-- A field takes its turn in step. -/
theorem parseField (l : Lockstep g g' o entry k F D)
    (targets : TargetsInStep g entry k D parse parse') (pair : g.Pair g' s s')
    (own : s.Pair s' (.field f) (.field (f.withFormat format)))
    (h : p.Paired g entry k F s s' p') :
    InStep k (Progress.Paired g entry k F s s') (WireGrammar.parseField o parse f p)
      (WireGrammar.parseField o parse' (f.withFormat format) p') := by
  have inner : .field f ∈ s.descriptors := (List.of_mem_zip own).1
  have present : (p.memory.effective (f.withFormat format)).isPresent p'.fields =
      (p.memory.effective f).isPresent p.fields :=
    -- The conditions are those of the same field, on the fields of the second run.
    l.present (f := f) pair inner h.sourced h.fields
  have target : (p.memory.effective (f.withFormat format)).parse =
      (p.memory.effective f).parse := rfl
  have length : (p.memory.effective (f.withFormat format)).length =
      (p.memory.effective f).length := rfl
  unfold WireGrammar.parseField parseWith
  rw [h.memory, present, target, length]
  cases here : (p.memory.effective f).isPresent p.fields with
  | false => exact .ok h
  | true =>
    cases delegated : (p.memory.effective f).parse with
    | some name => exact l.parseTargetField targets own h name
    | none =>
      cases sized : (p.memory.effective f).length with
      | some length => exact l.parseScalar pair own h here delegated sized
      | none => exact .ok h

/-! ### Structures -/

/-- The descriptors take their turns in step. -/
theorem parseFields (l : Lockstep g g' o entry k F D)
    (targets : TargetsInStep g entry k D parse parse') (pair : g.Pair g' s s')
    (h : p.Paired g entry k F s s' p') :
    InStep k (Finish.Paired g entry k F s s') (WireGrammar.parseFields o parse p)
      (WireGrammar.parseFields o parse' p') := by
  have declared := l.like.structure pair
  fun_induction WireGrammar.parseFields o parse p generalizing p' with
  | case1 p ended =>
    have ended' : p'.cursor.isExhausted := by rw [h.cursor, BitCursor.isExhausted_shift, ended]
    rw [parseFields_of_exhausted ended']
    exact .ok ⟨h, rfl⟩
  | case2 p left ended =>
    have ended' : p'.queue = [] := by
      have queue := h.queue
      rw [ended] at queue
      exact List.forall₂_nil_left_iff.mp queue
    rw [parseFields_of_nil ended']
    exact .ok ⟨h, rfl⟩
  | case3 p left item queue hq name hd ih =>
    obtain ⟨go, d', again', queue', first', head, tail⟩ := h.first left hq
    have like := declared.descriptor head.declared
    rw [hd] at like
    cases like
    rw [parseFields_of_type go first' rfl]
    exact ih (h.dequeue tail)
  | case4 p left item queue hq name hd =>
    obtain ⟨go, d', again', queue', first', head, tail⟩ := h.first left hq
    have like := declared.descriptor head.declared
    rw [hd] at like
    cases like
    rw [parseFields_of_next go first' rfl]
    exact .ok ⟨h.dequeue tail, rfl⟩
  | case5 p left item queue hq f hd q ok ih =>
    obtain ⟨go, d', again', queue', first', head, tail⟩ := h.first left hq
    obtain ⟨format, rfl, own⟩ := declared.field (hd ▸ head.declared)
    have step := l.parseField targets pair own (h.dequeue tail)
    obtain ⟨q', ok', paired⟩ := step.of_ok ok
    rw [parseFields_of_turn go first' rfl ok']
    exact ih paired
  | case6 p left item queue hq f hd failure failed again ih =>
    obtain ⟨go, d', again', queue', first', head, tail⟩ := h.first left hq
    obtain ⟨format, rfl, own⟩ := declared.field (hd ▸ head.declared)
    have step := l.parseField targets pair own (h.dequeue tail)
    rw [parseFields_of_dropped go first' rfl (step.of_error failed) (head.again.trans again)]
    exact ih (h.dequeue tail)
  | case7 p left item queue hq f hd failure failed last =>
    obtain ⟨go, d', again', queue', first', head, tail⟩ := h.first left hq
    obtain ⟨format, rfl, own⟩ := declared.field (hd ▸ head.declared)
    have step := l.parseField targets pair own (h.dequeue tail)
    have last' : ¬again' = true := fun again => last (head.again.symm.trans again)
    rw [parseFields_of_failed go first' rfl (step.of_error failed) last']
    exact .error failure

/-- The first field that is missing has the same name in both runs. -/
theorem missing? (l : Lockstep g g' o entry k F D) (pair : g.Pair g' s s')
    (h : p.Paired g entry k F s s' p') :
    p'.missing?.map (·.name) = p.missing?.map (·.name) := by
  have tried : ∀ item item', Pending.Paired s s' item item' →
      (!item.again ↔ !item'.again) := by
    intro item item' paired
    rw [paired.again]
  have queue := List.rel_filter (fun item item' paired => tried item item' paired) h.queue
  have declared := l.like.structure pair
  unfold Progress.missing?
  generalize p.queue.filter (fun item => !item.again) = items at queue ⊢
  generalize p'.queue.filter (fun item => !item.again) = items' at queue ⊢
  induction queue with
  | nil => rfl
  | @cons item item' items items' head tail ih =>
    obtain ⟨d, again⟩ := item
    obtain ⟨d', again'⟩ := item'
    rw [List.findSome?_cons, List.findSome?_cons]
    have own := head.declared
    cases declared.descriptor own with
    | type | next => exact ih
    | field f format =>
      have present : (p.memory.effective f).isPresent p'.fields =
          (p.memory.effective f).isPresent p.fields :=
        l.present pair (List.of_mem_zip own).1 h.sourced h.fields
      have same : ((p'.memory.effective (f.withFormat format)).isPresent p'.fields &&
          (p'.memory.effective (f.withFormat format)).isRequired) =
            ((p.memory.effective f).isPresent p.fields && (p.memory.effective f).isRequired) := by
        rw [h.memory, ← present]
        rfl
      cases needed : (p.memory.effective f).isPresent p.fields &&
          (p.memory.effective f).isRequired with
      | true =>
        simp only [Descriptor.field?, Option.filter_some, same, needed, if_true]
        rfl
      | false =>
        simp only [Descriptor.field?, Option.filter_some, same, needed, Bool.false_eq_true,
          if_false]
        exact ih

theorem outcome (l : Lockstep g g' o entry k F D) (pair : g.Pair g' s s') {fin fin' : Finish}
    (h : fin.Paired g entry k F s s' fin') :
    InStep k (StructureOutcome.Paired g entry F s s') (fin.outcome s) (fin'.outcome s') := by
  have done : StructureOutcome.Paired g entry F s s'
      ⟨fin.progress.fields, fin.progress.cursor.consumedBytes, fin.next, fin.progress.context⟩
      ⟨fin'.progress.fields, fin'.progress.cursor.consumedBytes, fin'.next,
        fin'.progress.context⟩ := {
    fields := h.progress.fields
    consumed := by rw [h.progress.cursor, BitCursor.consumedBytes_shift]
    next := h.next
    context := h.progress.context
    sourced := h.progress.sourced.context }
  have ended : (fin'.next.isNone && fin'.progress.cursor.isExhausted) =
      (fin.next.isNone && fin.progress.cursor.isExhausted) := by
    rw [h.next, h.progress.cursor, BitCursor.isExhausted_shift]
  have missing := l.missing? pair h.progress
  unfold Finish.outcome
  simp only [ended]
  split
  · cases here : fin.progress.missing? with
    | none =>
      rw [here, Option.map_none, Option.map_eq_none_iff] at missing
      rw [missing]
      exact .ok done
    | some f =>
      rw [here, Option.map_some] at missing
      obtain ⟨f', there, named⟩ := Option.map_eq_some_iff.mp missing
      rw [there]
      simp only [named, (l.like.structure pair).name]
      exact h.progress.fail (.incompleteStructure s.name f.name)
  · exact .ok done

/-- A structure is decoded in step, if names are. -/
theorem parseDescriptors (l : Lockstep g g' o entry k F D)
    (targets : TargetsInStep g entry k D parse parse') (pair : g.Pair g' s s') {input : Slice}
    {ctx : StreamContext} (known : SourcedContext g entry ctx) :
    InStep k (StructureOutcome.Paired g entry F s s')
      (WireGrammar.parseDescriptors o parse s input ctx)
      (WireGrammar.parseDescriptors o parse' s' (input.shift k) ctx) := by
  have start : (Progress.start s input ctx).Paired g entry k F s s'
      (.start s' (input.shift k) ctx) := {
    cursor := rfl
    queue := by
      refine List.rel_map (fun d d' declared => ?_) (l.like.structure pair).pairs
      exact ⟨declared, rfl⟩
    fields := .nil
    memory := rfl
    sourced := .start known s }
  exact (l.parseFields targets pair start).bind fun fin fin' ended => l.outcome pair ended

/-! ### Names -/

/-- Structures are decoded in step, on a slice. -/
def StructuresInStep (g g' : Grammar) (entry : StreamContext) (k : Nat)
    (F : Structure → Structure → DecodedField → DecodedField → Prop)
    (enter enter' : StructureParser) (input : Slice) : Prop :=
  ∀ s s' ctx, g.Pair g' s s' → SourcedContext g entry ctx →
    InStep k (StructureOutcome.Paired g entry F s s') (enter s input ctx)
      (enter' s' (input.shift k) ctx)

section Names

variable {enter enter' : StructureParser} {input : Slice} {ctx : StreamContext}

theorem resolved (l : Lockstep g g' o entry k F D) (pair : g.Pair g' s s')
    {out out' : StructureOutcome} (h : out.Paired g entry F s s' out') :
    (out.resolved s input).Paired g entry D (out'.resolved s' (input.shift k)) where
  decoded := by
    rw [StructureOutcome.resolved, StructureOutcome.resolved, h.consumed,
      (l.like.structure pair).name]
    exact l.finish pair h.fields input.offset out.consumed
  consumed := h.consumed
  next := h.next
  context := h.context
  sourced := h.sourced

/-- The same alternative is the first one that fits, or none fits in both runs. -/
theorem firstFit (l : Lockstep g g' o entry k F D)
    (structures : StructuresInStep g g' entry k F enter enter' input)
    (known : SourcedContext g entry ctx) {ss ss' : List Structure}
    (pairs : List.Forall₂ (g.Pair g') ss ss') :
    Option.Rel (Resolved.Paired g entry D) (WireGrammar.firstFit enter input ctx ss)
      (WireGrammar.firstFit enter' (input.shift k) ctx ss') := by
  induction pairs with
  | nil => exact .none
  | @cons s s' ss ss' pair rest ih =>
    have step := structures s s' ctx pair known
    rw [WireGrammar.firstFit, WireGrammar.firstFit]
    cases entered : enter s input ctx with
    | ok out =>
      obtain ⟨out', entered', paired⟩ := step.of_ok entered
      rw [entered']
      exact .some (l.resolved pair paired)
    | error failure =>
      rw [step.of_error entered]
      exact ih

theorem resolveTypeBy (l : Lockstep g g' o entry k F D)
    (structures : StructuresInStep g g' entry k F enter enter' input)
    (known : SourcedContext g entry ctx) (typeName : String) :
    InStep k (Resolved.Paired g entry D) (WireGrammar.resolveTypeBy g enter typeName input ctx)
      (WireGrammar.resolveTypeBy g' enter' typeName (input.shift k) ctx) := by
  have fit := l.firstFit structures known (l.like.structuresOfType typeName)
  unfold WireGrammar.resolveTypeBy
  generalize WireGrammar.firstFit enter input ctx (g.structuresOfType typeName) = x at fit ⊢
  generalize WireGrammar.firstFit enter' (input.shift k) ctx (g'.structuresOfType typeName) = y
    at fit ⊢
  cases fit with
  | some paired => exact .ok paired
  | none => exact .error ⟨.noMatchingStructure typeName input.offset input.bytes.head?, ctx⟩

/-- A name is decoded in step, if structures are. -/
theorem parseTargetBy (l : Lockstep g g' o entry k F D)
    (structures : StructuresInStep g g' entry k F enter enter' input)
    (known : SourcedContext g entry ctx) (name : String) :
    InStep k (Resolved.Paired g entry D) (WireGrammar.parseTargetBy g enter name input ctx)
      (WireGrammar.parseTargetBy g' enter' name (input.shift k) ctx) := by
  unfold WireGrammar.parseTargetBy
  rcases l.like.getStructure? name with ⟨here, there⟩ | ⟨s, s', here, there, pair⟩
  · rw [here, there]
    exact l.resolveTypeBy structures known name
  · rw [here, there]
    exact (structures s s' ctx pair known).map fun out out' paired => l.resolved pair paired

end Names

/-! ### Structures within each other -/

/-- A structure is decoded in step, within others or not. -/
theorem enterStructure (l : Lockstep g g' o entry k F D) (depth : Nat) (active : Active)
    (pair : g.Pair g' s s') {input : Slice} {ctx : StreamContext}
    (known : SourcedContext g entry ctx) :
    InStep k (StructureOutcome.Paired g entry F s s')
      (WireGrammar.enterStructure g o depth active s input ctx)
      (WireGrammar.enterStructure g' o depth (active.shift k) s' (input.shift k) ctx) := by
  have name := (l.like.structure pair).name
  induction depth generalizing active s s' input ctx with
  | zero =>
    rw [WireGrammar.enterStructure, WireGrammar.enterStructure, name]
    exact .error ⟨.recursiveStructure s.name input.offset, ctx⟩
  | succ depth ih =>
    rw [WireGrammar.enterStructure, WireGrammar.enterStructure, name, Slice.offset_shift,
      Active.contains_shift]
    split
    · exact .error ⟨.recursiveStructure s.name input.offset, ctx⟩
    · refine l.parseDescriptors (fun name input ctx known => ?_) pair known
      refine l.parseTargetBy (fun t t' ctx pair known => ?_) known name
      exact ih _ pair known (l.like.structure pair).name

/-- A structure is decoded in step where no other is being decoded around it. -/
theorem enterOutermost (l : Lockstep g g' o entry k F D) (input : Slice) :
    StructuresInStep g g' entry k F (WireGrammar.enterOutermost g o)
      (WireGrammar.enterOutermost g' o) input := by
  intro s s' ctx pair known
  have bound : depthBound g' (input.shift k) = depthBound g input := by
    rw [depthBound, depthBound, l.like.structures.length_eq, Slice.length_shift]
  rw [WireGrammar.enterOutermost, WireGrammar.enterOutermost, bound]
  exact l.enterStructure (depthBound g input) [] pair known

/-! ### Calls from outside -/

theorem resolveType (l : Lockstep g g' o entry k F D) (typeName : String) (input : Slice)
    {ctx : StreamContext} (known : SourcedContext g entry ctx) :
    InStep k (Resolved.Paired g entry D) (WireGrammar.resolveType g o typeName input ctx)
      (WireGrammar.resolveType g' o typeName (input.shift k) ctx) :=
  l.resolveTypeBy (l.enterOutermost input) known typeName

theorem parseTarget (l : Lockstep g g' o entry k F D) (name : String) (input : Slice)
    {ctx : StreamContext} (known : SourcedContext g entry ctx) :
    InStep k (Resolved.Paired g entry D) (WireGrammar.parseTarget g o name input ctx)
      (WireGrammar.parseTarget g' o name (input.shift k) ctx) :=
  l.parseTargetBy (l.enterOutermost input) known name

/-- The structure `name` is decoded in step, or there is none in either grammar. -/
theorem parseStructure (l : Lockstep g g' o entry k F D) (name : String) (input : Slice)
    {ctx : StreamContext} (known : SourcedContext g entry ctx) :
    InStep k (fun out out' => ∃ s s', g.Pair g' s s' ∧ out.Paired g entry F s s' out')
      (WireGrammar.parseStructure g o name input ctx)
      (WireGrammar.parseStructure g' o name (input.shift k) ctx) := by
  unfold WireGrammar.parseStructure
  rcases l.like.getStructure? name with ⟨here, there⟩ | ⟨s, s', here, there, pair⟩
  · rw [here, there]
    exact .error ⟨.unknownStructure name, ctx⟩
  · rw [here, there]
    exact (l.enterOutermost input s s' ctx pair known).mono fun out out' paired =>
      ⟨s, s', pair, paired⟩

/-! ### Packets -/

/-- A packet is decoded by a root in step. -/
theorem parseRoot (l : Lockstep g g' o entry 0 F D) (packet : List UInt8) (root : String)
    {ctx : StreamContext} (known : SourcedContext g entry ctx) :
    InStep 0 (fun res res' => List.Forall₂ D res.1.structures res'.1.structures ∧ res'.2 = res.2)
      (WireGrammar.parseRoot g o packet root ctx) (WireGrammar.parseRoot g' o packet root ctx) := by
  have targets : TargetsInStep g entry 0 D (WireGrammar.parseTarget g o)
      (WireGrammar.parseTarget g' o) := fun name input ctx known => l.parseTarget name input known
  have step := targets.chain root ⟨0, packet⟩ known
  rw [WireGrammar.parseRoot, WireGrammar.parseRoot, attemptRoot_eq, attemptRoot_eq]
  refine step.bind fun c c' paired => ?_
  have last : c'.rest.offset = c.rest.offset := by
    rw [paired.rest, Slice.offset_shift, Nat.add_zero]
  unfold Chain.whole
  rw [last, paired.context]
  split
  · exact .ok ⟨paired.structures, rfl⟩
  · exact .error ⟨.trailingBytes root c.rest.offset packet.length, c.context⟩

/-- A packet fails for the same reason in both runs, or is decoded to trees of related
structures. -/
theorem parseTopLevel (l : Lockstep g g' o ctx 0 F D) (packet : List UInt8) :
    (∃ cause, WireGrammar.parseTopLevel g o packet ctx = (.error cause, ctx) ∧
      WireGrammar.parseTopLevel g' o packet ctx = (.error cause, ctx)) ∨
    ∃ tree tree' ctx', WireGrammar.parseTopLevel g o packet ctx = (.ok tree, ctx') ∧
      WireGrammar.parseTopLevel g' o packet ctx = (.ok tree', ctx') ∧
      List.Forall₂ D tree.structures tree'.structures := by
  unfold WireGrammar.parseTopLevel
  rw [l.like.roots]
  generalize noRoot = last
  induction g.roots generalizing last with
  | nil => exact .inl ⟨last, rfl, rfl⟩
  | cons root roots ih =>
    have step := l.parseRoot packet root (.refl g ctx)
    rw [firstRoot, firstRoot]
    cases decoded : WireGrammar.parseRoot g o packet root ctx with
    | ok res =>
      obtain ⟨res', decoded', related, context⟩ := step.of_ok decoded
      rw [decoded']
      exact .inr ⟨res.1, res'.1, res.2, rfl, by rw [← context], related⟩
    | error failure =>
      rw [step.of_error decoded, Failure.shift_zero]
      exact ih failure.error

end Lockstep

end Fields

end WireGrammar
