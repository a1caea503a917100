import WireGrammar.Proofs.Decoding.Invariant

/-!
# The context tells only of the decoded packet

Roots, alternatives and further tries of a field may fail after they have saved attributes into the
context.  What they saved is gone: the context a packet leaves can be found from the decoded packet
alone, by firing the triggers of its scalars one after the other.

* `ParseTree.replay`: the triggers of all scalars of a decoded packet;
* `replay_of_parseTopLevel`: replaying comes to the context that decoding comes to.
-/

namespace WireGrammar

/-! ### Replaying -/

/-- The fields that a structure declares. -/
def Structure.fields (s : Structure) : List FieldDescriptor :=
  s.descriptors.filterMap Descriptor.field?

/-- The field with the given name of the structure with the name `owner`. -/
def Grammar.declared? (g : Grammar) (owner name : String) : Option FieldDescriptor :=
  (g.getStructure? owner).bind fun s => s.fields.find? (·.name == name)

mutual

/-- The memory of the structure with the name `owner`, after a field of it. -/
def DecodedField.replay (g : Grammar) (o : Options) (owner : String) :
    DecodedField → Memory → Option Memory
  | .scalar name value _ _, m =>
    (g.declared? owner name).bind fun f =>
      (fireAll o name value ((m.effective f).triggers.getD []) m).toOption
  | .nested _ inner _ _, m => (inner.replay g o m.context).map fun ctx => { m with context := ctx }

/-- The context after a structure, nothing being pending at its start. -/
def DecodedStructure.replay (g : Grammar) (o : Options) :
    DecodedStructure → StreamContext → Option StreamContext
  | ⟨name, fields, _, _⟩, ctx => (replayFields g o name fields ⟨.empty, ctx⟩).map (·.context)

/-- The memory of the structure with the name `owner`, after several fields of it. -/
def replayFields (g : Grammar) (o : Options) (owner : String) :
    List DecodedField → Memory → Option Memory
  | [], m => some m
  | f :: fs, m => (f.replay g o owner m).bind (replayFields g o owner fs)

end

/-- The context after the structures of a packet. -/
def ParseTree.replay (g : Grammar) (o : Options) (t : ParseTree) (ctx : StreamContext) :
    Option StreamContext :=
  t.structures.foldlM (fun ctx s => s.replay g o ctx) ctx

variable {g : Grammar} {o : Options} {owner : String}

theorem replayFields_append (as bs : List DecodedField) (m : Memory) :
    replayFields g o owner (as ++ bs) m =
      (replayFields g o owner as m).bind (replayFields g o owner bs) := by
  induction as generalizing m with
  | nil => rfl
  | cons f fs ih =>
    rw [List.cons_append, replayFields, replayFields, Option.bind_assoc]
    exact congrArg _ (funext ih)

/-! ### Distinct names -/

/-- No structure declares two fields of one name. -/
def Grammar.DistinctFields (g : Grammar) : Prop :=
  ∀ s ∈ g.structures, (s.fields.map (·.name)).Nodup

instance (g : Grammar) : Decidable g.DistinctFields := by
  unfold Grammar.DistinctFields
  infer_instance

theorem declared?_eq_some (wf : g.WellFormed) (distinct : g.DistinctFields) {s : Structure}
    (mem : s ∈ g.structures) {f : FieldDescriptor} (own : .field f ∈ s.descriptors) :
    g.declared? s.name f.name = some f := by
  have found : g.getStructure? s.name = some s := wf.getStructure?_eq_some.mpr ⟨mem, rfl⟩
  have field : f ∈ s.fields := List.mem_filterMap.mpr ⟨_, own, rfl⟩
  rw [Grammar.declared?, found]
  exact find?_of_nodup (distinct s mem) field

/-! ### Decoding and replaying -/

/-- Nested structures leave the context that the row of them leaves. -/
theorem replayFields_nestedFields {input rest : Slice} {ctx ctx' : StreamContext}
    {ss : List DecodedStructure}
    (row : Row (fun _ ctx r => r.decoded.replay g o ctx = some r.context) input ctx ss rest ctx')
    (f : FieldDescriptor) {m : Memory} (here : m.context = ctx) :
    replayFields g o owner (nestedFields f ss) m = some { m with context := ctx' } := by
  induction row generalizing m with
  | nil => subst here; rfl
  | cons head tail ih =>
    rw [nestedFields, List.map_cons, replayFields, DecodedField.replay, here, head]
    exact ih rfl

/-- To have been replayed is an invariant of decoding. -/
theorem decodingInvariant_replayed (wf : g.WellFormed) (distinct : g.DistinctFields)
    {entry : StreamContext} (free : FormatFree g entry) (o : Options) :
    DecodingInvariant g o entry
      (fun s _ ctx _ fields m => replayFields g o s.name fields ⟨.empty, ctx⟩ = some m)
      (fun _ ctx r => r.decoded.replay g o ctx = some r.context) where
  start _ := rfl
  scalar := by
    intro s input ctx c fields m f length r m' mem own more sourced replayed turn
    rw [replayFields_append, replayed, Option.bind_some, scalarField, sourced.shown_eq free mem own,
      replayFields, DecodedField.replay, declared?_eq_some wf distinct mem own, Option.bind_some,
      turn.fired]
    rfl
  target := by
    intro s input ctx c fields m f view structures rest ctx' mem own more sourced replayed viewed row
    rw [replayFields_append, replayed, Option.bind_some]
    exact replayFields_nestedFields row f rfl
  finish := by
    intro s input ctx c fields m mem replayed next
    rw [DecodedStructure.replay, replayed]
    rfl

theorem replay_of_row {input rest : Slice} {ctx ctx' : StreamContext} {ss : List DecodedStructure}
    (row : Row (fun _ ctx r => r.decoded.replay g o ctx = some r.context) input ctx ss rest ctx') :
    (ParseTree.mk ss).replay g o ctx = some ctx' := by
  unfold ParseTree.replay
  induction row with
  | nil => rfl
  | cons head tail ih =>
    rw [List.foldlM_cons, head]
    exact ih

/-- A packet leaves the context that the triggers of its decoded scalars come to, one after the
other, each structure starting with nothing pending.  Nothing else that was tried leaves a trace. -/
theorem replay_of_parseTopLevel (wf : g.WellFormed) (distinct : g.DistinctFields)
    {ctx : StreamContext} (free : FormatFree g ctx) {packet : List UInt8} {tree : ParseTree}
    {ctx' : StreamContext} (h : parseTopLevel g o packet ctx = (.ok tree, ctx')) :
    tree.replay g o ctx = some ctx' := by
  obtain ⟨rest, row, -⟩ := (decodingInvariant_replayed wf distinct free o).row_of_parseTopLevel h
  exact replay_of_row row

/-- A field of a byte that is saved as the length of the fields with the name `target`. -/
def saving (name target : String) : Descriptor :=
  .field ⟨name, {
    length := some (.bits 8)
    triggers := some [.onField target [.set .length], .saveToContext] }, false⟩

/-- A field of a byte that has to be `n`. -/
def exactly (name : String) (n : Nat) : Descriptor :=
  .field ⟨name, { length := some (.bits 8), values := some (.single (.int n)) }, false⟩

/-- A root, an alternative and a further try that fail, each after it has saved something. -/
def retracting : Grammar where
  roots := ["Wrong", "Right"]
  structures := [
    ⟨"Wrong", [saving "count" "wrong", exactly "end" 0]⟩,
    ⟨"Right", [
      .field ⟨"body", { parse := some "Body" }, false⟩,
      .field ⟨"item", { parse := some "Item" }, true⟩,
      .field ⟨"kept", { length := some .rest }, false⟩]⟩,
    ⟨"First", [.type "Body", saving "size" "first", exactly "mark" 1]⟩,
    ⟨"Second", [.type "Body", saving "size" "kept", exactly "mark" 2]⟩,
    ⟨"Item", [saving "index" "item", exactly "mark" 3]⟩]

theorem replay_of_parseTopLevel_retracting :
    ∃ tree ctx', retracting.WellFormed ∧ retracting.DistinctFields ∧
      FormatFree retracting .empty ∧
      parseTopLevel retracting {} [2, 2, 1, 3, 9, 8] .empty = (.ok tree, ctx') ∧
      tree.leaves.map (·.name) = ["size", "mark", "index", "mark", "kept"] ∧
      ctx'.entries.map (fun row => (row.1, row.2.length)) =
        [("item", some (.bits 8)), ("kept", some (.bits 16))] ∧
      tree.replay retracting {} .empty = some ctx' := by
  have wf : retracting.WellFormed := ⟨by decide, by decide, by decide⟩
  have distinct : retracting.DistinctFields := by decide
  have free : FormatFree retracting .empty := by decide
  have names : (parseTopLevel retracting {} [2, 2, 1, 3, 9, 8] .empty).1.toOption.map
      (fun tree => tree.leaves.map (·.name)) = some ["size", "mark", "index", "mark", "kept"] := by
    decide +kernel
  have saved : (parseTopLevel retracting {} [2, 2, 1, 3, 9, 8] .empty).2.entries.map
      (fun row => (row.1, row.2.length)) =
        [("item", some (.bits 8)), ("kept", some (.bits 16))] := by
    decide +kernel
  obtain ⟨tree, decoded, names⟩ := Option.map_eq_some_iff.mp names
  have ok := eq_ok_of_toOption decoded
  exact ⟨tree, _, wf, distinct, free, ok, names, saved, replay_of_parseTopLevel wf distinct free ok⟩

end WireGrammar
