import WireGrammar.Proofs.Decoding.Agreement
import WireGrammar.Proofs.Termination

/-!
# A structure that nothing refers to

Names are looked up while a packet is decoded, and what is looked up may depend on the packet: a
table of triggers, or the context, can redirect a field to another target.  All the same a structure
that no such name answers to is never reached, so it can stand anywhere in the grammar.

* `Unreferenced`: no name in a grammar or a context answers to a structure;
* `enterStructure_of_inserted`, `enterOutermost_of_inserted`: structures are decoded as if it were
  not there;
* `agree_outermost`: any depth that is enough is as good as that of a call from outside.
-/

namespace WireGrammar

variable {g g' : Grammar} {o : Options} {entry : StreamContext} {x s : Structure}

/-! ### Names that lead to a structure -/

/-- The name stands for the structure, or for the type that it is an alternative of. -/
def Structure.answers (x : Structure) (name : String) : Bool :=
  x.name == name || x.typeName? == some name

/-- The value is no target that leads to the structure. -/
def AttributeValue.avoids (x : Structure) : AttributeValue → Bool
  | .parse target => !x.answers target
  | _ => true

/-- The structure does not follow by this descriptor. -/
def Descriptor.avoids (x : Structure) : Descriptor → Bool
  | .next name => !x.answers name
  | _ => true

/-- No target and no follower leads to the structure: not in a declaration, not in a table, not in
the context. -/
structure Unreferenced (g : Grammar) (ctx : StreamContext) (x : Structure) : Prop where
  declared : g.every (·.avoids x) = true
  kept : ctx.every (·.avoids x) = true
  next : ∀ s ∈ g.structures, ∀ d ∈ s.descriptors, d.avoids x = true

/-- The grammar `g'` has the structures of `g`, and `x` somewhere among them. -/
def Grammar.Inserted (g : Grammar) (x : Structure) (g' : Grammar) : Prop :=
  ∃ before after, g.structures = before ++ after ∧ g'.structures = before ++ x :: after

theorem getStructure?_of_inserted (h : g.Inserted x g') {name : String}
    (other : x.answers name = false) : g'.getStructure? name = g.getStructure? name := by
  obtain ⟨before, after, here, there⟩ := h
  have different : (x.name == name) = false := (Bool.or_eq_false_iff.mp other).1
  rw [Grammar.getStructure?, Grammar.getStructure?, here, there, List.find?_append,
    List.find?_append, List.find?_cons_of_neg (by simp [different])]

theorem structuresOfType_of_inserted (h : g.Inserted x g') {name : String}
    (other : x.answers name = false) : g'.structuresOfType name = g.structuresOfType name := by
  obtain ⟨before, after, here, there⟩ := h
  have different : (x.typeName? == some name) = false := (Bool.or_eq_false_iff.mp other).2
  rw [Grammar.structuresOfType, Grammar.structuresOfType, here, there, List.filter_append,
    List.filter_append, List.filter_cons_of_neg (by simp [different])]

/-- Only text sets a target. -/
theorem AttributeValue.avoids_of_ofValue? {kind : AttributeKind} {raw : Value}
    {v : AttributeValue} (read : raw.text? = none) (h : ofValue? kind raw = some v) :
    v.avoids x = true := by
  cases v with
  | parse target =>
    obtain ⟨rfl, -⟩ := kind_of_ofValue? h
    rw [kind, ofValue?, read] at h
    cases h
  | _ => rfl

/-- No field is decoded as a target that leads to the structure. -/
theorem Memory.Sourced.answers_eq_false (free : Unreferenced g entry x) {m : Memory}
    (h : m.Sourced g entry s) (mem : s ∈ g.structures) {f : FieldDescriptor}
    (own : .field f ∈ s.descriptors) {name : String}
    (delegated : (m.effective f).parse = some name) : x.answers name = false := by
  have effective : (m.effective f).get? .parse = some (.parse name) := by
    rw [FieldAttributes.get?, delegated]
    rfl
  have passes := (h.effective mem own effective).every free.declared free.kept
    fun _ _ _ read set => AttributeValue.avoids_of_ofValue? read set
  simpa [AttributeValue.avoids] using AttributeValue.self_of_every passes

/-- No structure is followed by one that leads to the structure. -/
theorem Unreferenced.answers_next (free : Unreferenced g entry x) (mem : s ∈ g.structures)
    {name : String} (follows : .next name ∈ s.descriptors) : x.answers name = false := by
  simpa [Descriptor.avoids] using free.next s mem _ follows

/-! ### Targets by name -/

section Target

variable {enter enter' : StructureParser} {name : String} {input : Slice} {ctx : StreamContext}

theorem firstFit_congr {ss : List Structure}
    (same : ∀ s ∈ ss, enter' s input ctx = enter s input ctx) :
    firstFit enter' input ctx ss = firstFit enter input ctx ss := by
  induction ss with
  | nil => rfl
  | cons s ss ih =>
    rw [firstFit, firstFit, same s List.mem_cons_self,
      ih fun t mem => same t (List.mem_cons_of_mem _ mem)]

/-- A name is decoded the same if the structures of the grammar are. -/
theorem parseTargetBy_congr (same : ∀ s ∈ g.structures, enter' s input ctx = enter s input ctx) :
    parseTargetBy g enter' name input ctx = parseTargetBy g enter name input ctx := by
  unfold parseTargetBy resolveTypeBy
  have alternatives : firstFit enter' input ctx (g.structuresOfType name) =
      firstFit enter input ctx (g.structuresOfType name) :=
    firstFit_congr fun s mem => same s (List.mem_filter.mp mem).1
  cases found : g.getStructure? name with
  | none => rw [alternatives]
  | some s => exact congrArg (Except.map _) (same s (List.mem_of_find?_eq_some found))

theorem parseTargetBy_of_inserted (h : g.Inserted x g') (other : x.answers name = false)
    (same : ∀ s ∈ g.structures, enter' s input ctx = enter s input ctx) :
    parseTargetBy g' enter' name input ctx = parseTargetBy g enter name input ctx := by
  rw [← parseTargetBy_congr same, parseTargetBy, parseTargetBy, resolveTypeBy, resolveTypeBy,
    getStructure?_of_inserted h other, structuresOfType_of_inserted h other]

end Target

/-! ### Structures -/

/-- The structure that follows one of the grammar is one that a descriptor names. -/
theorem next_mem_of_enterStructure {depth : Nat} {active : Active} {input : Slice}
    {ctx : StreamContext} {out : StructureOutcome}
    (h : enterStructure g o depth active s input ctx = .ok out) {name : String}
    (next : out.next = some name) : .next name ∈ s.descriptors := by
  obtain ⟨depth', -, run⟩ := enterStructure_eq_ok h
  exact next_mem_of_parseDescriptors run next

/-- Where nothing leads to `x`, decoding without it and with it agree on all names that come up,
if they do on structures. -/
theorem agree_of_inserted (free : Unreferenced g entry x) (ins : g.Inserted x g')
    {enter enter' : StructureParser}
    (calls : ∀ {s input ctx out}, enter s input ctx = .ok out →
      ∃ depth active, enterStructure g o depth active s input ctx = .ok out)
    (same : ∀ {s input ctx}, s ∈ g.structures → SourcedContext g entry ctx →
      enter' s input ctx = enter s input ctx) :
    Agree (fun name _ ctx => x.answers name = false ∧ SourcedContext g entry ctx)
      (parseTargetBy g enter) (parseTargetBy g' enter') where
  same := by
    rintro name input ctx ⟨other, known⟩
    exact parseTargetBy_of_inserted ins other fun s mem => same mem known
  onward := by
    rintro name input ctx r next ⟨other, known⟩ ok go
    obtain ⟨s, mem, out, entered, rfl⟩ := parseTargetBy_eq_ok ok
    obtain ⟨depth, active, entered⟩ := calls entered
    have later := ((decodingInvariant_tiled g o entry).of_enterStructure mem entered known).1
    have follows : out.next = some next := Resolved.next_of_continuation? go
    exact ⟨free.answers_next mem (next_mem_of_enterStructure entered follows), later⟩

/-- The turn of a field leaves nothing in the memory but what can come about, if targets do. -/
theorem FieldTurn.sourced {parse : TargetParser}
    {Good : Slice → StreamContext → Resolved → Prop}
    (keeps : ∀ name input ctx r, parse name input ctx = .ok r → Keeps g entry Good input ctx r)
    {f : FieldDescriptor} {p q : Progress} (turn : FieldTurn o parse f p q)
    (h : p.memory.Sourced g entry s) (mem : s ∈ g.structures) (own : .field f ∈ s.descriptors) :
    q.memory.Sourced g entry s := by
  cases turn with
  | idle => exact h
  | scalar turn =>
    rw [Progress.memory_requeueIf]
    exact h.fireAll mem own (BitCursor.text?_of_readScalar turn.read) turn.fired
  | target turn =>
    rw [Progress.memory_requeueIf]
    exact ⟨h.pending, ((Row.of_chains keeps turn.decoded).of_keeps h.context).1⟩

/-- What stands for a name leaves nothing but what can come about. -/
theorem keeps_of_parseTargetBy {depth : Nat} {active : Active} (name : String) (input : Slice)
    (ctx : StreamContext) (r : Resolved)
    (h : parseTargetBy g (enterStructure g o depth active) name input ctx = .ok r) :
    Keeps g entry (fun input _ r => TiledAt input r) input ctx r :=
  (decodingInvariant_tiled g o entry).of_parseTargetBy h

/-- Two ways of decoding targets that agree on the names that fields can be decoded as, in contexts
that can come about, decode structures alike. -/
theorem parseDescriptors_of_agree {parse parse' : TargetParser} {Named : String → Prop}
    {Good : Slice → StreamContext → Resolved → Prop}
    (keeps : ∀ name input ctx r, parse name input ctx = .ok r → Keeps g entry Good input ctx r)
    (agree : Agree (fun name _ ctx => Named name ∧ SourcedContext g entry ctx) parse parse')
    (named : ∀ (m : Memory) f name, m.Sourced g entry s → .field f ∈ s.descriptors →
      (m.effective f).parse = some name → Named name)
    (mem : s ∈ g.structures) {input : Slice} {ctx : StreamContext}
    (known : SourcedContext g entry ctx) :
    parseDescriptors o parse' s input ctx = parseDescriptors o parse s input ctx := by
  refine parseDescriptors_congr (fun p => p.memory.Sourced g entry s) (fun _ _ h => h)
    (fun p f q h own turn => turn.sourced keeps h mem own) (fun p f h own => ?_) (.start known s)
  refine parseField_congr fun name view delegated _ => ?_
  refine agree.chains ?_ ⟨named _ f name h own delegated, h.context⟩
  rintro slice ctx c ⟨same, known⟩ decoded
  exact ⟨same, ((Row.of_chain keeps decoded).of_keeps known).1⟩

/-- Where nothing leads to `x`, the structures of the grammar are decoded as if it were not there,
within others or not. -/
theorem enterStructure_of_inserted (free : Unreferenced g entry x) (ins : g.Inserted x g')
    {depth : Nat} {active active' : Active}
    (around : ∀ s ∈ g.structures, ∀ offset,
      active'.contains (s.name, offset) = active.contains (s.name, offset))
    (mem : s ∈ g.structures) {input : Slice} {ctx : StreamContext}
    (known : SourcedContext g entry ctx) :
    enterStructure g' o depth active' s input ctx = enterStructure g o depth active s input ctx := by
  induction depth generalizing active active' s input ctx with
  | zero => rfl
  | succ depth ih =>
    rw [enterStructure, enterStructure, around s mem]
    split
    · rfl
    have deeper : ∀ t ∈ g.structures, ∀ offset,
        ((s.name, input.offset) :: active').contains (t.name, offset) =
          ((s.name, input.offset) :: active).contains (t.name, offset) := by
      intro t mem offset
      rw [List.contains_cons, List.contains_cons, around t mem]
    have agree := agree_of_inserted (o := o) free ins (fun ok => ⟨_, _, ok⟩)
      fun mem known => ih deeper mem known
    exact parseDescriptors_of_agree keeps_of_parseTargetBy agree
      (fun _ _ _ h own delegated => h.answers_eq_false free mem own delegated) mem known

/-! ### Calls from outside -/

/-- So they are in calls from outside, although the bound on their depth is another one. -/
theorem enterOutermost_of_inserted (free : Unreferenced g entry x) (ins : g.Inserted x g')
    (mem : s ∈ g.structures) {input : Slice} {ctx : StreamContext}
    (known : SourcedContext g entry ctx) :
    enterOutermost g' o s input ctx = enterOutermost g o s input ctx := by
  have deeper : depthBound g input ≤ depthBound g' input := by
    obtain ⟨before, after, here, there⟩ := ins
    rw [depthBound, depthBound, here, there, List.length_append, List.length_append,
      List.length_cons]
    exact Nat.succ_le_succ (Nat.mul_le_mul_right _ (by omega))
  rw [enterOutermost, enterOutermost,
    enterStructure_of_inserted free ins (fun _ _ _ => rfl) mem known]
  exact enterStructure_eq _ _ (.empty g input) deeper (Nat.le_refl _) mem ctx

/-- A depth that is enough for a buffer is as good as that of a call from outside. -/
theorem agree_outermost {buffer : Slice} {depth : Nat} (enough : depthBound g buffer ≤ depth) :
    Agree (fun _ slice _ => slice.length ≤ buffer.length) (parseTarget g o)
      (parseTargetBy g (enterStructure g o depth [])) where
  same := by
    intro name slice ctx short
    refine parseTargetBy_congr fun s mem => ?_
    have few : depthBound g slice ≤ depthBound g buffer :=
      Nat.succ_le_succ (Nat.mul_le_mul_left _ (Nat.succ_le_succ short))
    exact enterStructure_eq depth (depthBound g slice) (.empty g slice) (Nat.le_trans few enough)
      (Nat.le_refl _) mem ctx
  onward := by
    intro name slice ctx r next short _ _
    rw [Slice.length_drop]
    exact Nat.le_trans (Nat.sub_le ..) short

end WireGrammar
