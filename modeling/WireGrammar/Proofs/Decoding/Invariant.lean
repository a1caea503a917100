import WireGrammar.Proofs.Attribute.Arises
import WireGrammar.Proofs.Decoding.Loop

/-!
# Invariants of decoding

A property of decoded structures is proved by giving an invariant of their fields: it holds before
the first of them, scalars keep it, rows of nested structures with the property keep it, and at the
end it yields the property.  Whatever was tried in between and failed need not be looked at, and the
memory holds nothing but what can come about from the context that the decoding starts with.

* `DecodingInvariant`: these four obligations;
* `DecodingInvariant.row_of_parseTopLevel`: what they give for a whole packet.
-/

namespace WireGrammar

/-! ### Rows of structures -/

/-- Structures one behind the other, each with the property at the place and in the context that the
one before it leaves. -/
inductive Row (Good : Slice → StreamContext → Resolved → Prop) :
    Slice → StreamContext → List DecodedStructure → Slice → StreamContext → Prop where
  | nil (input : Slice) (ctx : StreamContext) : Row Good input ctx [] input ctx
  | cons {input rest : Slice} {ctx ctx' : StreamContext} {r : Resolved}
      {structures : List DecodedStructure} (head : Good input ctx r)
      (tail : Row Good (input.drop r.consumed) r.context structures rest ctx') :
      Row Good input ctx (r.decoded :: structures) rest ctx'

namespace Row

variable {Good : Slice → StreamContext → Resolved → Prop} {parse : TargetParser}

theorem append {input middle rest : Slice} {ctx ctx' ctx'' : StreamContext}
    {first second : List DecodedStructure} (h : Row Good input ctx first middle ctx')
    (h' : Row Good middle ctx' second rest ctx'') :
    Row Good input ctx (first ++ second) rest ctx'' := by
  induction h with
  | nil => exact h'
  | cons head tail ih => exact .cons head (ih h')

/-- A row leaves what is behind the bytes it takes. -/
theorem rest_eq {input rest : Slice} {ctx ctx' : StreamContext} {ss : List DecodedStructure}
    (row : Row Good input ctx ss rest ctx') : ∃ n, rest = input.drop n := by
  induction row with
  | nil input => exact ⟨0, rfl⟩
  | @cons _ _ _ _ r _ head tail ih =>
    obtain ⟨n, rfl⟩ := ih
    exact ⟨r.consumed + n, Slice.drop_drop ..⟩

/-- What is true of each decoded structure of a row. -/
theorem forall_mem {P : DecodedStructure → Prop} {input rest : Slice} {ctx ctx' : StreamContext}
    {ss : List DecodedStructure} (row : Row (fun _ _ r => P r.decoded) input ctx ss rest ctx') :
    ∀ s ∈ ss, P s := by
  induction row with
  | nil => simp
  | cons head _ ih => exact List.forall_mem_cons.mpr ⟨head, ih⟩

/-- The structures of a chain form a row. -/
theorem of_chain (good : ∀ name input ctx r, parse name input ctx = .ok r → Good input ctx r)
    {name : String} {input : Slice} {ctx : StreamContext} {c : Chain}
    (h : chain parse name input ctx = .ok c) : Row Good input ctx c.structures c.rest c.context := by
  fun_induction chain parse name input ctx generalizing c with
  | case1 => cases h
  | case2 name input ctx r ok last => cases h; exact .cons (good _ _ _ _ ok) (.nil _ _)
  | case3 name input ctx r ok next more ih =>
    obtain ⟨t, tail, rfl⟩ := map_eq_ok.mp h
    exact .cons (good _ _ _ _ ok) (ih tail)

/-- The structures of a list form a row. -/
theorem of_chains (good : ∀ name input ctx r, parse name input ctx = .ok r → Good input ctx r)
    {repetition : Repetition} {name : String} {input : Slice} {ctx : StreamContext} {c : Chain}
    (h : chains parse repetition name input ctx = .ok c) :
    Row Good input ctx c.structures c.rest c.context := by
  fun_induction chains parse repetition name input ctx generalizing c with
  | case1 => cases h; exact .nil _ _
  | case2 => cases h
  | case3 repetition input ctx go first ok shorter ih =>
    obtain ⟨t, tail, rfl⟩ := map_eq_ok.mp h
    exact (of_chain good ok).append (ih tail)
  | case4 repetition input ctx go first ok => cases h; exact of_chain good ok

end Row

/-! ### Structures by name -/

theorem firstFit_eq_some {enter : StructureParser} {input : Slice} {ctx : StreamContext}
    {ss : List Structure} {r : Resolved} (h : firstFit enter input ctx ss = some r) :
    ∃ s ∈ ss, ∃ out, enter s input ctx = .ok out ∧ r = out.resolved s input := by
  induction ss with
  | nil => cases h
  | cons s ss ih =>
    unfold firstFit at h
    split at h
    · next out ok => cases h; exact ⟨s, List.mem_cons_self, out, ok, rfl⟩
    · obtain ⟨t, mem, out, ok, rfl⟩ := ih h
      exact ⟨t, List.mem_cons_of_mem _ mem, out, ok, rfl⟩

/-- Whatever a name stands for, a structure of the grammar is decoded in its place. -/
theorem parseTargetBy_eq_ok {g : Grammar} {enter : StructureParser} {name : String} {input : Slice}
    {ctx : StreamContext} {r : Resolved} (h : parseTargetBy g enter name input ctx = .ok r) :
    ∃ s ∈ g.structures, ∃ out, enter s input ctx = .ok out ∧ r = out.resolved s input := by
  unfold parseTargetBy at h
  split at h
  · next s found =>
    obtain ⟨out, ok, rfl⟩ := map_eq_ok.mp h
    exact ⟨s, List.mem_of_find?_eq_some found, out, ok, rfl⟩
  · unfold resolveTypeBy at h
    split at h
    · next found =>
      cases h
      obtain ⟨s, mem, out, ok, rfl⟩ := firstFit_eq_some found
      exact ⟨s, (List.mem_filter.mp mem).1, out, ok, rfl⟩
    · cases h

/-- A structure that is entered and decoded is decoded by its descriptors, with itself being decoded
around its targets. -/
theorem enterStructure_eq_ok {g : Grammar} {o : Options} {depth : Nat} {active : Active}
    {s : Structure} {input : Slice} {ctx : StreamContext} {out : StructureOutcome}
    (h : enterStructure g o depth active s input ctx = .ok out) :
    ∃ depth', depth = depth' + 1 ∧
      parseDescriptors o
        (parseTargetBy g (enterStructure g o depth' ((s.name, input.offset) :: active))) s input
        ctx = .ok out := by
  cases depth with
  | zero => cases h
  | succ depth =>
    rw [enterStructure] at h
    split at h
    · cases h
    · exact ⟨depth, rfl, h⟩

/-! ### The obligations -/

/-- `Inv` holds along the fields of a structure, and where they end it yields `Good`, if contexts
are those that `entry` leads to. -/
structure DecodingInvariant (g : Grammar) (o : Options) (entry : StreamContext)
    (Inv : Structure → Slice → StreamContext → BitCursor → List DecodedField → Memory → Prop)
    (Good : Slice → StreamContext → Resolved → Prop) : Prop where
  /-- Before the first field. -/
  start : ∀ {s input ctx}, s ∈ g.structures → Inv s input ctx (.start input) [] ⟨.empty, ctx⟩
  /-- A further scalar. -/
  scalar : ∀ {s input ctx c fields m f length r m'}, s ∈ g.structures →
    .field f ∈ s.descriptors → c.isExhausted = false → m.Sourced g entry s →
    Inv s input ctx c fields m → ScalarTurn o f c fields m length r m' →
    Inv s input ctx r.cursor (fields ++ [scalarField f c m r]) m'
  /-- A further row of nested structures. -/
  target : ∀ {s input ctx c fields m f view structures rest ctx'}, s ∈ g.structures →
    .field f ∈ s.descriptors → c.isExhausted = false → m.Sourced g entry s →
    Inv s input ctx c fields m → (m.effective f).view c = .ok view →
    Row Good view m.context structures rest ctx' →
    Inv s input ctx (c.advance (view.length - rest.length)) (fields ++ nestedFields f structures)
      { m with context := ctx' }
  /-- Behind the last field. -/
  finish : ∀ {s input ctx c fields m}, s ∈ g.structures → Inv s input ctx c fields m → ∀ next,
    Good input ctx ⟨⟨s.name, fields, input.offset, input.offset + c.consumedBytes⟩,
      c.consumedBytes, next, m.context⟩

/-- From a context that `entry` leads to, decoding has the property, and leads to another one. -/
def Keeps (g : Grammar) (entry : StreamContext) (Good : Slice → StreamContext → Resolved → Prop)
    (input : Slice) (ctx : StreamContext) (r : Resolved) : Prop :=
  SourcedContext g entry ctx → SourcedContext g entry r.context ∧ Good input ctx r

theorem Row.of_keeps {g : Grammar} {entry : StreamContext}
    {Good : Slice → StreamContext → Resolved → Prop} {input rest : Slice}
    {ctx ctx' : StreamContext} {ss : List DecodedStructure}
    (row : Row (Keeps g entry Good) input ctx ss rest ctx') (h : SourcedContext g entry ctx) :
    SourcedContext g entry ctx' ∧ Row Good input ctx ss rest ctx' := by
  induction row with
  | nil input ctx => exact ⟨h, .nil input ctx⟩
  | cons head tail ih =>
    obtain ⟨next, good⟩ := head h
    obtain ⟨last, row⟩ := ih next
    exact ⟨last, .cons good row⟩

namespace DecodingInvariant

variable {g : Grammar} {o : Options} {entry : StreamContext}
  {Inv : Structure → Slice → StreamContext → BitCursor → List DecodedField → Memory → Prop}
  {Good : Slice → StreamContext → Resolved → Prop}

/-- One structure, if the structures inside it have the property. -/
theorem of_parseDescriptors (inv : DecodingInvariant g o entry Inv Good) {parse : TargetParser}
    (good : ∀ name input ctx r, parse name input ctx = .ok r → Keeps g entry Good input ctx r)
    {s : Structure} (mem : s ∈ g.structures) {input : Slice} {ctx : StreamContext}
    {out : StructureOutcome} (h : parseDescriptors o parse s input ctx = .ok out) :
    Keeps g entry Good input ctx (out.resolved s input) := by
  intro known
  obtain ⟨c, m, ⟨sourced, end_⟩, taken, left⟩ := parseDescriptors_induct
    (fun c fields m => m.Sourced g entry s ∧ Inv s input ctx c fields m)
    ⟨.start known s, inv.start mem⟩
    (fun _ _ _ _ _ _ _ hi own more turn =>
      ⟨hi.1.fireAll mem own (BitCursor.text?_of_readScalar turn.read) turn.fired,
        inv.scalar mem own more hi.1 hi.2 turn⟩)
    (fun _ _ _ _ _ _ _ hi own more turn => by
      obtain ⟨next, row⟩ := (Row.of_chains good turn.decoded).of_keeps hi.1.context
      exact ⟨⟨hi.1.pending, next⟩, inv.target mem own more hi.1 hi.2 turn.viewed row⟩)
    h
  have next := sourced.context
  have done := inv.finish mem end_ out.next
  rw [← left] at next
  rw [← taken, ← left] at done
  exact ⟨next, done⟩

/-- One structure, however deep others are nested in it. -/
theorem of_enterStructure (inv : DecodingInvariant g o entry Inv Good) {depth : Nat}
    {active : Active} {s : Structure} (mem : s ∈ g.structures) {input : Slice}
    {ctx : StreamContext} {out : StructureOutcome}
    (h : enterStructure g o depth active s input ctx = .ok out) :
    Keeps g entry Good input ctx (out.resolved s input) := by
  induction depth generalizing active s input ctx out with
  | zero => cases h
  | succ depth ih =>
    obtain ⟨depth', same, run⟩ := enterStructure_eq_ok h
    obtain rfl := Nat.succ.inj same
    refine inv.of_parseDescriptors (fun name input ctx r ok => ?_) mem run
    obtain ⟨t, mem, out, entered, rfl⟩ := parseTargetBy_eq_ok ok
    exact ih mem entered

/-- A name, within the structures that are being decoded. -/
theorem of_parseTargetBy (inv : DecodingInvariant g o entry Inv Good) {depth : Nat}
    {active : Active} {name : String} {input : Slice} {ctx : StreamContext} {r : Resolved}
    (h : parseTargetBy g (enterStructure g o depth active) name input ctx = .ok r) :
    Keeps g entry Good input ctx r := by
  obtain ⟨s, mem, out, entered, rfl⟩ := parseTargetBy_eq_ok h
  exact inv.of_enterStructure mem entered

theorem of_parseTarget (inv : DecodingInvariant g o entry Inv Good) {name : String}
    {input : Slice} {ctx : StreamContext} {r : Resolved}
    (h : parseTarget g o name input ctx = .ok r) : Keeps g entry Good input ctx r := by
  obtain ⟨s, mem, out, entered, rfl⟩ := parseTargetBy_eq_ok h
  exact inv.of_enterStructure mem entered

end DecodingInvariant

/-! ### Whole packets -/

theorem eq_ok_of_toOption {ε α β : Type} {x : Except ε α × β} {a : α}
    (h : x.1.toOption = some a) : x = (.ok a, x.2) := by
  obtain ⟨_ | _, _⟩ := x
  · cases h
  · cases h
    rfl

theorem firstRoot_eq_ok {g : Grammar} {o : Options} {packet : List UInt8}
    {ctx ctx' : StreamContext} {last : ParseError} {roots : List String} {tree : ParseTree}
    (h : firstRoot g o packet ctx last roots = (.ok tree, ctx')) :
    ∃ root ∈ roots, parseRoot g o packet root ctx = .ok (tree, ctx') := by
  induction roots generalizing last with
  | nil => cases h
  | cons root roots ih =>
    unfold firstRoot at h
    split at h
    · next ok => cases h; exact ⟨root, List.mem_cons_self, ok⟩
    · obtain ⟨r, mem, ok⟩ := ih h
      exact ⟨r, List.mem_cons_of_mem _ mem, ok⟩

theorem parseRoot_eq_ok {g : Grammar} {o : Options} {packet : List UInt8} {root : String}
    {ctx ctx' : StreamContext} {tree : ParseTree}
    (h : parseRoot g o packet root ctx = .ok (tree, ctx')) :
    ∃ c, chain (parseTarget g o) root ⟨0, packet⟩ ctx = .ok c ∧
      c.rest.offset = packet.length ∧ tree = ⟨c.structures⟩ ∧ ctx' = c.context := by
  obtain ⟨c, ok, whole⟩ := bind_eq_ok.mp h
  rw [attemptRoot_eq] at ok
  unfold Chain.whole at whole
  split at whole
  · next all => cases whole; exact ⟨c, ok, all, rfl, rfl⟩
  · cases whole

/-- A chain has at least the structure it starts with. -/
theorem structures_ne_nil_of_chain {parse : TargetParser} {name : String} {input : Slice}
    {ctx : StreamContext} {c : Chain} (h : chain parse name input ctx = .ok c) :
    c.structures ≠ [] := by
  fun_induction chain parse name input ctx generalizing c with
  | case1 => cases h
  | case2 => cases h; simp
  | case3 name input ctx r ok next more ih =>
    obtain ⟨t, -, rfl⟩ := map_eq_ok.mp h
    simp [Chain.after]

theorem structures_ne_nil_of_parseTopLevel {g : Grammar} {o : Options} {packet : List UInt8}
    {ctx ctx' : StreamContext} {tree : ParseTree}
    (h : parseTopLevel g o packet ctx = (.ok tree, ctx')) : tree.structures ≠ [] := by
  obtain ⟨root, -, ok⟩ := firstRoot_eq_ok h
  obtain ⟨c, decoded, -, rfl, -⟩ := parseRoot_eq_ok ok
  exact structures_ne_nil_of_chain decoded

section Packet

variable {g : Grammar} {o : Options} {ctx ctx' : StreamContext}
  {Inv : Structure → Slice → StreamContext → BitCursor → List DecodedField → Memory → Prop}
  {Good : Slice → StreamContext → Resolved → Prop} {packet : List UInt8} {tree : ParseTree}

/-- The structures of a decoded packet form a row that ends where the packet ends, and leave a
context with nothing but what can come about. -/
theorem DecodingInvariant.keeps_of_parseTopLevel (inv : DecodingInvariant g o ctx Inv Good)
    (h : parseTopLevel g o packet ctx = (.ok tree, ctx')) :
    ∃ rest, rest.offset = packet.length ∧ SourcedContext g ctx ctx' ∧
      Row Good ⟨0, packet⟩ ctx tree.structures rest ctx' := by
  obtain ⟨root, -, ok⟩ := firstRoot_eq_ok h
  obtain ⟨c, decoded, all, rfl, rfl⟩ := parseRoot_eq_ok ok
  have good : ∀ name input ctx' r, parseTarget g o name input ctx' = .ok r →
      Keeps g ctx Good input ctx' r := fun _ _ _ _ ok => inv.of_parseTarget ok
  exact ⟨c.rest, all, (Row.of_chain good decoded).of_keeps (.refl g ctx)⟩

theorem DecodingInvariant.row_of_parseTopLevel (inv : DecodingInvariant g o ctx Inv Good)
    (h : parseTopLevel g o packet ctx = (.ok tree, ctx')) :
    ∃ rest, Row Good ⟨0, packet⟩ ctx tree.structures rest ctx' ∧ rest.offset = packet.length := by
  obtain ⟨rest, all, -, row⟩ := inv.keeps_of_parseTopLevel h
  exact ⟨rest, row, all⟩

end Packet

end WireGrammar
