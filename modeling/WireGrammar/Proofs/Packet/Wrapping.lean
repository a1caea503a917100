import WireGrammar.Proofs.Decoding.Failure
import WireGrammar.Proofs.Grammar.Insertion

/-!
# A root in the place of a field

The structures of a packet, a root and those that follow it, can be put inside another structure, in
the place of its only field.  The packet is decoded to the same structures then, although the loop
over them is another one, on another slice, and with a structure around it.

* `wrapping`: the structure around the root;
* `parseTopLevel_of_wrapping`: packets are decoded to the same, but for the structure around.
-/

namespace WireGrammar

/-- The field `body`, in whose place `root` is decoded. -/
def delegate (body root : String) : FieldDescriptor := ⟨body, { parse := some root }, false⟩

/-- The structure `wrapper`, whose only field `body` is decoded as `root`. -/
def wrapping (wrapper body root : String) : Structure := ⟨wrapper, [.field (delegate body root)]⟩

/-- The structures of a packet of so many bytes, as fields of one structure. -/
def ParseTree.wrapped (wrapper body : String) (length : Nat) (t : ParseTree) : ParseTree :=
  ⟨[⟨wrapper, t.structures.map fun s => .nested body s s.start s.stop, 0, length⟩]⟩

/-- The failure, with bytes left behind by another root. -/
def ParseError.ofRoot (root : String) : ParseError → ParseError
  | .trailingBytes _ consumed total => .trailingBytes root consumed total
  | e => e

variable {o : Options} {wrapper body root : String}

/-! ### The field -/

section Field

variable {parse : TargetParser} {input : Slice} {ctx : StreamContext}

/-- A list of one chain is that chain. -/
theorem chains_once (left : input.bytes ≠ []) (name : String) :
    chains parse (.times 1) name input ctx = chain parse name input ctx := by
  have go : ¬((Repetition.times 1).isDone || input.bytes.isEmpty) := by
    simpa [Repetition.isDone] using left
  cases decoded : chain parse name input ctx with
  | error failure => exact chains_of_error go decoded
  | ok c =>
    by_cases forward : c.rest.length < input.length
    · rw [chains_of_forward go decoded forward, chains_of_done rfl]
      simp only [Except.map, Chain.after, List.append_nil]
    · exact chains_of_stuck go decoded forward

/-- A field that the context says nothing of has the attributes of its declaration. -/
theorem effective_of_absent {f : FieldDescriptor} (absent : ctx.get? f.name = none) :
    Memory.effective ⟨.empty, ctx⟩ f = f.attributes := by
  unfold Memory.effective Memory.given
  rw [absent]
  rfl

/-- With nothing pending, nothing is missing. -/
theorem outcome_of_nil (s : Structure) {p : Progress} (ended : p.queue = []) (next : Option String) :
    Finish.outcome s ⟨p, next⟩ = .ok ⟨p.fields, p.cursor.consumedBytes, next, p.context⟩ := by
  have none : p.missing? = Option.none := by
    rw [Progress.missing?, ended]
    rfl
  unfold Finish.outcome
  dsimp only
  rw [none, ite_self]

theorem consumedBytes_advance_start (input : Slice) (n : Nat) :
    ((BitCursor.start input).advance n).consumedBytes = min n input.length := by
  simp only [BitCursor.consumedBytes, BitCursor.advance, BitCursor.start, BitCursor.byteIndex,
    BitCursor.bitOffset]
  omega

theorem isExhausted_start (left : input.bytes ≠ []) :
    (BitCursor.start input).isExhausted = false := by
  rw [BitCursor.isExhausted_eq_false_iff]
  have := List.length_pos_iff.mpr left
  simp only [BitCursor.start, Slice.length]
  omega

/-- The field is decoded as the chain on all of the slice. -/
theorem parseField_delegate (absent : ctx.get? body = none) (left : input.bytes ≠ []) :
    parseField o parse (delegate body root) ⟨.start input, [], [], ⟨.empty, ctx⟩⟩ =
      (chain parse root input ctx).map fun c =>
        Progress.afterChain ⟨.start input, [], [], ⟨.empty, ctx⟩⟩ body input c := by
  have own : Memory.effective ⟨.empty, ctx⟩ (delegate body root) = { parse := some root } :=
    effective_of_absent absent
  have viewed : FieldAttributes.view { parse := some root } (BitCursor.start input) = .ok input :=
    BitCursor.rest_eq_ok.mpr ⟨rfl, (BitCursor.remaining_start input).symm⟩
  rw [← own] at viewed
  rw [parseField_of_viewed (by rw [own]; rfl) (by rw [own]) viewed, own, ← chains_once left]
  rfl

/-- The turn of the field is the only one. -/
theorem parseFields_wrapping (absent : ctx.get? body = none) (left : input.bytes ≠ []) :
    parseFields o parse (.start (wrapping wrapper body root) input ctx) =
      (chain parse root input ctx).map fun c =>
        ⟨Progress.afterChain ⟨.start input, [], [], ⟨.empty, ctx⟩⟩ body input c, none⟩ := by
  rw [parseFields_of_field (isExhausted_start left) rfl]
  show (parseField o parse (delegate body root) ⟨.start input, [], [], ⟨.empty, ctx⟩⟩).bind _ = _
  rw [parseField_delegate absent left]
  cases chain parse root input ctx with
  | error failure => rfl
  | ok c => exact parseFields_of_nil rfl

/-- The structure around a chain is decoded as the chain is. -/
theorem parseDescriptors_wrapping (absent : ctx.get? body = none) (left : input.bytes ≠ []) :
    parseDescriptors o parse (wrapping wrapper body root) input ctx =
      (chain parse root input ctx).map fun c =>
        ⟨c.structures.map fun s => .nested body s s.start s.stop, input.length - c.rest.length,
          none, c.context⟩ := by
  rw [parseDescriptors, parseFields_wrapping absent left]
  cases chain parse root input ctx with
  | error failure => rfl
  | ok c =>
    have taken := consumedBytes_advance_start input (input.length - c.rest.length)
    rw [Nat.min_eq_left (Nat.sub_le ..)] at taken
    show Finish.outcome (wrapping wrapper body root) _ = Except.ok _
    rw [outcome_of_nil _ rfl]
    exact congrArg (fun n => (.ok ⟨c.structures.map fun s => .nested body s s.start s.stop, n, none,
      c.context⟩ : Attempt StructureOutcome)) taken

end Field

/-! ### The structure around -/

section Packet

variable {g g' : Grammar} {input : Slice} {ctx : StreamContext}

/-- Chains inside the structure around them, in the grammar that has it, are those of the grammar
without it. -/
theorem chain_inside_wrapping (ins : g.Inserted (wrapping wrapper body root) g')
    (fresh : wrapper ∉ g.structures.map (·.name)) (known : root ∈ g.structures.map (·.name))
    (free : Unreferenced g ctx (wrapping wrapper body root)) {depth : Nat}
    (enough : depthBound g input ≤ depth) (offset : Nat) :
    chain (parseTargetBy g' (enterStructure g' o depth [(wrapper, offset)])) root input ctx =
      chain (parseTarget g o) root input ctx := by
  have around : ∀ s ∈ g.structures, ∀ offset',
      [(wrapper, offset)].contains (s.name, offset') = ([] : Active).contains (s.name, offset') := by
    intro s mem offset'
    have different : s.name ≠ wrapper := fun same => fresh (same ▸ List.mem_map_of_mem mem)
    simp [different]
  have inserted : Agree _ (parseTargetBy g (enterStructure g o depth []))
      (parseTargetBy g' (enterStructure g' o depth [(wrapper, offset)])) :=
    agree_of_inserted free ins (fun ok => ⟨_, _, ok⟩)
      fun mem known => enterStructure_of_inserted free ins around mem known
  have other : (wrapping wrapper body root).answers root = false := by
    have different : wrapper ≠ root := fun same => fresh (same ▸ known)
    simp [Structure.answers, wrapping, Structure.typeName?, different]
  rw [inserted.chain ⟨other, .refl g ctx⟩, (agree_outermost enough).chain (Nat.le_refl _)]

theorem getStructure?_wrapping (ins : g.Inserted (wrapping wrapper body root) g')
    (fresh : wrapper ∉ g.structures.map (·.name)) :
    g'.getStructure? wrapper = some (wrapping wrapper body root) := by
  obtain ⟨before, after, here, there⟩ := ins
  rw [Grammar.getStructure?, there, List.find?_append, List.find?_cons_of_pos (by simp [wrapping])]
  have none : before.find? (·.name == wrapper) = none := by
    refine List.find?_eq_none.mpr fun s mem same => fresh ?_
    rw [here, List.map_append]
    exact List.mem_append_left _ (List.mem_map.mpr ⟨s, mem, by simpa using same⟩)
  rw [none]
  rfl

/-- The structure around a root is decoded as the chain of the root, if bytes are left. -/
theorem chain_wrapping (ins : g.Inserted (wrapping wrapper body root) g')
    (fresh : wrapper ∉ g.structures.map (·.name)) (known : root ∈ g.structures.map (·.name))
    (free : Unreferenced g ctx (wrapping wrapper body root)) (absent : ctx.get? body = none)
    (left : input.bytes ≠ []) :
    chain (parseTarget g' o) wrapper input ctx =
      (chain (parseTarget g o) root input ctx).map fun c =>
        ⟨[⟨wrapper, c.structures.map fun s => .nested body s s.start s.stop, input.offset,
          input.offset + (input.length - c.rest.length)⟩],
          input.drop (input.length - c.rest.length), c.context⟩ := by
  have enough : depthBound g input ≤ g'.structures.length * (input.length + 1) := by
    obtain ⟨before, after, here, there⟩ := ins
    rw [depthBound, here, there, List.length_append, List.length_append, List.length_cons,
      ← Nat.add_assoc, Nat.succ_mul]
    omega
  have entered : parseTarget g' o wrapper input ctx =
      (chain (parseTarget g o) root input ctx).map fun c =>
        ⟨⟨wrapper, c.structures.map fun s => .nested body s s.start s.stop, input.offset,
          input.offset + (input.length - c.rest.length)⟩, input.length - c.rest.length, none,
          c.context⟩ := by
    rw [parseTarget, parseTargetBy, getStructure?_wrapping ins fresh]
    show (enterStructure g' o _ [] (wrapping wrapper body root) input ctx).map _ = _
    rw [depthBound, enterStructure, if_neg (by simp), parseDescriptors_wrapping absent left]
    rw [show (wrapping wrapper body root).name = wrapper from rfl,
      chain_inside_wrapping ins fresh known free enough]
    cases chain (parseTarget g o) root input ctx <;> rfl
  cases decoded : chain (parseTarget g o) root input ctx with
  | error failure =>
    rw [decoded] at entered
    exact chain_of_error entered
  | ok c =>
    rw [decoded] at entered
    exact chain_of_stop entered (ite_self none)

/-- Of a grammar with one root, the outcome is that of the root. -/
theorem parseTopLevel_of_root (rooted : g.roots = [root]) (packet : List UInt8) :
    parseTopLevel g o packet ctx =
      match parseRoot g o packet root ctx with
      | .ok (tree, after) => (.ok tree, after)
      | .error failure => (.error failure.error, ctx) := by
  rw [parseTopLevel, rooted, firstRoot]
  rfl

theorem ofRoot_of_isInner {e : ParseError} (h : e.isInner = true) : e.ofRoot wrapper = e := by
  cases e with
  | trailingBytes => cases h
  | _ => rfl

theorem parseTopLevel_wrapping (ins : g.Inserted (wrapping wrapper body root) g')
    (rooted : g.roots = [root]) (rooted' : g'.roots = [wrapper])
    (fresh : wrapper ∉ g.structures.map (·.name)) (known : root ∈ g.structures.map (·.name))
    (free : Unreferenced g ctx (wrapping wrapper body root)) (absent : ctx.get? body = none)
    {packet : List UInt8} (left : packet ≠ []) :
    parseTopLevel g' o packet ctx =
      match parseTopLevel g o packet ctx with
      | (.ok tree, after) => (.ok (tree.wrapped wrapper body packet.length), after)
      | (.error e, after) => (.error (e.ofRoot wrapper), after) := by
  rw [parseTopLevel_of_root rooted', parseTopLevel_of_root rooted, parseRoot, parseRoot,
    attemptRoot_eq, attemptRoot_eq, chain_wrapping ins fresh known free absent left]
  cases decoded : chain (parseTarget g o) root ⟨0, packet⟩ ctx with
  | error failure =>
    rw [← attemptRoot_eq] at decoded
    have inner := (fails_of_attemptRoot known decoded).isInner
    simp only [Except.map, Except.bind, ofRoot_of_isInner inner]
  | ok c =>
    have stop := (tiledRow_of_chain decoded).offset_rest
    rw [Nat.zero_add] at stop
    simp only [Except.map, Except.bind, Chain.whole, Slice.offset_drop, Nat.zero_add, ← stop]
    by_cases all : c.rest.offset = packet.length
    · simp only [all, if_true]
      rfl
    · simp only [if_neg all]
      rfl

/-- Of a grammar with one root, bytes are left behind by that root. -/
theorem root_of_trailingBytes (rooted : g.roots = [root])
    (known : root ∈ g.structures.map (·.name)) {packet : List UInt8} {other : String}
    {consumed total : Nat} {after : StreamContext}
    (h : parseTopLevel g o packet ctx = (.error (.trailingBytes other consumed total), after)) :
    other = root := by
  rw [parseTopLevel_of_root rooted, parseRoot] at h
  cases decoded : attemptRoot g o packet root ctx with
  | error failure =>
    have inner := (fails_of_attemptRoot known decoded).isInner
    rw [decoded] at h
    obtain ⟨same, -⟩ := Prod.mk.inj h
    rw [Except.error.inj same] at inner
    cases inner
  | ok c =>
    rw [decoded] at h
    simp only [Except.bind, Chain.whole] at h
    split at h
    · next ok =>
      split at ok
      · cases h
      · cases ok
    · next failure failed =>
      split at failed
      · cases failed
      · cases failed
        cases h
        rfl

/-- A packet with bytes in it is decoded to the same structures, with the same context left, whether
its root stands alone or in the place of the only field of another one, which then spans the packet.
It is refused for the same cause, but for the name of the root that leaves bytes behind. -/
theorem parseTopLevel_of_wrapping (rooted : g.roots = [root]) (rooted' : g'.roots = [wrapper])
    (ins : g.Inserted (wrapping wrapper body root) g')
    (known : root ∈ g.structures.map (·.name)) (fresh : wrapper ∉ g.structures.map (·.name))
    (free : Unreferenced g ctx (wrapping wrapper body root)) (absent : ctx.get? body = none)
    (o : Options) {packet : List UInt8} (left : packet ≠ []) :
    (∀ structures after, parseTopLevel g o packet ctx = (.ok ⟨structures⟩, after) ↔
      parseTopLevel g' o packet ctx = (.ok ⟨[⟨wrapper,
        structures.map fun s => .nested body s s.start s.stop, 0, packet.length⟩]⟩, after)) ∧
    ∀ e after, parseTopLevel g o packet ctx = (.error e, after) →
      parseTopLevel g' o packet ctx = (.error (e.ofRoot wrapper), after) ∧
        ∀ other consumed total, e = .trailingBytes other consumed total → other = root := by
  have same := parseTopLevel_wrapping (o := o) ins rooted rooted' fresh known free absent left
  refine ⟨fun structures after => ⟨fun h => ?_, fun h => ?_⟩, fun e after h => ⟨?_, ?_⟩⟩
  · rw [same, h]
    rfl
  · rw [same] at h
    cases outcome : parseTopLevel g o packet ctx with
    | mk result left' =>
      rw [outcome] at h
      cases result with
      | error e => cases (Prod.mk.inj h).1
      | ok tree =>
        obtain ⟨trees, rfl⟩ := Prod.mk.inj h
        have fields := (DecodedStructure.mk.inj
          (List.cons.inj (ParseTree.mk.inj (Except.ok.inj trees))).1).2.1
        obtain ⟨decoded⟩ := tree
        have decoded : decoded = structures :=
          (List.map_inj_right fun s t eq => (DecodedField.nested.inj eq).2.1).mp fields
        rw [decoded]
  · rw [same, h]
  · rintro other consumed total rfl
    exact root_of_trailingBytes rooted known h

end Packet

/-- A load that is as long as the head before it says, which saves that for later packets. -/
def headed : Grammar where
  roots := ["Head"]
  structures := [
    ⟨"Head", [
      .field ⟨"size", {
        length := some (.bits 8)
        triggers := some [.onField "load" [.set .length], .saveToContext] }, false⟩,
      .next "Load"]⟩,
    ⟨"Load", [.field ⟨"load", { length := some .rest }, false⟩]⟩]

/-- The same in an envelope, which stands between the head and the load. -/
def enveloped : Grammar where
  roots := ["Envelope"]
  structures := [headed.structures[0], wrapping "Envelope" "content" "Head", headed.structures[1]]

theorem parseTopLevel_of_wrapping_enveloped :
    headed.roots = ["Head"] ∧ enveloped.roots = ["Envelope"] ∧
    headed.Inserted (wrapping "Envelope" "content" "Head") enveloped ∧
    "Head" ∈ headed.structures.map (·.name) ∧ "Envelope" ∉ headed.structures.map (·.name) ∧
    Unreferenced headed .empty (wrapping "Envelope" "content" "Head") ∧
    (∃ structures after, parseTopLevel headed {} [2, 7, 8] .empty = (.ok ⟨structures⟩, after) ∧
      structures.map (fun s => (s.name, s.start, s.stop)) = [("Head", 0, 1), ("Load", 1, 3)] ∧
      parseTopLevel enveloped {} [2, 7, 8] .empty = (.ok ⟨[⟨"Envelope",
        structures.map fun s => .nested "content" s s.start s.stop, 0, 3⟩]⟩, after)) ∧
    ∃ after, parseTopLevel headed {} [1, 7, 8] .empty = (.error (.trailingBytes "Head" 2 3), after) ∧
      parseTopLevel enveloped {} [1, 7, 8] .empty =
        (.error (.trailingBytes "Envelope" 2 3), after) := by
  have ins : headed.Inserted (wrapping "Envelope" "content" "Head") enveloped :=
    ⟨[headed.structures[0]], [headed.structures[1]], rfl, rfl⟩
  have known : "Head" ∈ headed.structures.map (·.name) := by decide
  have fresh : "Envelope" ∉ headed.structures.map (·.name) := by decide
  have free : Unreferenced headed .empty (wrapping "Envelope" "content" "Head") :=
    ⟨by decide, by decide, by decide⟩
  refine ⟨rfl, rfl, ins, known, fresh, free, ?_, ?_⟩
  · have spans : (parseTopLevel headed {} [2, 7, 8] .empty).1.toOption.map
        (fun tree => tree.structures.map fun s => (s.name, s.start, s.stop)) =
          some [("Head", 0, 1), ("Load", 1, 3)] := by
      decide +kernel
    obtain ⟨⟨structures⟩, decoded, spans⟩ := Option.map_eq_some_iff.mp spans
    have ok := eq_ok_of_toOption decoded
    obtain ⟨wrapped, -⟩ :=
      parseTopLevel_of_wrapping rfl rfl ins known fresh free rfl {} (List.cons_ne_nil 2 [7, 8])
    exact ⟨structures, _, ok, spans, (wrapped structures _).mp ok⟩
  · have refused : (match (parseTopLevel headed {} [1, 7, 8] .empty).1 with
        | .error (.trailingBytes other consumed total) => some (other, consumed, total)
        | _ => none) = some ("Head", 2, 3) := by
      decide +kernel
    obtain ⟨-, failed⟩ :=
      parseTopLevel_of_wrapping rfl rfl ins known fresh free rfl {} (List.cons_ne_nil 1 [7, 8])
    cases result : parseTopLevel headed {} [1, 7, 8] .empty with
    | mk outcome after =>
      rw [result] at refused
      cases outcome with
      | ok tree => cases refused
      | error e =>
        cases e with
        | trailingBytes other consumed total =>
          cases refused
          exact ⟨after, rfl, (failed _ after result).1⟩
        | _ => cases refused

end WireGrammar
