import WireGrammar.Packet.Dissection
import WireGrammar.Proofs.Machine.Read

/-!
# Decoding on the machine

Structures and packets decoded by operations that are checked.  Each field knows where its cursor
stood and where it ends, the structures of a list are gone over by a cursor over their window, and
those of a packet by an offset.  Wherever a loop goes on, it is looked whether it came closer to its
end.

* `walkChain`, `walkList`: the structures in the place of a field;
* `parseFields`: the fields of a structure;
* `enterStructure`: structures in each other;
* `dissect`: whole packets.
-/

namespace WireGrammar.Machine

/-- A way of decoding a structure, or an alternative of a type, by its name. -/
abbrev TargetParser := String → Slice → StreamContext → Checked Failure Resolved

/-- A way of decoding a given structure. -/
abbrev StructureParser := Structure → Slice → StreamContext → Checked Failure StructureOutcome

/-- A structure in the course of being decoded. -/
structure Progress where
  cursor : Cursor
  queue : List Pending
  fields : List DecodedField
  memory : Memory

namespace Progress

def context (p : Progress) : StreamContext := p.memory.context

/-- What is left to be done: bits to read, and descriptors to try. -/
def work (p : Progress) : Nat :=
  8 * p.cursor.remainingBytes - p.cursor.bit + p.queue.length

/-- The failure of a field at this point. -/
def fail {α : Type} (p : Progress) (e : ParseError) : Checked Failure α :=
  .error (.failed ⟨e, p.context⟩)

/-- Queues a further try of a repeated field that went beyond `before`, if enough is left. -/
def requeueIf (p : Progress) (f : FieldDescriptor) (before : Nat)
    (enough : Cursor → Checked Failure Bool) : Checked Failure Progress :=
  if f.repeated then do
    let after ← p.cursor.bitPosition
    if before < after then
      let left ← enough p.cursor
      return if left then { p with queue := ⟨.field f, true⟩ :: p.queue } else p
    else return p
  else return p

end Progress

/-! ### Scalars -/

namespace Cursor

/-- The offset behind a scalar of `bits` bits that starts in the byte at the offset `start`. -/
def scalarStop (c : Cursor) (start bits : Nat) : Checked ε Nat :=
  if bits = 0 then return start
  else do
    let last ← add c.bit bits
    let rounded ← add last 7
    add start (rounded / 8)

/-- Enough is left for a further try of a scalar of this length. -/
def enoughLeft (c : Cursor) : Length → Checked ε Bool
  | .bits n => do
    let left ← c.remainingBits
    return n / 4 ≤ left
  | _ => return 0 < c.remainingBytes

end Cursor

/-- Decodes a scalar field with the attributes `a`, of the given length. -/
def parseScalar (o : Options) (f : FieldDescriptor) (a : FieldAttributes) (length : Length)
    (before : Nat) (p : Progress) : Checked Failure Progress := do
  let start ← p.cursor.absolute
  let r ← (p.cursor.readScalar length).mapFailure fun cause => ⟨.unreadable f.name cause, p.context⟩
  let stop ← p.cursor.scalarStop start r.bits
  match a.rejects? r.value with
  | some spec => p.fail (.valueMismatch f.name r.value (.test spec))
  | none => do
    let _width ← sub stop start
    let memory ← Checked.of (fireAll o f.name r.value (a.triggers.getD []) p.memory)
    let after : Progress := {
      cursor := r.cursor
      queue := p.queue.filter fun item =>
        !(item.descriptor.field?.any fun f => prunesField o r.value (a.triggers.getD []) f.name)
      fields := p.fields ++ [.scalar f.name (a.shown r.value) start stop]
      memory := memory }
    after.requeueIf f before (·.enoughLeft length)

/-! ### Targets -/

/-- A walk over structures: the cursor behind them, and the context they leave. -/
structure Walk where
  cursor : Cursor
  structures : List DecodedStructure
  context : StreamContext

/-- Decodes the structure `name` where the walk stands, and goes over it. -/
def Walk.step (parse : TargetParser) (name : String) (w : Walk) :
    Checked Failure (Resolved × Walk) := do
  let bytes ← w.cursor.remaining
  let offset ← w.cursor.absolute
  let r ← parse name ⟨offset, bytes⟩ w.context
  let _width ← sub r.decoded.stop r.decoded.start
  let cursor ← w.cursor.advance r.consumed
  return (r, ⟨cursor, w.structures ++ [r.decoded], r.context⟩)

/-- Goes over the chain that starts with the structure `name`. -/
def walkChain (parse : TargetParser) (name : String) (w : Walk) : Checked Failure Walk :=
  if w.cursor.isExhausted then return w
  else do
    let (r, after) ← w.step parse name
    if r.consumed = 0 then return after
    else
      match r.next with
      | none => return after
      | some next =>
        if _h : after.cursor.remainingBytes < w.cursor.remainingBytes then
          walkChain parse next after
        else .error .stalled
termination_by w.cursor.remainingBytes

/-- With `done` chains behind the cursor, no further one is asked for. -/
def isReached (done : Nat) : Repetition → Bool
  | .times n => n ≤ done
  | .untilExhausted => false

/-- Goes over chains that start with the structure `name`, after `done` others. -/
def walkList (parse : TargetParser) (repetition : Repetition) (name : String) (done : Nat)
    (w : Walk) : Checked Failure Walk :=
  if isReached done repetition || w.cursor.isExhausted then return w
  else do
    let after ← walkChain parse name w
    let done ← add done 1
    if after.cursor.pos = w.cursor.pos then return after
    else if _h : after.cursor.remainingBytes < w.cursor.remainingBytes then
      walkList parse repetition name done after
    else .error .stalled
termination_by w.cursor.remainingBytes

/-- Decodes a field with the attributes `a`, in whose place the structure `target` stands. -/
def parseTargetField (parse : TargetParser) (f : FieldDescriptor) (a : FieldAttributes)
    (target : String) (before : Nat) (p : Progress) : Checked Failure Progress := do
  let cursor ← (view a p.cursor).mapFailure fun cause => ⟨.unreadable f.name cause, p.context⟩
  let w ← walkList parse (a.repetition (p.memory.dynamicLength f)) target 0 ⟨cursor, [], p.context⟩
  let cursor ← p.cursor.advance w.cursor.pos
  let after : Progress := {
    cursor := cursor
    queue := p.queue
    fields := p.fields ++ w.structures.map fun s => .nested f.name s s.start s.stop
    memory := { p.memory with context := w.context } }
  after.requeueIf f before fun c => return 0 < c.remainingBytes

/-! ### Fields -/

/-- Decodes one field with the attributes `a`. -/
def parseWith (o : Options) (parse : TargetParser) (f : FieldDescriptor) (a : FieldAttributes)
    (p : Progress) : Checked Failure Progress :=
  if a.isPresent p.fields then do
    let before ← p.cursor.bitPosition
    match a.parse, a.length with
    | some target, _ => parseTargetField parse f a target before p
    | none, some length => parseScalar o f a length before p
    | none, none => return p
  else return p

/-- Decodes one field. -/
def parseField (o : Options) (parse : TargetParser) (f : FieldDescriptor) (p : Progress) :
    Checked Failure Progress :=
  parseWith o parse f (p.memory.effective f) p

/-! ### Structures -/

/-- The end of the run over the descriptors: how far it came, and the structure that follows. -/
structure Finish where
  progress : Progress
  next : Option String

/-- Runs over the pending descriptors. -/
def parseFields (o : Options) (parse : TargetParser) (p : Progress) : Checked Failure Finish :=
  if p.cursor.isExhausted then return ⟨p, none⟩
  else
    match _hq : p.queue with
    | [] => return ⟨p, none⟩
    | item :: queue =>
      match item.descriptor with
      | .type _ => parseFields o parse { p with queue }
      | .next name => return ⟨{ p with queue }, some name⟩
      | .field f =>
        (parseField o parse f { p with queue }).resume
          (fun q => if _h : q.work < p.work then parseFields o parse q else .error .stalled)
          fun failure =>
            if item.again then parseFields o parse { p with queue } else .error (.failed failure)
termination_by p.work
decreasing_by all_goals first | assumption | simp [Progress.work, _hq]

/-- The first pending field that has to be there although the bytes have ended. -/
def Progress.missing? (p : Progress) : Option FieldDescriptor :=
  (p.queue.filter fun item => !item.again).findSome? fun item =>
    item.descriptor.field?.filter fun f =>
      let a := p.memory.effective f
      a.isPresent p.fields && a.isRequired

/-- What comes of a structure where nothing is missing. -/
def Finish.complete (fin : Finish) : Checked Failure StructureOutcome := do
  let p := fin.progress
  let consumed ← add p.cursor.pos (if p.cursor.isAligned then 0 else 1)
  return ⟨p.fields, consumed, fin.next, p.context⟩

/-- What comes of a structure at the end of the run over its descriptors. -/
def Finish.outcome (s : Structure) (fin : Finish) : Checked Failure StructureOutcome :=
  if fin.next.isNone && fin.progress.cursor.isExhausted then
    match fin.progress.missing? with
    | some f => fin.progress.fail (.incompleteStructure s.name f.name)
    | none => fin.complete
  else fin.complete

/-- Decodes a structure at the front of a slice. -/
def parseDescriptors (o : Options) (parse : TargetParser) (s : Structure) (input : Slice)
    (ctx : StreamContext) : Checked Failure StructureOutcome := do
  let cursor ← Cursor.start input.bytes input.offset
  let fin ← parseFields o parse ⟨cursor, s.descriptors.map fun d => ⟨d, false⟩, [], ⟨.empty, ctx⟩⟩
  fin.outcome s

/-! ### Structures by name -/

/-- The decoded structure with the place it was found at. -/
def resolved (s : Structure) (input : Slice) (out : StructureOutcome) : Checked ε Resolved := do
  let stop ← add input.offset out.consumed
  return ⟨⟨s.name, out.fields, input.offset, stop⟩, out.consumed, out.next, out.context⟩

/-- The first of the structures that fits. -/
def firstFit (enter : StructureParser) (input : Slice) (ctx : StreamContext) :
    List Structure → Checked Failure (Option Resolved)
  | [] => return none
  | s :: ss =>
    (enter s input ctx).resume
      (fun out => do
        let r ← resolved s input out
        return some r)
      fun _ => firstFit enter input ctx ss

/-- Decodes the first alternative of a type that fits. -/
def resolveTypeBy (g : Grammar) (enter : StructureParser) (typeName : String) (input : Slice)
    (ctx : StreamContext) : Checked Failure Resolved := do
  let fit ← firstFit enter input ctx (g.structuresOfType typeName)
  match fit with
  | some r => return r
  | none => throw (.failed ⟨.noMatchingStructure typeName input.offset input.bytes.head?, ctx⟩)

/-- Decodes the structure with the given name, or else an alternative of the type. -/
def parseTargetBy (g : Grammar) (enter : StructureParser) (name : String) (input : Slice)
    (ctx : StreamContext) : Checked Failure Resolved :=
  match g.getStructure? name with
  | some s => do
    let out ← enter s input ctx
    resolved s input out
  | none => resolveTypeBy g enter name input ctx

/-- Decodes a structure within others that are being decoded, at most `depth` further ones inside
each other. -/
def enterStructure (g : Grammar) (o : Options) : (depth : Nat) → Active → StructureParser
  | 0, _, s, input, ctx => .error (.failed ⟨.recursiveStructure s.name input.offset, ctx⟩)
  | depth + 1, active, s, input, ctx =>
    if active.contains (s.name, input.offset) then
      .error (.failed ⟨.recursiveStructure s.name input.offset, ctx⟩)
    else
      let nested := enterStructure g o depth ((s.name, input.offset) :: active)
      parseDescriptors o (parseTargetBy g nested) s input ctx

/-- Decodes a structure that no other is being decoded around. -/
def enterOutermost (g : Grammar) (o : Options) : StructureParser := fun s input ctx =>
  enterStructure g o (depthBound g input) [] s input ctx

/-- Decodes the structure `name` at the front of a slice. -/
def parseStructure (g : Grammar) (o : Options) (name : String) (input : Slice)
    (ctx : StreamContext) : Checked Failure StructureOutcome :=
  match g.getStructure? name with
  | some s => enterOutermost g o s input ctx
  | none => .error (.failed ⟨.unknownStructure name, ctx⟩)

/-- Decodes the first alternative of the type `typeName` that fits. -/
def resolveType (g : Grammar) (o : Options) (typeName : String) (input : Slice)
    (ctx : StreamContext) : Checked Failure Resolved :=
  resolveTypeBy g (enterOutermost g o) typeName input ctx

/-- Decodes the structure with the given name, or else an alternative of the type. -/
def parseTarget (g : Grammar) (o : Options) (name : String) (input : Slice)
    (ctx : StreamContext) : Checked Failure Resolved :=
  parseTargetBy g (enterOutermost g o) name input ctx

/-! ### Packets -/

/-- The structures of a root and of those that follow it, from the byte `offset` of the packet on
and behind the structures so far. -/
def rootChain (parse : TargetParser) (packet : List UInt8) (name : String)
    (structures : List DecodedStructure) (offset : Nat) (ctx : StreamContext) :
    Checked Failure Chain :=
  if !structures.isEmpty && packet.length ≤ offset then return .upTo packet structures offset ctx
  else do
    let bytes ← part packet offset packet.length
    let r ← parse name ⟨offset, bytes⟩ ctx
    let behind ← add offset r.consumed
    if r.consumed = 0 then return .upTo packet (structures ++ [r.decoded]) behind r.context
    else
      match r.next with
      | none => return .upTo packet (structures ++ [r.decoded]) behind r.context
      | some next =>
        if _h : packet.length - behind < packet.length - offset then
          rootChain parse packet next (structures ++ [r.decoded]) behind r.context
        else .error .stalled
termination_by packet.length - offset

/-- Decodes a packet by one root, to its last byte. -/
def parseRoot (g : Grammar) (o : Options) (packet : List UInt8) (root : String)
    (ctx : StreamContext) : Checked Failure (ParseTree × StreamContext) := do
  let c ← rootChain (parseTarget g o) packet root [] 0 ctx
  Checked.of (c.whole packet root)

/-- Tries roots in order; `last` is the failure of the root before them. -/
def firstRoot (g : Grammar) (o : Options) (packet : List UInt8) (ctx : StreamContext)
    (last : ParseError) : List String → Checked Empty (Except ParseError ParseTree × StreamContext)
  | [] => return (.error last, ctx)
  | root :: roots =>
    (parseRoot g o packet root ctx).resume
      (fun found => return (.ok found.1, found.2))
      fun failure => firstRoot g o packet ctx failure.error roots

/-- Decodes a packet by the first root of a grammar that fits. -/
def parseTopLevel (g : Grammar) (o : Options) (packet : List UInt8) (ctx : StreamContext) :
    Checked Empty (Except ParseError ParseTree × StreamContext) :=
  firstRoot g o packet ctx noRoot g.roots

/-- Tries grammars in order; `last` is the failure of the set so far, of `tried` grammars. -/
def firstGrammar (o : Options) (packet : List UInt8) (ctx : StreamContext) (tried : Nat)
    (last : DissectError) :
    List (String × Grammar) → Checked Empty (Except DissectError Dissection × StreamContext)
  | [] => return (.error last, ctx)
  | (id, g) :: entries => do
    let found ← parseTopLevel g o packet ctx
    match found with
    | (.ok tree, after) => return (.ok ⟨id, tree⟩, after)
    | (.error cause, after) =>
      firstGrammar o packet after (tried + 1) (.exhausted (tried + 1) id cause) entries

/-- Decodes a packet by the first grammar of a set that fits. -/
def dissect (gs : GrammarSet) (o : Options) (packet : List UInt8) (ctx : StreamContext) :
    Checked Empty (Except DissectError Dissection × StreamContext) :=
  firstGrammar o packet ctx 0 .noGrammars gs.entries

/-! ### Cursors that come up

Behind a field, and behind the structures in its place, the cursor is as sound as before.
-/

section Sound

variable {o : Options} {run : TargetParser} {f : FieldDescriptor} {a : FieldAttributes}
  {before : Nat} {p q : Progress} {w after : Walk}

theorem Progress.cursor_requeueIf {asked : Cursor → Checked Failure Bool}
    (h : p.requeueIf f before asked = .ok q) : q.cursor = p.cursor := by
  unfold requeueIf at h
  split at h
  · obtain ⟨bits, -, h⟩ := Checked.bind_eq_ok.mp h
    split at h
    · obtain ⟨left, -, h⟩ := Checked.bind_eq_ok.mp h
      cases left <;> cases h <;> rfl
    · cases h
      rfl
  · cases h
    rfl

theorem sound_of_parseScalar {length : Length} (h : p.cursor.Sound)
    (ok : parseScalar o f a length before p = .ok q) : q.cursor.Sound := by
  simp only [parseScalar, Checked.bind_eq_ok] at ok
  obtain ⟨_, _, r, read, _, _, ok⟩ := ok
  split at ok
  · cases ok
  · simp only [Checked.bind_eq_ok] at ok
    obtain ⟨_, _, _, _, ok⟩ := ok
    rw [Progress.cursor_requeueIf ok]
    exact h.readScalar (Checked.eq_ok_of_mapFailure read)

theorem Walk.sound_of_step {name : String} {r : Resolved} (ok : w.step run name = .ok (r, after)) :
    after.cursor.Sound := by
  simp only [step, Checked.bind_eq_ok] at ok
  obtain ⟨_, _, _, _, _, _, _, _, d, moved, eq⟩ := ok
  cases eq
  exact (Cursor.sound_of_advance moved).2

theorem sound_of_walkChain {name : String} (h : w.cursor.Sound)
    (ok : walkChain run name w = .ok after) : after.cursor.Sound := by
  obtain ⟨n, bytes⟩ : ∃ n, w.cursor.remainingBytes = n := ⟨_, rfl⟩
  induction n using Nat.strongRecOn generalizing w name with
  | _ n ih =>
    rw [walkChain] at ok
    split at ok
    · cases ok
      exact h
    · obtain ⟨⟨r, next⟩, step, ok⟩ := Checked.bind_eq_ok.mp ok
      have sound := Walk.sound_of_step step
      dsimp only at ok
      split at ok
      · cases ok
        exact sound
      · split at ok
        · cases ok
          exact sound
        · split at ok
          · next closer => exact ih _ (Nat.lt_of_lt_of_eq closer bytes) sound ok rfl
          · cases ok

theorem sound_of_walkList {repetition : Repetition} {name : String} {done : Nat}
    (h : w.cursor.Sound) (ok : walkList run repetition name done w = .ok after) :
    after.cursor.Sound := by
  obtain ⟨n, bytes⟩ : ∃ n, w.cursor.remainingBytes = n := ⟨_, rfl⟩
  induction n using Nat.strongRecOn generalizing w done with
  | _ n ih =>
    rw [walkList] at ok
    split at ok
    · cases ok
      exact h
    · simp only [Checked.bind_eq_ok] at ok
      obtain ⟨next, walked, _, _, ok⟩ := ok
      have sound := sound_of_walkChain h walked
      split at ok
      · cases ok
        exact sound
      · split at ok
        · next closer => exact ih _ (Nat.lt_of_lt_of_eq closer bytes) sound ok rfl
        · cases ok

theorem sound_of_parseTargetField {target : String}
    (ok : parseTargetField run f a target before p = .ok q) : q.cursor.Sound := by
  simp only [parseTargetField, Checked.bind_eq_ok] at ok
  obtain ⟨_, _, _, _, d, moved, ok⟩ := ok
  rw [Progress.cursor_requeueIf ok]
  exact (Cursor.sound_of_advance moved).2

theorem sound_of_parseField (h : p.cursor.Sound) (ok : parseField o run f p = .ok q) :
    q.cursor.Sound := by
  unfold parseField parseWith at ok
  split at ok
  · obtain ⟨before, -, ok⟩ := Checked.bind_eq_ok.mp ok
    split at ok
    · exact sound_of_parseTargetField ok
    · exact sound_of_parseScalar h ok
    · cases ok
      exact h
  · cases ok
    exact h

/-- However a run over descriptors ends, and whatever it drops, it ends at a sound cursor. -/
theorem sound_of_parseFields {fin : Finish} (h : p.cursor.Sound)
    (ok : parseFields o run p = .ok fin) : fin.progress.cursor.Sound := by
  obtain ⟨n, left⟩ : ∃ n, p.work = n := ⟨_, rfl⟩
  induction n using Nat.strongRecOn generalizing p with
  | _ n ih =>
    rw [parseFields] at ok
    split at ok
    · cases ok
      exact h
    · split at ok
      · cases ok
        exact h
      · next item queue first =>
        have fewer : Progress.work { p with queue } < n := by
          rw [← left]
          simp only [Progress.work, first, List.length_cons]
          omega
        split at ok
        · exact ih _ fewer (p := { p with queue }) h ok rfl
        · cases ok
          exact h
        · obtain ⟨q, turn, ok⟩ | ⟨failure, -, ok⟩ := Checked.resume_eq_ok.mp ok
          · split at ok
            · next closer =>
              have sound := sound_of_parseField (p := { p with queue }) h turn
              exact ih _ (Nat.lt_of_lt_of_eq closer left) sound ok rfl
            · cases ok
          · split at ok
            · exact ih _ fewer (p := { p with queue }) h ok rfl
            · cases ok

end Sound

end WireGrammar.Machine
