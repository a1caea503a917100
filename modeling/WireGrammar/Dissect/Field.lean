import WireGrammar.Dissect.Chain
import WireGrammar.Dissect.Scalar
import WireGrammar.Dissect.Trigger

/-!
# Decoding one field

A field whose conditions fail, or that has neither a length nor a target, is passed over.  A scalar
is read, tested, formatted and appended, and sets off its triggers; a target is decoded in the bytes
left or in a window of them.  A repeated field that took anything is queued again in front of the
fields to come.
-/

namespace WireGrammar

/-- A descriptor whose turn is still to come. -/
structure Pending where
  descriptor : Descriptor
  /-- A further try of a repeated field, which may fail. -/
  again : Bool

/-- The pending descriptor declares a field with the given name. -/
def Pending.isField (p : Pending) (name : String) : Bool :=
  p.descriptor.field?.any (·.name == name)

/-- A structure in the course of being decoded. -/
structure Progress where
  cursor : BitCursor
  queue : List Pending
  fields : List DecodedField
  memory : Memory

namespace Progress

/-- The start of a structure: all descriptors are pending, and nothing is decoded or changed. -/
def start (s : Structure) (input : Slice) (ctx : StreamContext) : Progress where
  cursor := .start input
  queue := s.descriptors.map fun d => ⟨d, false⟩
  fields := []
  memory := ⟨.empty, ctx⟩

def context (p : Progress) : StreamContext := p.memory.context

/-- The failure of a field at this point. -/
def fail {α : Type} (p : Progress) (e : ParseError) : Attempt α := .error ⟨e, p.context⟩

/-- Queues a further try of a field in front of everything else. -/
def requeue (p : Progress) (f : FieldDescriptor) : Progress :=
  { p with queue := ⟨.field f, true⟩ :: p.queue }

/-- Queues a further try of a repeated field that went beyond `before`, if enough is left. -/
def requeueIf (p : Progress) (f : FieldDescriptor) (before : BitCursor) (enough : Bool) :
    Progress :=
  if f.repeated && before.position < p.cursor.position && enough then p.requeue f else p

/-- What is left to be done: bits to read, and descriptors to try. -/
def work (p : Progress) : Nat := p.cursor.remainingBits + p.queue.length

end Progress

/-! ### Scalars -/

/-- The offset behind a scalar of `bits` bits, in whole bytes; one without bits ends where it
starts. -/
def scalarStop (c : BitCursor) (bits : Nat) : Nat :=
  if bits = 0 then c.absolute else c.absolute + (c.bitOffset + bits + 7) / 8

/-- Enough is left for a further try of a scalar of this length. -/
def enoughLeft (c : BitCursor) : Length → Bool
  | .bits n => n / 4 ≤ c.remainingBits
  | _ => 0 < c.remainingBytes

/-- The scalar as it is shown: in the format of its field, if there is one. -/
def FieldAttributes.shown (a : FieldAttributes) (raw : Value) : Value :=
  match a.format with
  | some f => f.apply raw
  | none => raw

/-- The scalar passes the test of its field, if there is one. -/
def FieldAttributes.rejects? (a : FieldAttributes) (raw : Value) : Option ValueSpec :=
  a.values.filter fun spec => !spec.accepts raw

/-- The structure after a scalar was read: the field is appended, the memory changed by its
triggers, and the fields that they remove taken from the queue. -/
def Progress.afterScalar (o : Options) (p : Progress) (name : String) (a : FieldAttributes)
    (r : Reading) (memory : Memory) : Progress where
  cursor := r.cursor
  queue := p.queue.filter fun item =>
    !(item.descriptor.field?.any fun f => prunesField o r.value (a.triggers.getD []) f.name)
  fields := p.fields ++
    [.scalar name (a.shown r.value) p.cursor.absolute (scalarStop p.cursor r.bits)]
  memory := memory

/-- Decodes a scalar field with the attributes `a`, of the given length. -/
def parseScalar (o : Options) (f : FieldDescriptor) (a : FieldAttributes) (length : Length)
    (p : Progress) : Attempt Progress :=
  match p.cursor.readScalar length with
  | .error cause => p.fail (.unreadable f.name cause)
  | .ok r =>
    match a.rejects? r.value with
    | some spec => p.fail (.valueMismatch f.name r.value (.test spec))
    | none =>
      match fireAll o f.name r.value (a.triggers.getD []) p.memory with
      | .error failure => .error failure
      | .ok memory =>
        .ok ((p.afterScalar o f.name a r memory).requeueIf f p.cursor (enoughLeft r.cursor length))

/-! ### Targets -/

/-- How often a target is decoded.  A length in bits that comes from an earlier field or packet
counts bytes for it, one of the declaration counts the times. -/
def FieldAttributes.repetition (a : FieldAttributes) (dynamic : Bool) : Repetition :=
  match a.length with
  | some (.bits n) => .times (if dynamic then n / 8 else n)
  | some .rest => .untilExhausted
  | _ => if a.byteLength.isSome then .untilExhausted else .times 1

/-- The bytes that a target is decoded in. -/
def FieldAttributes.view (a : FieldAttributes) (c : BitCursor) : Except ReadError Slice :=
  match a.byteLength with
  | some n => c.window n
  | none => c.rest

/-- The structure after its cursor went over the structures of a chain that started at `view`. -/
def Progress.afterChain (p : Progress) (name : String) (view : Slice) (c : Chain) : Progress where
  cursor := p.cursor.advance (view.length - c.rest.length)
  queue := p.queue
  fields := p.fields ++ c.structures.map fun s => .nested name s s.start s.stop
  memory := { p.memory with context := c.context }

/-- Decodes a field with the attributes `a`, in whose place the structure `target` stands. -/
def parseTargetField (parse : TargetParser) (f : FieldDescriptor) (a : FieldAttributes)
    (target : String) (p : Progress) : Attempt Progress :=
  match a.view p.cursor with
  | .error cause => p.fail (.unreadable f.name cause)
  | .ok view =>
    match chains parse (a.repetition (p.memory.dynamicLength f)) target view p.context with
    | .error failure => .error failure
    | .ok c =>
      let q := p.afterChain f.name view c
      .ok (q.requeueIf f p.cursor (0 < q.cursor.remainingBytes))

/-! ### Fields -/

/-- Decodes one field with the attributes `a`. -/
def parseWith (o : Options) (parse : TargetParser) (f : FieldDescriptor) (a : FieldAttributes)
    (p : Progress) : Attempt Progress :=
  if a.isPresent p.fields then
    match a.parse, a.length with
    | some target, _ => parseTargetField parse f a target p
    | none, some length => parseScalar o f a length p
    | none, none => .ok p
  else .ok p

/-- Decodes one field. -/
def parseField (o : Options) (parse : TargetParser) (f : FieldDescriptor) (p : Progress) :
    Attempt Progress :=
  parseWith o parse f (p.memory.effective f) p

end WireGrammar
