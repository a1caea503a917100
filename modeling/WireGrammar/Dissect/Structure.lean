import WireGrammar.Dissect.Work

/-!
# Decoding one structure

The descriptors of a structure take their turns while bytes are left.  A field that fails makes the
structure fail, except for a further try of a repeated field: such a try is dropped, and everything
is as if it had not been made.  Where the bytes end before the descriptors do, none of those left
may be a field that has to be there.
-/

namespace WireGrammar

/-- The fields of a decoded structure, the number of bytes it took, the structure that follows,
and the context it leaves. -/
structure StructureOutcome where
  fields : List DecodedField
  consumed : Nat
  next : Option String
  context : StreamContext

/-- The end of the run over the descriptors: how far it came, and the structure that follows. -/
structure Finish where
  progress : Progress
  next : Option String

/-- Runs over the pending descriptors. -/
def parseFields (o : Options) (parse : TargetParser) (p : Progress) : Attempt Finish :=
  if _exhausted : p.cursor.isExhausted then .ok ⟨p, none⟩
  else
    match _hq : p.queue with
    | [] => .ok ⟨p, none⟩
    | item :: queue =>
      match item.descriptor with
      | .type _ => parseFields o parse { p with queue }
      | .next name => .ok ⟨{ p with queue }, some name⟩
      | .field f =>
        match _hf : parseField o parse f { p with queue } with
        | .ok q => parseFields o parse q
        | .error failure =>
          if item.again then parseFields o parse { p with queue } else .error failure
termination_by p.work
decreasing_by
  · simp [Progress.work, _hq]
  · have := parseField_work_le _hf (by simpa using _exhausted)
    simp only [Progress.work, _hq, List.length_cons] at this ⊢
    omega
  · simp [Progress.work, _hq]

/-- The first pending field that has to be there although the bytes have ended. -/
def Progress.missing? (p : Progress) : Option FieldDescriptor :=
  (p.queue.filter fun item => !item.again).findSome? fun item =>
    item.descriptor.field?.filter fun f =>
      let a := p.memory.effective f
      a.isPresent p.fields && a.isRequired

/-- What comes of a structure at the end of the run over its descriptors. -/
def Finish.outcome (s : Structure) (fin : Finish) : Attempt StructureOutcome :=
  let p := fin.progress
  let outcome : StructureOutcome := ⟨p.fields, p.cursor.consumedBytes, fin.next, p.context⟩
  if fin.next.isNone && p.cursor.isExhausted then
    match p.missing? with
    | some f => p.fail (.incompleteStructure s.name f.name)
    | none => .ok outcome
  else .ok outcome

/-- Decodes a structure at the front of a slice. -/
def parseDescriptors (o : Options) (parse : TargetParser) (s : Structure) (input : Slice)
    (ctx : StreamContext) : Attempt StructureOutcome :=
  (parseFields o parse (.start s input ctx)).bind (·.outcome s)

end WireGrammar
