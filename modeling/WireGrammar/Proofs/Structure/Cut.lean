import WireGrammar.Proofs.Decoding.Loop
import WireGrammar.Proofs.Structure.Conformance

/-!
# Descriptors behind the one that ends a structure

The first descriptor that names the structure that follows ends the one it belongs to, so nothing
behind it is decoded.  But where the bytes end before it is come to, the fields behind it are still
looked through for one that has to be there.  This is all they are good for: without them a
structure comes to the same, unless it is one of these that it comes short of.

* `Structure.cut`: the structure without them;
* `Structure.behindEnd`: these descriptors;
* `parseFields_cut`: the run over the descriptors comes to the same;
* `keepsEnd_of_parseFields`: what is left behind its end was declared there;
* `Structure.comesShort`: nothing is missing but a field behind the end;
* `parseDescriptors_cut`, `parseDescriptors_of_comesShort`: what this makes of the structure.
-/

namespace WireGrammar

/-! ### Lists up to their first element of a kind -/

/-- The elements up to the first one of a kind, and that one. -/
def upTo {α : Type} (p : α → Bool) (as : List α) : List α := as.take (as.findIdx p + 1)

/-- The elements behind the first one of a kind. -/
def beyond {α : Type} (p : α → Bool) (as : List α) : List α := as.drop (as.findIdx p + 1)

section UpTo

variable {α : Type} {p : α → Bool} {a : α} {as : List α}

theorem upTo_cons_of_pos (h : p a = true) : upTo p (a :: as) = [a] := by
  simp [upTo, List.findIdx_cons, h]

theorem upTo_cons_of_neg (h : p a = false) : upTo p (a :: as) = a :: upTo p as := by
  simp [upTo, List.findIdx_cons, h]

theorem upTo_map {β : Type} (f : β → α) (bs : List β) :
    upTo p (bs.map f) = (upTo (p ∘ f) bs).map f := by
  rw [upTo, upTo, List.findIdx_map, List.map_take]

theorem upTo_append_beyond (p : α → Bool) (as : List α) : upTo p as ++ beyond p as = as :=
  List.take_append_drop _ _

theorem beyond_cons_of_neg (h : p a = false) : beyond p (a :: as) = beyond p as := by
  simp [beyond, List.findIdx_cons, h]

theorem beyond_map {β : Type} (f : β → α) (bs : List β) :
    beyond p (bs.map f) = (beyond (p ∘ f) bs).map f := by
  rw [beyond, beyond, List.findIdx_map, List.map_drop]

/-- Filtering does not change the end if it keeps the elements of the kind. -/
theorem upTo_filter {keep : α → Bool} (kept : ∀ a ∈ as, p a = true → keep a = true) :
    upTo p (as.filter keep) = (upTo p as).filter keep := by
  induction as with
  | nil => rfl
  | cons a as ih =>
    obtain ⟨own, others⟩ := List.forall_mem_cons.mp kept
    cases kind : p a with
    | true =>
      rw [List.filter_cons_of_pos (own kind), upTo_cons_of_pos kind, upTo_cons_of_pos kind,
        List.filter_cons_of_pos (own kind), List.filter_nil]
    | false =>
      rw [upTo_cons_of_neg kind]
      cases here : keep a with
      | true =>
        rw [List.filter_cons_of_pos here, List.filter_cons_of_pos here, upTo_cons_of_neg kind,
          ih others]
      | false =>
        rw [List.filter_cons_of_neg (by simp [here]), List.filter_cons_of_neg (by simp [here]),
          ih others]

theorem beyond_filter {keep : α → Bool} (kept : ∀ a ∈ as, p a = true → keep a = true) :
    beyond p (as.filter keep) = (beyond p as).filter keep := by
  have whole : upTo p (as.filter keep) ++ beyond p (as.filter keep) =
      upTo p (as.filter keep) ++ (beyond p as).filter keep := by
    rw [upTo_append_beyond, upTo_filter kept, ← List.filter_append, upTo_append_beyond]
  exact List.append_cancel_left whole

end UpTo

/-! ### Structures without what is behind their end -/

/-- The structure without the descriptors behind the first that names the structure that follows. -/
def Structure.cut (s : Structure) : Structure :=
  { s with descriptors := upTo Descriptor.isNext s.descriptors }

/-- The descriptors behind the first that names the structure that follows. -/
def Structure.behindEnd (s : Structure) : List Descriptor :=
  beyond Descriptor.isNext s.descriptors

/-- The structure is an alternative of the same type, since the type comes first. -/
theorem Structure.typeName?_cut (s : Structure) : s.cut.typeName? = s.typeName? := by
  obtain ⟨name, ds⟩ := s
  cases ds with
  | nil => rfl
  | cons d ds => cases d <;> rfl

/-- The pending descriptor names the structure that follows. -/
def Pending.isNext (item : Pending) : Bool := item.descriptor.isNext

/-- The progress without the descriptors behind the first that names the structure that follows. -/
def Progress.cut (p : Progress) : Progress := { p with queue := upTo Pending.isNext p.queue }

/-- The end of the run without these descriptors: where it came to such a name, none is left. -/
def Finish.cut (fin : Finish) : Finish :=
  if fin.next.isNone then ⟨fin.progress.cut, fin.next⟩
  else ⟨{ fin.progress with queue := [] }, fin.next⟩

theorem Finish.cut_of_none (p : Progress) : Finish.cut ⟨p, none⟩ = ⟨p.cut, none⟩ := rfl

section Run

variable {o : Options} {parse : TargetParser} {f : FieldDescriptor} {p : Progress}

/-- A name of the structure that follows is no field that could be taken from the queue. -/
theorem Pending.kept_of_isNext (item : Pending) (next : item.isNext = true)
    (gone : FieldDescriptor → Bool) : (!(item.descriptor.field?.any gone)) = true := by
  obtain ⟨d, again⟩ := item
  cases d with
  | next => rfl
  | type | field => cases next

namespace Progress

@[simp] theorem cursor_cut (p : Progress) : p.cut.cursor = p.cursor := rfl

@[simp] theorem fields_cut (p : Progress) : p.cut.fields = p.fields := rfl

@[simp] theorem memory_cut (p : Progress) : p.cut.memory = p.memory := rfl

@[simp] theorem context_cut (p : Progress) : p.cut.context = p.context := rfl

theorem start_cut (s : Structure) (input : Slice) (ctx : StreamContext) :
    Progress.start s.cut input ctx = (Progress.start s input ctx).cut := by
  rw [cut, start, start, upTo_map]
  rfl

theorem queue_cut {item : Pending} {queue : List Pending} (first : p.queue = item :: queue)
    (other : item.isNext = false) : p.cut.queue = item :: (cut { p with queue }).queue := by
  rw [cut, first, upTo_cons_of_neg other]
  rfl

theorem cut_requeueIf (p : Progress) (f : FieldDescriptor) (before : BitCursor) (enough : Bool) :
    (p.requeueIf f before enough).cut = p.cut.requeueIf f before enough := by
  unfold requeueIf
  rw [cursor_cut]
  split
  · rw [requeue, requeue, cut, upTo_cons_of_neg rfl]
    rfl
  · rfl

theorem cut_afterScalar (p : Progress) (name : String) (a : FieldAttributes) (r : Reading)
    (m : Memory) : (p.afterScalar o name a r m).cut = p.cut.afterScalar o name a r m := by
  unfold afterScalar cut
  rw [upTo_filter fun item _ next => item.kept_of_isNext next _]

end Progress

theorem parseScalar_cut (a : FieldAttributes) (length : Length) :
    parseScalar o f a length p.cut = (parseScalar o f a length p).map Progress.cut := by
  unfold parseScalar
  rw [Progress.cursor_cut, Progress.memory_cut]
  cases p.cursor.readScalar length with
  | error cause => rfl
  | ok r =>
    simp only
    cases a.rejects? r.value with
    | some spec => rfl
    | none =>
      simp only
      cases fireAll o f.name r.value (a.triggers.getD []) p.memory with
      | error failure => rfl
      | ok m => simp only [Except.map, Progress.cut_requeueIf, Progress.cut_afterScalar]

theorem parseTargetField_cut (a : FieldAttributes) (target : String) :
    parseTargetField parse f a target p.cut =
      (parseTargetField parse f a target p).map Progress.cut := by
  unfold parseTargetField
  rw [Progress.cursor_cut, Progress.memory_cut, Progress.context_cut]
  cases a.view p.cursor with
  | error cause => rfl
  | ok view =>
    simp only
    cases chains parse (a.repetition (p.memory.dynamicLength f)) target view p.context with
    | error failure => rfl
    | ok ch =>
      simp only [Except.map, Progress.cut_requeueIf]
      rfl

/-- The turn of a field does not see what is behind the end of its structure. -/
theorem parseField_cut (o : Options) (parse : TargetParser) (f : FieldDescriptor) (p : Progress) :
    parseField o parse f p.cut = (parseField o parse f p).map Progress.cut := by
  unfold parseField parseWith
  rw [Progress.memory_cut, Progress.fields_cut]
  cases (p.memory.effective f).isPresent p.fields with
  | false => rfl
  | true =>
    cases (p.memory.effective f).parse with
    | some target => exact parseTargetField_cut _ target
    | none =>
      cases (p.memory.effective f).length with
      | some length => exact parseScalar_cut _ length
      | none => rfl

/-- **The run over the descriptors does not see what is behind the end of its structure.** -/
theorem parseFields_cut (o : Options) (parse : TargetParser) (p : Progress) :
    parseFields o parse p.cut = (parseFields o parse p).map Finish.cut := by
  -- The two queues start alike up to the descriptor that ends the structure, which ends both runs.
  fun_induction parseFields o parse p with
  | case1 p ended => exact parseFields_of_exhausted ended
  | case2 p left none =>
    have none' : p.cut.queue = [] := by
      rw [Progress.cut, none]
      rfl
    exact parseFields_of_nil none'
  | case3 p left item queue first name kind ih =>
    have go : p.cut.cursor.isExhausted = false := eq_false_of_ne_true left
    have first' := Progress.queue_cut first (congrArg Descriptor.isNext kind)
    exact (parseFields_of_type go first' kind).trans ih
  | case4 p left item queue first name kind =>
    have go : p.cut.cursor.isExhausted = false := eq_false_of_ne_true left
    have named : item.isNext = true := congrArg Descriptor.isNext kind
    have first' : p.cut.queue = [item] := by rw [Progress.cut, first, upTo_cons_of_pos named]
    exact parseFields_of_next go first' kind
  | case5 p left item queue first f kind q ok ih =>
    have go : p.cut.cursor.isExhausted = false := eq_false_of_ne_true left
    have first' := Progress.queue_cut first (congrArg Descriptor.isNext kind)
    have ok' := (parseField_cut o parse f { p with queue }).trans (congrArg _ ok)
    exact (parseFields_of_turn go first' kind ok').trans ih
  | case6 p left item queue first f kind failure failed again ih =>
    have go : p.cut.cursor.isExhausted = false := eq_false_of_ne_true left
    have first' := Progress.queue_cut first (congrArg Descriptor.isNext kind)
    have failed' := (parseField_cut o parse f { p with queue }).trans (congrArg _ failed)
    exact (parseFields_of_dropped go first' kind failed' again).trans ih
  | case7 p left item queue first f kind failure failed last =>
    have go : p.cut.cursor.isExhausted = false := eq_false_of_ne_true left
    have first' := Progress.queue_cut first (congrArg Descriptor.isNext kind)
    have failed' := (parseField_cut o parse f { p with queue }).trans (congrArg _ failed)
    exact parseFields_of_failed go first' kind failed' last

/-! ### What is left behind the end -/

theorem Progress.beyond_requeueIf (p : Progress) (f : FieldDescriptor) (before : BitCursor)
    (enough : Bool) :
    beyond Pending.isNext (p.requeueIf f before enough).queue = beyond Pending.isNext p.queue := by
  unfold requeueIf
  split
  · exact beyond_cons_of_neg rfl
  · rfl

/-- The turn of a field queues nothing behind the end. -/
theorem FieldTurn.mem_beyond {q : Progress} (turn : FieldTurn o parse f p q) {item : Pending}
    (mem : item ∈ beyond Pending.isNext q.queue) : item ∈ beyond Pending.isNext p.queue := by
  cases turn with
  | idle => exact mem
  | scalar =>
    rw [Progress.beyond_requeueIf, Progress.afterScalar,
      beyond_filter fun item _ next => item.kept_of_isNext next _] at mem
    exact (List.mem_filter.mp mem).1
  | target =>
    rw [Progress.beyond_requeueIf] at mem
    exact mem

/-- What is pending behind the end was declared there. -/
def Progress.KeepsEnd (p : Progress) (s : Structure) : Prop :=
  ∀ item ∈ beyond Pending.isNext p.queue, item.descriptor ∈ s.behindEnd

namespace Progress.KeepsEnd

variable {s : Structure} {q : Progress} {item : Pending} {queue : List Pending}

theorem start (s : Structure) (input : Slice) (ctx : StreamContext) :
    (Progress.start s input ctx).KeepsEnd s := by
  intro item mem
  rw [Progress.start, beyond_map] at mem
  obtain ⟨d, declared, rfl⟩ := List.mem_map.mp mem
  exact declared

theorem tail (h : p.KeepsEnd s) (first : p.queue = item :: queue) (other : item.isNext = false) :
    KeepsEnd { p with queue } s := fun later mem =>
  h later (by rwa [first, beyond_cons_of_neg other])

theorem turn (h : p.KeepsEnd s) (taken : FieldTurn o parse f p q) : q.KeepsEnd s :=
  fun item mem => h item (taken.mem_beyond mem)

end Progress.KeepsEnd

/-- Where the run does not come to the end of its structure, what is left behind that end was
declared there. -/
theorem keepsEnd_of_parseFields {s : Structure} {fin : Finish}
    (h : parseFields o parse p = .ok fin) (last : fin.next = none) (keeps : p.KeepsEnd s) :
    fin.progress.KeepsEnd s := by
  fun_induction parseFields o parse p generalizing fin with
  | case1 | case2 => cases h; exact keeps
  | case3 p left item queue first name kind ih =>
    exact ih h last (keeps.tail first (congrArg Descriptor.isNext kind))
  | case4 => cases h; cases last
  | case5 p left item queue first f kind q ok ih =>
    have rest := keeps.tail first (congrArg Descriptor.isNext kind)
    exact ih h last (rest.turn (parseField_eq_ok.mp ok))
  | case6 p left item queue first f kind failure failed again ih =>
    exact ih h last (keeps.tail first (congrArg Descriptor.isNext kind))
  | case7 => cases h

end Run

/-! ### What is missing behind the end -/

/-- A field is missing behind the end of the structure, and none before it. -/
def Finish.comesShort (fin : Finish) : Bool :=
  fin.next.isNone && fin.progress.cursor.isExhausted && fin.progress.missing?.isSome &&
    fin.progress.cut.missing?.isNone

/-- The structure is decoded up to where the bytes end, and only a field behind its end is missing
there. -/
def Structure.comesShort (o : Options) (parse : TargetParser) (s : Structure) (input : Slice)
    (ctx : StreamContext) : Bool :=
  (parseFields o parse (.start s input ctx)).toOption.any Finish.comesShort

/-- What is missing in front is what is missing first. -/
theorem Progress.missing?_append {p : Progress} {front back : List Pending}
    (h : p.queue = front ++ back) : p.missing? =
    (missing? { p with queue := front }).or (missing? { p with queue := back }) := by
  rw [missing?, h, List.filter_append, List.findSome?_append]
  rfl

/-- What is missing before the end is what is missing first. -/
theorem Progress.missing?_eq_or (p : Progress) : p.missing? =
    p.cut.missing?.or (missing? { p with queue := beyond Pending.isNext p.queue }) :=
  missing?_append (upTo_append_beyond Pending.isNext p.queue).symm

namespace Finish

variable {s : Structure} {p : Progress} {fin : Finish}

theorem outcome_of_missing {f : FieldDescriptor} (ended : p.cursor.isExhausted = true)
    (missing : p.missing? = some f) :
    outcome s ⟨p, none⟩ = .error ⟨.incompleteStructure s.name f.name, p.context⟩ := by
  simp only [outcome, Option.isNone_none, ended, Bool.and_self, if_true, missing]
  rfl

theorem outcome_of_complete (complete : p.cursor.isExhausted = true → p.missing? = none) :
    outcome s ⟨p, none⟩ = .ok ⟨p.fields, p.cursor.consumedBytes, none, p.context⟩ := by
  unfold outcome
  simp only [Option.isNone_none, Bool.true_and]
  split
  · next ended => rw [complete ended]
  · rfl

/-- The outcome does not depend on what is behind the end, unless only that is missing. -/
theorem outcome_cut (enough : fin.comesShort = false) :
    fin.cut.outcome s.cut = fin.outcome s := by
  obtain ⟨p, next⟩ := fin
  cases next with
  | some name => rfl
  | none =>
    rw [cut_of_none]
    by_cases ended : p.cursor.isExhausted = true
    · cases missing : p.cut.missing? with
      | some f =>
        rw [outcome_of_missing (p := p.cut) ended missing,
          outcome_of_missing ended (by rw [Progress.missing?_eq_or, missing, Option.some_or])]
        rfl
      | none =>
        have none : p.missing? = Option.none := by
          simpa [comesShort, ended, missing] using enough
        rw [outcome_of_complete fun _ => missing, outcome_of_complete fun _ => none]
        rfl
    · rw [outcome_of_complete (p := p.cut) fun h => absurd h ended,
        outcome_of_complete fun h => absurd h ended]
      rfl

/-- A run that comes short ends before the end of its structure. -/
theorem next_of_comesShort (short : fin.comesShort = true) : fin.next = none := by
  simp only [comesShort, Bool.and_eq_true, Option.isNone_iff_eq_none] at short
  exact short.1.1.1

theorem outcome_of_comesShort (short : fin.comesShort = true) (keeps : fin.progress.KeepsEnd s) :
    (∃ f, .field f ∈ s.behindEnd ∧ ∃ failure, fin.outcome s = .error failure ∧
      failure.error = .incompleteStructure s.name f.name) ∧
    ∃ out, fin.cut.outcome s.cut = .ok out ∧ out.next = none := by
  obtain ⟨p, next⟩ := fin
  simp only [comesShort, Bool.and_eq_true, Option.isNone_iff_eq_none, Option.isSome_iff_exists]
    at short
  obtain ⟨⟨⟨rfl, ended⟩, f, missing⟩, none⟩ := short
  have later := missing
  rw [Progress.missing?_eq_or, none, Option.none_or] at later
  obtain ⟨item, mem, kind⟩ := Progress.mem_queue_of_missing? later
  exact ⟨⟨f, kind ▸ keeps item mem, _, outcome_of_missing ended missing, rfl⟩,
    _, outcome_of_complete fun _ => none, rfl⟩

end Finish

section Outcome

variable {o : Options} {parse : TargetParser} {s : Structure} {input : Slice} {ctx : StreamContext}

/-- A structure comes to the same without what is behind its end, unless it comes short of that. -/
theorem parseDescriptors_cut (enough : s.comesShort o parse input ctx = false) :
    parseDescriptors o parse s.cut input ctx = parseDescriptors o parse s input ctx := by
  rw [parseDescriptors, parseDescriptors, Progress.start_cut, parseFields_cut]
  cases run : parseFields o parse (.start s input ctx) with
  | error failure => rfl
  | ok fin =>
    rw [Structure.comesShort, run] at enough
    exact Finish.outcome_cut enough

/-- A structure that comes short fails for a field that is declared behind its end, and is decoded
without what is declared there. -/
theorem parseDescriptors_of_comesShort (short : s.comesShort o parse input ctx = true) :
    (∃ f, .field f ∈ s.behindEnd ∧
      ∃ failure, parseDescriptors o parse s input ctx = .error failure ∧
        failure.error = .incompleteStructure s.name f.name) ∧
    ∃ out, parseDescriptors o parse s.cut input ctx = .ok out ∧ out.next = none := by
  rw [parseDescriptors, parseDescriptors, Progress.start_cut, parseFields_cut]
  cases run : parseFields o parse (.start s input ctx) with
  | error failure =>
    rw [Structure.comesShort, run] at short
    cases short
  | ok fin =>
    rw [Structure.comesShort, run] at short
    exact Finish.outcome_of_comesShort short
      (keepsEnd_of_parseFields run (Finish.next_of_comesShort short) (.start s input ctx))

end Outcome

end WireGrammar
