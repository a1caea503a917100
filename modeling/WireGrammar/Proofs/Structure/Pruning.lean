import WireGrammar.Proofs.Decoding.Step
import WireGrammar.Proofs.Structure.Account

/-!
# What a zero takes out stays out

If it is so chosen, a field that is decoded as the number zero does not set the attributes of other
fields but takes these out of their structure.  Only the queue is edited for that, which is edited
for other reasons as well: a field is queued again to be tried once more, and a try that fails gives
back the queue it found.  Neither brings back what has been taken out, unless it is a repeated field
that takes out itself: its own descriptor is queued again behind that.

* `Progress.Without`: no field of a name is pending;
* `Progress.Steps.without`: it stays so, and no field of the name is decoded any more;
* `fireAll_of_prunes`: on the number zero nothing is set;
* `ZeroTurn`: the turn of a field that takes out others;
* `stays_removed_of_zero`: what follows from it for the rest of the structure;
* `repeated_of_own_zero`: a field that takes out itself and is decoded once more.
-/

namespace WireGrammar

variable {o : Options} {parse : TargetParser} {f : FieldDescriptor} {p q : Progress}
  {queue : List Pending} {length : Length} {r : Reading} {m : Memory} {name target : String}
  {again : Bool}

/-! ### Names that are done with -/

/-- No field of this name is pending. -/
def Progress.Without (p : Progress) (name : String) : Prop :=
  ∀ item ∈ p.queue, item.isField name = false

@[simp] theorem Pending.isField_field (f : FieldDescriptor) (again : Bool) (name : String) :
    Pending.isField ⟨.field f, again⟩ name = (f.name == name) := rfl

namespace Progress

theorem Without.tail {item : Pending} (h : p.Without name) (first : p.queue = item :: queue) :
    Without { p with queue } name :=
  fun later mem => h later (first ▸ List.mem_cons_of_mem _ mem)

/-- What one step does while no field of the name is pending: none is queued or decoded. -/
theorem Step.without (h : p.Step o parse q) (without : p.Without name) :
    q.Without name ∧ ∃ added, q.fields = p.fields ++ added ∧ ∀ d ∈ added, d.name ≠ name := by
  cases h with
  | type left first => exact ⟨without.tail first, [], (List.append_nil _).symm, by simp⟩
  | dropped left first => exact ⟨without.tail first, [], (List.append_nil _).symm, by simp⟩
  | @turn f again queue _ left first taken =>
    have other : f.name ≠ name := by
      simpa using without ⟨.field f, again⟩ (first ▸ List.mem_cons_self)
    obtain ⟨added, fields, names⟩ := taken.fields_eq
    refine ⟨fun item mem => ?_, added, fields, fun d decoded => names d decoded ▸ other⟩
    rcases taken.mem_queue mem with rfl | old
    · simpa using other
    · exact without.tail first item old

/-- Once no field of the name is pending, none is queued or decoded any more. -/
theorem Steps.without (h : Steps o parse p q) (without : p.Without name) :
    q.Without name ∧ ∃ later, q.fields = p.fields ++ later ∧ ∀ d ∈ later, d.name ≠ name := by
  induction h with
  | refl => exact ⟨without, [], (List.append_nil _).symm, by simp⟩
  | tail _ step ih =>
    obtain ⟨without, later, fields, names⟩ := ih
    obtain ⟨without, added, fields', names'⟩ := step.without without
    refine ⟨without, later ++ added, ?_, List.forall_mem_append.mpr ⟨names, names'⟩⟩
    rw [fields', fields, List.append_assoc]

/-- What is missing where the bytes have ended is pending. -/
theorem name_ne_of_missing? (without : p.Without name) {f : FieldDescriptor}
    (h : p.missing? = some f) : f.name ≠ name := by
  obtain ⟨item, mem, kind⟩ := mem_queue_of_missing? h
  have other := without item mem
  simpa [Pending.isField, kind, Descriptor.field?] using other

end Progress

/-! ### Firing on the number zero -/

/-- The rules of a trigger that do not set the decoded scalar itself. -/
def Trigger.lookups : Trigger → Trigger
  | .saveToContext => .saveToContext
  | .onField target rules => .onField target (rules.filter fun rule => !rule.isSet)

section Fire

variable {field : String} {raw : Value}

theorem Trigger.fire_of_prunes (prunes : o.prunes raw = true) (t : Trigger) :
    t.fire o field raw m = t.lookups.fire o field raw m := by
  cases t with
  | saveToContext => rfl
  | onField target rules =>
    rw [lookups, fire, fire]
    induction rules generalizing m with
    | nil => rfl
    | cons rule rules ih =>
      cases rule with
      | set kind =>
        have same : TriggerRule.fire o field raw target m (.set kind) = .ok m := if_pos prunes
        rw [List.foldlM_cons, same, List.filter_cons_of_neg (by simp [TriggerRule.isSet])]
        exact ih
      | lookup kind table =>
        rw [List.filter_cons_of_pos (by simp [TriggerRule.isSet]), List.foldlM_cons,
          List.foldlM_cons]
        cases TriggerRule.fire o field raw target m (.lookup kind table) with
        | error failure => rfl
        | ok m' => exact ih

/-- **On the number zero nothing is set**: the memory is what the other rules leave. -/
theorem fireAll_of_prunes (prunes : o.prunes raw = true) (triggers : List Trigger) :
    fireAll o field raw triggers m = fireAll o field raw (triggers.map Trigger.lookups) m := by
  induction triggers generalizing m with
  | nil => rfl
  | cons t triggers ih =>
    rw [fireAll, List.map_cons, fireAll, List.foldlM_cons, List.foldlM_cons,
      Trigger.fire_of_prunes prunes]
    cases t.lookups.fire o field raw m with
    | error failure => rfl
    | ok m' => exact ih

end Fire

/-! ### The turn of a zero -/

/-- What the turn of a scalar comes to. -/
def Progress.behindScalar (o : Options) (p : Progress) (f : FieldDescriptor) (length : Length)
    (r : Reading) (m : Memory) : Progress :=
  (p.afterScalar o f.name (p.memory.effective f) r m).requeueIf f p.cursor
    (enoughLeft r.cursor length)

/-- The turn of the field `f` at the progress `p` decodes the number zero `r`, and a rule is fired
by which the field sets an attribute of the fields named `target`. -/
structure ZeroTurn (o : Options) (p : Progress) (f : FieldDescriptor) (target : String)
    (length : Length) (r : Reading) (m : Memory) : Prop where
  left : p.cursor.isExhausted = false
  scalar : ScalarTurn o f p.cursor p.fields p.memory length r m
  zero : r.value.number? = some 0
  sets : ∃ rules kind, .onField target rules ∈ (p.memory.effective f).triggers.getD [] ∧
    .set kind ∈ rules

/-- The descriptor is of a field that the scalar `raw` takes out. -/
def Pending.isPruned (o : Options) (raw : Value) (triggers : List Trigger) (item : Pending) :
    Bool :=
  item.descriptor.field?.any (prunesField o raw triggers ·.name)

theorem queue_behindScalar (o : Options) (p : Progress) (f : FieldDescriptor) (length : Length)
    (r : Reading) (m : Memory) : (p.behindScalar o f length r m).queue =
      (if f.goesOn p.cursor r.cursor (enoughLeft r.cursor length) then [⟨.field f, true⟩] else []) ++
        p.queue.filter fun item =>
          !item.isPruned o r.value ((p.memory.effective f).triggers.getD []) :=
  Progress.queue_requeueIf ..

@[simp] theorem memory_behindScalar (o : Options) (p : Progress) (f : FieldDescriptor)
    (length : Length) (r : Reading) (m : Memory) : (p.behindScalar o f length r m).memory = m :=
  Progress.memory_requeueIf ..

namespace ZeroTurn

variable (z : ZeroTurn o p f target length r m)

include z

theorem step (parse : TargetParser) (again : Bool) :
    (p.put ⟨.field f, again⟩).Step o parse (p.behindScalar o f length r m) :=
  .turn z.left rfl (.scalar z.scalar)

variable (on : o.pruneZero = true)

include on

theorem prunes : o.prunes r.value = true := by
  simp [Options.prunes, on, z.zero]

theorem isPruned_of_isField {item : Pending} (named : item.isField target = true) :
    item.isPruned o r.value ((p.memory.effective f).triggers.getD []) = true := by
  have removes : prunesField o r.value ((p.memory.effective f).triggers.getD []) target = true := by
    obtain ⟨rules, kind, trigger, rule⟩ := z.sets
    rw [prunesField, z.prunes on, Bool.true_and, List.any_eq_true]
    refine ⟨_, trigger, ?_⟩
    rw [Trigger.prunesTarget, beq_self_eq_true, Bool.true_and, List.any_eq_true]
    exact ⟨_, rule, rfl⟩
  rw [Pending.isPruned]
  cases declared : item.descriptor.field? with
  | none =>
    rw [Pending.isField, declared] at named
    cases named
  | some h =>
    rw [Pending.isField, declared] at named
    obtain rfl : h.name = target := eq_of_beq named
    exact removes

/-- Behind the turn no field of the name is pending, unless it queues itself again. -/
theorem without (other : f.name = target → f.repeated = false) :
    (p.behindScalar o f length r m).Without target := by
  intro item mem
  rw [queue_behindScalar] at mem
  rcases List.mem_append.mp mem with head | kept
  · split at head
    · next goes =>
      obtain rfl := List.mem_singleton.mp head
      refine beq_eq_false_iff_ne.mpr fun same => ?_
      rw [FieldDescriptor.goesOn, other same] at goes
      cases goes
    · cases head
  · obtain ⟨-, kept⟩ := List.mem_filter.mp kept
    refine Bool.eq_false_iff.mpr fun named => ?_
    rw [z.isPruned_of_isField on named] at kept
    cases kept

/-- What is pending behind the turn would be so if no field of the name had been pending before. -/
theorem behindScalar_of_removed :
    ({ p with queue := p.queue.filter fun item => !item.isField target } :
      Progress).behindScalar o f length r m = p.behindScalar o f length r m := by
  have same : ((p.queue.filter fun item => !item.isField target).filter fun item =>
      !item.isPruned o r.value ((p.memory.effective f).triggers.getD [])) =
        p.queue.filter fun item =>
          !item.isPruned o r.value ((p.memory.effective f).triggers.getD []) := by
    rw [List.filter_filter]
    refine List.filter_congr fun item _ => ?_
    cases named : item.isField target with
    | true => rw [z.isPruned_of_isField on named]; rfl
    | false => exact Bool.and_true _
  unfold Progress.behindScalar Progress.afterScalar
  exact congrArg (fun queue => Progress.requeueIf ⟨r.cursor, queue, _, m⟩ f _ _) same

end ZeroTurn

/-! ### The rest of the structure -/

/-- **What a zero takes out stays out.**  Whatever decodes the targets: once a field, by a rule that
sets an attribute of the fields named `target`, is decoded as the number zero, no field of this name
is pending any more, none is decoded, and none is missing where the bytes end.  What the memory
keeps is the work of the other rules alone.  The other descriptors are pending as before and in
their order, and the structure comes to what it would if the fields had not been declared.  All this
holds unless the field takes out itself and is repeated. -/
theorem stays_removed_of_zero {s : Structure} {input : Slice} {ctx : StreamContext}
    (on : o.pruneZero = true) (z : ZeroTurn o p f target length r m)
    (reached : Progress.Steps o parse (.start s input ctx) (p.put ⟨.field f, again⟩))
    (other : f.name = target → f.repeated = false) {q : Progress}
    (behind : q = p.behindScalar o f length r m) :
    (∀ q', Progress.Steps o parse q q' → q'.Without target ∧
      (∃ later, q'.fields = q.fields ++ later ∧ ∀ d ∈ later, d.name ≠ target) ∧
      ∀ f', q'.missing? = some f' → f'.name ≠ target) ∧
    (∀ fin, parseFields o parse (.start s input ctx) = .ok fin →
      (∃ later, fin.progress.fields = q.fields ++ later ∧ ∀ d ∈ later, d.name ≠ target) ∧
      ∀ f', fin.progress.missing? = some f' → f'.name ≠ target) ∧
    fireAll o f.name r.value (((p.memory.effective f).triggers.getD []).map Trigger.lookups)
      p.memory = .ok q.memory ∧
    q.queue =
      (if f.goesOn p.cursor r.cursor (enoughLeft r.cursor length) then [⟨.field f, true⟩] else []) ++
        p.queue.filter (fun item =>
          !item.isPruned o r.value ((p.memory.effective f).triggers.getD [])) ∧
    parseDescriptors o parse s input ctx =
      (parseFields o parse (Progress.put
        { p with queue := p.queue.filter fun item => !item.isField target }
        ⟨.field f, again⟩)).bind (·.outcome s) := by
  subst behind
  have without := z.without on other
  have run : parseFields o parse (.start s input ctx) =
      parseFields o parse (p.behindScalar o f length r m) :=
    (parseFields_of_steps reached).trans (parseFields_of_step (z.step parse again))
  refine ⟨fun q' steps => ?_, fun fin ended => ?_, ?_, queue_behindScalar .., ?_⟩
  · obtain ⟨none, later⟩ := steps.without without
    exact ⟨none, later, fun f' missing => Progress.name_ne_of_missing? none missing⟩
  · rw [run] at ended
    obtain ⟨q', steps, ends⟩ := steps_of_parseFields ended
    obtain ⟨-, fields, -, pending⟩ := ends.progress
    obtain ⟨none, later⟩ := steps.without without
    rw [fields]
    exact ⟨later, fun f' missing =>
      Progress.name_ne_of_missing? (fun item mem => none item (pending item mem)) missing⟩
  · rw [memory_behindScalar, ← fireAll_of_prunes (z.prunes on)]
    exact z.scalar.fired
  · have removed : ZeroTurn o { p with queue := p.queue.filter fun item => !item.isField target } f
        target length r m := ⟨z.left, z.scalar, z.zero, z.sets⟩
    rw [parseDescriptors, run, parseFields_of_step (removed.step parse again),
      z.behindScalar_of_removed on]

/-- A size that may be zero. -/
def sizing : FieldDescriptor where
  name := "n"
  attributes := { length := some (.bits 8), triggers := some [.onField "f" [.set .length]] }
  repeated := false

/-- The field it is the size of, and one behind it. -/
def sized : Structure where
  name := "S"
  descriptors := [
    .field sizing,
    .field ⟨"f", { length := some (.bits 8) }, false⟩,
    .field ⟨"h", { length := some (.bits 8) }, false⟩]

/-- The start of the structure, with the size taken off the queue. -/
def sizedStart : Progress :=
  { Progress.start sized ⟨3, [0, 9]⟩ .empty with
    queue := sized.descriptors.tail.map fun d => ⟨d, false⟩ }

/-- The bytes end behind the field that comes after the one that is taken out. -/
theorem stays_removed_of_zero_sized :
    ∃ out fin, parseDescriptors ⟨true⟩ (parseTarget ⟨["S"], [sized]⟩ ⟨true⟩) sized ⟨3, [0, 9]⟩
        .empty = .ok out ∧
      out.fields.map (fun d => (d.name, d.value?)) =
        [("n", some (.uint 0)), ("h", some (.uint 9))] ∧
      parseFields ⟨true⟩ (parseTarget ⟨["S"], [sized]⟩ ⟨true⟩) (.start sized ⟨3, [0, 9]⟩ .empty) =
        .ok fin ∧
      ∃ first later, fin.progress.fields = first ++ later ∧ first.map (·.name) = ["n"] ∧
        ∀ d ∈ later, d.name ≠ "f" := by
  have fields : (parseDescriptors ⟨true⟩ (parseTarget ⟨["S"], [sized]⟩ ⟨true⟩) sized ⟨3, [0, 9]⟩
      .empty).toOption.map (fun out => out.fields.map fun d => (d.name, d.value?)) =
        some [("n", some (.uint 0)), ("h", some (.uint 9))] := by
    decide +kernel
  obtain ⟨out, decoded, fields⟩ := Option.map_eq_some_iff.mp fields
  have ok := Attempt.eq_ok_of_toOption decoded
  obtain ⟨fin, run, -⟩ := bind_eq_ok.mp ok
  have zero : ZeroTurn ⟨true⟩ sizedStart sizing "f" (.bits 8)
      ⟨.uint 0, 8, ⟨⟨3, [0, 9]⟩, 8⟩⟩ ⟨.empty, .empty⟩ := by
    refine ⟨by decide, ⟨rfl, rfl, rfl, rfl, rfl, rfl⟩, rfl, ?_⟩
    exact ⟨[.set .length], .length, List.mem_singleton_self _, List.mem_singleton_self _⟩
  have reached : Progress.Steps ⟨true⟩ (parseTarget ⟨["S"], [sized]⟩ ⟨true⟩)
      (.start sized ⟨3, [0, 9]⟩ .empty) (sizedStart.put ⟨.field sizing, false⟩) := .refl
  obtain ⟨-, ended, -⟩ := stays_removed_of_zero rfl zero reached (by decide) rfl
  obtain ⟨⟨later, decoded, names⟩, -⟩ := ended fin run
  exact ⟨out, fin, ok, fields, run, _, later, decoded, rfl, names⟩

/-- A repeated field that takes out itself. -/
def selfRemoving : Structure where
  name := "S"
  descriptors := [
    .field ⟨"f", {
      length := some (.bits 8), triggers := some [.onField "f" [.set .length]] }, true⟩]

/-- It is decoded as the number zero, by which it is taken out, and then once more. -/
theorem repeated_of_own_zero :
    ∃ out, parseStructure ⟨["S"], [selfRemoving]⟩ ⟨true⟩ "S" ⟨0, [0, 7]⟩ .empty = .ok out ∧
      out.fields.map (fun d => (d.name, d.value?)) =
        [("f", some (.uint 0)), ("f", some (.uint 7))] ∧
      out.consumed = 2 := by
  have shape : (parseStructure ⟨["S"], [selfRemoving]⟩ ⟨true⟩ "S" ⟨0, [0, 7]⟩
      .empty).toOption.map (fun out => (out.fields.map (fun d => (d.name, d.value?)), out.consumed)) =
        some ([("f", some (.uint 0)), ("f", some (.uint 7))], 2) := by
    decide +kernel
  obtain ⟨out, decoded, shape⟩ := Option.map_eq_some_iff.mp shape
  obtain ⟨fields, consumed⟩ := Prod.mk.inj shape
  exact ⟨out, Attempt.eq_ok_of_toOption decoded, fields, consumed⟩

end WireGrammar
