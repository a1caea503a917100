import Mathlib.Data.List.Forall2
import WireGrammar.Proofs.Decoding.Step
import WireGrammar.Proofs.Machine.Field
import WireGrammar.Proofs.Packet.Wrapping
import WireGrammar.Proofs.Structure.Completeness

/-!
# Lists in one turn and turn by turn

A field that a target stands for can be a list in two notations.  Declared up to the end of the
bytes, it decodes all chains of the list in one turn, in one view.  Declared as repeated, it decodes
one chain in a turn and is queued again, so that its attributes, its conditions and its view are
found anew for each chain.  Where the first notation does not fail, the second comes to the same.

* `FieldDescriptor.inOneTurn`, `FieldDescriptor.turnByTurn`: the two notations;
* `steps_of_chains`: the chains of one turn are the steps of the other notation;
* `Progress.Twin.step`, `Progress.Twin.steps`: whatever one structure does, the other does in one
  step or in several;
* `turnByTurn_of_inOneTurn`: so the two structures are decoded to the same;
* `fewer_of_retargeted`: it is not enough that the triggers of the grammar leave the field alone.
-/

namespace WireGrammar

variable {g : Grammar} {o : Options} {parse : TargetParser} {entry : StreamContext} {s : Structure}
  {f : FieldDescriptor} {target : String} {p p' q : Progress} {queue : List Pending} {ch : Chain}

/-! ### The two notations -/

/-- The field as a list up to the end of the bytes. -/
def FieldDescriptor.inOneTurn (f : FieldDescriptor) : FieldDescriptor :=
  { f with attributes := { f.attributes with length := some .rest }, repeated := false }

/-- The field as a list by repetition. -/
def FieldDescriptor.turnByTurn (f : FieldDescriptor) : FieldDescriptor :=
  { f with attributes := { f.attributes with length := none }, repeated := true }

/-- A structure with the field among other descriptors. -/
def FieldDescriptor.among (f : FieldDescriptor) (name : String) (before after : List Descriptor) :
    Structure :=
  ⟨name, before ++ .field f :: after⟩

/-- A target stands for the field, in all bytes that are left. -/
structure ListField (f : FieldDescriptor) (target : String) : Prop where
  delegated : f.attributes.parse = some target
  unlimited : f.attributes.byteLength = none

/-! ### Conditions that go on to hold -/

/-- A condition looks at the first field of its name, so that it goes on to hold. -/
theorem Condition.holds_append_of_holds {fields : List DecodedField} {c : Condition}
    (h : c.holds fields = true) (later : List DecodedField) :
    c.holds (fields ++ later) = true := by
  obtain ⟨d, v, found, value, holds⟩ := Condition.holds_iff.mp h
  refine Condition.holds_iff.mpr ⟨d, v, ?_, value, holds⟩
  rw [List.find?_append, found]
  rfl

theorem FieldAttributes.isPresent_append {a : FieldAttributes} {fields : List DecodedField}
    (h : a.isPresent fields = true) (later : List DecodedField) :
    a.isPresent (fields ++ later) = true := by
  refine List.all_eq_true.mpr fun c own => ?_
  exact Condition.holds_append_of_holds (List.all_eq_true.mp h c own) later

/-! ### One chain after the other -/

/-- Behind a chain that starts at the cursor, the cursor goes on where the chain has left off. -/
theorem Progress.cursor_afterChain (name : String) (aligned : p.cursor.isAligned)
    (within : p.cursor.Within)
    (rest : ch.rest = p.cursor.remaining.drop (p.cursor.remaining.length - ch.rest.length)) :
    (p.afterChain name p.cursor.remaining ch).cursor.remaining = ch.rest ∧
      (p.afterChain name p.cursor.remaining ch).cursor.position =
        p.cursor.position + 8 * (p.cursor.remaining.length - ch.rest.length) := by
  have enough : p.cursor.remaining.length - ch.rest.length ≤ p.cursor.remainingBytes := by
    rw [BitCursor.length_remaining]
    exact Nat.sub_le ..
  constructor
  · rw [afterChain, BitCursor.remaining_advance within enough]
    exact rest.symm
  · rw [afterChain, BitCursor.advance_eq_skip aligned enough within]
    rfl

/-- Two chains, one behind the other, are gone over as one list. -/
theorem Progress.afterChain_afterChain {name : String} {view : Slice} {ch' : Chain}
    (short : ch.rest.length ≤ view.length) (short' : ch'.rest.length ≤ ch.rest.length) :
    (p.afterChain name view ch).afterChain name ch.rest ch' =
      p.afterChain name view (ch'.after ch.structures) := by
  have bytes : view.length - ch.rest.length + (ch.rest.length - ch'.rest.length) =
      view.length - ch'.rest.length := by
    omega
  simp only [afterChain, Chain.after, BitCursor.advance_advance, bytes, List.map_append,
    List.append_assoc]

/-- No name stands for more than the bytes at hand, and contexts hold nothing but what can come
about. -/
abbrev KeepsToBytes (g : Grammar) (entry : StreamContext) (parse : TargetParser) : Prop :=
  ∀ name input ctx r, parse name input ctx = .ok r →
    Keeps g entry (fun input _ r => r.consumed ≤ input.length) input ctx r

section Steps

variable (list : ListField f target) (untouched : Untouched g entry f.name)
  (sourced : p.memory.Sourced g entry s) (aligned : p.cursor.isAligned)
  (left : p.cursor.isExhausted = false) (present : f.attributes.isPresent p.fields = true)

include list untouched sourced aligned left present

/-- One chain is one turn. -/
theorem step_of_chain (h : chain parse target p.cursor.remaining p.context = .ok ch)
    (again : Bool) :
    (p.put ⟨.field f.turnByTurn, again⟩).Step o parse
      ((p.afterChain f.name p.cursor.remaining ch).requeueIf f.turnByTurn p.cursor
        (0 < (p.afterChain f.name p.cursor.remaining ch).cursor.remainingBytes)) := by
  have attributes : p.memory.effective f.turnByTurn = f.turnByTurn.attributes :=
    untouched.effective_eq sourced rfl
  have some : p.cursor.remaining.bytes ≠ [] := by
    rw [← List.isEmpty_eq_false_iff, BitCursor.isEmpty_remaining]
    exact left
  have turn : TargetTurn parse f.turnByTurn p.cursor p.fields p.memory target p.cursor.remaining
      ch := by
    refine ⟨?_, ?_, ?_, ?_⟩
    · rw [attributes]
      exact present
    · rw [attributes]
      exact list.delegated
    · rw [attributes, FieldAttributes.view, FieldDescriptor.turnByTurn, list.unlimited]
      exact BitCursor.rest_eq_ok.mpr ⟨aligned, rfl⟩
    · have once : f.turnByTurn.attributes.repetition (p.memory.dynamicLength f.turnByTurn) =
          .times 1 := by
        simp [FieldAttributes.repetition, FieldDescriptor.turnByTurn, list.unlimited]
      rw [attributes, once, chains_once some]
      exact h
  exact .turn left rfl (.target turn)

variable (within : p.cursor.Within) (keeps : KeepsToBytes g entry parse)

include within keeps

/-- **The chains of one turn are the steps of the other notation.**  Each of them takes the turn of
a further try, which finds the field as it was: neither the chains nor the fields decoded in their
place change its attributes or its conditions. -/
theorem steps_of_chains
    (h : chains parse .untilExhausted target p.cursor.remaining p.context = .ok ch) (again : Bool) :
    Progress.Steps o parse (p.put ⟨.field f.turnByTurn, again⟩)
      (p.afterChain f.name p.cursor.remaining ch) := by
  induction size_eq : p.cursor.remainingBytes using Nat.strong_induction_on generalizing p again ch
    with
  | _ size ih =>
  have go : ¬(Repetition.untilExhausted.isDone || p.cursor.remaining.bytes.isEmpty) := by
    rw [BitCursor.isEmpty_remaining, left]
    simp [Repetition.isDone]
  cases decoded : chain parse target p.cursor.remaining p.context with
  | error failure =>
    rw [chains_of_error go decoded] at h
    cases h
  | ok c =>
    obtain ⟨known, row⟩ := (Row.of_chain keeps decoded).of_keeps sourced.context
    obtain ⟨short, rest⟩ := row.rest_eq_drop
    have step := step_of_chain (o := o) list untouched sourced aligned left present decoded again
    obtain ⟨behind, position⟩ := Progress.cursor_afterChain f.name aligned within rest
    have bytes : (p.afterChain f.name p.cursor.remaining c).cursor.remainingBytes =
        c.rest.length := by
      rw [← BitCursor.length_remaining, behind]
    by_cases forward : c.rest.length < p.cursor.remaining.length
    · rw [chains_of_forward go decoded forward] at h
      obtain ⟨tail, others, rfl⟩ := map_eq_ok.mp h
      cases ended : c.rest.bytes.isEmpty with
      | true =>
        -- The bytes have ended, and neither notation goes on.
        rw [chains_of_done (by simp [ended])] at others
        cases others
        have none : c.rest.length = 0 := by simpa [Slice.length] using ended
        rw [Progress.requeueIf_of_stop (.inr (by simp [bytes, none]))] at step
        simp only [Chain.after, List.append_nil]
        exact .single step
      | false =>
        -- Bytes are left, and the field takes a further turn behind the chain.
        have some : 0 < c.rest.length := by
          simpa [Slice.length, List.length_pos_iff] using ended
        rw [Progress.requeueIf_of_go rfl (by omega) (by simp [bytes, some])] at step
        have fewer : c.rest.length < size := by
          rw [← size_eq, ← BitCursor.length_remaining]
          exact forward
        have left' : (p.afterChain f.name p.cursor.remaining c).cursor.isExhausted = false := by
          rw [← BitCursor.isEmpty_remaining, behind, ended]
        obtain ⟨-, row'⟩ := (Row.of_chains keeps others).of_keeps known
        rw [← behind] at others
        have further := ih c.rest.length fewer (p := p.afterChain f.name p.cursor.remaining c)
          ⟨sourced.pending, known⟩ (BitCursor.isAligned_advance aligned _) left'
          (FieldAttributes.isPresent_append present _) (BitCursor.within_advance aligned _) others
          true bytes
        rw [behind, Progress.afterChain_afterChain short row'.rest_eq_drop.1] at further
        exact .head step further
    · rw [chains_of_stuck go decoded forward] at h
      have still : p.cursor.remaining.length - c.rest.length = 0 := by omega
      rw [still] at position
      rw [Progress.requeueIf_of_stop (.inl position)] at step
      cases h
      exact .single step

end Steps

/-- What the turn of the one notation comes to. -/
theorem inOneTurn_cases (list : ListField f target) (untouched : Untouched g entry f.name)
    (sourced : p.memory.Sourced g entry s) (turn : FieldTurn o parse f.inOneTurn p q) :
    (f.attributes.isPresent p.fields = false ∧ q = p) ∨
      ∃ ch, f.attributes.isPresent p.fields = true ∧ p.cursor.isAligned ∧
        chains parse .untilExhausted target p.cursor.remaining p.context = .ok ch ∧
          q = p.afterChain f.name p.cursor.remaining ch := by
  have attributes : p.memory.effective f.inOneTurn = f.inOneTurn.attributes :=
    untouched.effective_eq sourced rfl
  have delegated : (p.memory.effective f.inOneTurn).parse = some target := by
    rw [attributes]
    exact list.delegated
  cases turn with
  | idle h =>
    rcases h with absent | ⟨none, -⟩
    · rw [attributes] at absent
      exact .inl ⟨absent, rfl⟩
    · cases delegated.symm.trans none
  | scalar h => cases delegated.symm.trans h.noTarget
  | @target name view ch h =>
    cases delegated.symm.trans h.delegated
    have present := h.present
    have viewed := h.viewed
    have decoded := h.decoded
    rw [attributes] at present viewed decoded
    rw [FieldAttributes.view, FieldDescriptor.inOneTurn, list.unlimited] at viewed
    obtain ⟨aligned, rfl⟩ := BitCursor.rest_eq_ok.mp viewed
    refine .inr ⟨ch, present, aligned, decoded, if_neg ?_⟩
    simp [FieldDescriptor.inOneTurn]

/-! ### Two structures side by side -/

/-- The same descriptor, or the field in its two notations. -/
inductive Pending.Twin (f : FieldDescriptor) : Pending → Pending → Prop where
  | same (item : Pending) : Twin f item item
  | list : Twin f ⟨.field f.inOneTurn, false⟩ ⟨.field f.turnByTurn, false⟩

/-- Two structures that have come equally far. -/
structure Progress.Twin (f : FieldDescriptor) (p p' : Progress) : Prop where
  stage : p'.stage = p.stage
  queue : List.Forall₂ (Pending.Twin f) p.queue p'.queue

/-- A structure goes on from what can come about, with descriptors of its own. -/
structure Progress.Regular (g : Grammar) (entry : StreamContext) (s : Structure) (p : Progress) :
    Prop where
  sourced : p.memory.Sourced g entry s
  within : p.cursor.Within
  own : p.Own s

theorem Pending.Twin.refl (queue : List Pending) : List.Forall₂ (Pending.Twin f) queue queue :=
  List.forall₂_same.mpr fun item _ => .same item

/-- What is left of twin queues without some fields are twin queues. -/
theorem Pending.Twin.filter {queue queue' : List Pending} (removes : String → Bool)
    (h : List.Forall₂ (Pending.Twin f) queue queue') :
    List.Forall₂ (Pending.Twin f)
      (queue.filter fun item => !item.descriptor.field?.any (removes ·.name))
      (queue'.filter fun item => !item.descriptor.field?.any (removes ·.name)) := by
  refine List.rel_filter (fun item item' twin => ?_) h
  cases twin with
  | same => rfl
  | list => rfl

/-- A turn edits both queues in the same way. -/
theorem Progress.Twin.behind (twin : p.Twin f p') (t : Turn) :
    (p.behind t).Twin f (p'.behind t) where
  stage := rfl
  queue := List.rel_append (Pending.Twin.refl _) (Pending.Twin.filter t.removes twin.queue)

section Run

variable (list : ListField f target) (untouched : Untouched g entry f.name)
  (keeps : KeepsToBytes g entry parse)

include list untouched keeps

/-- A turn in the one structure is a turn in the other, or several. -/
theorem Progress.Twin.steps_of_turn {f' : FieldDescriptor} {again : Bool} {item : Pending}
    (twin : p.Twin f p') (pair : Pending.Twin f ⟨.field f', again⟩ item)
    (sourced : p.memory.Sourced g entry s) (within : p.cursor.Within)
    (left : p.cursor.isExhausted = false) (taken : FieldTurn o parse f' p q) :
    ∃ q', Progress.Steps o parse (p'.put item) q' ∧ q.Twin f q' := by
  obtain ⟨c, queue, fields, m⟩ := p
  obtain ⟨c', queue', fields', m'⟩ := p'
  have same : Stage.mk c' fields' m' = ⟨c, fields, m⟩ := twin.stage
  cases same
  cases pair with
  | same =>
    obtain ⟨t, rfl, turn⟩ := taken.of_stage ⟨c, queue', fields, m⟩ rfl
    exact ⟨_, .single (.turn left rfl turn), twin.behind t⟩
  | list =>
    rcases inOneTurn_cases list untouched sourced taken with
      ⟨absent, rfl⟩ | ⟨ch, present, aligned, decoded, rfl⟩
    · have attributes : m.effective f.turnByTurn = f.turnByTurn.attributes :=
        untouched.effective_eq sourced rfl
      have idle : Idle f.turnByTurn fields m := by
        refine .inl ?_
        rw [attributes]
        exact absent
      exact ⟨⟨c, queue', fields, m⟩, .single (.turn left rfl (.idle idle)), twin⟩
    · have steps := steps_of_chains (o := o) (p := ⟨c, queue', fields, m⟩) list untouched sourced
        aligned left present within keeps decoded false
      exact ⟨_, steps, rfl, twin.queue⟩

variable (mem : s ∈ g.structures)

include mem

/-- **A step of the one structure is a step of the other, or several.** -/
theorem Progress.Twin.step (twin : p.Twin f p') (regular : p.Regular g entry s)
    (h : p.Step o parse q) :
    q.Regular g entry s ∧ ∃ q', Progress.Steps o parse p' q' ∧ q.Twin f q' := by
  obtain ⟨c, pending, fields, m⟩ := p
  obtain ⟨c', pending', fields', m'⟩ := p'
  obtain ⟨stage, queues⟩ := twin
  have same : Stage.mk c' fields' m' = ⟨c, fields, m⟩ := stage
  cases same
  obtain ⟨sourced, within, own⟩ := regular
  cases h with
  | @type name again queue left first =>
    cases first
    obtain ⟨item, queue', pair, twins, rfl⟩ := List.forall₂_cons_left_iff.mp queues
    cases pair
    exact ⟨⟨sourced, within, own.tail rfl⟩, _, .single (.type left rfl), rfl, twins⟩
  | @turn f' again queue _ left first taken =>
    cases first
    have regular : q.Regular g entry s :=
      ⟨taken.sourced keeps sourced mem (own.head rfl), taken.within within,
        (own.tail rfl).turn (own.head rfl) taken⟩
    obtain ⟨item, queue', pair, twins, rfl⟩ := List.forall₂_cons_left_iff.mp queues
    have rest : Progress.Twin f ⟨c, queue, fields, m⟩ ⟨c, queue', fields, m⟩ := ⟨rfl, twins⟩
    exact ⟨regular, rest.steps_of_turn list untouched keeps pair sourced within left taken⟩
  | @dropped f' queue left first stuck =>
    cases first
    obtain ⟨item, queue', pair, twins, rfl⟩ := List.forall₂_cons_left_iff.mp queues
    cases pair
    refine ⟨⟨sourced, within, own.tail rfl⟩, ⟨c, queue', fields, m⟩,
      .single (.dropped left rfl fun q' turn' => ?_), rfl, twins⟩
    obtain ⟨t, -, turn⟩ := turn'.of_stage ⟨c, queue, fields, m⟩ rfl
    exact stuck _ turn

/-- Whatever the one structure comes to, the other comes to as well. -/
theorem Progress.Twin.steps (twin : p.Twin f p') (regular : p.Regular g entry s)
    (h : Progress.Steps o parse p q) :
    q.Regular g entry s ∧ ∃ q', Progress.Steps o parse p' q' ∧ q.Twin f q' := by
  induction h with
  | refl => exact ⟨regular, p', .refl, twin⟩
  | tail _ step ih =>
    obtain ⟨regular, q', steps, twin⟩ := ih
    obtain ⟨regular, q'', further, twin⟩ := twin.step list untouched keeps mem regular step
    exact ⟨regular, q'', steps.trans further, twin⟩

end Run

theorem Progress.Twin.ends {fin : Finish} (twin : p.Twin f p') (h : p.Ends fin) :
    ∃ fin', p'.Ends fin' ∧ fin.progress.Twin f fin'.progress ∧ fin'.next = fin.next := by
  have cursor : p'.cursor = p.cursor := congrArg Stage.cursor twin.stage
  cases h with
  | exhausted ended => exact ⟨_, .exhausted (cursor ▸ ended), twin, rfl⟩
  | complete left spent =>
    have spent' : p'.queue = [] := by
      have queues := twin.queue
      rw [spent] at queues
      exact List.forall₂_nil_left_iff.mp queues
    exact ⟨_, .complete (cursor ▸ left) spent', twin, rfl⟩
  | next left first =>
    have queues := twin.queue
    rw [first] at queues
    obtain ⟨item, queue', pair, twins, first'⟩ := List.forall₂_cons_left_iff.mp queues
    cases pair
    exact ⟨_, .next (cursor ▸ left) first', ⟨twin.stage, twins⟩, rfl⟩

/-- A list is never missing, in either notation. -/
theorem Progress.Twin.missing? (twin : p.Twin f p') (untouched : Untouched g entry f.name)
    (sourced : p.memory.Sourced g entry s) : p'.missing? = p.missing? := by
  have fields : p'.fields = p.fields := congrArg Stage.fields twin.stage
  have memory : p'.memory = p.memory := congrArg Stage.memory twin.stage
  have one : p.memory.effective f.inOneTurn = f.inOneTurn.attributes :=
    untouched.effective_eq sourced rfl
  have each : p.memory.effective f.turnByTurn = f.turnByTurn.attributes :=
    untouched.effective_eq sourced rfl
  have optional : f.inOneTurn.attributes.isRequired = false := rfl
  have optional' : f.turnByTurn.attributes.isRequired = false := rfl
  have queues := twin.queue
  rw [Progress.missing?, Progress.missing?, fields, memory]
  generalize p.queue = queue at queues ⊢
  generalize p'.queue = queue' at queues ⊢
  induction queues with
  | nil => rfl
  | cons pair _ ih =>
    cases pair with
    | same item =>
      simp only [List.filter_cons]
      split
      · rw [List.findSome?_cons, List.findSome?_cons, ih]
      · exact ih
    | list =>
      simpa [Descriptor.field?, Option.filter, one, each, optional, optional'] using ih

theorem Finish.outcome_of_twin {fin fin' : Finish} {s' : Structure} (named : s'.name = s.name)
    (twin : fin.progress.Twin f fin'.progress) (next : fin'.next = fin.next)
    (missing : fin'.progress.missing? = fin.progress.missing?) :
    fin'.outcome s' = fin.outcome s := by
  have cursor : fin'.progress.cursor = fin.progress.cursor := congrArg Stage.cursor twin.stage
  have fields : fin'.progress.fields = fin.progress.fields := congrArg Stage.fields twin.stage
  have memory : fin'.progress.memory = fin.progress.memory := congrArg Stage.memory twin.stage
  simp only [Finish.outcome, Progress.context, Progress.fail, named, next, missing, cursor, fields,
    memory]

/-! ### The two notations -/

/-- What is decoded in a part of a grammar keeps to what can come about in the whole of it. -/
theorem keepsToBytes_of_part {g' : Grammar} (part : ∀ s ∈ g.structures, s ∈ g'.structures)
    (depth : Nat) (active : Active) :
    KeepsToBytes g' entry (parseTargetBy g (enterStructure g o depth active)) := by
  intro name input ctx r ok known
  obtain ⟨left, tiled⟩ := (decodingInvariant_tiled g o ctx).of_parseTargetBy ok (.refl g ctx)
  exact ⟨known.lift part left, tiled.consumed⟩

/-- **The two notations of a list agree.**  Where neither triggers nor the context change the field,
a structure with the list in one turn that is decoded is decoded with the list turn by turn as well:
to the same fields, cursor, pending attributes and context, and with the same structure to follow.
This is so for whatever stands around the list, and whatever the structures in its place do. -/
theorem turnByTurn_of_inOneTurn (list : ListField f target) {name : String}
    {before after : List Descriptor} {ctx : StreamContext}
    (untouched : Untouched ⟨g.roots, f.inOneTurn.among name before after :: g.structures⟩ ctx f.name)
    {depth : Nat} {active : Active} {input : Slice} {out : StructureOutcome}
    (h : parseDescriptors o (parseTargetBy g (enterStructure g o depth active))
      (f.inOneTurn.among name before after) input ctx = .ok out) :
    parseDescriptors o (parseTargetBy g (enterStructure g o depth active))
        (f.turnByTurn.among name before after) input ctx = .ok out ∧
      ∃ fin fin',
        parseFields o (parseTargetBy g (enterStructure g o depth active))
          (.start (f.inOneTurn.among name before after) input ctx) = .ok fin ∧
        parseFields o (parseTargetBy g (enterStructure g o depth active))
          (.start (f.turnByTurn.among name before after) input ctx) = .ok fin' ∧
        fin'.progress.stage = fin.progress.stage ∧ fin'.next = fin.next := by
  let whole : Grammar := ⟨g.roots, f.inOneTurn.among name before after :: g.structures⟩
  have keeps : KeepsToBytes whole ctx (parseTargetBy g (enterStructure g o depth active)) :=
    keepsToBytes_of_part (fun s mem => List.mem_cons_of_mem _ mem) depth active
  have mem : f.inOneTurn.among name before after ∈ whole.structures := List.mem_cons_self
  obtain ⟨fin, run, ended⟩ := bind_eq_ok.mp h
  obtain ⟨q, steps, ends⟩ := steps_of_parseFields run
  have twin : Progress.Twin f (.start (f.inOneTurn.among name before after) input ctx)
      (.start (f.turnByTurn.among name before after) input ctx) := by
    refine ⟨rfl, ?_⟩
    simp only [Progress.start, FieldDescriptor.among, List.map_append, List.map_cons]
    exact List.rel_append (Pending.Twin.refl _) (.cons .list (Pending.Twin.refl _))
  have regular : Progress.Regular whole ctx (f.inOneTurn.among name before after)
      (.start (f.inOneTurn.among name before after) input ctx) :=
    ⟨.start (.refl whole ctx) _, BitCursor.within_start input, .start _ input ctx⟩
  obtain ⟨⟨sourced, -, -⟩, q', steps', twin⟩ := twin.steps list untouched keeps mem regular steps
  obtain ⟨fin', ends', twin, next⟩ := twin.ends ends
  have run' := (parseFields_of_steps steps').trans ends'.run
  have missing := twin.missing? untouched (ends.progress.2.2.1 ▸ sourced)
  refine ⟨?_, fin, fin', run, run', twin.stage, next⟩
  rw [parseDescriptors, run']
  exact (Finish.outcome_of_twin rfl twin next missing).trans ended

/-- Elements of two structures, one following the other. -/
def keyed : Grammar where
  roots := ["Key"]
  structures := [
    ⟨"Key", [.field ⟨"key", { length := some (.bits 8) }, false⟩, .next "Value"]⟩,
    ⟨"Value", [.field ⟨"value", { length := some (.bits 8) }, false⟩]⟩]

/-- A list of keys and values, which is there on a condition. -/
def keyedList : FieldDescriptor where
  name := "entries"
  attributes := { parse := some "Key", conditions := some [⟨"kind", .eq, .int 1⟩] }
  repeated := false

/-- The bytes end inside of the second element. -/
theorem turnByTurn_of_inOneTurn_keyedList :
    ∃ out,
      parseDescriptors {} (parseTargetBy keyed (enterStructure keyed {} 12 [("List", 3)]))
        (keyedList.inOneTurn.among "List" [.field ⟨"kind", { length := some (.bits 8) }, false⟩] [])
        ⟨3, [1, 7, 8, 9]⟩ .empty = .ok out ∧
      out.fields.map (·.name) = ["kind", "entries", "entries", "entries"] ∧
      parseDescriptors {} (parseTargetBy keyed (enterStructure keyed {} 12 [("List", 3)]))
        (keyedList.turnByTurn.among "List" [.field ⟨"kind", { length := some (.bits 8) }, false⟩] [])
        ⟨3, [1, 7, 8, 9]⟩ .empty = .ok out := by
  have names : (parseDescriptors {}
      (parseTargetBy keyed (enterStructure keyed {} 12 [("List", 3)]))
      (keyedList.inOneTurn.among "List" [.field ⟨"kind", { length := some (.bits 8) }, false⟩] [])
      ⟨3, [1, 7, 8, 9]⟩ .empty).toOption.map (fun out => out.fields.map (·.name)) =
        some ["kind", "entries", "entries", "entries"] := by
    decide +kernel
  obtain ⟨out, decoded, names⟩ := Option.map_eq_some_iff.mp names
  have ok := Attempt.eq_ok_of_toOption decoded
  exact ⟨out, ok, names, (turnByTurn_of_inOneTurn ⟨rfl, rfl⟩ (by decide +kernel) ok).1⟩

/-- The two notations may come to different lists, if only the triggers of the grammar leave the
field alone, and the context has nothing for it: a trigger that the context holds for another field
can still count the chains of the one notation, while the other goes on. -/
theorem fewer_of_retargeted :
    ∃ f ctx before out out', ListField f "Key" ∧
      ctx = keptContext [.lookup .length [(.int 5, .length (.bits 8))]] ∧
      ctx.get? f.name = none ∧
      (Grammar.mk ["Key"] (f.inOneTurn.among "S" before [] :: keyed.structures)).every
        (·.spares f.name) = true ∧
      parseDescriptors {} (parseTargetBy keyed (enterStructure keyed {} 12 [("S", 0)]))
        (f.inOneTurn.among "S" before []) ⟨0, [5, 1, 2, 3, 4]⟩ ctx = .ok out ∧
      parseDescriptors {} (parseTargetBy keyed (enterStructure keyed {} 12 [("S", 0)]))
        (f.turnByTurn.among "S" before []) ⟨0, [5, 1, 2, 3, 4]⟩ ctx = .ok out' ∧
      out.fields.map (·.name) = ["h", "f", "f"] ∧
      out'.fields.map (·.name) = ["h", "f", "f", "f", "f"] := by
  have absent : (keptContext [.lookup .length [(.int 5, .length (.bits 8))]]).get? "f" = none :=
    Option.isNone_iff_eq_none.mp (by decide +kernel)
  have names : (parseDescriptors {}
      (parseTargetBy keyed (enterStructure keyed {} 12 [("S", 0)]))
      (FieldDescriptor.among (FieldDescriptor.inOneTurn ⟨"f", { parse := some "Key" }, false⟩) "S"
        [.field ⟨"h", { length := some (.bits 8) }, false⟩] [])
      ⟨0, [5, 1, 2, 3, 4]⟩
      (keptContext [.lookup .length [(.int 5, .length (.bits 8))]])).toOption.map
        (fun out => out.fields.map (·.name)) = some ["h", "f", "f"] := by
    decide +kernel
  have names' : (parseDescriptors {}
      (parseTargetBy keyed (enterStructure keyed {} 12 [("S", 0)]))
      (FieldDescriptor.among (FieldDescriptor.turnByTurn ⟨"f", { parse := some "Key" }, false⟩) "S"
        [.field ⟨"h", { length := some (.bits 8) }, false⟩] [])
      ⟨0, [5, 1, 2, 3, 4]⟩
      (keptContext [.lookup .length [(.int 5, .length (.bits 8))]])).toOption.map
        (fun out => out.fields.map (·.name)) = some ["h", "f", "f", "f", "f"] := by
    decide +kernel
  obtain ⟨out, decoded, names⟩ := Option.map_eq_some_iff.mp names
  obtain ⟨out', decoded', names'⟩ := Option.map_eq_some_iff.mp names'
  exact ⟨_, _, _, out, out', ⟨rfl, rfl⟩, rfl, absent, by decide +kernel,
    Attempt.eq_ok_of_toOption decoded, Attempt.eq_ok_of_toOption decoded', names, names'⟩

end WireGrammar
