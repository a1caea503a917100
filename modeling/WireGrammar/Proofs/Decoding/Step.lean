import Mathlib.Logic.Relation
import WireGrammar.Proofs.Decoding.Loop
import WireGrammar.Proofs.Decoding.Turn

/-!
# The run over the descriptors, step by step

In each step the first of the pending descriptors is taken off the queue: the type of the structure
is passed over, a field takes its turn, or a further try of a field that is not possible is dropped.
A run can be taken up at any progress that its steps come to, and ends where no step is left.

* `Progress.Step`: the steps of a run;
* `parseFields_of_steps`: the run goes on from wherever its steps come to;
* `steps_of_parseFields`: a run that does not fail comes to its end by steps.
-/

namespace WireGrammar

variable {o : Options} {parse : TargetParser} {p q : Progress} {fin : Finish}

/-- What is done with the first of the pending descriptors. -/
inductive Progress.Step (o : Options) (parse : TargetParser) (p : Progress) : Progress → Prop where
  | type {name : String} {again : Bool} {queue : List Pending} (left : p.cursor.isExhausted = false)
      (first : p.queue = ⟨.type name, again⟩ :: queue) : Step o parse p { p with queue }
  | turn {f : FieldDescriptor} {again : Bool} {queue : List Pending} {q : Progress}
      (left : p.cursor.isExhausted = false) (first : p.queue = ⟨.field f, again⟩ :: queue)
      (taken : FieldTurn o parse f { p with queue } q) : Step o parse p q
  /-- A further try that is not possible leaves everything as it is. -/
  | dropped {f : FieldDescriptor} {queue : List Pending} (left : p.cursor.isExhausted = false)
      (first : p.queue = ⟨.field f, true⟩ :: queue)
      (stuck : ∀ q, ¬FieldTurn o parse f { p with queue } q) : Step o parse p { p with queue }

/-- The progress with one more descriptor in front of those that are pending. -/
def Progress.put (p : Progress) (item : Pending) : Progress := { p with queue := item :: p.queue }

/-- A field that went no further, or behind which not enough is left, is not queued again. -/
theorem Progress.requeueIf_of_stop {f : FieldDescriptor} {before : BitCursor} {enough : Bool}
    (stop : p.cursor.position = before.position ∨ enough = false) :
    p.requeueIf f before enough = p := by
  refine if_neg fun again => ?_
  simp only [Bool.and_eq_true, decide_eq_true_eq] at again
  rcases stop with still | short
  · omega
  · exact Bool.false_ne_true (short.symm.trans again.2)

/-- A repeated field that went further is queued again in front, if enough is left. -/
theorem Progress.requeueIf_of_go {f : FieldDescriptor} {before : BitCursor} {enough : Bool}
    (repeated : f.repeated = true) (moved : before.position < p.cursor.position)
    (left : enough = true) :
    p.requeueIf f before enough = p.put ⟨.field f, true⟩ := by
  refine if_pos ?_
  simp only [Bool.and_eq_true, decide_eq_true_eq]
  exact ⟨⟨repeated, moved⟩, left⟩

/-- Any number of steps. -/
abbrev Progress.Steps (o : Options) (parse : TargetParser) : Progress → Progress → Prop :=
  Relation.ReflTransGen (Progress.Step o parse)

/-- A progress at which the run ends as `fin`. -/
inductive Progress.Ends (p : Progress) : Finish → Prop where
  | exhausted (ended : p.cursor.isExhausted = true) : Ends p ⟨p, none⟩
  | complete (left : p.cursor.isExhausted = false) (spent : p.queue = []) : Ends p ⟨p, none⟩
  | next {name : String} {again : Bool} {queue : List Pending}
      (left : p.cursor.isExhausted = false) (first : p.queue = ⟨.next name, again⟩ :: queue) :
      Ends p ⟨{ p with queue }, some name⟩

theorem parseField_eq_error_of_stuck {f : FieldDescriptor} (stuck : ∀ q, ¬FieldTurn o parse f p q) :
    ∃ failure, parseField o parse f p = .error failure := by
  cases turn : parseField o parse f p with
  | ok q => exact absurd (parseField_eq_ok.mp turn) (stuck q)
  | error failure => exact ⟨failure, rfl⟩

theorem stuck_of_parseField_eq_error {f : FieldDescriptor} {failure : Failure}
    (failed : parseField o parse f p = .error failure) (q : Progress) :
    ¬FieldTurn o parse f p q := by
  intro taken
  rw [parseField_eq_ok.mpr taken] at failed
  cases failed

/-- A step does not change what the run comes to. -/
theorem parseFields_of_step (h : p.Step o parse q) :
    parseFields o parse p = parseFields o parse q := by
  cases h with
  | type left first => exact parseFields_of_type left first rfl
  | turn left first taken =>
    exact parseFields_of_turn left first rfl (parseField_eq_ok.mpr taken)
  | dropped left first stuck =>
    obtain ⟨failure, failed⟩ := parseField_eq_error_of_stuck stuck
    exact parseFields_of_dropped left first rfl failed rfl

/-- **The run goes on from wherever its steps come to.** -/
theorem parseFields_of_steps (h : Progress.Steps o parse p q) :
    parseFields o parse p = parseFields o parse q := by
  induction h with
  | refl => rfl
  | tail _ step ih => exact ih.trans (parseFields_of_step step)

/-- A run that does not fail comes to its end by steps. -/
theorem steps_of_parseFields (h : parseFields o parse p = .ok fin) :
    ∃ q, Progress.Steps o parse p q ∧ q.Ends fin := by
  fun_induction parseFields o parse p generalizing fin with
  | case1 p ended =>
    cases h
    exact ⟨p, .refl, .exhausted ended⟩
  | case2 p left ended =>
    cases h
    exact ⟨p, .refl, .complete (by simpa using left) ended⟩
  | case3 p left item queue first name kind ih =>
    obtain ⟨q, steps, ends⟩ := ih h
    obtain ⟨d, again⟩ := item
    cases kind
    exact ⟨q, .head (.type (by simpa using left) first) steps, ends⟩
  | case4 p left item queue first name kind =>
    cases h
    obtain ⟨d, again⟩ := item
    cases kind
    exact ⟨p, .refl, .next (by simpa using left) first⟩
  | case5 p left item queue first f kind q ok ih =>
    obtain ⟨q', steps, ends⟩ := ih h
    obtain ⟨d, again⟩ := item
    cases kind
    exact ⟨q', .head (.turn (by simpa using left) first (parseField_eq_ok.mp ok)) steps, ends⟩
  | case6 p left item queue first f kind failure failed again ih =>
    obtain ⟨q, steps, ends⟩ := ih h
    obtain ⟨d, again'⟩ := item
    cases kind
    cases again
    exact ⟨q, .head (.dropped (by simpa using left) first (stuck_of_parseField_eq_error failed))
      steps, ends⟩
  | case7 => cases h

/-- Where no step is left, the run is over. -/
theorem Progress.Ends.run (h : p.Ends fin) : parseFields o parse p = .ok fin := by
  cases h with
  | exhausted ended => exact parseFields_of_exhausted ended
  | complete left spent => exact parseFields_of_empty left spent
  | next left first => exact parseFields_of_next left first rfl

/-- A field that takes its first turn in a run that does not fail takes it without failing. -/
theorem fieldTurn_of_parseFields {f : FieldDescriptor} (left : p.cursor.isExhausted = false)
    (h : parseFields o parse (p.put ⟨.field f, false⟩) = .ok fin) :
    ∃ q, FieldTurn o parse f p q ∧ (p.put ⟨.field f, false⟩).Step o parse q := by
  have run : parseFields o parse (p.put ⟨.field f, false⟩) =
      (parseField o parse f p).bind (parseFields o parse) := parseFields_of_field left rfl
  obtain ⟨q, ok, -⟩ := bind_eq_ok.mp (run.symm.trans h)
  have taken := parseField_eq_ok.mp ok
  exact ⟨q, taken, .turn left rfl taken⟩

/-- A turn appends fields of the name that it is the turn of. -/
theorem FieldTurn.fields_eq {f : FieldDescriptor} (h : FieldTurn o parse f p q) :
    ∃ added, q.fields = p.fields ++ added ∧ ∀ d ∈ added, d.name = f.name := by
  cases h with
  | idle => exact ⟨[], (List.append_nil _).symm, by simp⟩
  | scalar =>
    rw [Progress.fields_requeueIf]
    exact ⟨_, rfl, fun d mem => List.mem_singleton.mp mem ▸ rfl⟩
  | target =>
    rw [Progress.fields_requeueIf]
    refine ⟨_, rfl, fun d mem => ?_⟩
    obtain ⟨s, -, rfl⟩ := List.mem_map.mp mem
    rfl

namespace Progress

theorem Step.fields_eq (h : p.Step o parse q) : ∃ added, q.fields = p.fields ++ added := by
  cases h with
  | type | dropped => exact ⟨[], (List.append_nil _).symm⟩
  | turn left first taken =>
    obtain ⟨added, fields, -⟩ := taken.fields_eq
    exact ⟨added, fields⟩

/-- Steps only append to what is decoded. -/
theorem Steps.fields_eq (h : Steps o parse p q) : ∃ later, q.fields = p.fields ++ later := by
  induction h with
  | refl => exact ⟨[], (List.append_nil _).symm⟩
  | tail _ step ih =>
    obtain ⟨later, fields⟩ := ih
    obtain ⟨added, fields'⟩ := step.fields_eq
    exact ⟨later ++ added, by rw [fields', fields, List.append_assoc]⟩

end Progress

/-- What is decoded at the end is decoded where the steps end, and what is left then was pending. -/
theorem Progress.Ends.progress (h : p.Ends fin) :
    fin.progress.cursor = p.cursor ∧ fin.progress.fields = p.fields ∧
      fin.progress.memory = p.memory ∧ ∀ item ∈ fin.progress.queue, item ∈ p.queue := by
  cases h with
  | exhausted | complete => exact ⟨rfl, rfl, rfl, fun _ mem => mem⟩
  | next left first => exact ⟨rfl, rfl, rfl, fun _ mem => first ▸ List.mem_cons_of_mem _ mem⟩

/-- A run that does not fail goes on from what its steps have come to. -/
theorem fields_of_parseFields (h : parseFields o parse p = .ok fin) :
    ∃ later, fin.progress.fields = p.fields ++ later := by
  obtain ⟨q, steps, ends⟩ := steps_of_parseFields h
  rw [ends.progress.2.1]
  exact steps.fields_eq

end WireGrammar
