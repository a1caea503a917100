import WireGrammar.Proofs.Decoding.Turn

/-!
# The course of a structure

While a structure is decoded its descriptors wait in a queue that is edited on the way: a repeated
field is put back in front, a zero takes fields out, and a try that fails is rolled back.  The
course of a structure tells what happens without a queue, by the places of the descriptors in their
declaration.  Of the queue there is never more than one field that is tried again, in front of those
of the descriptors behind it that have not been taken out.

* `Turn.Taken`: what the turn of a field decodes, takes out and leaves;
* `Course`: the turns of the descriptors, one behind the other;
* `course_of_parseFields`: a structure that is decoded takes a course;
* `Course.pairwise_place`, `Course.taken_or_removed`: turns come in the order of the declaration,
  and no field is left out;
* `Course.invariant`, `Course.split`: what each turn keeps is true at every turn, and behind each
  turn a course goes on as a course.
-/

namespace WireGrammar

/-! ### Turns -/

/-- How far a structure is decoded. -/
structure Stage where
  cursor : BitCursor
  fields : List DecodedField
  memory : Memory

/-- The start of a structure. -/
def Stage.start (input : Slice) (ctx : StreamContext) : Stage := ⟨.start input, [], ⟨.empty, ctx⟩⟩

def Progress.stage (p : Progress) : Stage := ⟨p.cursor, p.fields, p.memory⟩

@[simp] theorem Progress.cursor_stage (p : Progress) : p.stage.cursor = p.cursor := rfl

/-- The turn of a field. -/
structure Turn where
  /-- The place of the field among the descriptors of its structure. -/
  place : Nat
  field : FieldDescriptor
  before : Stage
  /-- What is decoded. -/
  added : List DecodedField
  /-- The names of the fields that are taken out. -/
  removes : String → Bool
  /-- The field is to be tried again. -/
  again : Bool
  after : Stage

/-- The attributes that the field is decoded with. -/
def Turn.attributes (t : Turn) : FieldAttributes := t.before.memory.effective t.field

/-- A repeated field that went from one cursor to the other is tried again, if enough is left. -/
def FieldDescriptor.goesOn (f : FieldDescriptor) (before after : BitCursor) (enough : Bool) : Bool :=
  f.repeated && before.position < after.position && enough

/-- What the turn of the field `f`, declared at a place, comes to. -/
inductive Turn.Taken (o : Options) (parse : TargetParser) (place : Nat) (f : FieldDescriptor)
    (st : Stage) : Turn → Prop where
  | idle (h : Idle f st.fields st.memory) :
      Taken o parse place f st ⟨place, f, st, [], fun _ => false, false, st⟩
  | scalar {length : Length} {r : Reading} {m : Memory}
      (h : ScalarTurn o f st.cursor st.fields st.memory length r m) :
      Taken o parse place f st
        { place, field := f, before := st
          added := [scalarField f st.cursor st.memory r]
          removes := prunesField o r.value ((st.memory.effective f).triggers.getD [])
          again := f.goesOn st.cursor r.cursor (enoughLeft r.cursor length)
          after := ⟨r.cursor, st.fields ++ [scalarField f st.cursor st.memory r], m⟩ }
  | target {name : String} {view : Slice} {ch : Chain} {c : BitCursor}
      (h : TargetTurn parse f st.cursor st.fields st.memory name view ch)
      (moved : c = st.cursor.advance (view.length - ch.rest.length)) :
      Taken o parse place f st
        { place, field := f, before := st
          added := nestedFields f ch.structures
          removes := fun _ => false
          again := f.goesOn st.cursor c (0 < c.remainingBytes)
          after := ⟨c, st.fields ++ nestedFields f ch.structures,
            { st.memory with context := ch.context }⟩ }

namespace Turn.Taken

variable {o : Options} {parse : TargetParser} {place : Nat} {f : FieldDescriptor} {st : Stage}
  {t : Turn}

theorem place_eq (h : Taken o parse place f st t) : t.place = place := by
  cases h <;> rfl

theorem field_eq (h : Taken o parse place f st t) : t.field = f := by
  cases h <;> rfl

theorem before_eq (h : Taken o parse place f st t) : t.before = st := by
  cases h <;> rfl

theorem fields_after (h : Taken o parse place f st t) : t.after.fields = st.fields ++ t.added := by
  cases h with
  | idle => exact (List.append_nil _).symm
  | scalar => rfl
  | target => rfl

/-- Only repeated fields are tried again. -/
theorem repeated_of_again (h : Taken o parse place f st t) (again : t.again = true) :
    f.repeated = true := by
  cases h with
  | idle => cases again
  | scalar | target =>
    simp only [FieldDescriptor.goesOn, Bool.and_eq_true] at again
    exact again.1.1

/-- What a turn decodes has the name of its field. -/
theorem name_eq (h : Taken o parse place f st t) {d : DecodedField} (mem : d ∈ t.added) :
    d.name = f.name := by
  cases h with
  | idle => cases mem
  | scalar =>
    obtain rfl := List.mem_singleton.mp mem
    rfl
  | target =>
    obtain ⟨s, -, rfl⟩ := List.mem_map.mp mem
    rfl

/-- Several fields are decoded in one turn only if structures stand in their place. -/
theorem nested (h : Taken o parse place f st t) :
    t.added.Pairwise fun d d' =>
      d.value? = none ∧ d'.value? = none ∧ t.attributes.parse.isSome = true := by
  cases h with
  | idle => exact .nil
  | scalar => exact List.pairwise_singleton ..
  | target h =>
    refine List.pairwise_map.mpr (List.pairwise_of_forall fun _ _ => ⟨rfl, rfl, ?_⟩)
    exact Option.isSome_of_eq_some h.delegated

end Turn.Taken

/-! ### Courses -/

/-- The course of the descriptors `ds`, the first of which is the one at the place `k`.  That one
may be a field that is tried `again`, the fields with names in `gone` have been taken out, and
`stop` is the first place that is not come to.  The last turn leaves the stage `fin` and, at a
descriptor that names it, the structure that is next. -/
inductive Course (o : Options) (parse : TargetParser) : (k : Nat) → (ds : List Descriptor) →
    (again : Bool) → (gone : String → Bool) → (st : Stage) → (ts : List Turn) → (stop : Nat) →
    (fin : Stage) → (next : Option String) → Prop where
  | exhausted {k ds gone st} (ended : st.cursor.isExhausted = true) :
      Course o parse k ds false gone st [] k st none
  | broken {k f ds gone st} (ended : st.cursor.isExhausted = true) :
      Course o parse k (.field f :: ds) true gone st [] (k + 1) st none
  | complete {k gone st} (left : st.cursor.isExhausted = false) :
      Course o parse k [] false gone st [] k st none
  | next {k name ds gone st} (left : st.cursor.isExhausted = false) :
      Course o parse k (.next name :: ds) false gone st [] k st (some name)
  | type {k name ds gone st ts stop fin next} (left : st.cursor.isExhausted = false)
      (rest : Course o parse (k + 1) ds false gone st ts stop fin next) :
      Course o parse k (.type name :: ds) false gone st ts stop fin next
  | removed {k f ds gone st ts stop fin next} (left : st.cursor.isExhausted = false)
      (out : gone f.name = true)
      (rest : Course o parse (k + 1) ds false gone st ts stop fin next) :
      Course o parse k (.field f :: ds) false gone st ts stop fin next
  | once {k f ds again gone st t ts stop fin next} (left : st.cursor.isExhausted = false)
      (kept : again = false → gone f.name = false) (taken : t.Taken o parse k f st)
      (done : t.again = false)
      (rest : Course o parse (k + 1) ds false (fun name => gone name || t.removes name) t.after ts
        stop fin next) :
      Course o parse k (.field f :: ds) again gone st (t :: ts) stop fin next
  | more {k f ds again gone st t ts stop fin next} (left : st.cursor.isExhausted = false)
      (kept : again = false → gone f.name = false) (taken : t.Taken o parse k f st)
      (goes : t.again = true)
      (rest : Course o parse k (.field f :: ds) true (fun name => gone name || t.removes name)
        t.after ts stop fin next) :
      Course o parse k (.field f :: ds) again gone st (t :: ts) stop fin next
  /-- A further try that is not possible leaves everything as it is. -/
  | dropped {k f ds gone st ts stop fin next} (left : st.cursor.isExhausted = false)
      (stuck : ∀ t, ¬Turn.Taken o parse k f st t)
      (rest : Course o parse (k + 1) ds false gone st ts stop fin next) :
      Course o parse k (.field f :: ds) true gone st ts stop fin next

/-- The first of the descriptors from a place on, and those behind it. -/
theorem drop_eq_cons {α : Type} {as bs : List α} {k : Nat} {a : α} (h : as.drop k = a :: bs) :
    as[k]? = some a ∧ as.drop (k + 1) = bs := by
  constructor
  · rw [← List.head?_drop, h]
    rfl
  · rw [← List.tail_drop, h]
    rfl

/-- The descriptors behind one of those from a place on. -/
theorem drop_append_cons {α : Type} {as bs out : List α} {k : Nat} {a : α}
    (h : as.drop k = out ++ a :: bs) : as.drop (k + out.length + 1) = bs := by
  rw [Nat.add_assoc, ← List.drop_drop, h, ← List.drop_drop, List.drop_left, List.drop_one,
    List.tail_cons]

/-! ### The queue of a course -/

/-- The descriptors that wait, without the fields that have been taken out. -/
def waiting (gone : String → Bool) (ds : List Descriptor) : List Pending :=
  (ds.filter fun d => !d.field?.any (gone ·.name)).map fun d => ⟨d, false⟩

/-- The queue of a course: a field that is tried again, and behind it what waits. -/
inductive Queued (gone : String → Bool) : Bool → List Descriptor → List Pending → Prop where
  | plain {ds queue} (h : queue = waiting gone ds) : Queued gone false ds queue
  | front {f ds queue} (h : queue = ⟨.field f, true⟩ :: waiting gone ds) :
      Queued gone true (.field f :: ds) queue

section Queue

variable {o : Options} {parse : TargetParser} {f : FieldDescriptor} {p q : Progress}
  {gone : String → Bool} {again : Bool} {ds : List Descriptor} {queue : List Pending}

theorem waiting_start (ds : List Descriptor) :
    waiting (fun _ => false) ds = ds.map fun d => ⟨d, false⟩ := by
  rw [waiting, List.filter_eq_self.mpr fun d _ => ?_]
  cases d.field? <;> rfl

theorem filter_waiting (removes : String → Bool) :
    (waiting gone ds).filter (fun item => !item.descriptor.field?.any (removes ·.name)) =
      waiting (fun name => gone name || removes name) ds := by
  simp only [waiting, List.filter_map, List.filter_filter]
  congr 2
  funext d
  cases field : d.field? <;> simp [field, Bool.and_comm]

/-- The first item of a queue, and the descriptors that stand before it but have been taken out. -/
theorem Queued.head {item : Pending} (h : Queued gone again ds (item :: queue)) :
    ∃ out d rest, ds = out ++ d :: rest ∧ item = ⟨d, again⟩ ∧ queue = waiting gone rest ∧
      (∀ d' ∈ out, d'.field?.any (gone ·.name) = true) ∧
      (again = true → out = [] ∧ ∃ f, d = .field f) ∧
      (again = false → d.field?.any (gone ·.name) = false) := by
  cases h with
  | front h =>
    cases h
    exact ⟨[], _, _, rfl, rfl, rfl, by simp, by simp, by simp⟩
  | plain h =>
    obtain ⟨d, ds', filtered, rfl, rfl⟩ := List.map_eq_cons_iff.mp h.symm
    obtain ⟨out, rest, rfl, gone_, kept, rfl⟩ := List.filter_eq_cons_iff.mp filtered
    exact ⟨out, d, rest, rfl, rfl, rfl, by simpa using gone_, by simp, by simpa using kept⟩

theorem Queued.nil (h : Queued gone again ds []) :
    again = false ∧ ∀ d ∈ ds, d.field?.any (gone ·.name) = true := by
  cases h with
  | front h => cases h
  | plain h =>
    have none := List.map_eq_nil_iff.mp h.symm
    exact ⟨rfl, by simpa [List.filter_eq_nil_iff] using none⟩

theorem Progress.queue_requeueIf (q : Progress) (f : FieldDescriptor) (before : BitCursor)
    (enough : Bool) : (q.requeueIf f before enough).queue =
      (if f.goesOn before q.cursor enough then [⟨.field f, true⟩] else []) ++ q.queue := by
  unfold requeueIf FieldDescriptor.goesOn
  split <;> rfl

/-- The turn of a field in the run over a queue is a turn of it at its place. -/
theorem FieldTurn.taken (h : FieldTurn o parse f p q) (k : Nat) :
    ∃ t, Turn.Taken o parse k f p.stage t ∧ q.stage = t.after ∧
      q.queue = (if t.again then [⟨.field f, true⟩] else []) ++
        p.queue.filter fun item => !item.descriptor.field?.any (t.removes ·.name) := by
  have untouched : p.queue.filter (fun item => !item.descriptor.field?.any fun _ => false) =
      p.queue := by
    refine List.filter_eq_self.mpr fun item _ => ?_
    cases item.descriptor.field? <;> rfl
  cases h with
  | idle h => exact ⟨_, .idle h, rfl, untouched.symm⟩
  | scalar h =>
    refine ⟨_, .scalar h, ?_, Progress.queue_requeueIf ..⟩
    simp only [Progress.stage, Progress.cursor_requeueIf, Progress.fields_requeueIf,
      Progress.memory_requeueIf]
    rfl
  | target h =>
    refine ⟨_, .target h rfl, ?_, ?_⟩
    · simp only [Progress.stage, Progress.cursor_requeueIf, Progress.fields_requeueIf,
        Progress.memory_requeueIf]
      rfl
    · rw [untouched]
      exact Progress.queue_requeueIf ..

/-- What the turn of a field makes of the progress so far. -/
def Progress.behind (p : Progress) (t : Turn) : Progress where
  cursor := t.after.cursor
  queue := (if t.again then [⟨.field t.field, true⟩] else []) ++
    p.queue.filter fun item => !item.descriptor.field?.any (t.removes ·.name)
  fields := t.after.fields
  memory := t.after.memory

theorem Progress.requeueIf_eq_behind {t : Turn} {before : BitCursor} {enough : Bool}
    (own : f = t.field) (again : t.again = f.goesOn before q.cursor enough)
    (stage : q.stage = t.after)
    (queue : q.queue = p.queue.filter fun item => !item.descriptor.field?.any (t.removes ·.name)) :
    q.requeueIf f before enough = p.behind t := by
  rw [behind, again, ← own, ← stage, ← queue, ← queue_requeueIf]
  unfold requeueIf
  split <;> rfl

/-- A turn that is possible at a place is possible in the run over any queue, and edits that
queue. -/
theorem Turn.Taken.fieldTurn {k : Nat} {t : Turn} (h : Turn.Taken o parse k f p.stage t) :
    FieldTurn o parse f p (p.behind t) := by
  have untouched : p.queue =
      p.queue.filter (fun item => !item.descriptor.field?.any fun _ => false) := by
    refine (List.filter_eq_self.mpr fun item _ => ?_).symm
    cases item.descriptor.field? <;> rfl
  cases h with
  | idle h =>
    rw [Progress.behind, ← untouched]
    exact .idle h
  | scalar h =>
    refine Eq.mp (congrArg (FieldTurn o parse f p) ?_) (.scalar h)
    exact Progress.requeueIf_eq_behind rfl rfl rfl rfl
  | target h moved =>
    subst moved
    refine Eq.mp (congrArg (FieldTurn o parse f p) ?_) (.target h)
    exact Progress.requeueIf_eq_behind rfl rfl rfl untouched

/-- **The queue does not matter to a turn**, it is only edited. -/
theorem FieldTurn.of_stage (h : FieldTurn o parse f p q) (p' : Progress)
    (stage : p'.stage = p.stage) : ∃ t, q = p.behind t ∧ FieldTurn o parse f p' (p'.behind t) := by
  obtain ⟨t, taken, after, queue⟩ := h.taken 0
  rw [← stage] at taken
  refine ⟨t, ?_, taken.fieldTurn⟩
  rw [Progress.behind, taken.field_eq, ← after, ← queue]
  rfl

/-- What has been taken out is passed over. -/
theorem Course.skip {k stop : Nat} {out : List Descriptor} {st fin : Stage} {ts : List Turn}
    {next : Option String} (left : st.cursor.isExhausted = false)
    (gone_ : ∀ d ∈ out, d.field?.any (gone ·.name) = true) (first : again = true → out = [])
    (rest : Course o parse (k + out.length) ds again gone st ts stop fin next) :
    Course o parse k (out ++ ds) again gone st ts stop fin next := by
  induction out generalizing k with
  | nil => exact rest
  | cons d out ih =>
    obtain rfl : again = false := by
      cases again with
      | false => rfl
      | true => exact absurd (first rfl) (by simp)
    obtain ⟨own, others⟩ := List.forall_mem_cons.mp gone_
    rw [List.length_cons, Nat.add_comm out.length, ← Nat.add_assoc] at rest
    cases d with
    | type name => exact .type left (ih others (by simp) rest)
    | next name => cases own
    | field f => exact .removed left own (ih others (by simp) rest)

/-- What waits is no further try. -/
theorem filter_again_waiting : (waiting gone ds).filter (fun item => !item.again) =
    waiting gone ds := by
  refine List.filter_eq_self.mpr fun item mem => ?_
  obtain ⟨d, -, rfl⟩ := List.mem_map.mp mem
  rfl

/-- **The run over a queue takes a course.**  If it ends at no descriptor that names a structure to
follow, those behind the stop that no turn has taken out are waiting then. -/
theorem course_of_parseFields {all : List Descriptor} {fin : Finish}
    (h : parseFields o parse p = .ok fin) (queued : Queued gone again ds p.queue) {k : Nat}
    (here : all.drop k = ds) :
    ∃ ts stop, Course o parse k ds again gone p.stage ts stop fin.progress.stage fin.next ∧
      (fin.next = none → fin.progress.queue.filter (fun item => !item.again) =
        waiting (fun name => gone name || ts.any (·.removes name)) (all.drop stop)) := by
  fun_induction parseFields o parse p generalizing fin again gone ds k with
  | case1 p ended =>
    cases h
    cases queued with
    | plain waits =>
      refine ⟨_, _, .exhausted ended, fun _ => ?_⟩
      simp only [waits, here, List.any_nil, Bool.or_false, filter_again_waiting]
    | front waits =>
      refine ⟨_, _, .broken ended, fun _ => ?_⟩
      simp only [waits, (drop_eq_cons here).2, List.any_nil, Bool.or_false]
      rw [List.filter_cons_of_neg (by simp), filter_again_waiting]
  | case2 p go empty =>
    cases h
    rw [empty] at queued
    obtain ⟨rfl, out⟩ := queued.nil
    have go : p.stage.cursor.isExhausted = false := by simpa using go
    have last : Course o parse (k + ds.length) [] false gone p.stage [] (k + ds.length) p.stage
        none := .complete go
    refine ⟨[], k + ds.length, ?_, fun _ => ?_⟩
    · rw [← List.append_nil ds]
      simpa using Course.skip go out (by simp) last
    · rw [empty, ← List.drop_drop, here, List.drop_length]
      rfl
  | case3 p go item queue first name kind ih =>
    rw [first] at queued
    obtain ⟨out, d, rest, rfl, rfl, rfl, gone_, again_, -⟩ := queued.head
    cases kind
    obtain rfl : again = false := by simpa using again_
    obtain ⟨ts, stop, course, waits⟩ := ih h (.plain rfl) (drop_append_cons here)
    have go : p.stage.cursor.isExhausted = false := by simpa using go
    exact ⟨ts, stop, .skip go gone_ (by simp) (.type go course), waits⟩
  | case4 p go item queue first name kind =>
    rw [first] at queued
    obtain ⟨out, d, rest, rfl, rfl, rfl, gone_, again_, -⟩ := queued.head
    cases kind
    cases h
    obtain rfl : again = false := by simpa using again_
    have go : p.stage.cursor.isExhausted = false := by simpa using go
    exact ⟨_, _, .skip go gone_ (by simp) (.next go), by simp⟩
  | case5 p go item queue first f kind q ok ih =>
    rw [first] at queued
    obtain ⟨out, d, rest, rfl, rfl, rfl, gone_, again_, kept⟩ := queued.head
    cases kind
    have go : p.stage.cursor.isExhausted = false := by simpa using go
    obtain ⟨t, taken, after, waits⟩ := (parseField_eq_ok.mp ok).taken (k + out.length)
    rw [filter_waiting] at waits
    cases goes : t.again with
    | false =>
      rw [goes, if_neg Bool.false_ne_true, List.nil_append] at waits
      obtain ⟨ts, stop, course, left⟩ := ih h (.plain waits) (drop_append_cons here)
      rw [after] at course
      refine ⟨t :: ts, stop, ?_, ?_⟩
      · exact .skip go gone_ (fun a => (again_ a).1) (.once go kept taken goes course)
      · simpa only [List.any_cons, Bool.or_assoc] using left
    | true =>
      rw [goes, if_pos rfl] at waits
      have here' : all.drop (k + out.length) = .field f :: rest := by
        rw [← List.drop_drop, here, List.drop_left]
      obtain ⟨ts, stop, course, left⟩ := ih h (.front waits) here'
      rw [after] at course
      refine ⟨t :: ts, stop, ?_, ?_⟩
      · exact .skip go gone_ (fun a => (again_ a).1) (.more go kept taken goes course)
      · simpa only [List.any_cons, Bool.or_assoc] using left
  | case6 p go item queue first f kind failure failed again' ih =>
    rw [first] at queued
    obtain ⟨out, d, rest, rfl, rfl, rfl, gone_, again_, -⟩ := queued.head
    cases kind
    cases again'
    obtain ⟨rfl, -⟩ := again_ rfl
    have go : p.stage.cursor.isExhausted = false := by simpa using go
    obtain ⟨ts, stop, course, left⟩ := ih h (.plain rfl) (drop_eq_cons here).2
    refine ⟨ts, stop, .dropped go (fun t taken => ?_) course, left⟩
    have turn := Turn.Taken.fieldTurn (p := { p with queue := waiting gone rest }) taken
    rw [parseField_eq_ok.mpr turn] at failed
    cases failed
  | case7 => cases h

end Queue

/-! ### What a course keeps to -/

namespace Course

variable {o : Options} {parse : TargetParser} {k stop : Nat} {all ds : List Descriptor}
  {again : Bool} {gone : String → Bool} {st fin : Stage} {ts : List Turn} {next : Option String}

/-- The fields at the end are those at the start, and what the turns decode in their order. -/
theorem fields_eq (h : Course o parse k ds again gone st ts stop fin next) :
    fin.fields = st.fields ++ ts.flatMap (·.added) := by
  induction h with
  | exhausted | broken | complete | next => exact (List.append_nil _).symm
  | type _ _ ih => exact ih
  | removed _ _ _ ih => exact ih
  | dropped _ _ _ ih => exact ih
  | once _ _ taken _ _ ih => rw [ih, taken.fields_after, List.flatMap_cons, List.append_assoc]
  | more _ _ taken _ _ ih => rw [ih, taken.fields_after, List.flatMap_cons, List.append_assoc]

/-- Turns are taken of the descriptors from `k` to `stop`. -/
theorem place_mem (h : Course o parse k ds again gone st ts stop fin next) :
    k ≤ stop ∧ (again = true → k < stop) ∧ ∀ t ∈ ts, k ≤ t.place ∧ t.place < stop := by
  induction h with
  | exhausted | complete | next => simp
  | broken => simp
  | type _ _ ih | removed _ _ _ ih | dropped _ _ _ ih =>
    obtain ⟨le, -, places⟩ := ih
    refine ⟨by omega, by omega, fun t mem => ?_⟩
    have := places t mem
    omega
  | once _ _ taken _ _ ih =>
    obtain ⟨le, -, places⟩ := ih
    refine ⟨by omega, by omega, List.forall_mem_cons.mpr ⟨?_, fun t mem => ?_⟩⟩
    · rw [taken.place_eq]
      omega
    · have := places t mem
      omega
  | more _ _ taken _ _ ih =>
    obtain ⟨-, lt, places⟩ := ih
    have here := lt rfl
    refine ⟨by omega, by omega, List.forall_mem_cons.mpr ⟨?_, places⟩⟩
    rw [taken.place_eq]
    omega

/-- Each turn is of the field that is declared at its place. -/
theorem declared (h : Course o parse k ds again gone st ts stop fin next) (here : all.drop k = ds) :
    ∀ t ∈ ts, all[t.place]? = some (.field t.field) := by
  induction h with
  | exhausted | broken | complete | next => simp
  | type _ _ ih | removed _ _ _ ih | dropped _ _ _ ih => exact ih (drop_eq_cons here).2
  | once _ _ taken _ _ ih =>
    obtain ⟨first, rest⟩ := drop_eq_cons here
    refine List.forall_mem_cons.mpr ⟨?_, ih rest⟩
    rw [taken.place_eq, taken.field_eq]
    exact first
  | more _ _ taken _ _ ih =>
    refine List.forall_mem_cons.mpr ⟨?_, ih here⟩
    rw [taken.place_eq, taken.field_eq]
    exact (drop_eq_cons here).1

/-- Turns are taken in the order of the declaration, and only repeated fields take several. -/
theorem pairwise_place (h : Course o parse k ds again gone st ts stop fin next) :
    ts.Pairwise fun t t' => t.place < t'.place ∨ t.place = t'.place ∧ t.field.repeated = true := by
  induction h with
  | exhausted | broken | complete | next => exact .nil
  | type _ _ ih | removed _ _ _ ih | dropped _ _ _ ih => exact ih
  | once _ _ taken _ rest ih =>
    refine List.pairwise_cons.mpr ⟨fun t mem => .inl ?_, ih⟩
    have := (rest.place_mem.2.2 t mem).1
    rw [taken.place_eq]
    omega
  | more _ _ taken goes rest ih =>
    refine List.pairwise_cons.mpr ⟨fun t mem => ?_, ih⟩
    have := (rest.place_mem.2.2 t mem).1
    rw [taken.place_eq, taken.field_eq]
    rcases Nat.lt_or_eq_of_le this with later | same
    · exact .inl later
    · exact .inr ⟨same, taken.repeated_of_again goes⟩

/-- A course ends where the first structure is named that may follow, if it comes so far: there is
none before its stop, and the one that is next is named there. -/
theorem next_eq (h : Course o parse k ds again gone st ts stop fin next) (here : all.drop k = ds) :
    (∀ i name, k ≤ i → i < stop → all[i]? ≠ some (.next name)) ∧
      ∀ name, next = some name → all[stop]? = some (.next name) := by
  induction h with
  | exhausted | complete => exact ⟨fun i _ _ _ => by omega, by simp⟩
  | broken =>
    refine ⟨fun i name low high => ?_, by simp⟩
    obtain rfl : i = _ := Nat.le_antisymm (Nat.le_of_lt_succ high) low
    simp [(drop_eq_cons here).1]
  | next =>
    refine ⟨fun i _ _ _ => by omega, fun name same => ?_⟩
    rw [(drop_eq_cons here).1, Option.some.inj same]
  | type _ _ ih | removed _ _ _ ih | dropped _ _ _ ih | once _ _ _ _ _ ih =>
    obtain ⟨first, rest⟩ := drop_eq_cons here
    obtain ⟨none, last⟩ := ih rest
    refine ⟨fun i name low high => ?_, last⟩
    rcases Nat.lt_or_eq_of_le low with later | rfl
    · exact none i name later high
    · simp [first]
  | more _ _ _ _ _ ih => exact ih here

/-- A field that later turns find taken out, by the first turn or before it, is taken out. -/
theorem taken_or_removed_cons {t : Turn} {i : Nat} {name : String} (earlier : t.place < i)
    (h : (∃ t' ∈ ts, t'.place = i) ∨ (gone name || t.removes name) = true ∨
      ∃ t' ∈ ts, t'.place < i ∧ t'.removes name = true) :
    (∃ t' ∈ t :: ts, t'.place = i) ∨ gone name = true ∨
      ∃ t' ∈ t :: ts, t'.place < i ∧ t'.removes name = true := by
  rcases h with ⟨t', mem, at_⟩ | out | ⟨t', mem, removes⟩
  · exact .inl ⟨t', List.mem_cons_of_mem _ mem, at_⟩
  · rcases Bool.or_eq_true_iff.mp out with before | now
    · exact .inr (.inl before)
    · exact .inr (.inr ⟨t, List.mem_cons_self, earlier, now⟩)
  · exact .inr (.inr ⟨t', List.mem_cons_of_mem _ mem, removes⟩)

/-- Before the stop, a field takes its turn unless a zero of an earlier one has taken it out. -/
theorem taken_or_removed (h : Course o parse k ds again gone st ts stop fin next)
    (here : all.drop k = ds) {i : Nat} {f : FieldDescriptor} (low : k ≤ i)
    (behind : again = true → k < i) (high : i < stop) (at_ : all[i]? = some (.field f)) :
    (∃ t ∈ ts, t.place = i) ∨ gone f.name = true ∨
      ∃ t ∈ ts, t.place < i ∧ t.removes f.name = true := by
  induction h with
  | exhausted | complete | next => omega
  | broken =>
    have := behind rfl
    omega
  | type _ _ ih =>
    obtain ⟨first, rest⟩ := drop_eq_cons here
    rcases Nat.lt_or_eq_of_le low with later | rfl
    · exact ih rest later (by simp) high
    · rw [first] at at_
      cases at_
  | removed _ out _ ih =>
    obtain ⟨first, rest⟩ := drop_eq_cons here
    rcases Nat.lt_or_eq_of_le low with later | rfl
    · exact ih rest later (by simp) high
    · rw [first] at at_
      cases at_
      exact .inr (.inl out)
  | dropped _ _ _ ih => exact ih (drop_eq_cons here).2 (behind rfl) (by simp) high
  | @once k f' ds again gone st t _ _ _ _ _ _ taken _ _ ih =>
    rcases Nat.lt_or_eq_of_le low with later | rfl
    · have earlier : t.place < i := taken.place_eq ▸ later
      exact taken_or_removed_cons earlier (ih (drop_eq_cons here).2 later (by simp) high)
    · exact .inl ⟨t, List.mem_cons_self, taken.place_eq⟩
  | @more k f' ds again gone st t _ _ _ _ _ _ taken _ _ ih =>
    rcases Nat.lt_or_eq_of_le low with later | rfl
    · have earlier : t.place < i := taken.place_eq ▸ later
      exact taken_or_removed_cons earlier (ih here low (fun _ => later) high)
    · exact .inl ⟨_, List.mem_cons_self, taken.place_eq⟩

/-- What each turn keeps is true before every turn of a course, and at its end. -/
theorem invariant {P : Stage → Prop} (h : Course o parse k ds again gone st ts stop fin next)
    (keeps : ∀ t ∈ ts, P t.before → P t.after) (start : P st) : (∀ t ∈ ts, P t.before) ∧ P fin := by
  induction h with
  | exhausted | broken | complete | next => exact ⟨by simp, start⟩
  | type _ _ ih | removed _ _ _ ih | dropped _ _ _ ih => exact ih keeps start
  | once _ _ taken _ _ ih | more _ _ taken _ _ ih =>
    obtain ⟨first, others⟩ := List.forall_mem_cons.mp keeps
    rw [← taken.before_eq] at start
    obtain ⟨before, last⟩ := ih others (first start)
    exact ⟨List.forall_mem_cons.mpr ⟨start, before⟩, last⟩

/-- Behind any of its turns, a course goes on as a course: of the same descriptor if that is tried
again, and of those behind it. -/
theorem split (h : Course o parse k ds again gone st ts stop fin next) (here : all.drop k = ds)
    {t : Turn} (mem : t ∈ ts) :
    ∃ earlier later k' again' gone', ts = earlier ++ t :: later ∧
      t.place ≤ k' ∧ (t.field.repeated = false → t.place < k') ∧
      Course o parse k' (all.drop k') again' gone' t.after later stop fin next := by
  induction h with
  | exhausted | broken | complete | next => cases mem
  | type _ _ ih | removed _ _ _ ih | dropped _ _ _ ih => exact ih (drop_eq_cons here).2 mem
  | once _ _ taken _ rest ih =>
    have behind := (drop_eq_cons here).2
    rcases List.mem_cons.mp mem with rfl | mem
    · have at_ := taken.place_eq
      exact ⟨[], _, _, _, _, rfl, by omega, by omega, behind.symm ▸ rest⟩
    · obtain ⟨earlier, later, k', again', gone', rfl, course⟩ := ih behind mem
      exact ⟨_ :: earlier, later, k', again', gone', rfl, course⟩
  | more _ _ taken goes rest ih =>
    rcases List.mem_cons.mp mem with rfl | mem
    · have repeated := taken.repeated_of_again goes
      rw [← taken.field_eq] at repeated
      exact ⟨[], _, _, _, _, rfl, Nat.le_of_eq taken.place_eq, by simp [repeated], here.symm ▸ rest⟩
    · obtain ⟨earlier, later, k', again', gone', rfl, course⟩ := ih here mem
      exact ⟨_ :: earlier, later, k', again', gone', rfl, course⟩

/-- Unless a structure is named that follows, a course goes on as long as bytes and descriptors are
left. -/
theorem ended (h : Course o parse k ds again gone st ts stop fin next) (here : all.drop k = ds)
    (le : k ≤ all.length) (none : next = none) :
    fin.cursor.isExhausted = true ∨ stop = all.length := by
  induction h with
  | exhausted ended | broken ended => exact .inl ended
  | complete =>
    have := List.drop_eq_nil_iff.mp here
    exact .inr (by omega)
  | next => cases none
  | type _ _ ih | removed _ _ _ ih | dropped _ _ _ ih | once _ _ _ _ _ ih =>
    obtain ⟨first, rest⟩ := drop_eq_cons here
    exact ih rest (List.getElem?_eq_some_iff.mp first).1 none
  | more _ _ _ _ _ ih => exact ih here le none

end Course

end WireGrammar
