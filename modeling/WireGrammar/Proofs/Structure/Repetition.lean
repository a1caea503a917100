import WireGrammar.Proofs.Decoding.Step
import WireGrammar.Proofs.Grammar.Insertion
import WireGrammar.Proofs.Structure.Completeness
import WireGrammar.Proofs.Structure.Unrolling

/-!
# Scalars are repeated as long as possible

Behind each of its turns a repeated scalar is queued again only if enough is left: a quarter of its
length in bits, or a byte.  The test never stops a repetition early.  Where it fails, a further try
would fail as well, or the bytes have ended and no further try would be made.

* `Steady`: a repeated scalar that is decoded as it is declared;
* `Steady.parseField_of_not_enoughLeft`: where the test fails, so does a further try;
* `Course.stopped`: behind the last turn of a field, there is a reason that it is the last;
* `eagerFields`, `enterEagerly`: decoding without the test;
* `eagerFields_outcome`: each structure comes to the same without it;
* `repetition_maximal`: repetition stops nowhere but where it has to, so the test changes nothing;
* `stopped_of_retargeted`: it is not enough that the triggers of the grammar leave the field alone.
-/

namespace WireGrammar

variable {g : Grammar} {o : Options} {parse : TargetParser} {s : Structure} {input : Slice}
  {ctx : StreamContext} {f : FieldDescriptor} {p q : Progress} {length : Length}

/-! ### The test -/

/-- A scalar of such a length takes at least a bit. -/
theorem BitCursor.Reads.position_lt {c : BitCursor} {r : Reading} (h : c.Reads length r)
    (takesBits : length.takesBits = true) : c.position < r.cursor.position := by
  cases h with
  | @varint width aligned announced enough =>
    have := one_le_varintWidth c.pattern
    rw [position_skip]
    omega
  | @packetNumber width aligned announced enough =>
    have := one_le_packetNumberWidth? announced
    rw [position_skip]
    omega
  | rest | nothing => cases takesBits
  | @block width aligned some enough =>
    rw [position_skip]
    omega
  | run some ragged narrow enough =>
    rw [position_skip]
    omega

/-- **Where the test fails, no scalar of the length can be read**, unless the bytes have ended. -/
theorem BitCursor.not_reads_of_not_enoughLeft {c : BitCursor} (left : c.isExhausted = false)
    (short : enoughLeft c length = false) (r : Reading) : ¬c.Reads length r := by
  intro h
  have some : 0 < c.remainingBytes := by
    have := left
    simp only [isExhausted, decide_eq_false_iff_not, remainingBytes] at *
    omega
  cases h with
  | varint | packetNumber | rest => exact absurd some (of_decide_eq_false short)
  | nothing =>
    have few : ¬0 / 4 ≤ c.remainingBits := of_decide_eq_false short
    omega
  | @block width aligned some enough =>
    have few : ¬8 * width / 4 ≤ c.remainingBits := of_decide_eq_false short
    have index := byteIndex_of_isAligned aligned
    simp only [remainingBits, remainingBytes] at *
    omega
  | @run n some ragged narrow enough =>
    have few : ¬n / 4 ≤ c.remainingBits := of_decide_eq_false short
    omega

/-! ### Repeated scalars -/

/-- A repeated scalar without conditions and with a length that takes bits, which neither triggers
nor the context change. -/
structure Steady (g : Grammar) (ctx : StreamContext) (f : FieldDescriptor) : Prop where
  repeated : f.repeated = true
  own : f.attributes.parse = none
  always : f.attributes.conditions.getD [] = []
  sized : f.attributes.length.any Length.takesBits = true
  untouched : Untouched g ctx f.name

instance (g : Grammar) (ctx : StreamContext) (f : FieldDescriptor) : Decidable (Steady g ctx f) :=
  decidable_of_iff (f.repeated = true ∧ f.attributes.parse = none ∧
    (f.attributes.conditions.getD []).isEmpty = true ∧
    f.attributes.length.any Length.takesBits = true ∧ Untouched g ctx f.name)
    ⟨fun h => ⟨h.1, h.2.1, List.isEmpty_iff.mp h.2.2.1, h.2.2.2.1, h.2.2.2.2⟩,
      fun h => ⟨h.repeated, h.own, List.isEmpty_iff.mpr h.always, h.sized, h.untouched⟩⟩

namespace Steady

variable (steady : Steady g ctx f)

include steady

theorem exists_length : ∃ length, f.attributes.length = some length ∧ length.takesBits = true :=
  (Option.any_eq_true _ _).mp steady.sized

theorem isPresent (fields : List DecodedField) : f.attributes.isPresent fields = true := by
  rw [FieldAttributes.isPresent, steady.always]
  rfl

/-- Its turns decode scalars, and behind each of them the test says whether it is tried again. -/
theorem again_eq {k : Nat} {st : Stage} {t : Turn} (sourced : st.memory.Sourced g ctx s)
    (taken : Turn.Taken o parse k f st t) (sized : f.attributes.length = some length)
    (takesBits : length.takesBits = true) : t.again = enoughLeft t.after.cursor length := by
  have attributes : st.memory.effective f = f.attributes :=
    steady.untouched.effective_eq sourced rfl
  cases taken with
  | idle h =>
    rw [Idle, attributes, steady.isPresent, sized] at h
    simp at h
  | scalar h =>
    have same := h.sized
    rw [attributes, sized] at same
    cases same
    have moved := (BitCursor.readScalar_eq_ok.mp h.read).position_lt takesBits
    simp [FieldDescriptor.goesOn, steady.repeated, moved]
  | target h =>
    have delegated := h.delegated
    rw [attributes, steady.own] at delegated
    cases delegated

variable (sourced : p.memory.Sourced g ctx s) (sized : f.attributes.length = some length)

include sourced sized

theorem parseField_eq_parseScalar :
    parseField o parse f p = parseScalar o f f.attributes length p := by
  have attributes : p.memory.effective f = f.attributes :=
    steady.untouched.effective_eq sourced rfl
  rw [parseField, attributes, parseWith, if_pos (steady.isPresent p.fields), steady.own, sized]

/-- **Where the test fails, so does a further try**, unless the bytes have ended. -/
theorem parseField_of_not_enoughLeft (left : p.cursor.isExhausted = false)
    (short : enoughLeft p.cursor length = false) :
    ∃ failure, parseField o parse f p = .error failure := by
  rw [steady.parseField_eq_parseScalar sourced sized, parseScalar]
  cases read : p.cursor.readScalar length with
  | error cause => exact ⟨_, rfl⟩
  | ok r =>
    exact absurd (BitCursor.readScalar_eq_ok.mp read)
      (BitCursor.not_reads_of_not_enoughLeft left short r)

end Steady

/-! ### The last turn of a field -/

/-- The stage with descriptors pending. -/
def Stage.progress (st : Stage) (queue : List Pending) : Progress :=
  ⟨st.cursor, queue, st.fields, st.memory⟩

/-- Behind the last turn of a field it was not to be tried again, or the bytes have ended, or a
further try was not possible. -/
theorem Course.stopped {k stop : Nat} {ds : List Descriptor} {again : Bool} {gone : String → Bool}
    {st fin : Stage} {ts earlier later : List Turn} {t : Turn} {next : Option String}
    (h : Course o parse k ds again gone st ts stop fin next) (split : ts = earlier ++ t :: later)
    (last : ∀ u ∈ later, u.place ≠ t.place) :
    t.again = false ∨ t.after.cursor.isExhausted = true ∨
      ∀ u, ¬Turn.Taken o parse t.place t.field t.after u := by
  induction h generalizing earlier with
  | exhausted | broken | complete | next => simp at split
  | type _ _ ih | removed _ _ _ ih | dropped _ _ _ ih => exact ih split
  | once _ _ _ done _ ih =>
    cases earlier with
    | nil =>
      cases split
      exact .inl done
    | cons =>
      cases split
      exact ih rfl
  | more _ _ taken _ rest ih =>
    cases earlier with
    | cons =>
      cases split
      exact ih rfl
    | nil =>
      cases split
      -- What comes next is the further try, which is not the turn of this field any more.
      rw [taken.place_eq, taken.field_eq] at *
      cases rest with
      | broken ended => exact .inr (.inl ended)
      | once _ _ taken' => exact absurd taken'.place_eq (last _ List.mem_cons_self)
      | more _ _ taken' => exact absurd taken'.place_eq (last _ List.mem_cons_self)
      | dropped _ stuck => exact .inr (.inr stuck)

/-- **The repetition of a scalar stops nowhere but where it has to.**  Behind its last turn the
bytes have ended, or one more try fails, whatever else is pending. -/
theorem Account.stopped {out : StructureOutcome} {ts earlier later : List Turn} {t : Turn}
    {stop : Nat} {fin : Stage} (h : Account g o s input ctx out ts stop fin)
    (at_ : s.descriptors[t.place]? = some (.field f)) (steady : Steady g ctx f)
    (split : ts = earlier ++ t :: later) (last : ∀ u ∈ later, u.place ≠ t.place) :
    t.after.cursor.isExhausted = true ∨ ∀ parse queue, ∃ failure,
      parseField o parse f (t.after.progress queue) = .error failure := by
  obtain ⟨depth, active, course⟩ := h.course
  obtain ⟨length, sized, takesBits⟩ := steady.exists_length
  have mem : t ∈ ts := by simp [split]
  obtain rfl := h.field_eq mem at_
  have taken := course.taken t mem
  have before := h.sourced.1 t mem
  have after := taken.sourced h.declared (h.own mem) before
  cases ended : t.after.cursor.isExhausted with
  | true => exact .inl rfl
  | false =>
    refine .inr fun parse queue => ?_
    rcases course.stopped split last with done | ended' | stuck
    · have short := (steady.again_eq before taken sized takesBits).symm.trans done
      exact steady.parseField_of_not_enoughLeft (p := t.after.progress queue) after sized ended
        short
    · cases ended.symm.trans ended'
    · have own : ((t.after.progress queue).memory.effective t.field).parse = none := by
        rw [steady.untouched.effective_eq (m := (t.after.progress queue).memory) after rfl]
        exact steady.own
      rw [parseField_of_own (.inr own) parse (parseTargetBy g (enterStructure g o depth active))]
      refine parseField_eq_error_of_stuck fun q turn => ?_
      obtain ⟨u, taken', -⟩ := turn.taken t.place
      exact stuck u taken'

/-! ### Decoding without the test -/

section Eager

variable {eager : FieldDescriptor → Bool} {item : Pending} {queue : List Pending}

theorem Progress.requeueIf_once (q : Progress) (f : FieldDescriptor) (before : BitCursor)
    (enough : Bool) : q.requeueIf f.once before enough = q :=
  if_neg (by simp [FieldDescriptor.once])

/-- Decodes one field.  Those that `eager` holds of are queued again whenever they took a bit. -/
def parseEagerly (eager : FieldDescriptor → Bool) (o : Options) (parse : TargetParser)
    (f : FieldDescriptor) (p : Progress) : Attempt Progress :=
  if eager f then (parseField o parse f.once p).map (·.requeueIf f p.cursor true)
  else parseField o parse f p

theorem parseEagerly_work_le (h : parseEagerly eager o parse f p = .ok q)
    (left : p.cursor.isExhausted = false) : q.work ≤ p.work := by
  unfold parseEagerly at h
  split at h
  · obtain ⟨q, ok, rfl⟩ := map_eq_ok.mp h
    cases parseField_eq_ok.mp ok with
    | idle => exact Progress.work_requeueIf_le rfl (Nat.le_refl _) (Nat.le_refl _) left
    | scalar turn =>
      obtain ⟨same, bits⟩ := BitCursor.readScalar_forward turn.read
      rw [Progress.requeueIf_once]
      exact Progress.work_requeueIf_le same bits (List.length_filter_le ..) left
    | target =>
      rw [Progress.requeueIf_once]
      exact Progress.work_requeueIf_le rfl (BitCursor.remainingBits_advance_le ..) (Nat.le_refl _)
        left
  · exact parseField_work_le h left

/-- Runs over the pending descriptors, decoding each field as `parseEagerly` does. -/
def eagerFields (eager : FieldDescriptor → Bool) (o : Options) (parse : TargetParser)
    (p : Progress) : Attempt Finish :=
  if _exhausted : p.cursor.isExhausted then .ok ⟨p, none⟩
  else
    match _hq : p.queue with
    | [] => .ok ⟨p, none⟩
    | item :: queue =>
      match item.descriptor with
      | .type _ => eagerFields eager o parse { p with queue }
      | .next name => .ok ⟨{ p with queue }, some name⟩
      | .field f =>
        match _hf : parseEagerly eager o parse f { p with queue } with
        | .ok q => eagerFields eager o parse q
        | .error failure =>
          if item.again then eagerFields eager o parse { p with queue } else .error failure
termination_by p.work
decreasing_by
  · simp [Progress.work, _hq]
  · have := parseEagerly_work_le _hf (by simpa using _exhausted)
    simp only [Progress.work, _hq, List.length_cons] at this ⊢
    omega
  · simp [Progress.work, _hq]

/-- Decodes a structure at the front of a slice by such a run. -/
def eagerDescriptors (eager : FieldDescriptor → Bool) (o : Options) (parse : TargetParser)
    (s : Structure) (input : Slice) (ctx : StreamContext) : Attempt StructureOutcome :=
  (eagerFields eager o parse (.start s input ctx)).bind (·.outcome s)

/-- Decodes a structure within others by such runs. -/
def enterEagerly (g : Grammar) (eager : FieldDescriptor → Bool) (o : Options) :
    (depth : Nat) → Active → StructureParser
  | 0, _, s, input, ctx => .error ⟨.recursiveStructure s.name input.offset, ctx⟩
  | depth + 1, active, s, input, ctx =>
    if active.contains (s.name, input.offset) then
      .error ⟨.recursiveStructure s.name input.offset, ctx⟩
    else
      let nested := enterEagerly g eager o depth ((s.name, input.offset) :: active)
      eagerDescriptors eager o (parseTargetBy g nested) s input ctx

theorem eagerFields_of_exhausted (ended : p.cursor.isExhausted = true) :
    eagerFields eager o parse p = .ok ⟨p, none⟩ := by
  rw [eagerFields, dif_pos ended]

theorem eagerFields_of_empty (left : p.cursor.isExhausted = false) (ended : p.queue = []) :
    eagerFields eager o parse p = .ok ⟨p, none⟩ := by
  rw [eagerFields, dif_neg (by simp [left])]
  split
  · rfl
  · next first => rw [ended] at first; cases first

theorem eagerFields_of_cons (left : p.cursor.isExhausted = false)
    (first : p.queue = item :: queue) :
    eagerFields eager o parse p =
      match item.descriptor with
      | .type _ => eagerFields eager o parse { p with queue }
      | .next name => .ok ⟨{ p with queue }, some name⟩
      | .field f =>
        match parseEagerly eager o parse f { p with queue } with
        | .ok q => eagerFields eager o parse q
        | .error failure =>
          if item.again then eagerFields eager o parse { p with queue } else .error failure := by
  rw [eagerFields, dif_neg (by simp [left])]
  split
  · next none => rw [first] at none; cases none
  · next item' queue' first' =>
    rw [first] at first'
    cases first'
    cases item.descriptor with
    | type name => rfl
    | next name => rfl
    | field f =>
      dsimp only
      split
      · next q ok => rw [ok]
      · next failure failed => rw [failed]

end Eager

/-! ### The test changes nothing -/

/-- A further try that waits where the bytes have ended does not matter to what comes of a
structure. -/
theorem Finish.outcome_requeue (p : Progress) (f : FieldDescriptor) (next : Option String) :
    (Finish.mk (p.requeue f) next).outcome s = (Finish.mk p next).outcome s := rfl

/-- A scalar is tried again by the test of its length. -/
theorem parseScalar_eq_map (f : FieldDescriptor) (a : FieldAttributes) (length : Length)
    (p : Progress) : parseScalar o f a length p =
      (parseScalar o f.once a length p).map fun q =>
        q.requeueIf f p.cursor (enoughLeft q.cursor length) := by
  have name : f.once.name = f.name := rfl
  unfold parseScalar
  cases p.cursor.readScalar length with
  | error cause => rfl
  | ok r =>
    cases rejected : a.rejects? r.value with
    | some spec => simp only [rejected, name, Progress.fail, Except.map]
    | none =>
      cases fired : fireAll o f.name r.value (a.triggers.getD []) p.memory with
      | error failure => simp only [rejected, fired, name, Except.map]
      | ok m =>
        simp only [rejected, fired, name, Except.map, Progress.requeueIf_once]
        rfl

theorem Steady.parseField_eq_map (steady : Steady g ctx f) (sourced : p.memory.Sourced g ctx s)
    (sized : f.attributes.length = some length) :
    parseField o parse f p = (parseField o parse f.once p).map fun q =>
      q.requeueIf f p.cursor (enoughLeft q.cursor length) := by
  have attributes : p.memory.effective f.once = f.attributes :=
    steady.untouched.effective_eq sourced rfl
  have once : parseField o parse f.once p = parseScalar o f.once f.attributes length p := by
    rw [parseField, attributes, parseWith, if_pos (steady.isPresent p.fields), steady.own, sized]
  rw [steady.parseField_eq_parseScalar sourced sized, once]
  exact parseScalar_eq_map f f.attributes length p

section Run

variable {eager : FieldDescriptor → Bool} (steady : ∀ f, eager f = true → Steady g ctx f)
  (sourced : p.memory.Sourced g ctx s)

include steady sourced

/-- A field fails without the test just as with it. -/
theorem parseEagerly_of_error {failure : Failure}
    (failed : parseField o parse f p = .error failure) :
    parseEagerly eager o parse f p = .error failure := by
  unfold parseEagerly
  split
  · next chosen =>
    obtain ⟨length, sized, -⟩ := (steady f chosen).exists_length
    rw [(steady f chosen).parseField_eq_map sourced sized] at failed
    cases once : parseField o parse f.once p with
    | ok q =>
      rw [once] at failed
      cases failed
    | error failure' =>
      rw [once] at failed
      cases failed
      rfl
  · exact failed

/-- **A further try that the test would have saved makes no difference.** -/
theorem eagerFields_requeue (chosen : eager f = true) (sized : f.attributes.length = some length)
    (short : enoughLeft p.cursor length = false) :
    (eagerFields eager o parse (p.requeue f)).bind (·.outcome s) =
      (eagerFields eager o parse p).bind (·.outcome s) := by
  cases left : p.cursor.isExhausted with
  | true =>
    rw [eagerFields_of_exhausted left, eagerFields_of_exhausted (p := p.requeue f) left]
    exact Finish.outcome_requeue p f none
  | false =>
    obtain ⟨failure, failed⟩ : ∃ failure, parseField o parse f p = .error failure :=
      (steady f chosen).parseField_of_not_enoughLeft sourced sized left short
    have failed : parseEagerly eager o parse f p = .error failure :=
      parseEagerly_of_error steady sourced failed
    rw [eagerFields_of_cons (p := p.requeue f) left rfl]
    simp only [Progress.requeue]
    rw [failed]
    rfl

end Run

/-- **Each structure comes to the same without the test**, if the targets in the place of fields
leave nothing but what can come about. -/
theorem eagerFields_outcome {eager : FieldDescriptor → Bool}
    (steady : ∀ f, eager f = true → Steady g ctx f)
    {Good : Slice → StreamContext → Resolved → Prop}
    (keeps : ∀ name input ctx' r, parse name input ctx' = .ok r → Keeps g ctx Good input ctx' r)
    (mem : s ∈ g.structures) (own : p.Own s) (sourced : p.memory.Sourced g ctx s) :
    (eagerFields eager o parse p).bind (·.outcome s) =
      (parseFields o parse p).bind (·.outcome s) := by
  fun_induction parseFields o parse p with
  | case1 p ended => rw [eagerFields_of_exhausted ended]
  | case2 p left ended => rw [eagerFields_of_empty (eq_false_of_ne_true left) ended]
  | case3 p left item queue first name kind ih =>
    rw [eagerFields_of_cons (eq_false_of_ne_true left) first, kind]
    exact ih (own.tail first) sourced
  | case4 p left item queue first name kind =>
    rw [eagerFields_of_cons (eq_false_of_ne_true left) first, kind]
  | case5 p left item queue first f kind q ok ih =>
    have isOwn : .field f ∈ s.descriptors := kind ▸ own.head first
    have taken := parseField_eq_ok.mp ok
    have known := taken.sourced keeps sourced mem isOwn
    have later := ih ((own.tail first).turn isOwn taken) known
    rw [eagerFields_of_cons (eq_false_of_ne_true left) first, kind]
    cases chosen : eager f with
    | true =>
      obtain ⟨length, sized, -⟩ := (steady f chosen).exists_length
      rw [(steady f chosen).parseField_eq_map (p := { p with queue }) sourced sized] at ok
      obtain ⟨q, once, rfl⟩ := map_eq_ok.mp ok
      have turn : parseEagerly eager o parse f { p with queue } =
          .ok (q.requeueIf f p.cursor true) := by
        rw [parseEagerly, if_pos chosen, once]
        rfl
      simp only [turn]
      cases enough : enoughLeft q.cursor length with
      | true =>
        rw [enough] at later
        exact later
      | false =>
        -- The test holds the field back.  Without it there is a further try, unless it stood still.
        rw [Progress.memory_requeueIf] at known
        rw [enough, Progress.requeueIf_of_stop (.inr rfl)] at later
        rw [Progress.requeueIf_of_stop (.inr rfl)]
        refine Eq.trans ?_ later
        unfold Progress.requeueIf
        split
        · exact eagerFields_requeue steady known chosen sized enough
        · rfl
    | false =>
      have turn : parseEagerly eager o parse f { p with queue } = .ok q := by
        rw [parseEagerly, if_neg (ne_true_of_eq_false chosen)]
        exact ok
      simp only [turn]
      exact later
  | case6 p left item queue first f kind failure failed again ih =>
    rw [eagerFields_of_cons (eq_false_of_ne_true left) first, kind]
    simp only [parseEagerly_of_error (p := { p with queue }) steady sourced failed, again, if_true]
    exact ih (own.tail first) sourced
  | case7 p left item queue first f kind failure failed last =>
    rw [eagerFields_of_cons (eq_false_of_ne_true left) first, kind]
    simp only [parseEagerly_of_error (p := { p with queue }) steady sourced failed, if_neg last]

/-- So it does if the targets inside of it are decoded without the test as well. -/
theorem eagerDescriptors_eq {eager : FieldDescriptor → Bool} {parse' : TargetParser}
    {Good : Slice → StreamContext → Resolved → Prop} {ctx' : StreamContext}
    (steady : ∀ f, eager f = true → Steady g ctx f)
    (keeps : ∀ name input ctx' r, parse name input ctx' = .ok r → Keeps g ctx Good input ctx' r)
    (agree : Agree (fun _ _ ctx' => True ∧ SourcedContext g ctx ctx') parse parse')
    (mem : s ∈ g.structures) (known : SourcedContext g ctx ctx') :
    eagerDescriptors eager o parse' s input ctx' = parseDescriptors o parse s input ctx' := by
  have keeps' : ∀ name input ctx' r, parse' name input ctx' = .ok r →
      Keeps g ctx Good input ctx' r :=
    fun _ _ _ _ ok known => keeps _ _ _ _ ((agree.same ⟨trivial, known⟩).symm.trans ok) known
  calc eagerDescriptors eager o parse' s input ctx'
    _ = parseDescriptors o parse' s input ctx' :=
      eagerFields_outcome steady keeps' mem (.start s input ctx') (.start known s)
    _ = parseDescriptors o parse s input ctx' :=
      parseDescriptors_of_agree keeps agree (fun _ _ _ _ _ _ => trivial) mem known

/-- **Structures are decoded as if the test were not made**, within others or not. -/
theorem enterEagerly_eq {eager : FieldDescriptor → Bool}
    (steady : ∀ f, eager f = true → Steady g ctx f) {depth : Nat} {active : Active}
    {ctx' : StreamContext} (mem : s ∈ g.structures) (known : SourcedContext g ctx ctx') :
    enterEagerly g eager o depth active s input ctx' =
      enterStructure g o depth active s input ctx' := by
  -- The induction is on the depth, as targets inside are decoded without the test one level down.
  induction depth generalizing active s input ctx' with
  | zero => rfl
  | succ depth ih =>
    rw [enterEagerly, enterStructure]
    split
    · rfl
    refine eagerDescriptors_eq steady keeps_of_parseTargetBy
      ⟨fun call => ?_, fun call ok _ => ⟨trivial, ?_⟩⟩ mem known
    · exact parseTargetBy_congr fun t mem => ih mem call.2
    · exact (keeps_of_parseTargetBy _ _ _ _ ok call.2).1

/-- **Repetition is maximal, and the test never matters.**  Behind the last turn of a repeated
scalar the bytes have ended, or one more try from there fails, whatever else is pending.  So all
structures of the grammar are decoded as if any of these fields were queued again whenever they took
a bit. -/
theorem repetition_maximal (g : Grammar) (o : Options) (ctx : StreamContext) :
    (∀ s input out, s.Decodes g o input ctx out →
      ∀ i f, s.descriptors[i]? = some (.field f) → Steady g ctx f →
        ∃ ts stop fin, Account g o s input ctx out ts stop fin ∧
          ∀ earlier t later, ts = earlier ++ t :: later → t.place = i →
            (∀ u ∈ later, u.place ≠ i) → t.after.cursor.isExhausted = true ∨
              ∀ parse queue, ∃ failure,
                parseField o parse f (t.after.progress queue) = .error failure) ∧
    ∀ eager : FieldDescriptor → Bool, (∀ f, eager f = true → Steady g ctx f) →
      ∀ s ∈ g.structures, ∀ depth active input,
        enterEagerly g eager o depth active s input ctx =
          enterStructure g o depth active s input ctx := by
  constructor
  · intro s input out h i f at_ steady
    obtain ⟨ts, stop, fin, account⟩ := h.account
    refine ⟨ts, stop, fin, account, ?_⟩
    rintro earlier t later split rfl last
    exact account.stopped at_ steady split last
  · intro eager steady s mem depth active input
    exact enterEagerly_eq steady mem (.refl g ctx)

/-- Words of 64 bits behind a byte. -/
def words : Structure where
  name := "Words"
  descriptors := [
    .field ⟨"h", { length := some (.bits 8) }, false⟩,
    .field ⟨"f", { length := some (.bits 64) }, true⟩]

def wordList : Grammar := ⟨["Words"], [words]⟩

/-- A single word, and a byte behind it. -/
def wordAndByte : Slice := ⟨0, [5, 0, 0, 0, 0, 0, 0, 0, 7, 9]⟩

theorem repetition_maximal_words :
    ∃ out, parseStructure wordList {} "Words" wordAndByte .empty = .ok out ∧
      out.fields.map (·.name) = ["h", "f"] ∧
      (∃ ts stop fin, Account wordList {} words wordAndByte .empty out ts stop fin ∧
        ∀ earlier t later, ts = earlier ++ t :: later → t.place = 1 →
          (∀ u ∈ later, u.place ≠ 1) → t.after.cursor.isExhausted = true ∨
            ∀ parse queue, ∃ failure,
              parseField {} parse ⟨"f", { length := some (.bits 64) }, true⟩
                (t.after.progress queue) = .error failure) ∧
      enterEagerly wordList (fun f => Steady wordList .empty f) {} 2 [] words wordAndByte .empty =
        enterStructure wordList {} 2 [] words wordAndByte .empty := by
  have names : (parseStructure wordList {} "Words" wordAndByte .empty).toOption.map
      (fun out => out.fields.map (·.name)) = some ["h", "f"] := by
    decide +kernel
  obtain ⟨out, decoded, names⟩ := Option.map_eq_some_iff.mp names
  have ok := Attempt.eq_ok_of_toOption decoded
  obtain ⟨stops, same⟩ := repetition_maximal wordList {} .empty
  exact ⟨out, ok, names, stops words _ out (.called rfl ok) 1 _ rfl (by decide +kernel),
    same _ (fun f chosen => of_decide_eq_true chosen) words List.mem_cons_self 2 [] _⟩

/-- Where `h` is 5, a word that is 7 or 9 makes the next one a byte. -/
def shortening : List TriggerRule :=
  [.lookup .triggers [(.int 5, .triggers [.onField "f"
    [.lookup .length [(.int 7, .length (.bits 8)), (.int 9, .length (.bits 8))]]])]]

/-- The test may stop a repetition early, if only the triggers of the grammar leave the field alone,
and the context has nothing for it: a trigger that the context holds for another field may give the
field a trigger of its own, which makes it shorter for its next turn. -/
theorem stopped_of_retargeted :
    ∃ f ctx parse fin out q out',
      words.descriptors[1]? = some (.field f) ∧ f.repeated = true ∧ f.attributes.parse = none ∧
      f.attributes.conditions.getD [] = [] ∧ f.attributes.length.any Length.takesBits = true ∧
      ctx = keptContext shortening ∧ ctx.get? f.name = none ∧
      wordList.every (·.spares f.name) = true ∧
      parse = parseTargetBy wordList (enterStructure wordList {} 11 [("Words", 0)]) ∧
      parseFields {} parse (.start words wordAndByte ctx) = .ok fin ∧
      fin.outcome words = .ok out ∧ out.fields.map (·.name) = ["h", "f"] ∧
      fin.progress.cursor.isExhausted = false ∧ parseField {} parse f fin.progress = .ok q ∧
      eagerDescriptors (·.name == f.name) {} parse words wordAndByte ctx = .ok out' ∧
      out'.fields.map (·.name) = ["h", "f", "f"] := by
  generalize context : keptContext shortening = ctx
  generalize target :
    parseTargetBy wordList (enterStructure wordList {} 11 [("Words", 0)]) = parse
  have absent : ctx.get? "f" = none := by
    subst context
    exact Option.isNone_iff_eq_none.mp (by decide +kernel)
  have shape : ((parseFields {} parse (.start words wordAndByte ctx)).toOption.bind fun fin =>
      (fin.outcome words).toOption.bind fun out =>
        (parseField {} parse ⟨"f", { length := some (.bits 64) }, true⟩
          fin.progress).toOption.map fun _ =>
            (out.fields.map (·.name), fin.progress.cursor.isExhausted)) =
      some (["h", "f"], false) := by
    subst context target
    decide +kernel
  have names : (eagerDescriptors (·.name == "f") {} parse words wordAndByte ctx).toOption.map
      (fun out => out.fields.map (·.name)) = some ["h", "f", "f"] := by
    subst context target
    decide +kernel
  obtain ⟨fin, run, shape⟩ := Option.bind_eq_some_iff.mp shape
  obtain ⟨out, ended, shape⟩ := Option.bind_eq_some_iff.mp shape
  obtain ⟨q, further, shape⟩ := Option.map_eq_some_iff.mp shape
  obtain ⟨fields, left⟩ := Prod.mk.inj shape
  obtain ⟨out', eager, names⟩ := Option.map_eq_some_iff.mp names
  exact ⟨_, ctx, parse, fin, out, q, out', rfl, rfl, rfl, rfl, rfl, rfl, absent, by decide +kernel,
    rfl, Attempt.eq_ok_of_toOption run, Attempt.eq_ok_of_toOption ended, fields, left,
    Attempt.eq_ok_of_toOption further, Attempt.eq_ok_of_toOption eager, names⟩

end WireGrammar
