import WireGrammar.Proofs.Decoding.Turn
import WireGrammar.Proofs.Decoding.Loop

/-!
# Repeated fields, written out

A repeated field is tried again as long as it takes something, and its last try may fail.  Once it
is known how many of its tries are kept, the field can be declared that many times, without
repetition, and the structure is decoded to the same end: the same fields, cursor, pending
attributes and context, by a run in which no try fails.

* `tries`: the turns that fields take, and whether what they decoded is kept;
* `Structure.unrolled`: the structure with its repeated fields written out;
* `parseFields_unroll`: the two runs, from any point on.
-/

namespace WireGrammar

/-! ### The tries of a run -/

/-- A turn of a field in the run over the descriptors of a structure. -/
structure Try where
  /-- How many descriptors stand behind the field. -/
  behind : Nat
  /-- The field did not fail, so what it decoded stays. -/
  kept : Bool
  deriving DecidableEq, Repr

/-- The turns of fields that the run over the pending descriptors takes, in their order. -/
def tries (o : Options) (parse : TargetParser) (p : Progress) : List Try :=
  if _exhausted : p.cursor.isExhausted then []
  else
    match _hq : p.queue with
    | [] => []
    | item :: queue =>
      match item.descriptor with
      | .type _ => tries o parse { p with queue }
      | .next _ => []
      | .field f =>
        match _hf : parseField o parse f { p with queue } with
        | .ok q => ⟨queue.length, true⟩ :: tries o parse q
        | .error _ =>
          ⟨queue.length, false⟩ :: if item.again then tries o parse { p with queue } else []
termination_by p.work
decreasing_by
  · simp [Progress.work, _hq]
  · have := parseField_work_le _hf (by simpa using _exhausted)
    simp only [Progress.work, _hq, List.length_cons] at this ⊢
    omega
  · simp [Progress.work, _hq]

/-- How many tries of the field with so many descriptors behind it are kept. -/
def keptTries (ts : List Try) (behind : Nat) : Nat :=
  ts.countP fun t => t.behind == behind && t.kept

/-- How often the field with so many descriptors behind it is written out: as often as a try of it
is kept, and once if it was never tried. -/
def timesKept (ts : List Try) (behind : Nat) : Nat :=
  if ts.any (·.behind == behind) then keptTries ts behind else 1

/-! ### Writing out -/

/-- The field without repetition. -/
def FieldDescriptor.once (f : FieldDescriptor) : FieldDescriptor := { f with repeated := false }

/-- The descriptor without repetition. -/
def Descriptor.once : Descriptor → Descriptor
  | .field f => .field f.once
  | d => d

/-- The descriptor declares a repeated field. -/
def Descriptor.isRepeated (d : Descriptor) : Bool := d.field?.any (·.repeated)

/-- A repeated field `n` times, or any other descriptor as it is. -/
def Descriptor.copies (d : Descriptor) (n : Nat) : List Descriptor :=
  if d.isRepeated then List.replicate n d.once else [d]

/-- Descriptors with the repeated fields written out, `times n` times the one with `n` descriptors
behind it. -/
def unroll (times : Nat → Nat) : List Descriptor → List Descriptor
  | [] => []
  | d :: ds => d.copies (times ds.length) ++ unroll times ds

/-- The structure with its repeated fields written out. -/
def Structure.unrolled (s : Structure) (times : Nat → Nat) : Structure :=
  ⟨s.name, unroll times s.descriptors⟩

/-- A descriptor that waits for its first turn. -/
def Descriptor.fresh (d : Descriptor) : Pending := ⟨d, false⟩

/-- What a pending descriptor is written out as, with so many behind it, if the run takes the tries
`ts` from here on.  Of a further try, those that will be kept are left. -/
def Pending.unrolled (ts : List Try) (behind : Nat) (item : Pending) : List Pending :=
  (if item.again then List.replicate (keptTries ts behind) item.descriptor.once
    else item.descriptor.copies (timesKept ts behind)).map Descriptor.fresh

/-- Pending descriptors, written out. -/
def unrolledQueue (ts : List Try) : List Pending → List Pending
  | [] => []
  | item :: queue => item.unrolled ts queue.length ++ unrolledQueue ts queue

/-! ### One turn -/

section Turn

variable {o : Options} {parse : TargetParser} {f : FieldDescriptor} {p q : Progress}

theorem Descriptor.once_of_not_isRepeated {d : Descriptor} (h : d.isRepeated = false) :
    d.once = d := by
  cases d with
  | type | next => rfl
  | field f =>
    obtain ⟨name, attributes, repeated⟩ := f
    cases repeated with
    | false => rfl
    | true => cases h

/-- Written out once, a descriptor is itself without repetition. -/
theorem Descriptor.copies_one (d : Descriptor) : d.copies 1 = [d.once] := by
  unfold copies
  split
  · rfl
  · next other => rw [once_of_not_isRepeated (by simpa using other)]

/-- The progress with other descriptors pending. -/
def Progress.withQueue (p : Progress) (queue : List Pending) : Progress := { p with queue }

theorem Progress.withQueue_self {p : Progress} {queue : List Pending} (h : p.queue = queue) :
    p.withQueue queue = p := by
  rw [← h, withQueue]

theorem Progress.withQueue_requeueIf (p : Progress) (f : FieldDescriptor) (c : BitCursor)
    (enough : Bool) (queue : List Pending) :
    (p.requeueIf f c enough).withQueue queue = p.withQueue queue := by
  unfold withQueue
  simp only [cursor_requeueIf, fields_requeueIf, memory_requeueIf]

/-- Where zero removes nothing, a scalar leaves the queue as it is. -/
theorem Progress.queue_afterScalar (off : o.pruneZero = false) (p : Progress) (name : String)
    (a : FieldAttributes) (r : Reading) (m : Memory) :
    (p.afterScalar o name a r m).queue = p.queue := by
  refine List.filter_eq_self.mpr fun item _ => ?_
  cases item.descriptor.field? <;> simp [prunesField, Options.prunes, off]

/-- A turn queues the field itself, if it is repeated, and nothing else. -/
theorem FieldTurn.queue_eq (off : o.pruneZero = false) (turn : FieldTurn o parse f p q) :
    q.queue = p.queue ∨ f.repeated = true ∧ q.queue = ⟨.field f, true⟩ :: p.queue := by
  have requeued (q : Progress) (c : BitCursor) (enough : Bool) (same : q.queue = p.queue) :
      (q.requeueIf f c enough).queue = p.queue ∨
        f.repeated = true ∧ (q.requeueIf f c enough).queue = ⟨.field f, true⟩ :: p.queue := by
    unfold Progress.requeueIf
    split
    · next again =>
      simp only [Bool.and_eq_true] at again
      exact .inr ⟨again.1.1, congrArg _ same⟩
    · exact .inl same
  cases turn with
  | idle => exact .inl rfl
  | scalar => exact requeued _ _ _ (Progress.queue_afterScalar off p _ _ _ _)
  | target => exact requeued _ _ _ rfl

/-- The turn of a field is that of the field without repetition, but for what is queued. -/
theorem FieldTurn.once (off : o.pruneZero = false) (turn : FieldTurn o parse f p q)
    (queue : List Pending) : FieldTurn o parse f.once (p.withQueue queue) (q.withQueue queue) := by
  cases turn with
  | idle h => exact .idle h
  | @scalar length r m h =>
    have once : ScalarTurn o f.once p.cursor p.fields p.memory length r m :=
      ⟨h.present, h.noTarget, h.sized, h.read, h.accepted, h.fired⟩
    have after : (p.withQueue queue).afterScalar o f.name (p.memory.effective f) r m =
        (p.afterScalar o f.name (p.memory.effective f) r m).withQueue queue :=
      congrArg (Progress.withQueue (p.afterScalar o f.name (p.memory.effective f) r m))
        (Progress.queue_afterScalar off (p.withQueue queue) f.name (p.memory.effective f) r m)
    rw [Progress.withQueue_requeueIf, ← after]
    exact .scalar (p := p.withQueue queue) once
  | @target name view ch h =>
    have once : TargetTurn parse f.once p.cursor p.fields p.memory name view ch :=
      ⟨h.present, h.delegated, h.viewed, h.decoded⟩
    rw [Progress.withQueue_requeueIf]
    exact .target (p := p.withQueue queue) once

end Turn

/-! ### Counting tries -/

section Tries

variable {o : Options} {parse : TargetParser} {p : Progress}

theorem tries_of_exhausted (ended : p.cursor.isExhausted) : tries o parse p = [] := by
  rw [tries, dif_pos ended]

theorem tries_of_empty (ended : p.queue = []) : tries o parse p = [] := by
  rw [tries]
  split
  · rfl
  · split
    · rfl
    · next first => rw [ended] at first; cases first

theorem tries_withQueue (go : p.cursor.isExhausted = false) {item : Pending}
    {queue : List Pending} :
    tries o parse (p.withQueue (item :: queue)) =
      match item.descriptor with
      | .type _ => tries o parse (p.withQueue queue)
      | .next _ => []
      | .field f =>
        match parseField o parse f (p.withQueue queue) with
        | .ok q => ⟨queue.length, true⟩ :: tries o parse q
        | .error _ =>
          ⟨queue.length, false⟩ ::
            if item.again then tries o parse (p.withQueue queue) else [] := by
  have go' : ¬(p.withQueue (item :: queue)).cursor.isExhausted = true := by
    show ¬p.cursor.isExhausted = true
    simp [go]
  rw [tries, dif_neg go']
  simp only [Progress.withQueue]
  cases item.descriptor with
  | type name => rfl
  | next name => rfl
  | field f =>
    dsimp only
    split
    · next q ok => rw [ok]
    · next failure failed => rw [failed]

/-- A try is of one of the pending descriptors, so fewer stand behind it than are pending. -/
theorem behind_lt_of_mem_tries (off : o.pruneZero = false) {t : Try} (mem : t ∈ tries o parse p) :
    t.behind < p.queue.length := by
  fun_induction tries o parse p with
  | case1 | case2 | case4 => cases mem
  | case3 p left item queue hq name hd ih =>
    rw [hq, List.length_cons]
    exact Nat.lt_succ_of_lt (ih mem)
  | case5 p left item queue hq f hd q ok ih =>
    rw [hq, List.length_cons]
    rcases List.mem_cons.mp mem with rfl | later
    · exact Nat.lt_succ_self _
    · have := ih later
      rcases (parseField_eq_ok.mp ok).queue_eq off with same | ⟨-, new⟩
      · rw [same] at this
        exact Nat.lt_succ_of_lt this
      · rw [new, List.length_cons] at this
        exact this
  | case6 p left item queue hq f hd failure failed ih =>
    rw [hq, List.length_cons]
    rcases List.mem_cons.mp mem with rfl | later
    · exact Nat.lt_succ_self _
    · split at later
      · exact Nat.lt_succ_of_lt (ih later)
      · cases later

end Tries

variable {t : Try} {ts : List Try} {n : Nat}

theorem keptTries_eq_zero (h : ∀ t ∈ ts, t.behind < n) : keptTries ts n = 0 := by
  refine List.countP_eq_zero.mpr fun t mem both => ?_
  simp only [Bool.and_eq_true, beq_iff_eq] at both
  have := h t mem
  omega

/-- The try of a descriptor counts for no other. -/
theorem keptTries_cons_of_ne (other : t.behind ≠ n) : keptTries (t :: ts) n = keptTries ts n := by
  simp [keptTries, other]

theorem timesKept_cons_of_ne (other : t.behind ≠ n) : timesKept (t :: ts) n = timesKept ts n := by
  simp [timesKept, keptTries_cons_of_ne other, other]

theorem keptTries_kept : keptTries (⟨n, true⟩ :: ts) n = keptTries ts n + 1 := by
  simp [keptTries]

theorem keptTries_failed : keptTries (⟨n, false⟩ :: ts) n = keptTries ts n := by
  simp [keptTries]

theorem timesKept_kept : timesKept (⟨n, true⟩ :: ts) n = keptTries ts n + 1 := by
  simp [timesKept, keptTries_kept]

/-! ### The two runs -/

/-- A try of a descriptor does not change how those behind it are written out. -/
theorem unrolledQueue_cons {queue : List Pending} (h : queue.length ≤ t.behind) :
    unrolledQueue (t :: ts) queue = unrolledQueue ts queue := by
  induction queue with
  | nil => rfl
  | cons item queue ih =>
    rw [List.length_cons] at h
    have other : t.behind ≠ queue.length := by omega
    rw [unrolledQueue, unrolledQueue, ih (by omega), Pending.unrolled, Pending.unrolled,
      keptTries_cons_of_ne other, timesKept_cons_of_ne other]

/-- A descriptor of which a try is kept is written out once for it, and then for the tries to
come. -/
theorem Pending.unrolled_kept {item : Pending}
    (more : item.descriptor.isRepeated = true ∨ item.again = false ∧ keptTries ts n = 0) :
    item.unrolled (⟨n, true⟩ :: ts) n =
      item.descriptor.once.fresh ::
        (List.replicate (keptTries ts n) item.descriptor.once).map Descriptor.fresh := by
  obtain ⟨d, again⟩ := item
  rw [unrolled, keptTries_kept, timesKept_kept]
  rcases more with repeated | ⟨first, last⟩
  · have copies : d.copies (keptTries ts n + 1) = List.replicate (keptTries ts n + 1) d.once :=
      if_pos repeated
    rw [copies, ite_self, List.replicate_succ, List.map_cons]
  · subst first
    rw [last, Descriptor.copies_one]
    rfl

/-- What was never tried is left as it is, but for repetition, and further tries are dropped. -/
theorem unrolledQueue_nil (queue : List Pending) :
    unrolledQueue [] queue =
      (queue.filter fun item => !item.again).map fun item => item.descriptor.once.fresh := by
  induction queue with
  | nil => rfl
  | cons item queue ih =>
    obtain ⟨d, again⟩ := item
    cases again with
    | true => exact ih
    | false =>
      rw [unrolledQueue, ih, Pending.unrolled, timesKept]
      simp [Descriptor.copies_one]

theorem unrolledQueue_fresh (ts : List Try) (ds : List Descriptor) :
    unrolledQueue ts (ds.map Descriptor.fresh) =
      (unroll (timesKept ts) ds).map Descriptor.fresh := by
  induction ds with
  | nil => rfl
  | cons d ds ih =>
    rw [List.map_cons, unrolledQueue, ih, unroll, List.map_append, List.length_map]
    rfl

/-- Only repeated fields are tried again. -/
def Progress.AgainRepeated (p : Progress) : Prop :=
  ∀ item ∈ p.queue, item.again = true → item.descriptor.isRepeated = true

theorem Progress.AgainRepeated.tail {p : Progress} (h : p.AgainRepeated) {item : Pending}
    {queue : List Pending} (first : p.queue = item :: queue) :
    (p.withQueue queue).AgainRepeated :=
  fun later mem => h later (first ▸ List.mem_cons_of_mem _ mem)

/-- A descriptor that is no repeated field is written out as it is. -/
theorem Progress.AgainRepeated.unrolled_eq_self {p : Progress} (h : p.AgainRepeated)
    {item : Pending} {queue : List Pending} (first : p.queue = item :: queue)
    (other : item.descriptor.isRepeated = false) (ts : List Try) (n : Nat) :
    item.unrolled ts n = [item] := by
  obtain ⟨d, again⟩ := item
  cases again with
  | true => exact absurd (h _ (first ▸ List.mem_cons_self) rfl) (by simp [other])
  | false =>
    have copies : d.copies (timesKept ts n) = [d] := if_neg (by simp [other])
    rw [Pending.unrolled, copies]
    rfl

section Runs

variable {o : Options} {parse : TargetParser}

theorem parseFields_withQueue {p : Progress} (go : p.cursor.isExhausted = false)
    {item : Pending} {queue : List Pending} :
    parseFields o parse (p.withQueue (item :: queue)) =
      match item.descriptor with
      | .type _ => parseFields o parse (p.withQueue queue)
      | .next name => .ok ⟨p.withQueue queue, some name⟩
      | .field f =>
        match parseField o parse f (p.withQueue queue) with
        | .ok q => parseFields o parse q
        | .error failure =>
          if item.again then parseFields o parse (p.withQueue queue) else .error failure :=
  parseFields_of_cons (p := p.withQueue (item :: queue)) go rfl

/-- A descriptor that is no repeated field is passed on as it is. -/
theorem unrolledQueue_of_other {p : Progress} {item : Pending} {queue : List Pending}
    (again : p.AgainRepeated) (first : p.queue = item :: queue)
    (other : item.descriptor.isRepeated = false) (ts : List Try) :
    unrolledQueue ts p.queue = item :: unrolledQueue ts queue := by
  rw [first, unrolledQueue, again.unrolled_eq_self first other]
  rfl

/-- The turn of a field in the two runs, if it does not fail. -/
theorem unrolledQueue_of_kept (off : o.pruneZero = false) {p q : Progress} {item : Pending}
    {queue : List Pending} {f : FieldDescriptor} (again : p.AgainRepeated)
    (first : p.queue = item :: queue) (kind : item.descriptor = .field f)
    (turn : FieldTurn o parse f (p.withQueue queue) q) :
    unrolledQueue (⟨queue.length, true⟩ :: tries o parse q) p.queue =
        (Descriptor.field f.once).fresh :: unrolledQueue (tries o parse q) q.queue ∧
      q.AgainRepeated := by
  have rest := again.tail first
  rw [first, unrolledQueue, unrolledQueue_cons (Nat.le_refl _)]
  rcases turn.queue_eq off with same | ⟨repeated, new⟩
  -- Not queued again, the field has no further try, so this one is its last copy.
  · replace same : q.queue = queue := same
    have last : keptTries (tries o parse q) queue.length = 0 :=
      keptTries_eq_zero fun t mem => same ▸ behind_lt_of_mem_tries off mem
    have more : item.descriptor.isRepeated = true ∨
        item.again = false ∧ keptTries (tries o parse q) queue.length = 0 := by
      cases tried : item.again with
      | true => exact .inl (again item (first ▸ List.mem_cons_self) tried)
      | false => exact .inr ⟨rfl, last⟩
    refine ⟨?_, fun later mem => rest later (same ▸ mem)⟩
    rw [Pending.unrolled_kept more, last, kind, same]
    rfl
  -- Queued again, it stands for the copies of the tries to come.
  · replace new : q.queue = ⟨.field f, true⟩ :: queue := new
    have isRepeated : (Descriptor.field f).isRepeated = true := repeated
    constructor
    · rw [Pending.unrolled_kept (.inl (kind ▸ isRepeated)), kind, new]
      rfl
    · intro later mem tried
      rw [new] at mem
      rcases List.mem_cons.mp mem with rfl | mem
      · exact isRepeated
      · exact rest later mem tried

/-- A try that fails is the last one of its field, and has no copy. -/
theorem unrolledQueue_of_failed (off : o.pruneZero = false) {p : Progress} {item : Pending}
    {queue : List Pending} (first : p.queue = item :: queue) (tried : item.again = true) :
    unrolledQueue (⟨queue.length, false⟩ :: tries o parse (p.withQueue queue)) p.queue =
      unrolledQueue (tries o parse (p.withQueue queue)) queue := by
  have last : keptTries (tries o parse (p.withQueue queue)) queue.length = 0 :=
    keptTries_eq_zero fun t mem => behind_lt_of_mem_tries off mem
  rw [first, unrolledQueue, unrolledQueue_cons (Nat.le_refl _), Pending.unrolled, tried,
    keptTries_failed, last]
  rfl

/-- From any point on, the run over the pending descriptors comes to the same end if they are
written out, and all its tries are kept. -/
theorem parseFields_unroll (off : o.pruneZero = false) {p : Progress} {fin : Finish}
    (run : parseFields o parse p = .ok fin) (again : p.AgainRepeated) :
    parseFields o parse (p.withQueue (unrolledQueue (tries o parse p) p.queue)) =
        .ok ⟨fin.progress.withQueue (unrolledQueue [] fin.progress.queue), fin.next⟩ ∧
      ∀ t ∈ tries o parse (p.withQueue (unrolledQueue (tries o parse p) p.queue)),
        t.kept = true := by
  fun_induction parseFields o parse p generalizing fin with
  | case1 p ended =>
    cases run
    rw [tries_of_exhausted ended]
    refine ⟨parseFields_of_exhausted ended, fun t mem => ?_⟩
    rw [tries_of_exhausted (p := p.withQueue (unrolledQueue [] p.queue)) ended] at mem
    cases mem
  | case2 p left ended =>
    cases run
    rw [tries_of_empty ended, ended]
    have go : p.cursor.isExhausted = false := by simpa using left
    refine ⟨parseFields_of_empty (p := p.withQueue []) go rfl, fun t mem => ?_⟩
    rw [tries_of_empty rfl] at mem
    cases mem
  | case3 p left item queue hq name hd ih =>
    have go : p.cursor.isExhausted = false := by simpa using left
    have counted : tries o parse p = tries o parse (p.withQueue queue) := by
      rw [← Progress.withQueue_self hq, tries_withQueue go, hd]
      rfl
    rw [counted, unrolledQueue_of_other again hq (by rw [hd]; rfl), parseFields_withQueue go,
      tries_withQueue go, hd]
    exact ih run (again.tail hq)
  | case4 p left item queue hq name hd =>
    cases run
    have go : p.cursor.isExhausted = false := by simpa using left
    have counted : tries o parse p = [] := by
      rw [← Progress.withQueue_self hq, tries_withQueue go, hd]
    rw [counted, unrolledQueue_of_other again hq (by rw [hd]; rfl), parseFields_withQueue go,
      tries_withQueue go, hd]
    exact ⟨rfl, fun t mem => by cases mem⟩
  | case5 p left item queue hq f hd q ok ih =>
    have go : p.cursor.isExhausted = false := by simpa using left
    have turn := parseField_eq_ok.mp ok
    obtain ⟨written, again'⟩ := unrolledQueue_of_kept off again hq hd turn
    have counted : tries o parse p = ⟨queue.length, true⟩ :: tries o parse q := by
      rw [← Progress.withQueue_self hq, tries_withQueue go, hd]
      simp only [Progress.withQueue, ok]
    have ok' : parseField o parse f.once
        (p.withQueue (unrolledQueue (tries o parse q) q.queue)) =
          .ok (q.withQueue (unrolledQueue (tries o parse q) q.queue)) :=
      parseField_eq_ok.mpr (turn.once off _)
    obtain ⟨run', kept⟩ := ih run again'
    rw [counted, written, parseFields_withQueue go, tries_withQueue go]
    simp only [Descriptor.fresh, ok']
    exact ⟨run', List.forall_mem_cons.mpr ⟨rfl, kept⟩⟩
  | case6 p left item queue hq f hd failure failed tried ih =>
    -- The run without this try goes on from the same progress.
    have go : p.cursor.isExhausted = false := by simpa using left
    have counted : tries o parse p =
        ⟨queue.length, false⟩ :: tries o parse (p.withQueue queue) := by
      rw [← Progress.withQueue_self hq, tries_withQueue go, hd]
      simp only [Progress.withQueue, failed, tried, if_true]
    rw [counted, unrolledQueue_of_failed off hq tried]
    exact ih run (again.tail hq)
  | case7 => cases run

end Runs

/-! ### Whole structures -/

/-- The structure with each repeated field written out as often as a try of it is kept when the
structure is decoded at the front of `input`. -/
def Structure.writtenOut (s : Structure) (o : Options) (parse : TargetParser) (input : Slice)
    (ctx : StreamContext) : Structure :=
  s.unrolled (timesKept (tries o parse (.start s input ctx)))

theorem isRepeated_of_mem_unroll {times : Nat → Nat} {ds : List Descriptor} {d : Descriptor}
    (mem : d ∈ unroll times ds) : d.isRepeated = false := by
  induction ds with
  | nil => cases mem
  | cons first ds ih =>
    rcases List.mem_append.mp mem with here | later
    · unfold Descriptor.copies at here
      split at here
      · obtain rfl := List.eq_of_mem_replicate here
        cases first <;> rfl
      · next other =>
        obtain rfl := List.mem_singleton.mp here
        simpa using other
    · exact ih later

/-- Where the bytes end, the same field is missing: further tries are not asked for, and whether a
field has to be there does not depend on its repetition. -/
theorem Progress.missing?_unrolled (p : Progress) :
    (p.withQueue (unrolledQueue [] p.queue)).missing? = p.missing?.map FieldDescriptor.once := by
  have asked (test : FieldDescriptor → Bool) (same : ∀ f, test f.once = test f) (d : Descriptor) :
      d.once.field?.filter test = (d.field?.filter test).map FieldDescriptor.once := by
    cases d with
    | type | next => rfl
    | field f =>
      show (some f.once).filter test = ((some f).filter test).map FieldDescriptor.once
      simp only [Option.filter_some, same]
      split <;> rfl
  unfold missing?
  rw [withQueue, unrolledQueue_nil]
  dsimp only
  rw [List.map_findSome?, List.filter_map, List.findSome?_map]
  have all (items : List Pending) : items.filter ((fun item : Pending => !item.again) ∘
      fun item : Pending => item.descriptor.once.fresh) = items :=
    List.filter_eq_self.mpr fun _ _ => rfl
  rw [all]
  exact congrArg (List.findSome? · _) (funext fun item => asked _ (fun _ => rfl) item.descriptor)

theorem Finish.outcome_unrolled {s s' : Structure} (name : s'.name = s.name) (fin : Finish) :
    Finish.outcome s' ⟨fin.progress.withQueue (unrolledQueue [] fin.progress.queue), fin.next⟩ =
      fin.outcome s := by
  unfold outcome
  dsimp only
  rw [Progress.missing?_unrolled, name]
  cases fin.progress.missing? <;> rfl

/-- Where zero removes nothing, repeated fields are a way of writing: whatever decodes the targets,
the structure without them comes to the same end, with the same descriptors left, and none of its
tries fails. -/
theorem unrolled_of_parseFields {o : Options} (off : o.pruneZero = false) {parse : TargetParser}
    {s : Structure} {input : Slice} {ctx : StreamContext} {fin : Finish}
    (run : parseFields o parse (.start s input ctx) = .ok fin) :
    (∀ d ∈ (s.writtenOut o parse input ctx).descriptors, d.isRepeated = false) ∧
    ∃ fin', parseFields o parse (.start (s.writtenOut o parse input ctx) input ctx) = .ok fin' ∧
      fin'.outcome (s.writtenOut o parse input ctx) = fin.outcome s ∧
      fin'.next = fin.next ∧
      fin'.progress.cursor = fin.progress.cursor ∧
      fin'.progress.fields = fin.progress.fields ∧
      fin'.progress.memory = fin.progress.memory ∧
      fin'.progress.queue = ((fin.progress.queue.filter fun item => !item.again).map
        fun item => item.descriptor.once.fresh) ∧
      ∀ t ∈ tries o parse (.start (s.writtenOut o parse input ctx) input ctx), t.kept = true := by
  have first : (Progress.start s input ctx).AgainRepeated := by
    intro item mem tried
    obtain ⟨d, -, rfl⟩ := List.mem_map.mp mem
    cases tried
  have written : (Progress.start s input ctx).withQueue
      (unrolledQueue (tries o parse (.start s input ctx)) (Progress.start s input ctx).queue) =
        .start (s.writtenOut o parse input ctx) input ctx := by
    show Progress.withQueue _ (unrolledQueue _ (s.descriptors.map Descriptor.fresh)) = _
    rw [unrolledQueue_fresh]
    rfl
  obtain ⟨run', kept⟩ := parseFields_unroll off run first
  rw [written] at run' kept
  exact ⟨fun d => isRepeated_of_mem_unroll, _, run', Finish.outcome_unrolled rfl fin, rfl, rfl, rfl,
    rfl, unrolledQueue_nil _, kept⟩

/-- Numbers below three, items that save how long the tail is, and the tail. -/
def enumerated : Structure where
  name := "List"
  descriptors := [
    .field ⟨"number", {
      length := some (.bits 8), values := some (.oneOf [.int 0, .int 1, .int 2]) }, true⟩,
    .field ⟨"item", { parse := some "Item" }, true⟩,
    .field ⟨"tail", { length := some (.bits 16) }, true⟩]

/-- The list, and its items. -/
def enumeration : Grammar where
  roots := ["List"]
  structures := [
    enumerated,
    ⟨"Item", [
      .field ⟨"size", {
        length := some (.bits 8)
        triggers := some [.onField "tail" [.set .length], .saveToContext] }, false⟩,
      .field ⟨"mark", { length := some (.bits 8), values := some (.single (.int 5)) }, false⟩]⟩]

/-- The targets of the list, which stands at the offset 4 of a packet. -/
def enumeratedTarget : TargetParser :=
  parseTargetBy enumeration (enterStructure enumeration {} 2 [("List", 4)])

/-- Three numbers, an item, and a tail of three bytes. -/
def enumeratedInput : Slice := ⟨4, [0, 2, 1, 3, 5, 1, 6, 7]⟩

theorem unrolled_of_parseFields_enumerated : ∃ fin,
    parseFields {} enumeratedTarget (.start enumerated enumeratedInput .empty) = .ok fin ∧
    tries {} enumeratedTarget (.start enumerated enumeratedInput .empty) =
      [⟨2, true⟩, ⟨2, true⟩, ⟨2, true⟩, ⟨2, false⟩, ⟨1, true⟩, ⟨1, false⟩, ⟨0, true⟩] ∧
    fin.progress.fields.map (fun f => (f.name, f.start, f.stop)) =
      [("number", 4, 5), ("number", 5, 6), ("number", 6, 7), ("item", 7, 9), ("tail", 9, 12)] ∧
    (∀ d ∈ (enumerated.writtenOut {} enumeratedTarget enumeratedInput .empty).descriptors,
      d.isRepeated = false) ∧
    ∃ fin', parseFields {} enumeratedTarget
        (.start (enumerated.writtenOut {} enumeratedTarget enumeratedInput .empty) enumeratedInput
          .empty) = .ok fin' ∧
      fin'.outcome (enumerated.writtenOut {} enumeratedTarget enumeratedInput .empty) =
        fin.outcome enumerated ∧
      fin'.next = fin.next ∧
      fin'.progress.cursor = fin.progress.cursor ∧
      fin'.progress.fields = fin.progress.fields ∧
      fin'.progress.memory = fin.progress.memory ∧
      fin'.progress.queue = ((fin.progress.queue.filter fun item => !item.again).map
        fun item => item.descriptor.once.fresh) ∧
      ∀ t ∈ tries {} enumeratedTarget
        (.start (enumerated.writtenOut {} enumeratedTarget enumeratedInput .empty) enumeratedInput
          .empty), t.kept = true := by
  have turns : tries {} enumeratedTarget (.start enumerated enumeratedInput .empty) =
      [⟨2, true⟩, ⟨2, true⟩, ⟨2, true⟩, ⟨2, false⟩, ⟨1, true⟩, ⟨1, false⟩, ⟨0, true⟩] := by
    decide +kernel
  have spans : (parseFields {} enumeratedTarget
      (.start enumerated enumeratedInput .empty)).toOption.map
        (fun fin => fin.progress.fields.map fun f => (f.name, f.start, f.stop)) =
      some [("number", 4, 5), ("number", 5, 6), ("number", 6, 7), ("item", 7, 9),
        ("tail", 9, 12)] := by
    decide +kernel
  obtain ⟨fin, decoded, spans⟩ := Option.map_eq_some_iff.mp spans
  have run : parseFields {} enumeratedTarget (.start enumerated enumeratedInput .empty) =
      .ok fin := by
    cases result : parseFields {} enumeratedTarget (.start enumerated enumeratedInput .empty) with
    | error failure => rw [result] at decoded; cases decoded
    | ok fin' => rw [result] at decoded; cases decoded; rfl
  exact ⟨fin, run, turns, spans, unrolled_of_parseFields rfl run⟩

end WireGrammar
