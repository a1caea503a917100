import WireGrammar.Proofs.Attribute.Origin
import WireGrammar.Proofs.Replay
import WireGrammar.Proofs.Structure.Conformance

/-!
# Accounts of decoded structures

Whatever is asked of a decoded structure is answered by the turns of its course: what each of them
found, what it did, and where the last one left off.  At the end of the bytes the fields that had no
turn are looked through, so that there is a reason for each of them to be missing.

* `Account`: the turns of a structure, and why there are no more;
* `Structure.Decodes.account`: every decoded structure has an account;
* `Account.turn_or_ended`: a field takes its turn, or the bytes ended before it and it may be
  missing;
* `Account.sourced`: no turn finds anything in the memory but what can come about;
* `Turn.Reads`: the turn of a scalar.
-/

namespace WireGrammar

variable {g : Grammar} {o : Options} {s : Structure} {input : Slice} {ctx : StreamContext}
  {out : StructureOutcome} {ts : List Turn} {stop : Nat} {fin : Stage}

theorem Attempt.eq_ok_of_toOption {α : Type} {x : Attempt α} {a : α} (h : x.toOption = some a) :
    x = .ok a := by
  cases x with
  | ok b =>
    cases h
    rfl
  | error failure => cases h

theorem Attempt.eq_error_of_toOption {α : Type} {x : Attempt α} (h : x.toOption.isNone = true) :
    ∃ failure, x = .error failure := by
  cases x with
  | ok a => cases h
  | error failure => exact ⟨failure, rfl⟩

deriving instance DecidableEq for Expectation, ParseError

/-- Why an attempt fails, if it does. -/
def Attempt.cause? {α : Type} : Attempt α → Option ParseError
  | .ok _ => none
  | .error failure => some failure.error

theorem Attempt.eq_error_of_cause? {α : Type} {x : Attempt α} {e : ParseError}
    (h : Attempt.cause? x = some e) : ∃ failure, x = .error failure ∧ failure.error = e := by
  cases x with
  | ok a => cases h
  | error failure => exact ⟨failure, rfl, Option.some.inj h⟩

/-- The structure `s` is decoded, called by its name or entered inside of others. -/
inductive Structure.Decodes (g : Grammar) (o : Options) (s : Structure) (input : Slice)
    (ctx : StreamContext) (out : StructureOutcome) : Prop where
  | called {name : String} (found : g.getStructure? name = some s)
      (h : parseStructure g o name input ctx = .ok out) : Decodes g o s input ctx out
  | entered {depth : Nat} {active : Active} (mem : s ∈ g.structures)
      (h : enterStructure g o depth active s input ctx = .ok out) : Decodes g o s input ctx out

/-- How the structure `s` comes to its outcome: by the turns `ts`, which come to the place `stop`
and leave the stage `fin`. -/
structure Account (g : Grammar) (o : Options) (s : Structure) (input : Slice) (ctx : StreamContext)
    (out : StructureOutcome) (ts : List Turn) (stop : Nat) (fin : Stage) : Prop where
  declared : s ∈ g.structures
  course : ∃ depth active, Course o (parseTargetBy g (enterStructure g o depth active)) 0
    s.descriptors false (fun _ => false) (.start input ctx) ts stop fin out.next
  outcome : out = ⟨fin.fields, fin.cursor.consumedBytes, out.next, fin.memory.context⟩
  conforms : Conforms s ts stop fin out
  /-- Where the bytes have ended, no field is left that has to be there. -/
  complete : out.next = none → fin.cursor.isExhausted = true → ∀ i f, stop ≤ i →
    s.descriptors[i]? = some (.field f) → (∀ t ∈ ts, t.removes f.name = false) →
      ((fin.memory.effective f).isPresent fin.fields && (fin.memory.effective f).isRequired) = false

/-! ### Every decoded structure has an account -/

theorem mem_drop_of_getElem? {α : Type} {as : List α} {a : α} {i k : Nat} (h : as[i]? = some a)
    (le : k ≤ i) : a ∈ as.drop k := by
  refine List.mem_iff_getElem?.mpr ⟨i - k, ?_⟩
  rw [List.getElem?_drop, Nat.add_sub_cancel' le]
  exact h

theorem mem_waiting {gone : String → Bool} {ds : List Descriptor} {f : FieldDescriptor}
    (mem : .field f ∈ ds) (kept : gone f.name = false) : ⟨.field f, false⟩ ∈ waiting gone ds := by
  refine List.mem_map.mpr ⟨.field f, List.mem_filter.mpr ⟨mem, ?_⟩, rfl⟩
  simp [Descriptor.field?, kept]

/-- At the end of the bytes nothing is missing. -/
theorem Finish.missing?_eq_none {fin : Finish} (h : fin.outcome s = .ok out)
    (next : fin.next = none) (ended : fin.progress.cursor.isExhausted = true) :
    fin.progress.missing? = none := by
  cases missing : fin.progress.missing? with
  | none => rfl
  | some f =>
    simp only [outcome, next, ended, missing] at h
    cases h

theorem Progress.not_required_of_waits {p : Progress} (h : p.missing? = none) {f : FieldDescriptor}
    (waits : ⟨.field f, false⟩ ∈ p.queue.filter fun item => !item.again) :
    ((p.memory.effective f).isPresent p.fields && (p.memory.effective f).isRequired) = false := by
  have none := List.findSome?_eq_none_iff.mp h _ waits
  simpa [Descriptor.field?, Option.filter] using none

theorem account_of_parseDescriptors {depth : Nat} {active : Active} (mem : s ∈ g.structures)
    (h : parseDescriptors o (parseTargetBy g (enterStructure g o depth active)) s input ctx =
      .ok out) : ∃ ts stop fin, Account g o s input ctx out ts stop fin := by
  obtain ⟨end_, run, ended⟩ := bind_eq_ok.mp h
  have same := Finish.outcome_eq_ok ended
  obtain ⟨ts, stop, course, waits⟩ := course_of_parseFields (k := 0) run
    (.plain (waiting_start _).symm) rfl
  have next : out.next = end_.next := by rw [same]
  rw [← next] at course waits
  refine ⟨ts, stop, _, mem, ⟨depth, active, course⟩, ?_, conforms_of_course course ?_, ?_⟩
  · rw [next]
    exact same
  · rw [same]
    rfl
  · intro last exhausted i f behind at_ kept
    have none := Finish.missing?_eq_none ended (next ▸ last) exhausted
    refine Progress.not_required_of_waits none ?_
    rw [waits last]
    exact mem_waiting (mem_drop_of_getElem? at_ behind) (by simpa using kept)

/-- A structure is decoded by what its turns do. -/
theorem Structure.Decodes.account (h : s.Decodes g o input ctx out) :
    ∃ ts stop fin, Account g o s input ctx out ts stop fin := by
  have entered {depth : Nat} {active : Active} (mem : s ∈ g.structures)
      (h : enterStructure g o depth active s input ctx = .ok out) :
      ∃ ts stop fin, Account g o s input ctx out ts stop fin := by
    obtain ⟨depth', -, run⟩ := enterStructure_eq_ok h
    exact account_of_parseDescriptors mem run
  cases h with
  | called found h =>
    rw [parseStructure, found] at h
    exact entered (Grammar.mem_of_getStructure? found).1 h
  | entered mem h => exact entered mem h

/-! ### The turn of a scalar -/

/-- The turn decodes the scalar `r` of this length. -/
structure Turn.Reads (o : Options) (t : Turn) (length : Length) (r : Reading) : Prop where
  scalar : ScalarTurn o t.field t.before.cursor t.before.fields t.before.memory length r
    t.after.memory
  cursor : t.after.cursor = r.cursor
  added : t.added = [scalarField t.field t.before.cursor t.before.memory r]

namespace Turn

variable {parse : TargetParser} {place : Nat} {f : FieldDescriptor} {st : Stage} {t : Turn}
  {length : Length} {r : Reading}

/-- A field that no target stands for decodes scalars. -/
theorem Taken.reads_of_mem (h : Taken o parse place f st t) (own : t.attributes.parse = none)
    {d : DecodedField} (mem : d ∈ t.added) : ∃ length r, t.Reads o length r := by
  cases h with
  | idle => cases mem
  | scalar turn => exact ⟨_, _, turn, rfl, rfl⟩
  | target turn =>
    have delegated := own.symm.trans turn.delegated
    cases delegated

/-- A field of a length that no target stands for decodes a scalar, if it is present. -/
theorem Taken.reads_of_sized (h : Taken o parse place f st t) (own : t.attributes.parse = none)
    (sized : t.attributes.length = some length)
    (present : t.attributes.isPresent t.before.fields = true) : ∃ r, t.Reads o length r := by
  cases h with
  | idle idle =>
    rcases idle with absent | ⟨-, unsized⟩
    · have := present.symm.trans absent
      cases this
    · have := sized.symm.trans unsized
      cases this
  | scalar turn =>
    cases sized.symm.trans turn.sized
    exact ⟨_, turn, rfl, rfl⟩
  | target turn =>
    have := own.symm.trans turn.delegated
    cases this

/-- A field that a target stands for decodes the structures of a chain, if it is present. -/
theorem Taken.target_of_delegated (h : Taken o parse place f st t) {target : String}
    (delegated : t.attributes.parse = some target)
    (present : t.attributes.isPresent t.before.fields = true) :
    ∃ view ch,
      TargetTurn parse t.field t.before.cursor t.before.fields t.before.memory target view ch ∧
        t.added = nestedFields t.field ch.structures := by
  cases h with
  | idle idle =>
    rcases idle with absent | ⟨noTarget, -⟩
    · have := present.symm.trans absent
      cases this
    · have := delegated.symm.trans noTarget
      cases this
  | scalar turn =>
    have := delegated.symm.trans turn.noTarget
    cases this
  | target turn =>
    cases delegated.symm.trans turn.delegated
    exact ⟨_, _, turn, rfl⟩

/-- Turns go on in the slice of their structure. -/
theorem Taken.slice_eq (h : Taken o parse place f st t) :
    t.after.cursor.slice = st.cursor.slice := by
  cases h with
  | idle => rfl
  | scalar turn => exact (BitCursor.readScalar_forward turn.read).1
  | target turn moved =>
    rw [moved]
    rfl

/-- What is taken out is the target of a trigger that the field is decoded with. -/
theorem Taken.of_removes (h : Taken o parse place f st t) {name : String}
    (removes : t.removes name = true) : o.pruneZero = true ∧
      ∃ trigger ∈ t.attributes.triggers.getD [], trigger.targets name = true := by
  cases h with
  | idle => cases removes
  | target => cases removes
  | scalar turn =>
    simp only [prunesField, Options.prunes, Bool.and_eq_true, List.any_eq_true] at removes
    obtain ⟨⟨prunes, -⟩, trigger, mem, prunesTarget⟩ := removes
    refine ⟨prunes, trigger, mem, ?_⟩
    cases trigger with
    | saveToContext => cases prunesTarget
    | onField target rules => exact (Bool.and_eq_true_iff.mp prunesTarget).1

end Turn

/-! ### What the turns find in the memory -/

/-- Nothing is asked of the fields, so that all that is left is where the memory comes from. -/
theorem sourced_invariant (g : Grammar) (o : Options) (entry : StreamContext) :
    DecodingInvariant g o entry (fun _ _ _ _ _ _ => True) (fun _ _ _ => True) where
  start := fun _ => trivial
  scalar := fun _ _ _ _ _ _ => trivial
  target := fun _ _ _ _ _ _ _ => trivial
  finish := fun _ _ _ => trivial

theorem Turn.Taken.sourced {depth : Nat} {active : Active} {place : Nat} {f : FieldDescriptor}
    {st : Stage} {t : Turn} {entry : StreamContext} (mem : s ∈ g.structures)
    (own : .field f ∈ s.descriptors)
    (h : Taken o (parseTargetBy g (enterStructure g o depth active)) place f st t)
    (sourced : st.memory.Sourced g entry s) : t.after.memory.Sourced g entry s := by
  cases h with
  | idle => exact sourced
  | scalar turn =>
    exact sourced.fireAll mem own (BitCursor.text?_of_readScalar turn.read) turn.fired
  | target turn =>
    have keeps : ∀ name input ctx r, parseTargetBy g (enterStructure g o depth active) name input
        ctx = .ok r → Keeps g entry (fun _ _ _ => True) input ctx r :=
      fun _ _ _ _ ok => (sourced_invariant g o entry).of_parseTargetBy ok
    exact ⟨sourced.pending, ((Row.of_chains keeps turn.decoded).of_keeps sourced.context).1⟩

/-! ### Fields by their names -/

/-- Of two fields at different places of a structure with distinct names, the names differ. -/
theorem Structure.place_inj (distinct : (s.fields.map (·.name)).Nodup) {i j : Nat}
    {f f' : FieldDescriptor} (at_ : s.descriptors[i]? = some (.field f))
    (at' : s.descriptors[j]? = some (.field f')) (name : f.name = f'.name) : i = j := by
  have pairwise : s.descriptors.Pairwise fun d d' =>
      ∀ f, d.field? = some f → ∀ f', d'.field? = some f' → f.name ≠ f'.name := by
    rw [← List.pairwise_filterMap]
    exact List.pairwise_map.mp distinct
  have before {i j : Nat} {f f' : FieldDescriptor} (at_ : s.descriptors[i]? = some (.field f))
      (at' : s.descriptors[j]? = some (.field f')) (name : f.name = f'.name) : ¬i < j := by
    intro lt
    obtain ⟨inside, first⟩ := List.getElem?_eq_some_iff.mp at_
    obtain ⟨inside', second⟩ := List.getElem?_eq_some_iff.mp at'
    have differ := List.pairwise_iff_getElem.mp pairwise i j inside inside' lt
    exact differ f (by rw [first]; rfl) f' (by rw [second]; rfl) name
  have := before at_ at' name
  have := before at' at_ name.symm
  omega

/-- What a turn decodes is assigned to its place. -/
theorem mem_placed {t : Turn} (mem : t ∈ ts) {d : DecodedField} (added : d ∈ t.added) :
    (t.place, d) ∈ placed ts :=
  List.mem_flatMap.mpr ⟨t, mem, List.mem_map_of_mem added⟩

namespace Account

variable (h : Account g o s input ctx out ts stop fin)

include h

theorem fields_eq : out.fields = fin.fields :=
  congrArg StructureOutcome.fields h.outcome

theorem declared_at {t : Turn} (mem : t ∈ ts) :
    s.descriptors[t.place]? = some (.field t.field) := by
  obtain ⟨depth, active, course⟩ := h.course
  exact course.declared rfl t mem

theorem own {t : Turn} (mem : t ∈ ts) : .field t.field ∈ s.descriptors :=
  List.mem_of_getElem? (h.declared_at mem)

/-- The turns at a place are those of the field that is declared there. -/
theorem field_eq {t : Turn} (mem : t ∈ ts) {f : FieldDescriptor}
    (at_ : s.descriptors[t.place]? = some (.field f)) : t.field = f :=
  Descriptor.field.inj (Option.some.inj ((h.declared_at mem).symm.trans at_))

theorem taken {t : Turn} (mem : t ∈ ts) :
    ∃ parse, t.Taken o parse t.place t.field t.before := by
  obtain ⟨depth, active, course⟩ := h.course
  exact ⟨_, course.taken t mem⟩

/-- No turn finds anything in the memory but what can come about. -/
theorem sourced : (∀ t ∈ ts, t.before.memory.Sourced g ctx s) ∧ fin.memory.Sourced g ctx s := by
  obtain ⟨depth, active, course⟩ := h.course
  exact course.invariant (P := fun st => st.memory.Sourced g ctx s)
    (fun t mem sourced => (course.taken t mem).sourced h.declared (h.own mem) sourced)
    (.start (.refl g ctx) s)

/-- The triggers that a turn sets off can come about. -/
theorem arises_of_trigger {t : Turn} (mem : t ∈ ts) {trigger : Trigger}
    (own : trigger ∈ t.attributes.triggers.getD []) :
    ∃ triggers, Arises g ctx (.field s t.field) (.triggers triggers) ∧ trigger ∈ triggers := by
  cases given : t.attributes.triggers with
  | none =>
    rw [given] at own
    cases own
  | some triggers =>
    have held : t.attributes.get? .triggers = some (.triggers triggers) :=
      congrArg (Option.map AttributeValue.triggers) given
    rw [given] at own
    exact ⟨triggers, (h.sourced.1 t mem).effective h.declared (h.own mem) held, own⟩

/-- A field that neither triggers nor the context change is not taken out. -/
theorem kept_of_untouched {name : String} (untouched : Untouched g ctx name) :
    ∀ t ∈ ts, t.removes name = false := by
  refine fun t mem => Bool.eq_false_iff.mpr fun removes => ?_
  obtain ⟨parse, taken⟩ := h.taken mem
  obtain ⟨-, trigger, own, targets⟩ := taken.of_removes removes
  obtain ⟨triggers, arises, own⟩ := h.arises_of_trigger mem own
  rw [untouched.targets_eq_false arises own] at targets
  cases targets

/-- Fields are taken out only if that is chosen. -/
theorem kept_of_not_pruneZero (off : o.pruneZero = false) (name : String) :
    ∀ t ∈ ts, t.removes name = false := by
  refine fun t mem => Bool.eq_false_iff.mpr fun removes => ?_
  obtain ⟨parse, taken⟩ := h.taken mem
  have chosen := (taken.of_removes removes).1
  rw [off] at chosen
  cases chosen

/-- All turns read from the bytes of the structure. -/
theorem slice_eq {t : Turn} (mem : t ∈ ts) : t.before.cursor.slice = input := by
  obtain ⟨depth, active, course⟩ := h.course
  have all := course.invariant (P := fun st => st.cursor.slice = input)
    (fun t mem same => (course.taken t mem).slice_eq.trans same) rfl
  exact all.1 t mem

/-- A field that no turn takes out takes its turn, or the bytes ended before it and nothing asks for
it to be there. -/
theorem turn_or_ended {i : Nat} {f : FieldDescriptor} (at_ : s.descriptors[i]? = some (.field f))
    (early : i < s.nextPlace ∨ out.next = none) (kept : ∀ t ∈ ts, t.removes f.name = false) :
    (∃ t ∈ ts, t.place = i) ∨ fin.cursor.isExhausted = true ∧ stop ≤ i ∧
      ((fin.memory.effective f).isPresent fin.fields && (fin.memory.effective f).isRequired) =
        false := by
  by_cases reached : i < stop
  · rcases h.conforms.taken i f reached at_ with turn | ⟨t, mem, -, removes⟩
    · exact .inl turn
    · rw [kept t mem] at removes
      cases removes
  · have behind : stop ≤ i := Nat.not_lt.mp reached
    have inside := (List.getElem?_eq_some_iff.mp at_).1
    have last : out.next = none := by
      rcases early with before | last
      · cases next : out.next with
        | none => rfl
        | some name =>
          have := (h.conforms.next name next).1
          omega
      · exact last
    have ended : fin.cursor.isExhausted = true := by
      rcases h.conforms.ended last with ended | all
      · exact ended
      · omega
    exact .inr ⟨ended, behind, h.complete last ended i f behind at_ kept⟩

/-- The first turn of a descriptor comes behind the turns of earlier ones. -/
theorem exists_first_turn {i : Nat} (turn : ∃ t ∈ ts, t.place = i) :
    ∃ earlier t later, ts = earlier ++ t :: later ∧ t.place = i ∧ ∀ u ∈ earlier, u.place < i := by
  have some : (ts.find? (·.place == i)).isSome = true := by
    simpa [List.find?_isSome] using turn
  obtain ⟨t, found⟩ := Option.isSome_iff_exists.mp some
  obtain ⟨place, earlier, later, rfl, others⟩ := List.find?_eq_some_iff_append.mp found
  refine ⟨earlier, t, later, rfl, beq_iff_eq.mp place, fun u mem => ?_⟩
  have before := (List.pairwise_append.mp h.conforms.turns).2.2 u mem t List.mem_cons_self
  have other : u.place ≠ i := by simpa using others u mem
  have place := beq_iff_eq.mp place
  omega

/-- The fields of a name are those of the place where it is declared. -/
theorem filter_name_eq (distinct : (s.fields.map (·.name)).Nodup) {i : Nat} {f : FieldDescriptor}
    (at_ : s.descriptors[i]? = some (.field f)) :
    out.fields.filter (·.name == f.name) = ((placed ts).filter (·.1 == i)).map Prod.snd := by
  rw [← h.conforms.fields, List.filter_map]
  congr 1
  refine List.filter_congr fun a mem => ?_
  obtain ⟨-, f', at', name⟩ := h.conforms.named a mem
  rw [Function.comp, ← name, Bool.eq_iff_iff, beq_iff_eq, beq_iff_eq]
  constructor
  · exact fun same => Structure.place_inj distinct at' at_ same
  · rintro rfl
    rw [at_] at at'
    cases at'
    rfl

/-- Behind the stop nothing is decoded. -/
theorem filter_eq_nil (distinct : (s.fields.map (·.name)).Nodup) {i : Nat} {f : FieldDescriptor}
    (at_ : s.descriptors[i]? = some (.field f)) (behind : stop ≤ i) :
    out.fields.filter (·.name == f.name) = [] := by
  obtain ⟨depth, active, course⟩ := h.course
  rw [h.filter_name_eq distinct at_, List.map_eq_nil_iff, List.filter_eq_nil_iff]
  intro a mem
  obtain ⟨t, turn, own⟩ := List.mem_flatMap.mp mem
  obtain ⟨d, -, rfl⟩ := List.mem_map.mp own
  have := (course.place_mem.2.2 t turn).2
  simp only [beq_iff_eq]
  omega

/-- A decoded field has the turn that decodes it, of the descriptor that declares its name. -/
theorem exists_turn (distinct : (s.fields.map (·.name)).Nodup) {i : Nat} {f : FieldDescriptor}
    (at_ : s.descriptors[i]? = some (.field f)) {d : DecodedField} (mem : d ∈ out.fields)
    (name : d.name = f.name) : ∃ t ∈ ts, t.place = i ∧ t.field = f ∧ d ∈ t.added := by
  have found : d ∈ out.fields.filter (·.name == f.name) :=
    List.mem_filter.mpr ⟨mem, beq_iff_eq.mpr name⟩
  rw [h.filter_name_eq distinct at_] at found
  obtain ⟨a, here, rfl⟩ := List.mem_map.mp found
  obtain ⟨mem, place⟩ := List.mem_filter.mp here
  obtain ⟨t, turn, own⟩ := List.mem_flatMap.mp mem
  obtain ⟨d, added, rfl⟩ := List.mem_map.mp own
  obtain rfl : t.place = i := by simpa using place
  exact ⟨t, turn, rfl, h.field_eq turn at_, added⟩

theorem mem_fields {t : Turn} (mem : t ∈ ts) {d : DecodedField} (added : d ∈ t.added) :
    d ∈ out.fields := by
  rw [← h.conforms.fields]
  exact List.mem_map_of_mem (f := Prod.snd) (mem_placed mem added)

/-- Behind the fields that a turn finds are those of its descriptor and of later ones. -/
theorem fields_behind {t : Turn} (mem : t ∈ ts) :
    ∃ behind, out.fields = t.before.fields ++ behind ∧
      ∀ d ∈ behind, ∃ f, .field f ∈ s.descriptors.drop t.place ∧ f.name = d.name := by
  obtain ⟨depth, active, course⟩ := h.course
  obtain ⟨earlier, later, k, again, gone, rfl, le, -, rest⟩ := course.split rfl mem
  have all := rest.fields_eq
  rw [(course.taken t mem).fields_after, List.append_assoc] at all
  refine ⟨_, h.fields_eq.trans all, fun d decoded => ?_⟩
  -- What is behind is decoded by this turn, or by a turn behind it.
  obtain ⟨u, turn, place, added⟩ :
      ∃ u ∈ earlier ++ t :: later, t.place ≤ u.place ∧ d ∈ u.added := by
    rcases List.mem_append.mp decoded with own | others
    · exact ⟨t, mem, Nat.le_refl _, own⟩
    · obtain ⟨u, behind, added⟩ := List.mem_flatMap.mp others
      have := (rest.place_mem.2.2 u behind).1
      exact ⟨u, by simp [behind], by omega, added⟩
  refine ⟨u.field, ?_, ((course.taken u turn).name_eq added).symm⟩
  exact mem_drop_of_getElem? (h.declared_at turn) place

/-- What is true behind the turn of a field that is not repeated, and kept by the turns of later
fields, is true before each of these and at the end. -/
theorem invariant_behind {P : Stage → Prop} {t : Turn} (mem : t ∈ ts)
    (once : t.field.repeated = false) (start : P t.after)
    (keeps : ∀ u ∈ ts, t.place < u.place → P u.before → P u.after) :
    (∀ u ∈ ts, t.place < u.place → P u.before) ∧ P fin := by
  obtain ⟨depth, active, course⟩ := h.course
  obtain ⟨earlier, later, k, again, gone, rfl, -, further, rest⟩ := course.split rfl mem
  have further := further once
  obtain ⟨before, last⟩ := rest.invariant (P := P)
    (fun u turn => by
      have := (rest.place_mem.2.2 u turn).1
      exact keeps u (by simp [turn]) (by omega)) start
  refine ⟨fun u turn behind => before u ?_, last⟩
  -- The turns before this one are of fields that are not declared behind it.
  have order := (List.pairwise_append.mp h.conforms.turns).2.2
  rcases List.mem_append.mp turn with early | here
  · have := order u early t List.mem_cons_self
    omega
  · rcases List.mem_cons.mp here with rfl | late
    · omega
    · exact late

/-- A scalar of a field that is not repeated is all that is assigned to its place. -/
theorem once_of_reads {t : Turn} (mem : t ∈ ts) {length : Length} {r : Reading}
    (reads : t.Reads o length r) (once : t.field.repeated = false) :
    (placed ts).filter (·.1 == t.place) =
      [(t.place, scalarField t.field t.before.cursor t.before.memory r)] := by
  have added : scalarField t.field t.before.cursor t.before.memory r ∈ t.added := by
    rw [reads.added]
    exact List.mem_singleton_self _
  exact h.conforms.single _ (mem_placed mem added) t.field (h.declared_at mem) once rfl

end Account

end WireGrammar
