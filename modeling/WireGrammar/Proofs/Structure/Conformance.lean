import WireGrammar.Proofs.Decoding.Invariant
import WireGrammar.Proofs.Structure.Course
import WireGrammar.Proofs.Tree.Part

/-!
# Decoded structures conform to their declarations

The turns of a course say which descriptor each decoded field is of.  So the fields of a structure
are assigned to the descriptors of its declaration, in order and by their names, and neither the
fields that are tried again nor those taken out by a zero can mix them up: what a turn decodes is
kept once, and a descriptor that gets no turn has been taken out or is behind the end.

* `placed`: the fields of a structure with the places of their descriptors;
* `Conforms`: what is asked of this assignment;
* `conforms_of_course`: a course keeps to it;
* `conforms_of_parse`: every structure of a decoded packet, however deep, takes a course.
-/

namespace WireGrammar

/-! ### The assignment -/

/-- The descriptor names the structure that follows. -/
def Descriptor.isNext : Descriptor → Bool
  | .next _ => true
  | _ => false

/-- The place of the first descriptor that names the structure that follows, or the number of
descriptors if none does. -/
def Structure.nextPlace (s : Structure) : Nat := s.descriptors.findIdx Descriptor.isNext

/-- What the turns decode, with the place of the descriptor that each field is of. -/
def placed (ts : List Turn) : List (Nat × DecodedField) :=
  ts.flatMap fun t => t.added.map (t.place, ·)

/-- Two fields may be of the same descriptor: it declares a repeated field, or both are structures
that stand in the place of its target. -/
def MayShare (ds : List Descriptor) (ts : List Turn) (a b : Nat × DecodedField) : Prop :=
  (∃ f, ds[a.1]? = some (.field f) ∧ f.repeated = true) ∨
    a.2.value? = none ∧ b.2.value? = none ∧
      ∃ t ∈ ts, t.place = a.1 ∧ t.attributes.parse.isSome = true

/-- The outcome of a structure conforms to the declaration `s`, by turns that come to the place
`stop` and to the stage `fin`. -/
structure Conforms (s : Structure) (ts : List Turn) (stop : Nat) (fin : Stage)
    (out : StructureOutcome) : Prop where
  /-- All fields are assigned, one by one. -/
  fields : (placed ts).map Prod.snd = out.fields
  /-- Later fields are assigned to no earlier descriptors. -/
  ordered : (placed ts).Pairwise fun a b => a.1 ≤ b.1
  /-- A field is assigned to a field of its name, before any structure is named that follows. -/
  named : ∀ a ∈ placed ts, a.1 < s.nextPlace ∧
    ∃ f, s.descriptors[a.1]? = some (.field f) ∧ f.name = a.2.name
  /-- Several are assigned to a repeated field, or stand as structures in the place of a target. -/
  several : (placed ts).Pairwise fun a b => a.1 = b.1 → MayShare s.descriptors ts a b
  /-- A scalar is all that is assigned to a field that is not repeated. -/
  single : ∀ a ∈ placed ts, ∀ f, s.descriptors[a.1]? = some (.field f) → f.repeated = false →
    a.2.value?.isSome = true → (placed ts).filter (·.1 == a.1) = [a]
  /-- The structure that follows is the first one that is named. -/
  next : ∀ name, out.next = some name →
    stop = s.nextPlace ∧ s.descriptors[s.nextPlace]? = some (.next name)
  /-- Otherwise bytes or descriptors have come to an end. -/
  ended : out.next = none → fin.cursor.isExhausted = true ∨ stop = s.descriptors.length
  /-- Turns are taken in the order of the descriptors, and only a repeated field takes several. -/
  turns : ts.Pairwise fun t t' =>
    t.place < t'.place ∨ t.place = t'.place ∧ t.field.repeated = true
  /-- Of the fields before the stop, each takes its turn or is taken out by a turn before it. -/
  taken : ∀ i f, i < stop → s.descriptors[i]? = some (.field f) →
    (∃ t ∈ ts, t.place = i) ∨ ∃ t ∈ ts, t.place < i ∧ t.removes f.name = true

section Assignment

variable {o : Options} {parse : TargetParser} {s : Structure}

theorem Structure.nextPlace_le {i : Nat} {name : String}
    (h : s.descriptors[i]? = some (.next name)) : s.nextPlace ≤ i := by
  obtain ⟨inside, at_⟩ := List.getElem?_eq_some_iff.mp h
  refine Nat.le_of_not_lt fun before => ?_
  have other := List.not_of_lt_findIdx before
  rw [at_] at other
  cases other

theorem Structure.next_at_nextPlace (h : s.nextPlace < s.descriptors.length) :
    ∃ name, s.descriptors[s.nextPlace]? = some (.next name) := by
  have found : Descriptor.isNext s.descriptors[s.nextPlace] = true :=
    List.findIdx_getElem (w := h)
  rw [List.getElem?_eq_getElem h]
  generalize s.descriptors[s.nextPlace] = d at found ⊢
  cases d with
  | next name => exact ⟨name, rfl⟩
  | type | field => cases found

/-- An element that stands in no relation to any other is the only one. -/
theorem eq_singleton_of_pairwise {α : Type} {R : α → α → Prop} {as : List α} (h : as.Pairwise R)
    {a : α} (mem : a ∈ as) (alone : ∀ b ∈ as, ¬R a b ∧ ¬R b a) : as = [a] := by
  obtain ⟨before, behind, rfl⟩ := List.append_of_mem mem
  obtain ⟨-, later, across⟩ := List.pairwise_append.mp h
  have none : before = [] := by
    refine List.eq_nil_iff_forall_not_mem.mpr fun b mem => ?_
    exact (alone b (by simp [mem])).2 (across b mem a List.mem_cons_self)
  have none' : behind = [] := by
    refine List.eq_nil_iff_forall_not_mem.mpr fun b mem => ?_
    exact (alone b (by simp [mem])).1 (List.rel_of_pairwise_cons later mem)
  rw [none, none']
  rfl

section Course

variable {k stop : Nat} {all ds : List Descriptor} {again : Bool} {gone : String → Bool}
  {st fin : Stage} {ts : List Turn} {next : Option String}

theorem Course.taken (h : Course o parse k ds again gone st ts stop fin next) :
    ∀ t ∈ ts, t.Taken o parse t.place t.field t.before := by
  induction h with
  | exhausted | broken | complete | next => simp
  | type _ _ ih | removed _ _ _ ih | dropped _ _ _ ih => exact ih
  | once _ _ taken _ _ ih | more _ _ taken _ _ ih =>
    refine List.forall_mem_cons.mpr ⟨?_, ih⟩
    rw [taken.place_eq, taken.field_eq, taken.before_eq]
    exact taken

/-- Of the fields that turns decode, later ones are of later descriptors, or of the same one if they
may share it. -/
theorem Course.pairwise_placed (h : Course o parse k ds again gone st ts stop fin next)
    (here : all.drop k = ds) :
    (placed ts).Pairwise fun a b => a.1 < b.1 ∨ a.1 = b.1 ∧ MayShare all ts a b := by
  refine List.pairwise_flatMap.mpr ⟨fun t mem => ?_, ?_⟩
  · refine List.pairwise_map.mpr ((h.taken t mem).nested.imp ?_)
    rintro d d' ⟨one, other, target⟩
    exact .inr ⟨rfl, .inr ⟨one, other, t, mem, rfl, target⟩⟩
  · refine h.pairwise_place.imp_of_mem ?_
    rintro t t' mem - order a ha b hb
    obtain ⟨d, -, rfl⟩ := List.mem_map.mp ha
    obtain ⟨d', -, rfl⟩ := List.mem_map.mp hb
    rcases order with before | ⟨same, repeated⟩
    · exact .inl before
    · exact .inr ⟨same, .inl ⟨_, h.declared here t mem, repeated⟩⟩

/-- **The outcome of a course conforms to the declaration.** -/
theorem conforms_of_course {input : Slice} {ctx : StreamContext} {out : StructureOutcome}
    (h : Course o parse 0 s.descriptors false (fun _ => false) (.start input ctx) ts stop fin
      out.next) (fields : out.fields = fin.fields) : Conforms s ts stop fin out := by
  have here : s.descriptors.drop 0 = s.descriptors := rfl
  obtain ⟨before, next⟩ := h.next_eq here
  -- No descriptor before the stop names a structure that follows.
  have free : s.nextPlace < stop → s.descriptors.length ≤ s.nextPlace := by
    intro lt
    refine Nat.le_of_not_lt fun inside => ?_
    obtain ⟨name, at_⟩ := Structure.next_at_nextPlace inside
    exact before _ name (Nat.zero_le _) lt at_
  have pairwise := h.pairwise_placed here
  have several : (placed ts).Pairwise fun a b => a.1 = b.1 → MayShare s.descriptors ts a b := by
    refine pairwise.imp fun order same => ?_
    rcases order with lt | ⟨-, why⟩
    · omega
    · exact why
  refine ⟨?_, ?_, ?_, several, ?_, ?_, ?_, h.pairwise_place, ?_⟩
  · rw [fields, h.fields_eq, placed, List.map_flatMap]
    simp only [List.map_map, Function.comp_def, List.map_id', Stage.start, List.nil_append]
  · exact pairwise.imp fun order => by omega
  · intro a mem
    obtain ⟨t, turn, mem⟩ := List.mem_flatMap.mp mem
    obtain ⟨d, added, rfl⟩ := List.mem_map.mp mem
    have at_ := h.declared here t turn
    have inside := (List.getElem?_eq_some_iff.mp at_).1
    have early := (h.place_mem.2.2 t turn).2
    refine ⟨Nat.lt_of_not_le fun late => ?_, _, at_, ((h.taken t turn).name_eq added).symm⟩
    have := free (Nat.lt_of_le_of_lt late early)
    exact absurd inside (Nat.not_lt.mpr (Nat.le_trans this late))
  · intro a mem f at_ once scalar
    refine eq_singleton_of_pairwise (several.filter _) (by simp [mem]) fun b hb => ?_
    obtain ⟨-, same⟩ := List.mem_filter.mp hb
    have same : b.1 = a.1 := by simpa using same
    constructor
    · intro related
      rcases related same.symm with ⟨f', at', repeated⟩ | ⟨nested, -⟩
      · rw [at_] at at'
        cases at'
        simp [once] at repeated
      · simp [nested] at scalar
    · intro related
      rcases related same with ⟨f', at', repeated⟩ | ⟨-, nested, -⟩
      · rw [same, at_] at at'
        cases at'
        simp [once] at repeated
      · simp [nested] at scalar
  · intro name follows
    have at_ := next name follows
    have le := Structure.nextPlace_le at_
    have inside := (List.getElem?_eq_some_iff.mp at_).1
    have same : s.nextPlace = stop := by
      refine Nat.le_antisymm le (Nat.le_of_not_lt fun lt => ?_)
      have := free lt
      omega
    exact ⟨same.symm, same ▸ at_⟩
  · exact h.ended here (Nat.zero_le _)
  · intro i f high at_
    simpa using h.taken_or_removed here (Nat.zero_le i) (by simp) high at_

end Course

end Assignment

/-! ### Structures at any depth -/

/-- How the outcome of the structure `s` comes about: by a course that its targets, decoded inside
of it, take part in, and to whose turns the outcome conforms. -/
def Accounted (g : Grammar) (o : Options) (s : Structure) (input : Slice) (ctx : StreamContext)
    (out : StructureOutcome) : Prop :=
  ∃ depth active ts stop fin,
    parseDescriptors o (parseTargetBy g (enterStructure g o depth active)) s input ctx = .ok out ∧
    Course o (parseTargetBy g (enterStructure g o depth active)) 0 s.descriptors false
      (fun _ => false) (.start input ctx) ts stop fin out.next ∧
    Conforms s ts stop fin out

/-- The decoded structure has the name and the fields of an outcome of a structure of the
grammar. -/
def DecodedStructure.Declared (g : Grammar) (o : Options) (t : DecodedStructure) : Prop :=
  ∃ s ∈ g.structures, t.name = s.name ∧ ∃ input ctx out, t.start = input.offset ∧
    t.fields = out.fields ∧ Accounted g o s input ctx out

section Depth

variable {g : Grammar} {o : Options} {s : Structure} {input : Slice} {ctx : StreamContext}
  {out : StructureOutcome}

theorem accounted_of_parseDescriptors {depth : Nat} {active : Active}
    (h : parseDescriptors o (parseTargetBy g (enterStructure g o depth active)) s input ctx =
      .ok out) : Accounted g o s input ctx out := by
  obtain ⟨end_, run, ended⟩ := bind_eq_ok.mp h
  obtain rfl := Finish.outcome_eq_ok ended
  obtain ⟨ts, stop, course, -⟩ := course_of_parseFields (k := 0) run
    (.plain (waiting_start _).symm) rfl
  exact ⟨depth, active, ts, stop, _, h, course, conforms_of_course course rfl⟩

/-- What is nested in a structure comes from the targets inside of it. -/
theorem parts_of_parseDescriptors {P : DecodedStructure → Prop} {parse : TargetParser}
    (inner : ∀ name input ctx r, parse name input ctx = .ok r → ∀ t ∈ r.decoded.parts, P t)
    (h : parseDescriptors o parse s input ctx = .ok out) :
    ∀ f ∈ out.fields, ∀ t ∈ f.parts, P t := by
  obtain ⟨-, -, parts, -⟩ := parseDescriptors_induct
    (fun _ fields _ => ∀ f ∈ fields, ∀ t ∈ f.parts, P t) (by simp)
    (fun _ fields _ f _ _ _ parts _ _ _ => by
      refine List.forall_mem_append.mpr ⟨parts, ?_⟩
      simp [scalarField, DecodedField.parts])
    (fun _ fields _ f _ _ ch parts _ _ turn => by
      have row := Row.of_chains inner turn.decoded
      refine List.forall_mem_append.mpr ⟨parts, fun d added => ?_⟩
      obtain ⟨t, mem, rfl⟩ := List.mem_map.mp added
      exact row.forall_mem (P := fun t => ∀ u ∈ t.parts, P u) t mem)
    h
  exact parts

theorem accounted_of_enterStructure {depth : Nat} {active : Active}
    (h : enterStructure g o depth active s input ctx = .ok out) :
    Accounted g o s input ctx out := by
  obtain ⟨depth', -, run⟩ := enterStructure_eq_ok h
  exact accounted_of_parseDescriptors run

/-- A decoded structure, and every structure in it, is declared. -/
theorem declared_of_enterStructure {depth : Nat} {active : Active} (mem : s ∈ g.structures)
    (h : enterStructure g o depth active s input ctx = .ok out) :
    ∀ t ∈ (out.resolved s input).decoded.parts, t.Declared g o := by
  induction depth generalizing active s input ctx out with
  | zero => cases h
  | succ depth ih =>
    intro t part
    rcases DecodedStructure.mem_parts.mp part with rfl | ⟨f, field, part⟩
    · exact ⟨s, mem, rfl, input, ctx, out, rfl, rfl, accounted_of_enterStructure h⟩
    · obtain ⟨depth', same, run⟩ := enterStructure_eq_ok h
      obtain rfl := Nat.succ.inj same
      refine parts_of_parseDescriptors (fun name input ctx r ok => ?_) run f field t part
      obtain ⟨s', mem', out', entered, rfl⟩ := parseTargetBy_eq_ok ok
      exact ih mem' entered

/-- Structures conform to their declarations: whatever is decoded of a structure does, wherever it
is entered, and so does every structure in it or in a packet, however deep.  Its fields are assigned
to the descriptors of the declaration in order and by name.  A scalar of a field that is not
repeated is the only one of it.  A structure that follows is the first one that is named, and
nothing behind that descriptor is decoded.  All this is what the turns of a course come to, in which
no field is passed over or taken twice for being queued again, rolled back or taken out. -/
theorem conforms_of_parse (g : Grammar) (o : Options) :
    (∀ depth active s input ctx out, enterStructure g o depth active s input ctx = .ok out →
      Accounted g o s input ctx out) ∧
    (∀ name input ctx out, parseStructure g o name input ctx = .ok out →
      ∃ s ∈ g.structures, s.name = name ∧ Accounted g o s input ctx out ∧
        ∀ f ∈ out.fields, ∀ t ∈ f.parts, t.Declared g o) ∧
    ∀ packet ctx tree after, parseTopLevel g o packet ctx = (.ok tree, after) →
      ∀ t ∈ tree.parts, t.Declared g o := by
  refine ⟨fun _ _ _ _ _ _ h => accounted_of_enterStructure h, ?_, ?_⟩
  · intro name input ctx out h
    unfold parseStructure at h
    split at h
    · next s found =>
      obtain ⟨mem, named⟩ := Grammar.mem_of_getStructure? found
      refine ⟨s, mem, named, accounted_of_enterStructure h, fun f field t part => ?_⟩
      have inner : t ∈ (out.resolved s input).decoded.parts :=
        DecodedStructure.mem_parts.mpr (.inr ⟨f, field, part⟩)
      exact declared_of_enterStructure mem h t inner
    · cases h
  · intro packet ctx tree after h t part
    obtain ⟨root, -, ok⟩ := firstRoot_eq_ok h
    obtain ⟨c, decoded, -, rfl, -⟩ := parseRoot_eq_ok ok
    obtain ⟨s, mem, part⟩ := List.mem_flatMap.mp part
    have declared : ∀ name input ctx r, parseTarget g o name input ctx = .ok r →
        ∀ t ∈ r.decoded.parts, t.Declared g o := by
      intro name input ctx r ok
      obtain ⟨s, mem, out, entered, rfl⟩ := parseTargetBy_eq_ok ok
      exact declared_of_enterStructure mem entered
    have row := Row.of_chain declared decoded
    exact row.forall_mem (P := fun s => ∀ t ∈ s.parts, t.Declared g o) s mem t part

end Depth

/-- A field that a zero takes out, a repeated one whose last try fails, a list in a window, and a
descriptor behind the one that names the structure that follows. -/
def inventory : Grammar where
  roots := ["Inventory"]
  structures := [
    ⟨"Inventory", [
      .field ⟨"size", {
        length := some (.bits 8), triggers := some [.onField "label" [.set .length]] }, false⟩,
      .field ⟨"label", { length := some (.bits 8) }, false⟩,
      .field ⟨"shelf", {
        length := some (.bits 8), values := some (.oneOf [.int 1, .int 2]) }, true⟩,
      .field ⟨"item", { parse := some "Item", byteLength := some 4 }, false⟩,
      .next "Notes",
      .field ⟨"label", { length := some (.bits 8) }, false⟩]⟩,
    ⟨"Item", [
      .field ⟨"kind", { length := some (.bits 4) }, false⟩,
      .field ⟨"count", { length := some (.bits 12) }, false⟩]⟩,
    ⟨"Notes", [.field ⟨"text", { length := some .rest }, false⟩]⟩]

theorem conforms_of_parse_inventory :
    (∃ out, parseStructure inventory ⟨true⟩ "Inventory" ⟨3, [0, 1, 2, 8, 9, 8, 9, 7]⟩ .empty =
        .ok out ∧
      out.fields.map (·.name) = ["size", "shelf", "shelf", "item", "item"] ∧
      out.next = some "Notes" ∧
      ∃ s ∈ inventory.structures, s.name = "Inventory" ∧
        Accounted inventory ⟨true⟩ s ⟨3, [0, 1, 2, 8, 9, 8, 9, 7]⟩ .empty out ∧
        ∀ f ∈ out.fields, ∀ t ∈ f.parts, t.Declared inventory ⟨true⟩) ∧
    ∃ tree after, parseTopLevel inventory ⟨true⟩ [0, 1, 2, 8, 9, 8, 9, 7] .empty =
        (.ok tree, after) ∧
      tree.parts.map (·.name) = ["Inventory", "Item", "Item", "Notes"] ∧
      ∀ t ∈ tree.parts, t.Declared inventory ⟨true⟩ := by
  obtain ⟨-, structures, packets⟩ := conforms_of_parse inventory ⟨true⟩
  constructor
  · have shape : (parseStructure inventory ⟨true⟩ "Inventory" ⟨3, [0, 1, 2, 8, 9, 8, 9, 7]⟩
        .empty).toOption.map (fun out => (out.fields.map (·.name), out.next)) =
          some (["size", "shelf", "shelf", "item", "item"], some "Notes") := by
      decide +kernel
    cases parsed : parseStructure inventory ⟨true⟩ "Inventory" ⟨3, [0, 1, 2, 8, 9, 8, 9, 7]⟩
        .empty with
    | error failure =>
      rw [parsed] at shape
      cases shape
    | ok out =>
      rw [parsed] at shape
      obtain ⟨names, next⟩ := Prod.mk.inj (Option.some.inj shape)
      exact ⟨out, rfl, names, next, structures _ _ _ out parsed⟩
  · have names : (parseTopLevel inventory ⟨true⟩ [0, 1, 2, 8, 9, 8, 9, 7] .empty).1.toOption.map
        (fun tree => tree.parts.map (·.name)) =
          some ["Inventory", "Item", "Item", "Notes"] := by
      decide +kernel
    obtain ⟨tree, decoded, names⟩ := Option.map_eq_some_iff.mp names
    have ok := eq_ok_of_toOption decoded
    exact ⟨tree, _, ok, names, packets _ _ tree _ ok⟩

end WireGrammar
