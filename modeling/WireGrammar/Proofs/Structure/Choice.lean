import WireGrammar.Proofs.Structure.Account
import WireGrammar.Proofs.Termination

/-!
# Which alternative of a type is decoded

The alternatives of a type are tried in the order of the grammar.  One that does not fit may have
got far before it fails: it has saved attributes, entered other structures, and had types inside of
it resolved in the same way.  None of this reaches the next alternative, so each of them comes to
what it would come to on its own, and the first that fits is the one that counts.

* `Grammar.FirstAlternative`: the first of the alternatives that fits;
* `OrderedChoice`: what resolving a type comes to;
* `resolveTypeBy_ordered`: the choice, whatever decodes the alternatives;
* `typeRun_ordered`: runs that share a stack make the choice as if each alternative had it alone;
* `resolveType_ordered`: the choice from outside, and inside of other structures.
-/

namespace WireGrammar

variable {g : Grammar} {o : Options} {typeName : String} {input : Slice} {ctx : StreamContext}

/-! ### Ordered choice -/

/-- The structure is an alternative of the type: its first descriptor says so. -/
def Structure.IsAlternative (s : Structure) (typeName : String) : Prop :=
  s.descriptors.head? = some (.type typeName)

/-- Of the alternatives of a type that fit, `s` is the first one in the order of the grammar. -/
structure Grammar.FirstAlternative (g : Grammar) (typeName : String)
    (Fits : Structure → StructureOutcome → Prop) (s : Structure) (out : StructureOutcome) :
    Prop where
  isAlternative : s.IsAlternative typeName
  fits : Fits s out
  first : ∃ before after, g.structures = before ++ s :: after ∧
    ∀ t ∈ before, t.IsAlternative typeName → ∀ out, ¬Fits t out

/-- What resolving a type comes to, if `Fits` says which structures are decoded and how. -/
structure OrderedChoice (g : Grammar) (typeName : String) (input : Slice) (ctx : StreamContext)
    (Fits : Structure → StructureOutcome → Prop) (result : Attempt Resolved) : Prop where
  succeeds : (∃ r, result = .ok r) ↔
    ∃ s ∈ g.structures, s.IsAlternative typeName ∧ ∃ out, Fits s out
  chosen : ∀ r, result = .ok r ↔
    ∃ s out, g.FirstAlternative typeName Fits s out ∧ r = out.resolved s input
  /-- Where nothing fits, the context is left as it was. -/
  refused : ∀ failure, result = .error failure ↔
    (∀ s ∈ g.structures, s.IsAlternative typeName → ∀ out, ¬Fits s out) ∧
      failure = ⟨.noMatchingStructure typeName input.offset input.bytes.head?, ctx⟩

theorem Structure.typeName?_eq_some {s : Structure} :
    s.typeName? = some typeName ↔ s.IsAlternative typeName := by
  obtain ⟨name, ds⟩ := s
  cases ds with
  | nil => simp [typeName?, IsAlternative]
  | cons d ds => cases d <;> simp [typeName?, IsAlternative]

theorem Grammar.mem_structuresOfType {s : Structure} :
    s ∈ g.structuresOfType typeName ↔ s ∈ g.structures ∧ s.IsAlternative typeName := by
  rw [structuresOfType, List.mem_filter, beq_iff_eq, Structure.typeName?_eq_some]

/-- Which structures are decoded, and how, matters for structures of the grammar only. -/
theorem OrderedChoice.congr {Fits Fits' : Structure → StructureOutcome → Prop}
    {result : Attempt Resolved} (h : OrderedChoice g typeName input ctx Fits result)
    (same : ∀ s ∈ g.structures, ∀ out, Fits s out ↔ Fits' s out) :
    OrderedChoice g typeName input ctx Fits' result where
  succeeds := by
    rw [h.succeeds]
    refine exists_congr fun s => and_congr_right fun mem => and_congr_right fun _ => ?_
    exact exists_congr (same s mem)
  chosen r := by
    rw [h.chosen]
    refine exists_congr fun s => exists_congr fun out => and_congr_left fun _ => ?_
    constructor
    · rintro ⟨alternative, fits, before, after, split, none⟩
      refine ⟨alternative, (same s (by simp [split]) out).mp fits, before, after, split, ?_⟩
      intro t mem typed out fits'
      exact none t mem typed out ((same t (by simp [split, mem]) out).mpr fits')
    · rintro ⟨alternative, fits, before, after, split, none⟩
      refine ⟨alternative, (same s (by simp [split]) out).mpr fits, before, after, split, ?_⟩
      intro t mem typed out fits'
      exact none t mem typed out ((same t (by simp [split, mem]) out).mp fits')
  refused failure := by
    rw [h.refused]
    refine and_congr_left fun _ => forall₂_congr fun s mem => forall_congr' fun _ => ?_
    exact forall_congr' fun out => not_congr (same s mem out)

/-! ### The choice by a decoder -/

section Decoder

variable {enter : StructureParser}

/-- The structures that come first do not fit, and the one behind them does. -/
theorem firstFit_eq_some_iff {ss : List Structure} {r : Resolved} :
    firstFit enter input ctx ss = some r ↔
      ∃ before s after out, ss = before ++ s :: after ∧
        (∀ t ∈ before, ∀ out, enter t input ctx ≠ .ok out) ∧ enter s input ctx = .ok out ∧
          r = out.resolved s input := by
  constructor
  · intro found
    induction ss with
    | nil => cases found
    | cons t ss ih =>
      rw [firstFit] at found
      cases result : enter t input ctx with
      | ok out =>
        rw [result] at found
        cases found
        exact ⟨[], t, ss, out, rfl, by simp, result, rfl⟩
      | error failure =>
        rw [result] at found
        obtain ⟨before, s, after, out, rfl, none, fits, resolved⟩ := ih found
        refine ⟨t :: before, s, after, out, rfl, List.forall_mem_cons.mpr ⟨?_, none⟩, fits,
          resolved⟩
        intro out ok
        rw [result] at ok
        cases ok
  · rintro ⟨before, s, after, out, rfl, none, fits, rfl⟩
    induction before with
    | nil =>
      rw [List.nil_append, firstFit, fits]
    | cons t before ih =>
      obtain ⟨here, others⟩ := List.forall_mem_cons.mp none
      rw [List.cons_append, firstFit]
      cases result : enter t input ctx with
      | ok out' => exact absurd result (here out')
      | error failure => exact ih others

theorem firstFit_eq_none_iff {ss : List Structure} :
    firstFit enter input ctx ss = none ↔ ∀ s ∈ ss, ∀ out, enter s input ctx ≠ .ok out := by
  induction ss with
  | nil => simp [firstFit]
  | cons s ss ih =>
    rw [firstFit, List.forall_mem_cons, ← ih]
    cases result : enter s input ctx with
    | ok out => simp
    | error failure => simp

/-- The first alternative that fits is the first structure that is an alternative and fits. -/
theorem firstFit_structuresOfType {r : Resolved} :
    firstFit enter input ctx (g.structuresOfType typeName) = some r ↔
      ∃ s out, g.FirstAlternative typeName (fun t out => enter t input ctx = .ok out) s out ∧
        r = out.resolved s input := by
  rw [firstFit_eq_some_iff]
  constructor
  · rintro ⟨before, s, after, out, split, none, fits, rfl⟩
    obtain ⟨front, back, whole, filtered, rest⟩ := List.filter_eq_append_iff.mp split
    obtain ⟨skipped, behind, rfl, others, typed, -⟩ := List.filter_eq_cons_iff.mp rest
    refine ⟨s, out, ⟨Structure.typeName?_eq_some.mp (eq_of_beq typed), fits, front ++ skipped,
      behind, by rw [whole, List.append_assoc], ?_⟩, rfl⟩
    intro t mem alternative
    have typed : (t.typeName? == some typeName) = true :=
      beq_iff_eq.mpr (Structure.typeName?_eq_some.mpr alternative)
    rcases List.mem_append.mp mem with early | late
    · exact none t (filtered ▸ List.mem_filter.mpr ⟨early, typed⟩)
    · exact absurd typed (others t late)
  · rintro ⟨s, out, ⟨alternative, fits, before, after, split, none⟩, rfl⟩
    have typed : (s.typeName? == some typeName) = true :=
      beq_iff_eq.mpr (Structure.typeName?_eq_some.mpr alternative)
    refine ⟨before.filter (·.typeName? == some typeName), s,
      after.filter (·.typeName? == some typeName), out, ?_, ?_, fits, rfl⟩
    · rw [Grammar.structuresOfType, split, List.filter_append,
        List.filter_cons_of_pos (p := fun t : Structure => t.typeName? == some typeName) typed]
    · intro t mem
      obtain ⟨early, typed⟩ := List.mem_filter.mp mem
      exact none t early (Structure.typeName?_eq_some.mp (eq_of_beq typed))

/-- **Whatever decodes the alternatives, resolving a type is an ordered choice among them.** -/
theorem resolveTypeBy_ordered (g : Grammar) (enter : StructureParser) (typeName : String)
    (input : Slice) (ctx : StreamContext) :
    OrderedChoice g typeName input ctx (fun t out => enter t input ctx = .ok out)
      (resolveTypeBy g enter typeName input ctx) := by
  have fits : (∀ s ∈ g.structuresOfType typeName, ∀ out, enter s input ctx ≠ .ok out) ↔
      ∀ s ∈ g.structures, s.IsAlternative typeName → ∀ out, enter s input ctx ≠ .ok out := by
    simp only [Grammar.mem_structuresOfType, and_imp]
  unfold resolveTypeBy
  cases found : firstFit enter input ctx (g.structuresOfType typeName) with
  | some r =>
    obtain ⟨s, out, first, same⟩ := firstFit_structuresOfType.mp found
    obtain ⟨before, after, split, -⟩ := first.first
    have mem : s ∈ g.structures := by simp [split]
    refine ⟨⟨fun _ => ⟨s, mem, first.isAlternative, out, first.fits⟩, fun _ => ⟨r, rfl⟩⟩, ?_, ?_⟩
    · intro r'
      rw [← firstFit_structuresOfType, found]
      simp
    · intro failure
      constructor
      · intro failed
        cases failed
      · rintro ⟨none, -⟩
        exact absurd first.fits (none s mem first.isAlternative out)
  | none =>
    have none := fits.mp (firstFit_eq_none_iff.mp found)
    refine ⟨⟨?_, ?_⟩, ?_, ?_⟩
    · rintro ⟨r, ok⟩
      cases ok
    · rintro ⟨s, mem, alternative, out, ok⟩
      exact absurd ok (none s mem alternative out)
    · intro r
      rw [← firstFit_structuresOfType, found]
      simp
    · intro failure
      constructor
      · intro failed
        cases failed
        exact ⟨none, rfl⟩
      · rintro ⟨-, rfl⟩
        rfl

end Decoder

/-! ### The choice in runs -/

/-- A structure is decoded from a stack just if a run from that stack comes to it, and such a run
hands the stack back. -/
theorem enterStructure_eq_ok_iff_run {buffer : Slice} {stack : Active}
    (behind : stack.Behind g buffer input) {s : Structure} (mem : s ∈ g.structures)
    (out : StructureOutcome) :
    enterStructure g o (depthBound g buffer) stack s input ctx = .ok out ↔
      ∃ depth es, structureRuns g o depth s input ctx stack (.ok out) stack es := by
  have enough : depthBound g buffer ≤ depthBound g buffer + stack.length := Nat.le_add_right ..
  constructor
  · intro ok
    obtain ⟨es, run⟩ := structureRuns_total (o := o) _ behind enough mem (.refl input) ctx
    rw [ok] at run
    exact ⟨_, es, run⟩
  · rintro ⟨depth, es, run⟩
    exact (structureRuns_sound depth _ behind enough mem (.refl input) run).result.symm

/-- **A run that resolves a type makes the ordered choice.**  The alternatives share a stack of the
structures that are being decoded, each going on with the one that the alternative before it has
left.  Still each of them is decoded just if it is from the stack as it was. -/
theorem typeRun_ordered {buffer : Slice} {stack stack' : Active}
    (behind : stack.Behind g buffer input) {depth : Nat} {res : Attempt Resolved}
    {es : List Event}
    (run : TypeRun g (structureRuns g o depth) typeName input ctx stack res stack' es) :
    stack' = stack ∧
      OrderedChoice g typeName input ctx
        (fun t out => ∃ depth es, structureRuns g o depth t input ctx stack (.ok out) stack es)
        res := by
  have enough : depthBound g buffer ≤ depthBound g buffer + stack.length := Nat.le_add_right ..
  obtain ⟨result, handed, -⟩ :=
    run.sound (structureRuns_sound depth _ behind enough) (.refl input)
  refine ⟨handed, ?_⟩
  rw [result]
  exact (resolveTypeBy_ordered g _ typeName input ctx).congr
    fun s mem out => enterStructure_eq_ok_iff_run behind mem out

/-! ### Types from outside and inside -/

/-- A structure of the grammar is what its name stands for. -/
theorem Grammar.WellFormed.parseStructure_eq (wf : g.WellFormed) {s : Structure}
    (mem : s ∈ g.structures) :
    parseStructure g o s.name input ctx = enterOutermost g o s input ctx := by
  rw [parseStructure, wf.getStructure?_eq_some.mpr ⟨mem, rfl⟩]

/-- **Resolving a type is an ordered choice among its alternatives.**  From outside, the type is
resolved just if one of its alternatives is decoded from the same context when it is asked for by
its name; the first of these in the order of the grammar is the result, with its fields, the bytes
it takes, the structure that follows and the context it leaves.  Otherwise the context stays as it
was, and the failure shows the first byte, if there is one.  The same is true inside of other
structures, with respect to those that are being decoded there, and of every run, although all
alternatives work on one stack. -/
theorem resolveType_ordered (wf : g.WellFormed) (o : Options) (typeName : String) (input : Slice)
    (ctx : StreamContext) :
    OrderedChoice g typeName input ctx
      (fun t out => parseStructure g o t.name input ctx = .ok out)
      (resolveType g o typeName input ctx) ∧
    (input.bytes.head? = none ↔ input.length = 0) ∧
    (∀ depth active, OrderedChoice g typeName input ctx
      (fun t out => enterStructure g o depth active t input ctx = .ok out)
      (resolveTypeBy g (enterStructure g o depth active) typeName input ctx)) ∧
    ∀ buffer stack, Active.Behind g buffer stack input → ∀ depth res stack' es,
      TypeRun g (structureRuns g o depth) typeName input ctx stack res stack' es →
        stack' = stack ∧ OrderedChoice g typeName input ctx
          (fun t out => ∃ depth es, structureRuns g o depth t input ctx stack (.ok out) stack es)
          res := by
  refine ⟨?_, ?_, ?_, ?_⟩
  · refine (resolveTypeBy_ordered g _ typeName input ctx).congr fun s mem out => ?_
    rw [wf.parseStructure_eq mem]
  · rw [List.head?_eq_none_iff, Slice.length, List.length_eq_zero_iff]
  · intro depth active
    exact resolveTypeBy_ordered g _ typeName input ctx
  · intro buffer stack behind depth res stack' es run
    exact typeRun_ordered behind run

/-- The first alternative saves a length for the second, then nests a frame of its own, and wants a
zero behind it. -/
def frames : Grammar where
  roots := ["Marked"]
  structures := [
    ⟨"Marked", [
      .type "Frame",
      .field ⟨"mark", {
        length := some (.bits 8)
        triggers := some [.onField "pair" [.set .length], .saveToContext] }, false⟩,
      .field ⟨"inner", { parse := some "Frame" }, false⟩,
      .field ⟨"end", { length := some (.bits 8), values := some (.single (.int 0)) }, false⟩]⟩,
    ⟨"Pair", [.type "Frame", .field ⟨"pair", { length := some (.bits 16) }, false⟩]⟩,
    ⟨"Any", [.type "Frame", .field ⟨"any", { length := some (.bits 8) }, false⟩]⟩]

theorem resolveType_ordered_frames :
    frames.WellFormed ∧
    (∃ r s out, resolveType frames {} "Frame" ⟨4, [1, 2, 3, 9]⟩ .empty = .ok r ∧
      r.decoded.name = "Pair" ∧ r.consumed = 2 ∧
      frames.FirstAlternative "Frame"
        (fun t out => parseStructure frames {} t.name ⟨4, [1, 2, 3, 9]⟩ .empty = .ok out) s out ∧
      r = out.resolved s ⟨4, [1, 2, 3, 9]⟩) ∧
    ((Slice.mk 4 []).bytes.head? = none ∧
      resolveType frames {} "Frame" ⟨4, []⟩ .empty =
        .error ⟨.noMatchingStructure "Frame" 4 none, .empty⟩ ∧
      ∀ s ∈ frames.structures, s.IsAlternative "Frame" → ∀ out,
        parseStructure frames {} s.name ⟨4, []⟩ .empty ≠ .ok out) ∧
    (resolveTypeBy frames (enterStructure frames {} 20 [("Any", 4), ("Pair", 4)]) "Frame" ⟨4, [1]⟩
        .empty = .error ⟨.noMatchingStructure "Frame" 4 (some 1), .empty⟩ ∧
      ∀ s ∈ frames.structures, s.IsAlternative "Frame" → ∀ out,
        enterStructure frames {} 20 [("Any", 4), ("Pair", 4)] s ⟨4, [1]⟩ .empty ≠ .ok out) ∧
    ∃ depth res stack es, Active.Behind frames ⟨4, [1, 2, 3, 9]⟩ [] ⟨4, [1, 2, 3, 9]⟩ ∧
      TypeRun frames (structureRuns frames {} depth) "Frame" ⟨4, [1, 2, 3, 9]⟩ .empty [] res stack
        es ∧
      stack = [] ∧ OrderedChoice frames "Frame" ⟨4, [1, 2, 3, 9]⟩ .empty
        (fun t out => ∃ depth es, structureRuns frames {} depth t ⟨4, [1, 2, 3, 9]⟩ .empty []
          (.ok out) [] es) res := by
  have wf : frames.WellFormed := ⟨by decide, by decide, by decide⟩
  obtain ⟨outermost, -, -, runs⟩ :=
    resolveType_ordered wf {} "Frame" ⟨4, [1, 2, 3, 9]⟩ .empty
  obtain ⟨ends, first, -, -⟩ := resolveType_ordered wf {} "Frame" ⟨4, []⟩ .empty
  obtain ⟨-, -, nested, -⟩ := resolveType_ordered wf {} "Frame" ⟨4, [1]⟩ .empty
  refine ⟨wf, ?_, ⟨first.mpr rfl, ?_⟩, ?_, ?_⟩
  · have decoded : (resolveType frames {} "Frame" ⟨4, [1, 2, 3, 9]⟩ .empty).toOption.map
        (fun r => (r.decoded.name, r.consumed)) = some ("Pair", 2) := by
      decide +kernel
    obtain ⟨r, decoded, shown⟩ := Option.map_eq_some_iff.mp decoded
    have ok := Attempt.eq_ok_of_toOption decoded
    obtain ⟨s, out, chosen, resolved⟩ := (outermost.chosen r).mp ok
    obtain ⟨named, taken⟩ := Prod.mk.inj shown
    exact ⟨r, s, out, ok, named, taken, chosen, resolved⟩
  · have failed : (resolveType frames {} "Frame" ⟨4, []⟩ .empty).toOption.isNone = true := by
      decide +kernel
    obtain ⟨failure, failed⟩ := Attempt.eq_error_of_toOption failed
    obtain ⟨none, rfl⟩ := (ends.refused failure).mp failed
    exact ⟨failed, none⟩
  · have failed : (resolveTypeBy frames (enterStructure frames {} 20 [("Any", 4), ("Pair", 4)])
        "Frame" ⟨4, [1]⟩ .empty).toOption.isNone = true := by
      decide +kernel
    obtain ⟨failure, failed⟩ := Attempt.eq_error_of_toOption failed
    obtain ⟨none, rfl⟩ := ((nested 20 _).refused failure).mp failed
    exact ⟨failed, none⟩
  · obtain ⟨es, depth, stack, run⟩ :=
      (typeCall_terminates frames {} "Frame" ⟨4, [1, 2, 3, 9]⟩ .empty).ends
    have behind := Active.Behind.empty frames ⟨4, [1, 2, 3, 9]⟩
    obtain ⟨handed, choice⟩ := runs _ [] behind depth _ stack es run
    exact ⟨depth, _, stack, es, behind, run, handed, choice⟩

end WireGrammar
