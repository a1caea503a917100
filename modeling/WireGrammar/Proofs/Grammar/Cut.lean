import WireGrammar.Proofs.Decoding.Calls
import WireGrammar.Proofs.Decoding.Lockstep
import WireGrammar.Proofs.Structure.Account
import WireGrammar.Proofs.Structure.Cut

/-!
# A grammar with one structure cut at its end

What a structure comes to without the descriptors behind its end does not only matter where it is
asked for: it may be entered anywhere in a packet, as an alternative that is tried or as one that
follows another, and so may those around it be tried and given up.  All that is entered can be
listed.  A packet is decoded to the same with the structure cut, unless somewhere on the list it
comes short of what is behind its end.

* `visits`: the structures that are entered, one inside of the other;
* `enterStructure_of_cut`: they come to the same, inside of others or not;
* `results_of_cut`: and so does everything that can be asked for;
* `short_of_behind`: a structure that is decoded only if it is cut.
-/

namespace WireGrammar

variable {g g' : Grammar} {o : Options} {x s s' : Structure} {input : Slice} {ctx : StreamContext}

/-! ### What is entered -/

/-- A structure that is entered, and what decodes the targets inside of it. -/
structure Visit where
  targets : TargetParser
  owner : Structure
  input : Slice
  context : StreamContext

/-- The structure comes short of what is behind its end. -/
def Visit.comesShort (o : Options) (v : Visit) : Bool :=
  v.owner.comesShort o v.targets v.input v.context

/-- The structures that are tried in order, up to the first that fits. -/
def triedAmong (enter : StructureParser) (input : Slice) (ctx : StreamContext) :
    List Structure → List Structure
  | [] => []
  | s :: ss =>
    match enter s input ctx with
    | .ok _ => [s]
    | .error _ => s :: triedAmong enter input ctx ss

/-- The structures that are tried for a call. -/
def tried (g : Grammar) (enter : StructureParser) (call : TargetCall) : List Structure :=
  match g.getStructure? call.name with
  | some s => [s]
  | none => triedAmong enter call.input call.context (g.structuresOfType call.name)

/-- What is entered where a structure is, that one first. -/
def visits (g : Grammar) (o : Options) : (depth : Nat) → Active → Structure → Slice →
    StreamContext → List Visit
  | 0, _, _, _, _ => []
  | depth + 1, active, s, input, ctx =>
    if active.contains (s.name, input.offset) then []
    else
      let within := (s.name, input.offset) :: active
      let enter := enterStructure g o depth within
      ⟨parseTargetBy g enter, s, input, ctx⟩ ::
        (runCalls o (parseTargetBy g enter) (.start s input ctx)).flatMap fun call =>
          (tried g enter call).flatMap fun t => visits g o depth within t call.input call.context

/-- What is entered where a structure is that no other is decoded around. -/
def outermostVisits (g : Grammar) (o : Options) (s : Structure) (input : Slice)
    (ctx : StreamContext) : List Visit :=
  visits g o (depthBound g input) [] s input ctx

/-- What is entered for a call that no structure is decoded around. -/
def callVisits (g : Grammar) (o : Options) (call : TargetCall) : List Visit :=
  (tried g (enterOutermost g o) call).flatMap fun t =>
    outermostVisits g o t call.input call.context

/-- What is entered for a structure that is asked for by its name. -/
def structureVisits (g : Grammar) (o : Options) (name : String) (input : Slice)
    (ctx : StreamContext) : List Visit :=
  match g.getStructure? name with
  | some s => outermostVisits g o s input ctx
  | none => []

/-- What is entered for a type. -/
def typeVisits (g : Grammar) (o : Options) (typeName : String) (input : Slice)
    (ctx : StreamContext) : List Visit :=
  (triedAmong (enterOutermost g o) input ctx (g.structuresOfType typeName)).flatMap fun t =>
    outermostVisits g o t input ctx

/-- The roots that are tried in order, up to the first that takes the packet. -/
def rootsTried (g : Grammar) (o : Options) (packet : List UInt8) (ctx : StreamContext) :
    List String → List String
  | [] => []
  | root :: roots =>
    match parseRoot g o packet root ctx with
    | .ok _ => [root]
    | .error _ => root :: rootsTried g o packet ctx roots

/-- What is entered for a packet. -/
def packetVisits (g : Grammar) (o : Options) (packet : List UInt8) (ctx : StreamContext) :
    List Visit :=
  (rootsTried g o packet ctx g.roots).flatMap fun root =>
    (chainCalls (parseTarget g o) ⟨root, ⟨0, packet⟩, ctx⟩).flatMap (callVisits g o)

/-- Nowhere on the list the structure comes short of what is behind its end. -/
def Structure.NeverShort (x : Structure) (o : Options) (vs : List Visit) : Prop :=
  ∀ v ∈ vs, v.owner = x → v.comesShort o = false

theorem Structure.NeverShort.of_flatMap {α : Type} {f : α → List Visit} {as : List α}
    (h : x.NeverShort o (as.flatMap f)) {a : α} (mem : a ∈ as) : x.NeverShort o (f a) :=
  fun v visit => h v (List.mem_flatMap.mpr ⟨a, mem, visit⟩)

/-! ### Grammars side by side -/

/-- The grammar `g'` has the structures of `g`, one of them cut. -/
structure Grammar.Cut (g : Grammar) (x : Structure) (g' : Grammar) : Prop where
  roots : g'.roots = g.roots
  structures : ∃ before after, g.structures = before ++ x :: after ∧
    g'.structures = before ++ x.cut :: after

/-- The structures stand at the same place of the two grammars. -/
def CutPair (x s s' : Structure) : Prop := s' = s ∨ s = x ∧ s' = x.cut

theorem CutPair.name_eq (h : CutPair x s s') : s'.name = s.name := by
  rcases h with rfl | ⟨rfl, rfl⟩ <;> rfl

theorem CutPair.typeName?_eq (h : CutPair x s s') : s'.typeName? = s.typeName? := by
  rcases h with rfl | ⟨rfl, rfl⟩
  · rfl
  · exact s.typeName?_cut

namespace Grammar.Cut

variable (cut : g.Cut x g')

include cut

theorem pairs : List.Forall₂ (CutPair x) g.structures g'.structures := by
  obtain ⟨before, after, here, there⟩ := cut.structures
  have same (ss : List Structure) : List.Forall₂ (CutPair x) ss ss :=
    List.forall₂_same.mpr fun _ _ => .inl rfl
  rw [here, there]
  exact List.rel_append (same before) (.cons (.inr ⟨rfl, rfl⟩) (same after))

theorem getStructure? (name : String) :
    g.getStructure? name = none ∧ g'.getStructure? name = none ∨
      ∃ s s', g.getStructure? name = some s ∧ g'.getStructure? name = some s' ∧ CutPair x s s' :=
  find?_of_forall₂ cut.pairs fun s s' pair => by rw [pair.name_eq]

theorem structuresOfType (typeName : String) :
    List.Forall₂ (CutPair x) (g.structuresOfType typeName) (g'.structuresOfType typeName) := by
  have same : ∀ s s', CutPair x s s' →
      (s.typeName? == some typeName ↔ s'.typeName? == some typeName) := by
    intro s s' pair
    rw [pair.typeName?_eq]
  exact List.rel_filter (fun s s' pair => same s s' pair) cut.pairs

theorem depthBound_eq (input : Slice) : depthBound g' input = depthBound g input := by
  rw [depthBound, depthBound, cut.pairs.length_eq]

end Grammar.Cut

/-! ### Targets by name -/

section Target

variable {enter enter' : StructureParser}

/-- A decoded structure carries nothing of its declaration but the name. -/
theorem CutPair.resolved_eq (h : CutPair x s s') (out : StructureOutcome) (input : Slice) :
    out.resolved s' input = out.resolved s input := by
  rw [StructureOutcome.resolved, StructureOutcome.resolved, h.name_eq]

/-- The first that fits is the same if all that are tried come to the same. -/
theorem firstFit_of_pairs {ss ss' : List Structure} (pairs : List.Forall₂ (CutPair x) ss ss')
    (same : ∀ t ∈ triedAmong enter input ctx ss, ∀ t', CutPair x t t' →
      enter' t' input ctx = enter t input ctx) :
    firstFit enter' input ctx ss' = firstFit enter input ctx ss := by
  -- Behind the first that fits nothing is tried, so nothing is known of the others there.
  induction pairs with
  | nil => rfl
  | @cons s s' ss ss' pair _ ih =>
    rw [triedAmong] at same
    rw [firstFit, firstFit]
    cases fits : enter s input ctx with
    | ok out =>
      rw [fits] at same
      rw [same s (List.mem_singleton_self s) s' pair, fits]
      simp only [pair.resolved_eq]
    | error failure =>
      rw [fits] at same
      obtain ⟨first, others⟩ := List.forall_mem_cons.mp same
      rw [first s' pair, fits]
      exact ih others

theorem resolveTypeBy_of_cut (cut : g.Cut x g') {typeName : String}
    (same : ∀ t ∈ triedAmong enter input ctx (g.structuresOfType typeName), ∀ t', CutPair x t t' →
      enter' t' input ctx = enter t input ctx) :
    resolveTypeBy g' enter' typeName input ctx = resolveTypeBy g enter typeName input ctx := by
  rw [resolveTypeBy, resolveTypeBy, firstFit_of_pairs (cut.structuresOfType typeName) same]

/-- A call comes to the same if all structures do that are tried for it. -/
theorem TargetCall.on_of_cut (cut : g.Cut x g') {call : TargetCall}
    (same : ∀ t ∈ tried g enter call, ∀ t', CutPair x t t' →
      enter' t' call.input call.context = enter t call.input call.context) :
    call.on (parseTargetBy g' enter') = call.on (parseTargetBy g enter) := by
  rw [TargetCall.on, TargetCall.on, parseTargetBy, parseTargetBy]
  rw [tried] at same
  rcases cut.getStructure? call.name with ⟨here, there⟩ | ⟨s, s', here, there, pair⟩
  · rw [here] at same
    rw [here, there]
    exact resolveTypeBy_of_cut cut same
  · rw [here] at same
    rw [here, there]
    simp only [same s (List.mem_singleton_self s) s' pair, pair.resolved_eq]

end Target

/-! ### Structures -/

/-- **A structure comes to the same in the two grammars**, or cut itself, if nothing that is entered
comes short of what is behind its end. -/
theorem enterStructure_of_cut (cut : g.Cut x g') {depth : Nat} {active : Active}
    (pair : CutPair x s s') (never : x.NeverShort o (visits g o depth active s input ctx)) :
    enterStructure g' o depth active s' input ctx =
      enterStructure g o depth active s input ctx := by
  induction depth generalizing active s s' input ctx with
  | zero => rw [enterStructure, enterStructure, pair.name_eq]
  | succ depth ih =>
    rw [enterStructure, enterStructure, pair.name_eq]
    by_cases around : active.contains (s.name, input.offset) = true
    · rw [if_pos around, if_pos around]
    · rw [visits, if_neg around] at never
      obtain ⟨own, inner⟩ := List.forall_mem_cons.mp never
      rw [if_neg around, if_neg around]
      generalize (s.name, input.offset) :: active = within at own inner ⊢
      -- The calls that are made come to the same, and so does the run over the descriptors of `s`.
      have same : ∀ call ∈ runCalls o (parseTargetBy g (enterStructure g o depth within))
          (.start s input ctx),
          call.on (parseTargetBy g' (enterStructure g' o depth within)) =
            call.on (parseTargetBy g (enterStructure g o depth within)) :=
        fun call made => TargetCall.on_of_cut cut fun t tries t' pair =>
          ih pair (Structure.NeverShort.of_flatMap (.of_flatMap inner made) tries)
      have run := parseFields_of_calls same
      have uncut : parseDescriptors o (parseTargetBy g' (enterStructure g' o depth within)) s input
          ctx = parseDescriptors o (parseTargetBy g (enterStructure g o depth within)) s input ctx :=
        congrArg (Except.bind · _) run
      rcases pair with rfl | ⟨rfl, rfl⟩
      · exact uncut
      · refine (parseDescriptors_cut ?_).trans uncut
        rw [Structure.comesShort, run]
        exact own rfl

theorem enterOutermost_of_cut (cut : g.Cut x g') (pair : CutPair x s s')
    (never : x.NeverShort o (outermostVisits g o s input ctx)) :
    enterOutermost g' o s' input ctx = enterOutermost g o s input ctx := by
  rw [enterOutermost, enterOutermost, cut.depthBound_eq]
  exact enterStructure_of_cut cut pair never

/-! ### Entry points -/

theorem parseTarget_of_cut (cut : g.Cut x g') {call : TargetCall}
    (never : x.NeverShort o (callVisits g o call)) :
    call.on (parseTarget g' o) = call.on (parseTarget g o) :=
  TargetCall.on_of_cut cut fun _ tries _ pair =>
    enterOutermost_of_cut cut pair (never.of_flatMap tries)

theorem parseRoot_of_cut (cut : g.Cut x g') {packet : List UInt8} {root : String}
    (never : x.NeverShort o
      ((chainCalls (parseTarget g o) ⟨root, ⟨0, packet⟩, ctx⟩).flatMap (callVisits g o))) :
    parseRoot g' o packet root ctx = parseRoot g o packet root ctx := by
  have same : chain (parseTarget g' o) root ⟨0, packet⟩ ctx =
      chain (parseTarget g o) root ⟨0, packet⟩ ctx :=
    chain_of_calls fun call made => parseTarget_of_cut cut (never.of_flatMap made)
  rw [parseRoot, parseRoot, attemptRoot_eq, attemptRoot_eq]
  exact congrArg (Except.bind · _) same

theorem firstRoot_of_cut (cut : g.Cut x g') {packet : List UInt8} {last : ParseError}
    {roots : List String}
    (never : x.NeverShort o ((rootsTried g o packet ctx roots).flatMap fun root =>
      (chainCalls (parseTarget g o) ⟨root, ⟨0, packet⟩, ctx⟩).flatMap (callVisits g o))) :
    firstRoot g' o packet ctx last roots = firstRoot g o packet ctx last roots := by
  induction roots generalizing last with
  | nil => rfl
  | cons root roots ih =>
    rw [rootsTried] at never
    rw [firstRoot, firstRoot]
    cases takes : parseRoot g o packet root ctx with
    | ok result =>
      rw [takes] at never
      rw [parseRoot_of_cut cut (never.of_flatMap (List.mem_singleton_self root)), takes]
    | error failure =>
      rw [takes] at never
      rw [parseRoot_of_cut cut (never.of_flatMap List.mem_cons_self), takes]
      exact ih fun v visit => never v (List.mem_append_right _ visit)

/-- **Descriptors behind the end of a structure are not decoded.**  If one structure is cut at its
end, everything that can be asked of the grammar comes to the same and leaves the same context,
wherever it is decoded and from whatever context, unless on the way this structure comes short of
what is behind its end.  There it fails for a field that is declared behind its end, and is decoded
if it is cut. -/
theorem results_of_cut (cut : g.Cut x g') (o : Options) :
    (∀ name input ctx, x.NeverShort o (structureVisits g o name input ctx) →
      parseStructure g' o name input ctx = parseStructure g o name input ctx) ∧
    (∀ typeName input ctx, x.NeverShort o (typeVisits g o typeName input ctx) →
      resolveType g' o typeName input ctx = resolveType g o typeName input ctx) ∧
    (∀ name input ctx, x.NeverShort o (callVisits g o ⟨name, input, ctx⟩) →
      parseTarget g' o name input ctx = parseTarget g o name input ctx) ∧
    (∀ packet ctx, x.NeverShort o (packetVisits g o packet ctx) →
      parseTopLevel g' o packet ctx = parseTopLevel g o packet ctx) ∧
    ∀ parse input ctx, x.comesShort o parse input ctx = true →
      (∃ f, .field f ∈ x.behindEnd ∧
        ∃ failure, parseDescriptors o parse x input ctx = .error failure ∧
          failure.error = .incompleteStructure x.name f.name) ∧
      ∃ out, parseDescriptors o parse x.cut input ctx = .ok out ∧ out.next = none := by
  refine ⟨?_, ?_, ?_, ?_, fun _ _ _ short => parseDescriptors_of_comesShort short⟩
  · intro name input ctx never
    rw [structureVisits] at never
    rw [parseStructure, parseStructure]
    rcases cut.getStructure? name with ⟨here, there⟩ | ⟨s, s', here, there, pair⟩
    · rw [here, there]
    · rw [here] at never
      rw [here, there]
      exact enterOutermost_of_cut cut pair never
  · intro typeName input ctx never
    exact resolveTypeBy_of_cut cut fun t tries t' pair =>
      enterOutermost_of_cut cut pair (never.of_flatMap tries)
  · intro name input ctx never
    exact parseTarget_of_cut cut never
  · intro packet ctx never
    rw [parseTopLevel, parseTopLevel, cut.roots]
    exact firstRoot_of_cut cut never

/-- A structure with a field behind the name of the one that follows. -/
def trailed : Structure where
  name := "S"
  descriptors := [
    .type "U",
    .field ⟨"a", { length := some (.bits 8) }, false⟩,
    .next "T",
    .field ⟨"b", { length := some (.bits 8) }, false⟩]

/-- What follows it. -/
def following : Structure := ⟨"T", [.field ⟨"x", { length := some (.bits 8) }, false⟩]⟩

/-- The two, with the first one as it is. -/
def untrimmed : Grammar := ⟨["S"], [trailed, following]⟩

/-- The two, with the first one cut. -/
def trimmed : Grammar := ⟨["S"], [trailed.cut, following]⟩

theorem cut_trimmed : untrimmed.Cut trailed trimmed := ⟨rfl, [], [following], rfl, rfl⟩

theorem Structure.neverShort_of_all {vs : List Visit}
    (h : vs.all (fun v => !v.comesShort o) = true) : x.NeverShort o vs :=
  fun v visit _ => by simpa using List.all_eq_true.mp h v visit

/-- The packet has a byte for each of the two structures; the last byte is one too few for both. -/
theorem results_of_cut_trimmed :
    (∃ out, parseStructure trimmed {} "S" ⟨3, [1, 2]⟩ .empty = .ok out ∧ out.next = some "T") ∧
    resolveType trimmed {} "U" ⟨3, [1, 2]⟩ .empty =
      resolveType untrimmed {} "U" ⟨3, [1, 2]⟩ .empty ∧
    parseTarget trimmed {} "U" ⟨3, [1, 2]⟩ .empty =
      parseTarget untrimmed {} "U" ⟨3, [1, 2]⟩ .empty ∧
    (∃ tree ctx, parseTopLevel trimmed {} [1, 2] .empty = (.ok tree, ctx) ∧
      tree.structures.map (·.name) = ["S", "T"]) ∧
    (∃ failure, parseDescriptors {} (parseTarget untrimmed {}) trailed ⟨3, [1]⟩ .empty =
        .error failure ∧
      failure.error = .incompleteStructure "S" "b") ∧
    ∃ out, parseDescriptors {} (parseTarget untrimmed {}) trailed.cut ⟨3, [1]⟩ .empty =
        .ok out ∧ out.next = none := by
  obtain ⟨byName, byType, byTarget, whole, short⟩ := results_of_cut cut_trimmed {}
  obtain ⟨⟨f, behind, failure, failed, missing⟩, decoded⟩ :=
    short (parseTarget untrimmed {}) ⟨3, [1]⟩ .empty (by decide +kernel)
  -- Nothing but `b` is declared behind the name of the structure that follows.
  obtain rfl : f = ⟨"b", { length := some (.bits 8) }, false⟩ :=
    Descriptor.field.inj (List.mem_singleton.mp behind)
  refine ⟨?_, byType "U" _ _ (Structure.neverShort_of_all (by decide +kernel)),
    byTarget "U" _ _ (Structure.neverShort_of_all (by decide +kernel)), ?_,
    ⟨failure, failed, missing⟩, decoded⟩
  · have next : (parseStructure untrimmed {} "S" ⟨3, [1, 2]⟩ .empty).toOption.map (·.next) =
        some (some "T") := by
      decide +kernel
    obtain ⟨out, decoded, next⟩ := Option.map_eq_some_iff.mp next
    exact ⟨out, (byName "S" _ _ (Structure.neverShort_of_all (by decide +kernel))).trans
      (Attempt.eq_ok_of_toOption decoded), next⟩
  · have names : (parseTopLevel untrimmed {} [1, 2] .empty).1.toOption.map
        (fun tree => tree.structures.map (·.name)) = some ["S", "T"] := by
      decide +kernel
    obtain ⟨tree, decoded, names⟩ := Option.map_eq_some_iff.mp names
    exact ⟨tree, _, (whole [1, 2] .empty (Structure.neverShort_of_all (by decide +kernel))).trans
      (eq_ok_of_toOption decoded), names⟩

/-- The bytes end before the structure that follows is named, so the field behind the name is
missing.  Without that field the structure is decoded. -/
theorem short_of_behind :
    untrimmed.Cut trailed trimmed ∧
    (∃ failure, parseStructure untrimmed {} "S" ⟨0, [1]⟩ .empty = .error failure ∧
      failure.error = .incompleteStructure "S" "b") ∧
    ∃ out, parseStructure trimmed {} "S" ⟨0, [1]⟩ .empty = .ok out ∧
      out.fields.map (fun d => (d.name, d.value?)) = [("a", some (.uint 1))] ∧
      out.consumed = 1 ∧ out.next = none := by
  have failed : Attempt.cause? (parseStructure untrimmed {} "S" ⟨0, [1]⟩ .empty) =
      some (.incompleteStructure "S" "b") := by
    decide +kernel
  have shape : (parseStructure trimmed {} "S" ⟨0, [1]⟩ .empty).toOption.map (fun out =>
      (out.fields.map (fun d => (d.name, d.value?)), out.consumed, out.next)) =
      some ([("a", some (.uint 1))], 1, none) := by
    decide +kernel
  obtain ⟨out, decoded, shape⟩ := Option.map_eq_some_iff.mp shape
  obtain ⟨fields, rest⟩ := Prod.mk.inj shape
  obtain ⟨consumed, next⟩ := Prod.mk.inj rest
  exact ⟨cut_trimmed, Attempt.eq_error_of_cause? failed,
    out, Attempt.eq_ok_of_toOption decoded, fields, consumed, next⟩

end WireGrammar
