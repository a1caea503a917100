import Mathlib.Data.List.ProdSigma
import WireGrammar.Proofs.Run.Outcome

/-!
# Decoding comes to an end

Structures may nest themselves, follow themselves, and change at run time what they nest.  Still
every call comes to an end: a structure is not entered again where it is already being decoded, so
a stack holds no more structures than the grammar has, at no more offsets than the buffer has.

* `Terminates`: there is a run, and every run is bounded;
* `calls_terminate`: all calls from outside do.

The bound on the depth that the decoding itself works with is out of reach, so a run, which has
none, computes the same (`structureRuns_sound`, `structureRuns_total`).
-/

namespace WireGrammar

variable {g : Grammar} {o : Options} {buffer input whole : Slice} {stack : Active}

/-! ### Stacks -/

/-- A stack holds no more than every structure at every offset. -/
theorem Active.Legal.length_le (h : stack.Legal g buffer) :
    stack.length ≤ g.structures.length * (buffer.length + 1) := by
  have covered : stack ⊆
      g.structures.map (·.name) ×ˢ List.range' buffer.offset (buffer.length + 1) := by
    intro entry mem
    obtain ⟨known, low, high⟩ := h.inside entry mem
    refine List.mem_product.mpr ⟨known, List.mem_range'_1.mpr ⟨low, ?_⟩⟩
    omega
  have few := h.distinct.length_le_of_subset covered
  rwa [List.length_product, List.length_map, List.length_range'] at few

/-- A stack that a structure within `input` can be put on. -/
structure Active.Behind (g : Grammar) (buffer : Slice) (stack : Active) (input : Slice) : Prop where
  legal : stack.Legal g buffer
  before : ∀ entry ∈ stack, entry.2 ≤ input.offset
  inside : input.Inside buffer

namespace Active.Behind

theorem empty (g : Grammar) (buffer : Slice) : Active.Behind g buffer [] buffer where
  legal := ⟨.nil, .nil, by simp⟩
  before := by simp
  inside := .refl buffer

theorem further (h : stack.Behind g buffer whole) (inside : input.Inside whole) :
    stack.Behind g buffer input where
  legal := h.legal
  before entry mem := Nat.le_trans (h.before entry mem) inside.1
  inside := inside.trans h.inside

/-- A structure that the stack does not have at the offset yet comes on top of it. -/
theorem push (h : stack.Behind g buffer input) {s : Structure} (mem : s ∈ g.structures)
    (fresh : (s.name, input.offset) ∉ stack) :
    Active.Behind g buffer ((s.name, input.offset) :: stack) input where
  legal := {
    distinct := List.nodup_cons.mpr ⟨fresh, h.legal.distinct⟩
    ordered := List.pairwise_cons.mpr ⟨h.before, h.legal.ordered⟩
    inside := by
      have low := h.inside.1
      have high := h.inside.2
      refine List.forall_mem_cons.mpr ⟨⟨List.mem_map_of_mem mem, low, ?_⟩, h.legal.inside⟩
      show input.offset ≤ buffer.offset + buffer.length
      omega }
  before := List.forall_mem_cons.mpr ⟨Nat.le_refl _, h.before⟩
  inside := h.inside

end Active.Behind

/-! ### Structures -/

/-- A name stands for a structure that takes no more than there is. -/
theorem consumed_le_of_parseTargetBy {depth : Nat} {name : String} {ctx : StreamContext}
    {r : Resolved} (h : parseTargetBy g (enterStructure g o depth stack) name input ctx = .ok r) :
    r.consumed ≤ input.length :=
  ((decodingInvariant_tiled g o ctx).of_parseTargetBy h (.refl g ctx)).2.consumed

/-- Where the stack leaves no room for structures that the bound would refuse, runs are lawful. -/
theorem structureRuns_sound (depth bound : Nat) (behind : stack.Behind g buffer whole)
    (enough : depthBound g buffer ≤ bound + stack.length) :
    StructureRuns.Sound (structureRuns g o depth) (enterStructure g o bound stack) g buffer stack
      whole := by
  induction depth generalizing bound stack whole with
  | zero => intro _ _ _ _ _ _ _ _ run; cases run
  | succ depth ih =>
    intro s input ctx res stack' es mem inside run
    have here := behind.further inside
    have room := behind.legal.length_le
    obtain ⟨bound, rfl⟩ : ∃ n, bound = n + 1 := ⟨bound - 1, by unfold depthBound at enough; omega⟩
    cases run with
    | refused there =>
      refine ⟨?_, rfl, by simp [Event.Bounded]⟩
      rw [enterStructure, if_pos (List.contains_iff_mem.mpr there)]
    | @entered _ _ _ _ res turns pushed es fresh run =>
      -- The stack is longer by one and the bound smaller by one, so there is still room.
      have top := here.push mem fresh
      have sound := NameRun.sound (ih bound top (by rw [List.length_cons]; omega))
      obtain ⟨⟨result, rfl, events⟩, few⟩ := run.sound sound (.refl input)
        fun name input ctx r ok => consumed_le_of_parseTargetBy ok
      refine ⟨?_, rfl, fun e he => ?_⟩
      · rw [enterStructure, if_neg (fresh ∘ List.contains_iff_mem.mp), result, parseDescriptors]
      · simp only [List.cons_append, List.mem_cons, List.mem_append, List.not_mem_nil,
          or_false] at he
        rcases he with rfl | he | rfl | rfl
        · exact ⟨top.legal, top.legal.length_le⟩
        · exact events e he
        · have fits := here.inside.1
          have ends := here.inside.2
          simp only [Progress.work, Progress.start, BitCursor.remainingBits, BitCursor.start,
            List.length_map] at few
          refine ⟨?_, ?_⟩ <;> omega
        · rfl

/-- Whatever is computed of structures is computed by a run. -/
theorem structureRuns_total (depth : Nat) (behind : stack.Behind g buffer whole)
    (enough : depthBound g buffer ≤ depth + stack.length) :
    StructureRuns.Total (structureRuns g o depth) (enterStructure g o depth stack) g stack
      whole := by
  induction depth generalizing stack whole with
  | zero =>
    have room := behind.legal.length_le
    unfold depthBound at enough
    omega
  | succ depth ih =>
    intro s input mem inside ctx
    have here := behind.further inside
    rw [enterStructure]
    split
    · next there => exact ⟨_, .refused (List.contains_iff_mem.mp there)⟩
    · next fresh =>
      replace fresh : (s.name, input.offset) ∉ stack := fresh ∘ List.contains_iff_mem.mpr
      have top := here.push mem fresh
      have total := StructureRuns.Total.name (ih top (by rw [List.length_cons]; omega))
      obtain ⟨turns, es, run⟩ := total.descriptors (o := o) (p := .start s input ctx)
        (fun name input ctx r ok => consumed_le_of_parseTargetBy ok) (.refl input)
      exact ⟨_, .entered fresh run⟩

/-- Any bound that is large enough is as good as any other. -/
theorem enterStructure_eq (bound bound' : Nat) (behind : stack.Behind g buffer input)
    (enough : depthBound g buffer ≤ bound + stack.length)
    (enough' : depthBound g buffer ≤ bound' + stack.length) {s : Structure}
    (mem : s ∈ g.structures) (ctx : StreamContext) :
    enterStructure g o bound stack s input ctx = enterStructure g o bound' stack s input ctx := by
  obtain ⟨es, run⟩ := structureRuns_total (o := o) bound behind enough mem (.refl input) ctx
  exact (structureRuns_sound bound bound' behind enough' mem (.refl input) run).result

/-! ### Calls from outside -/

theorem Event.Bounded.mono {e : Event} (h : e.Bounded g input) (inside : input.Inside buffer) :
    e.Bounded g buffer := by
  have low := inside.1
  have high := inside.2
  cases e with
  | entered stack =>
    have legal : stack.Legal g buffer := {
      distinct := h.1.distinct
      ordered := h.1.ordered
      inside entry mem := by
        obtain ⟨known, start, stop⟩ := h.1.inside entry mem
        refine ⟨known, ?_, ?_⟩ <;> omega }
    exact ⟨legal, legal.length_le⟩
  | left before after => exact h
  | turns descriptors bytes count =>
    refine ⟨?_, h.2⟩
    have := h.1
    omega
  | chain taken => exact h
  | list taken => exact h

theorem enterOutermost_sound (depth : Nat) :
    StructureRuns.Sound (structureRuns g o depth) (enterOutermost g o) g buffer [] buffer := by
  intro s input ctx res stack' es mem inside run
  obtain ⟨result, handed, events⟩ := structureRuns_sound depth (depthBound g input)
    (.empty g input) (Nat.le_refl _) mem (.refl input) run
  exact ⟨result, handed, fun e he => (events e he).mono inside⟩

theorem enterOutermost_total :
    StructureRuns.Total (structureRuns g o (depthBound g buffer)) (enterOutermost g o) g []
      buffer := by
  intro s input mem inside ctx
  -- The run may go as deep as the whole buffer allows, the computation as its slice does.
  have few : depthBound g input ≤ depthBound g buffer := by
    have low := inside.1
    have high := inside.2
    exact Nat.succ_le_succ (Nat.mul_le_mul_left _ (by omega))
  obtain ⟨es, run⟩ := structureRuns_total (o := o) (depthBound g buffer) (.empty g buffer)
    (Nat.le_refl _) mem inside ctx
  have same := enterStructure_eq (o := o) (depthBound g buffer) (depthBound g input)
    (.empty g input) few (Nat.le_refl _) mem ctx
  rw [same] at run
  exact ⟨es, run⟩

/-- There is a run, and every run comes to the value and shows bounded events only. -/
structure Terminates {α ε : Type} (runs : α → List ε → Prop) (value : α) (bounded : ε → Prop) :
    Prop where
  ends : ∃ es, runs value es
  only : ∀ {res es}, runs res es → res = value ∧ ∀ e ∈ es, bounded e

theorem structureCall_terminates (g : Grammar) (o : Options) (name : String) (input : Slice)
    (ctx : StreamContext) :
    Terminates (StructureCall g o name input ctx) (parseStructure g o name input ctx)
      (Event.Bounded g input) := by
  unfold parseStructure
  cases found : g.getStructure? name with
  | none =>
    refine ⟨⟨_, .unknown found⟩, fun run => ?_⟩
    cases run with
    | known known => rw [found] at known; cases known
    | unknown => exact ⟨rfl, by simp⟩
  | some s =>
    have mem : s ∈ g.structures := List.mem_of_find?_eq_some found
    obtain ⟨es, run⟩ := enterOutermost_total (o := o) mem (.refl input) ctx
    refine ⟨⟨es, .known found ⟨_, _, run⟩⟩, fun run => ?_⟩
    cases run with
    | known known run =>
      obtain ⟨depth, stack, run⟩ := run
      cases found.symm.trans known
      obtain ⟨result, -, events⟩ := enterOutermost_sound depth mem (.refl input) run
      exact ⟨result, events⟩
    | unknown missing => rw [found] at missing; cases missing

theorem typeCall_terminates (g : Grammar) (o : Options) (name : String) (input : Slice)
    (ctx : StreamContext) :
    Terminates (TypeCall g o name input ctx) (resolveType g o name input ctx)
      (Event.Bounded g input) where
  ends := by
    obtain ⟨es, run⟩ := (enterOutermost_total (o := o)).type name ctx (.refl input)
    exact ⟨es, _, _, run⟩
  only := by
    rintro res es ⟨depth, stack, run⟩
    obtain ⟨result, -, events⟩ := run.sound (enterOutermost_sound depth) (.refl input)
    exact ⟨result, events⟩

theorem nameCall_terminates (g : Grammar) (o : Options) (name : String) (input : Slice)
    (ctx : StreamContext) :
    Terminates (NameCall g o name input ctx) (parseTarget g o name input ctx)
      (Event.Bounded g input) where
  ends := by
    obtain ⟨es, run⟩ := (enterOutermost_total (o := o)).name (.refl input)
    exact ⟨es, _, _, run⟩
  only := by
    rintro res es ⟨depth, stack, run⟩
    obtain ⟨result, -, events⟩ := NameRun.sound (enterOutermost_sound depth) (.refl input) run
    exact ⟨result, events⟩

/-! ### Packets -/

theorem nameCalls_sound :
    TargetRuns.Sound (nameCalls g o) (parseTarget g o) g buffer stack buffer := by
  rintro name input ctx res stack' es inside ⟨handed, run⟩
  obtain ⟨result, events⟩ := (nameCall_terminates g o name input ctx).only run
  exact ⟨result, handed, fun e he => (events e he).mono inside⟩

theorem nameCalls_total : TargetRuns.Total (nameCalls g o) (parseTarget g o) stack buffer := by
  intro name input ctx inside
  obtain ⟨es, run⟩ := (nameCall_terminates g o name input ctx).ends
  exact ⟨es, rfl, run⟩

theorem rootRun_terminates (g : Grammar) (o : Options) (packet : List UInt8) (root : String)
    (ctx : StreamContext) :
    Terminates (RootRun g o packet root ctx) (parseRoot g o packet root ctx)
      (Event.Bounded g ⟨0, packet⟩) where
  ends := by
    obtain ⟨taken, es, run⟩ := (nameCalls_total (g := g) (o := o)).chain root ctx (.refl ⟨0, packet⟩)
    rw [parseRoot, attemptRoot_eq]
    exact ⟨_, .ended run⟩
  only := by
    rintro _ _ ⟨run⟩
    obtain ⟨⟨result, -, events⟩, progressive⟩ := run.sound nameCalls_sound (.refl ⟨0, packet⟩)
    exact ⟨by rw [result, parseRoot, attemptRoot_eq],
      List.forall_mem_append.mpr ⟨events, List.forall_mem_singleton.mpr progressive⟩⟩

theorem rootsRun_terminates (g : Grammar) (o : Options) (packet : List UInt8)
    (ctx : StreamContext) (last : ParseError) (roots : List String) :
    Terminates (RootsRun g o packet ctx last roots) (firstRoot g o packet ctx last roots)
      (Event.Bounded g ⟨0, packet⟩) where
  ends := by
    induction roots generalizing last with
    | nil => exact ⟨_, .none⟩
    | cons root roots ih =>
      obtain ⟨es, run⟩ := (rootRun_terminates g o packet root ctx).ends
      rw [firstRoot]
      split
      · next ok =>
        rw [ok] at run
        exact ⟨_, .fits run⟩
      · next failure failed =>
        rw [failed] at run
        obtain ⟨es', rest⟩ := ih failure.error
        exact ⟨_, .rejected run rest⟩
  only := by
    intro res es run
    induction run with
    | none => exact ⟨rfl, by simp⟩
    | fits run =>
      obtain ⟨ok, events⟩ := (rootRun_terminates g o packet _ ctx).only run
      exact ⟨by rw [firstRoot, ← ok], events⟩
    | rejected run rest ih =>
      obtain ⟨failed, events⟩ := (rootRun_terminates g o packet _ ctx).only run
      obtain ⟨rfl, events'⟩ := ih
      have all := List.forall_mem_append.mpr ⟨events, events'⟩
      exact ⟨by rw [firstRoot, ← failed], all⟩

theorem grammarsRun_terminates (o : Options) (packet : List UInt8) (ctx : StreamContext)
    (tried : Nat) (last : DissectError) (entries : List (String × Grammar)) :
    Terminates (GrammarsRun o packet ctx tried last entries)
      (firstGrammar o packet ctx tried last entries)
      (fun e => e.2.Bounded e.1 ⟨0, packet⟩) where
  ends := by
    induction entries generalizing ctx tried last with
    | nil => exact ⟨_, .none⟩
    | cons entry entries ih =>
      obtain ⟨id, g⟩ := entry
      obtain ⟨es, run⟩ := (rootsRun_terminates g o packet ctx noRoot g.roots).ends
      rw [firstGrammar, parseTopLevel]
      split
      · next ok =>
        rw [ok] at run
        exact ⟨_, .fits run⟩
      · next cause after failed =>
        rw [failed] at run
        obtain ⟨es', rest⟩ := ih after (tried + 1) (.exhausted (tried + 1) id cause)
        exact ⟨_, .rejected run rest⟩
  only := by
    intro res es run
    have shown {g : Grammar} {es : List Event} (events : ∀ e ∈ es, e.Bounded g ⟨0, packet⟩) :
        ∀ e ∈ es.map (Prod.mk g), e.2.Bounded e.1 ⟨0, packet⟩ :=
      List.forall_mem_map.mpr events
    induction run with
    | none => exact ⟨rfl, by simp⟩
    | @fits ctx _ _ _ g _ _ _ _ run =>
      obtain ⟨ok, events⟩ := (rootsRun_terminates g o packet ctx noRoot g.roots).only run
      exact ⟨by rw [firstGrammar, parseTopLevel, ← ok], shown events⟩
    | @rejected ctx _ _ _ g _ _ _ _ _ _ run rest ih =>
      obtain ⟨failed, events⟩ := (rootsRun_terminates g o packet ctx noRoot g.roots).only run
      obtain ⟨rfl, events'⟩ := ih
      have all := List.forall_mem_append.mpr ⟨shown events, events'⟩
      exact ⟨by rw [firstGrammar, parseTopLevel, ← failed], all⟩

/-- Every call from outside comes to an end, whatever the grammar, the options, the context and the
bytes.  On the way the stacks of structures being decoded are legal, and so no deeper than the
structures of the grammar times the offsets of the buffer; each call hands its stack back; a
structure takes no more turns than it has descriptors and its buffer bits; and each turn of a chain
or list but the last takes at least a byte. -/
theorem calls_terminate (g : Grammar) (o : Options) (name : String) (input : Slice)
    (gs : GrammarSet) (packet : List UInt8) (ctx : StreamContext) :
    Terminates (StructureCall g o name input ctx) (parseStructure g o name input ctx)
      (Event.Bounded g input) ∧
    Terminates (TypeCall g o name input ctx) (resolveType g o name input ctx)
      (Event.Bounded g input) ∧
    Terminates (NameCall g o name input ctx) (parseTarget g o name input ctx)
      (Event.Bounded g input) ∧
    Terminates (RootsRun g o packet ctx noRoot g.roots) (parseTopLevel g o packet ctx)
      (Event.Bounded g ⟨0, packet⟩) ∧
    Terminates (GrammarsRun o packet ctx 0 .noGrammars gs.entries) (dissect gs o packet ctx)
      (fun e => e.2.Bounded e.1 ⟨0, packet⟩) :=
  ⟨structureCall_terminates g o name input ctx, typeCall_terminates g o name input ctx,
    nameCall_terminates g o name input ctx, rootsRun_terminates g o packet ctx noRoot g.roots,
    grammarsRun_terminates o packet ctx 0 .noGrammars gs.entries⟩

end WireGrammar
