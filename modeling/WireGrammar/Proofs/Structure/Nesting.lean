import WireGrammar.Proofs.Decoding.Entry
import WireGrammar.Proofs.Decoding.Failure
import WireGrammar.Proofs.Structure.Repetition
import WireGrammar.Proofs.Termination

/-!
# Recursion that takes bytes

A structure must not be entered where it is already being decoded.  If every structure starts with
a scalar that is always read, then targets are decoded behind it, at least a byte further on, since
they start between two bytes.  So however structures nest themselves, no entry is ever refused.

* `Grammar.Productive`: the structures start with such a scalar;
* `Entry.behind_of_inner`: what is entered inside of such a structure is entered behind its start;
* `Entry.refused_of_recursive`: only refused entries make decoding fail for recursion;
* `ascending_of_productive`: no entry is refused, and the offsets ascend;
* `recursive_of_kept`: a trigger that the context holds for another field can make a structure enter
  itself.
-/

namespace WireGrammar

variable {g : Grammar} {o : Options} {parse : TargetParser} {entry : StreamContext}

/-! ### Failures for recursion -/

/-- A structure was entered where it was being decoded. -/
def ParseError.isRecursive : ParseError → Bool
  | .recursiveStructure .. => true
  | _ => false

section Recursive

variable {failure : Failure} (recursive : failure.error.isRecursive = true)

/-- A chain fails in one of its calls. -/
theorem call_of_chain_eq_error {call : TargetCall}
    (h : chain parse call.name call.input call.context = .error failure) :
    ∃ c ∈ chainCalls parse call, c.on parse = .error failure := by
  fun_induction chainCalls parse call with
  | case1 call failure' failed =>
    rw [chain_of_error failed] at h
    cases h
    exact ⟨call, List.mem_singleton_self _, failed⟩
  | case2 call r ok stop =>
    rw [chain_of_stop ok stop] at h
    cases h
  | case3 call r ok next go ih =>
    rw [chain_of_go ok go] at h
    cases rest : chain parse next (call.input.drop r.consumed) r.context with
    | ok c => rw [rest] at h; cases h
    | error failure' =>
      rw [rest] at h
      cases h
      obtain ⟨c, mem, failed⟩ := ih rest
      exact ⟨c, List.mem_cons_of_mem _ mem, failed⟩

/-- A list fails in one of its calls. -/
theorem call_of_chains_eq_error {repetition : Repetition} {name : String} {input : Slice}
    {ctx : StreamContext} (h : chains parse repetition name input ctx = .error failure) :
    ∃ c ∈ listCalls parse repetition name input ctx, c.on parse = .error failure := by
  fun_induction listCalls parse repetition name input ctx with
  | case1 repetition input ctx ended =>
    rw [chains_of_done ended] at h
    cases h
  | case2 repetition input ctx go failure' failed =>
    rw [chains_of_error go failed] at h
    exact call_of_chain_eq_error (failed.trans h)
  | case3 repetition input ctx go c ok forward ih =>
    rw [chains_of_forward go ok forward] at h
    cases rest : chains parse repetition.pred name c.rest c.context with
    | ok c => rw [rest] at h; cases h
    | error failure' =>
      rw [rest] at h
      cases h
      obtain ⟨c, mem, failed⟩ := ih rest
      exact ⟨c, List.mem_append_right _ mem, failed⟩
  | case4 repetition input ctx go c ok still =>
    rw [chains_of_stuck go ok still] at h
    cases h

include recursive

/-- A field that no target stands for does not fail for recursion. -/
theorem parseField_ne_recursive {f : FieldDescriptor} {p : Progress}
    (own : (p.memory.effective f).isPresent p.fields = false ∨
      (p.memory.effective f).parse = none) : parseField o parse f p ≠ .error failure := by
  intro h
  -- As what decodes the targets is not asked for anything, it may be one that fails otherwise.
  rw [parseField_of_own own parse fun _ _ ctx => .error ⟨.unknownStructure "", ctx⟩] at h
  have refused := parseField_eq_error h
  generalize failure.error = e at refused recursive
  cases refused with
  | unreadable | rejected | unsettable => cases recursive
  | target viewed failed =>
    obtain ⟨_, _, _, failed, -⟩ := chains_eq_error failed
    cases failed
    cases recursive

/-- A turn fails for recursion in one of its calls. -/
theorem call_of_parseField_eq_error {f : FieldDescriptor} {p : Progress}
    (h : parseField o parse f p = .error failure) :
    ∃ c ∈ fieldCalls parse f p, c.on parse = .error failure := by
  cases present : (p.memory.effective f).isPresent p.fields with
  | false => exact absurd h (parseField_ne_recursive recursive (.inl present))
  | true =>
    cases delegated : (p.memory.effective f).parse with
    | none => exact absurd h (parseField_ne_recursive recursive (.inr delegated))
    | some name =>
      cases viewed : (p.memory.effective f).view p.cursor with
      | error cause =>
        rw [parseField_of_unviewed present delegated viewed] at h
        cases h
        cases recursive
      | ok view =>
        rw [parseField_of_viewed present delegated viewed] at h
        rw [fieldCalls_of_viewed present delegated viewed]
        refine call_of_chains_eq_error ?_
        cases list : chains parse ((p.memory.effective f).repetition (p.memory.dynamicLength f))
          name view p.context with
        | ok c => rw [list] at h; cases h
        | error failure' => rw [list] at h; cases h; rfl

/-- A run fails for recursion in one of its calls. -/
theorem call_of_parseFields_eq_error {p : Progress} (h : parseFields o parse p = .error failure) :
    ∃ c ∈ runCalls o parse p, c.on parse = .error failure := by
  fun_induction runCalls o parse p with
  | case1 p ended => rw [parseFields_of_exhausted ended] at h; cases h
  | case2 p left none => rw [parseFields_of_nil none] at h; cases h
  | case3 p left item queue first name kind ih =>
    rw [parseFields_of_type (eq_false_of_ne_true left) first kind] at h
    exact ih h
  | case4 p left item queue first name kind =>
    rw [parseFields_of_next (eq_false_of_ne_true left) first kind] at h
    cases h
  | case5 p left item queue first f kind q ok ih =>
    rw [parseFields_of_turn (eq_false_of_ne_true left) first kind ok] at h
    obtain ⟨c, mem, failed⟩ := ih h
    exact ⟨c, List.mem_append_right _ mem, failed⟩
  | case6 p left item queue first f kind failure' failed again ih =>
    rw [parseFields_of_dropped (eq_false_of_ne_true left) first kind failed again] at h
    obtain ⟨c, mem, failed⟩ := ih h
    exact ⟨c, List.mem_append_right _ mem, failed⟩
  | case7 p left item queue first f kind failure' failed last =>
    rw [parseFields_of_failed (eq_false_of_ne_true left) first kind failed last] at h
    cases h
    exact call_of_parseField_eq_error recursive failed

/-- A structure fails for recursion in one of its calls. -/
theorem call_of_parseDescriptors_eq_error {s : Structure} {input : Slice} {ctx : StreamContext}
    (h : parseDescriptors o parse s input ctx = .error failure) :
    ∃ c ∈ runCalls o parse (.start s input ctx), c.on parse = .error failure := by
  rw [parseDescriptors] at h
  cases run : parseFields o parse (.start s input ctx) with
  | error failure' =>
    rw [run] at h
    cases h
    exact call_of_parseFields_eq_error recursive run
  | ok fin =>
    simp only [run, Except.bind, Finish.outcome] at h
    split at h
    · split at h
      · cases h
        cases recursive
      · cases h
    · cases h

/-- A call fails for recursion in one of the structures that are tried for it. -/
theorem tried_of_on_eq_error {enter : StructureParser} {call : TargetCall}
    (h : call.on (parseTargetBy g enter) = .error failure) :
    ∃ s ∈ tried g enter call, enter s call.input call.context = .error failure := by
  rw [TargetCall.on, parseTargetBy] at h
  rw [tried]
  cases found : g.getStructure? call.name with
  | some s =>
    rw [found] at h
    refine ⟨s, List.mem_singleton_self s, ?_⟩
    cases entered : enter s call.input call.context with
    | ok out => simp [entered, Except.map] at h
    | error failure' => simpa [entered, Except.map] using h
  | none =>
    simp only [found, resolveTypeBy] at h
    split at h
    · cases h
    · cases h
      cases recursive

/-- An entry that fails for recursion is refused, or one inside fails so. -/
theorem Entry.recursive_cases {e : Entry} (h : e.outcome g o = .error failure) :
    e.isRefused = true ∨ ∃ e' ∈ e.inner g o, e'.outcome g o = .error failure := by
  cases refused : e.isRefused with
  | true => exact .inl rfl
  | false =>
    rw [outcome_eq refused] at h
    obtain ⟨call, made, failed⟩ := call_of_parseDescriptors_eq_error recursive h
    obtain ⟨s, tries, failed⟩ := tried_of_on_eq_error recursive failed
    refine .inr ⟨⟨e.depth - 1, e.stack, s, call.input, call.context⟩, ?_, failed⟩
    rw [inner, if_neg (by simp [refused])]
    exact List.mem_flatMap.mpr ⟨call, made, List.mem_map_of_mem tries⟩

/-- **Only refused entries make decoding fail for recursion.** -/
theorem Entry.refused_of_recursive {q : Query} {e : Entry} (reached : q.Reaches g o e)
    (h : e.outcome g o = .error failure) : ∃ e', q.Reaches g o e' ∧ e'.isRefused = true := by
  generalize same : e.depth = depth
  induction depth generalizing e with
  | zero => exact ⟨e, reached, by simp [isRefused, same]⟩
  | succ depth ih =>
    rcases recursive_cases recursive h with refused | ⟨e', inside, failed⟩
    · exact ⟨e, reached, refused⟩
    · refine ih (.inner reached inside) failed ?_
      obtain ⟨-, t, -, call, -, s, -, rfl⟩ := mem_inner inside
      simp only [same, Nat.add_sub_cancel]

end Recursive

/-! ### Structures that start with a scalar -/

/-- A scalar without conditions and with a length that takes bits, which neither triggers nor the
context change. -/
structure Leading (g : Grammar) (ctx : StreamContext) (f : FieldDescriptor) : Prop where
  own : f.attributes.parse = none
  always : f.attributes.conditions.getD [] = []
  sized : f.attributes.length.any Length.takesBits = true
  untouched : Untouched g ctx f.name

instance (g : Grammar) (ctx : StreamContext) (f : FieldDescriptor) : Decidable (Leading g ctx f) :=
  decidable_of_iff (f.attributes.parse = none ∧
    (f.attributes.conditions.getD []).isEmpty = true ∧
    f.attributes.length.any Length.takesBits = true ∧ Untouched g ctx f.name)
    ⟨fun h => ⟨h.1, List.isEmpty_iff.mp h.2.1, h.2.2.1, h.2.2.2⟩,
      fun h => ⟨h.own, List.isEmpty_iff.mpr h.always, h.sized, h.untouched⟩⟩

/-- The first field of every structure that has fields is such a scalar. -/
def Grammar.Productive (g : Grammar) (ctx : StreamContext) : Prop :=
  ∀ s ∈ g.structures, ∀ f ∈ s.fields.head?, Leading g ctx f

instance (g : Grammar) (ctx : StreamContext) : Decidable (g.Productive ctx) := by
  unfold Grammar.Productive
  infer_instance

/-- The turn of such a scalar takes at least a bit. -/
theorem Leading.position_pos {s : Structure} {f : FieldDescriptor} {p q : Progress}
    (leading : Leading g entry f) (sourced : p.memory.Sourced g entry s)
    (taken : FieldTurn o parse f p q) : 1 ≤ q.cursor.position := by
  have attributes : p.memory.effective f = f.attributes :=
    leading.untouched.effective_eq sourced rfl
  obtain ⟨length, sized, takesBits⟩ := (Option.any_eq_true _ _).mp leading.sized
  cases taken with
  | idle h =>
    rw [Idle, attributes, FieldAttributes.isPresent, leading.always, sized] at h
    simp at h
  | scalar h =>
    have same := h.sized
    rw [attributes, sized] at same
    cases same
    rw [Progress.cursor_requeueIf]
    exact Nat.one_le_of_lt ((BitCursor.readScalar_eq_ok.mp h.read).position_lt takesBits)
  | target h =>
    have delegated := h.delegated
    rw [attributes, leading.own] at delegated
    cases delegated

/-- The fields that are still to take a turn. -/
def Progress.pendingFields (p : Progress) : List FieldDescriptor :=
  p.queue.filterMap (·.descriptor.field?)

/-- A bit is taken, or the next turn takes one. -/
structure Progress.Led (g : Grammar) (entry : StreamContext) (s : Structure) (input : Slice)
    (p : Progress) : Prop where
  sourced : p.memory.Sourced g entry s
  slice : p.cursor.slice = input
  within : p.cursor.Within
  ahead : 1 ≤ p.cursor.position ∨
    (∀ item ∈ p.queue, item.again = false) ∧ ∀ f ∈ p.pendingFields.head?, Leading g entry f

namespace Progress.Led

variable {s : Structure} {input : Slice} {p q : Progress} {item : Pending} {queue : List Pending}

theorem start {ctx : StreamContext} (leading : ∀ f ∈ s.fields.head?, Leading g entry f)
    (known : SourcedContext g entry ctx) (input : Slice) :
    (Progress.start s input ctx).Led g entry s input where
  sourced := .start known s
  slice := rfl
  within := BitCursor.within_start input
  ahead := by
    refine .inr ⟨fun item mem => ?_, ?_⟩
    · obtain ⟨d, -, rfl⟩ := List.mem_map.mp mem
      rfl
    · rw [pendingFields, Progress.start, List.filterMap_map]
      exact leading

theorem pass (h : p.Led g entry s input) (first : p.queue = item :: queue) {name : String}
    (kind : item.descriptor = .type name) : Led g entry s input { p with queue } where
  sourced := h.sourced
  slice := h.slice
  within := h.within
  ahead := h.ahead.imp_right fun ⟨fresh, leading⟩ => by
    rw [first] at fresh
    rw [pendingFields, first, List.filterMap_cons, kind] at leading
    exact ⟨fun later mem => fresh later (List.mem_cons_of_mem _ mem), leading⟩

theorem drop (h : p.Led g entry s input) (first : p.queue = item :: queue)
    (again : item.again = true) : Led g entry s input { p with queue } where
  sourced := h.sourced
  slice := h.slice
  within := h.within
  ahead := by
    rcases h.ahead with taken | ⟨fresh, -⟩
    · exact .inl taken
    · rw [fresh item (first ▸ List.mem_cons_self)] at again
      cases again

variable {f : FieldDescriptor}

/-- Where no bit is taken yet, the next field to take its turn is the leading one. -/
theorem leading (h : p.Led g entry s input) (first : p.queue = item :: queue)
    (kind : item.descriptor = .field f) : 1 ≤ p.cursor.position ∨ Leading g entry f := by
  refine h.ahead.imp_right fun ⟨_, leading⟩ => leading f ?_
  rw [pendingFields, first, List.filterMap_cons, kind]
  rfl

theorem turn {depth : Nat} {active : Active} (mem : s ∈ g.structures)
    (h : p.Led g entry s input) (first : p.queue = item :: queue)
    (kind : item.descriptor = .field f) (own : .field f ∈ s.descriptors)
    (taken : FieldTurn o (parseTargetBy g (enterStructure g o depth active)) f { p with queue } q) :
    q.Led g entry s input where
  sourced := taken.sourced keeps_of_parseTargetBy h.sourced mem own
  slice := taken.slice_eq.trans h.slice
  within := taken.within h.within
  ahead := by
    rcases h.leading first kind with moved | leading
    · exact .inl (Nat.le_trans moved (taken.position_le h.within))
    · exact .inl (leading.position_pos (p := { p with queue }) h.sourced taken)

end Progress.Led

/-! ### Entries ascend -/

section Ascend

variable {e e' : Entry}

/-- In such a structure, a field that a target may stand for takes its turn behind the first bit. -/
theorem Entry.led_of_turn (productive : g.Productive entry) (mem : e.owner ∈ g.structures)
    (known : SourcedContext g entry e.context) : ∀ t ∈ e.turns g o,
      t.progress.cursor.slice = e.input ∧ t.progress.cursor.isExhausted = false ∧
        (1 ≤ t.progress.cursor.position ∨ (t.progress.memory.effective t.field).parse = none) := by
  unfold turns
  split
  · exact List.forall_mem_nil _
  · refine runTurns_invariant (fun p => p.Led g entry e.owner e.input)
      (fun f p => p.cursor.slice = e.input ∧ p.cursor.isExhausted = false ∧
        (1 ≤ p.cursor.position ∨ (p.memory.effective f).parse = none))
      (.start (productive e.owner mem) known e.input) (Progress.Own.start _ _ _)
      (fun _ _ _ _ hp first kind => hp.pass first kind) ?_
      (fun _ _ _ _ _ hp _ first kind own taken => hp.turn mem first kind own taken)
      (fun _ _ _ hp first again => hp.drop first again)
    intro p item queue f hp left first kind own
    refine ⟨hp.slice, left, (hp.leading first kind).imp_right fun leading => ?_⟩
    rw [leading.untouched.effective_eq hp.sourced rfl]
    exact leading.own

/-- **What is entered inside of such a structure is entered behind its start**, and only where bytes
are left. -/
theorem Entry.behind_of_inner (productive : g.Productive entry) (mem : e.owner ∈ g.structures)
    (known : SourcedContext g entry e.context) (inside : e' ∈ e.inner g o) :
    e.input.offset < e'.input.offset ∧ e'.input.Inside e.input ∧ e'.input.bytes ≠ [] := by
  obtain ⟨-, t, turn, call, made, s, -, rfl⟩ := mem_inner inside
  obtain ⟨name, view, delegated, viewed, made⟩ := viewed_of_mem_fieldCalls made
  obtain ⟨slice, left, moved⟩ := led_of_turn productive mem known t turn
  replace moved := moved.resolve_right (by simp [delegated])
  have viewInside := FieldAttributes.view_inside viewed left
  -- The view starts between two bytes, and so behind the byte that the first bit is in.
  obtain ⟨aligned, offset, -⟩ := FieldAttributes.view_eq_ok viewed
  have index := BitCursor.byteIndex_of_isAligned aligned
  rw [BitCursor.absolute, slice] at offset
  rw [slice] at viewInside
  have callInside := listCalls_invariant (P := fun input _ => input.Inside view)
    (fun ok h => h.drop (consumed_le_of_parseTargetBy ok)) (.refl view) call made
  refine ⟨?_, callInside.trans viewInside, bytes_of_mem_listCalls made⟩
  have low := callInside.1
  simp only
  omega

/-- From the outside, structures are entered within the bytes that the query is about. -/
theorem Query.outermost_inside {q : Query} (mem : e ∈ q.outermost g o) :
    e.input.Inside q.input := by
  have modest {name : String} {input : Slice} {ctx : StreamContext} {r : Resolved}
      (ok : parseTarget g o name input ctx = .ok r) : r.consumed ≤ input.length :=
    ((decodingInvariant_tiled g o ctx).of_parseTarget ok (.refl g ctx)).2.consumed
  exact Query.outermost_invariant (P := fun input _ => input.Inside q.input)
    (fun ok h => h.drop (modest ok)) (.refl _) mem

/-- Where an entry stands among those around it, if entries inside of others start behind them. -/
structure Entry.Ascending (input : Slice) (e : Entry) : Prop where
  ordered : e.stack.Pairwise fun inner outer => outer.2 < inner.2
  inside : e.input.Inside input
  /-- Every entry around takes a byte. -/
  room : input.offset + e.active.length ≤ e.input.offset
  filled : e.active ≠ [] → e.input.bytes ≠ []
  enough : e.input.length < e.depth

namespace Entry.Ascending

theorem outermost {input whole : Slice} {ctx : StreamContext} {s : Structure}
    (mem : s ∈ g.structures) (inside : input.Inside whole) :
    (Entry.outermost g s input ctx).Ascending whole where
  ordered := List.pairwise_singleton _ _
  inside := inside
  room := inside.1
  filled := fun some => absurd rfl some
  enough := by
    have := List.length_pos_of_mem mem
    have := Nat.le_mul_of_pos_left (input.length + 1) this
    simp only [Entry.outermost, depthBound]
    omega

/-- The first byte of an entry is not part of those inside. -/
theorem inner {input : Slice} (h : e.Ascending input) (inside : e' ∈ e.inner g o)
    (behind : e.input.offset < e'.input.offset) (within : e'.input.Inside e.input)
    (some : e'.input.bytes ≠ []) : e'.Ascending input := by
  obtain ⟨-, t, -, call, -, s, -, rfl⟩ := mem_inner inside
  obtain ⟨low, high⟩ := within
  have room := h.room
  have enough := h.enough
  exact {
    ordered := by
      refine List.pairwise_cons.mpr ⟨fun around mem => ?_, h.ordered⟩
      rcases List.mem_cons.mp mem with rfl | further
      · exact behind
      · exact Nat.lt_trans ((List.pairwise_cons.mp h.ordered).1 around further) behind
    inside := Slice.Inside.trans ⟨low, high⟩ h.inside
    room := by
      simp only [stack, List.length_cons] at *
      omega
    filled := fun _ => some
    enough := by
      simp only at *
      omega }

theorem isRefused_eq_false {input : Slice} (h : e.Ascending input) : e.isRefused = false := by
  have enough := h.enough
  have fresh := (List.pairwise_cons.mp h.ordered).1
  simp only [isRefused, Bool.or_eq_false_iff, beq_eq_false_iff_ne]
  refine ⟨by omega, Bool.eq_false_iff.mpr fun there => ?_⟩
  exact Nat.lt_irrefl _ (fresh _ (List.contains_iff_mem.mp there))

theorem length_stack_le {input : Slice} (h : e.Ascending input) :
    e.stack.length ≤ max 1 input.length := by
  obtain ⟨low, high⟩ := h.inside
  have room := h.room
  rw [stack, List.length_cons]
  cases around : e.active with
  | nil => exact Nat.le_max_left ..
  | cons =>
    have some := List.length_pos_iff.mpr (h.filled (by simp [around]))
    rw [around] at room
    simp only [Slice.length] at *
    omega

end Entry.Ascending

variable {q : Query}

theorem Query.Reaches.ascending (productive : g.Productive q.context) (reached : q.Reaches g o e) :
    e.Ascending q.input := by
  induction reached with
  | outermost mem =>
    obtain ⟨own, same⟩ := Query.outermost_eq mem
    rw [same]
    exact .outermost own (Query.outermost_inside mem)
  | inner around mem ih =>
    obtain ⟨own, known⟩ := around.sourced
    obtain ⟨behind, within, some⟩ := Entry.behind_of_inner productive own known mem
    exact ih.inner mem behind within some

/-- **Recursion that takes bytes is never refused.**  If the first field of every structure is a
scalar that is always read and takes bits, then the offsets of structures ascend from each structure
to those inside of it, the structures being decoded are at most as many as there are bytes, and no
structure is refused or fails for recursion.  This holds for all structures that are entered, also
for those that are given up later, whatever is asked of the grammar. -/
theorem ascending_of_productive (productive : g.Productive q.context)
    (reached : q.Reaches g o e) :
    e.isRefused = false ∧ (∀ e' ∈ e.inner g o, e.input.offset < e'.input.offset) ∧
    (e.stack.Pairwise fun inner outer => outer.2 < inner.2) ∧
    e.stack.length ≤ max 1 q.input.length ∧
    ∀ failure, e.outcome g o = .error failure → failure.error.isRecursive = false := by
  have here := reached.ascending productive
  refine ⟨here.isRefused_eq_false, fun e' inside => ?_, here.ordered, here.length_stack_le,
    fun failure failed => ?_⟩
  · obtain ⟨own, known⟩ := reached.sourced
    exact (Entry.behind_of_inner productive own known inside).1
  · refine Bool.eq_false_iff.mpr fun recursive => ?_
    obtain ⟨e', reached', refused⟩ := Entry.refused_of_recursive recursive reached failed
    rw [(reached'.ascending productive).isRefused_eq_false] at refused
    cases refused

end Ascend

/-- A structure that nests itself behind its first two fields. -/
def nestable : Structure where
  name := "S"
  descriptors := [
    .field ⟨"f", { length := some (.bits 8) }, false⟩,
    .field ⟨"h", { length := some (.bits 8) }, false⟩,
    .field ⟨"r", { parse := some "S" }, false⟩]

/-- A grammar that has nothing else. -/
def nestableOnly : Grammar := ⟨["S"], [nestable]⟩

/-- What is asked of it: the structure, from a context. -/
def nestableQuery (ctx : StreamContext) : Query :=
  .structureNamed "S" ⟨0, [1, 5, 2, 5]⟩ ctx

/-- The entry from outside. -/
def nestableEntry (ctx : StreamContext) : Entry :=
  .outermost nestableOnly nestable ⟨0, [1, 5, 2, 5]⟩ ctx

theorem reaches_nestableEntry (ctx : StreamContext) :
    (nestableQuery ctx).Reaches nestableOnly {} (nestableEntry ctx) :=
  .outermost (List.mem_singleton_self _)

/-- Four bytes hold the structure twice. -/
theorem ascending_of_productive_nestable :
    nestableOnly.Productive .empty ∧ ∃ e ∈ (nestableEntry .empty).inner nestableOnly {},
      (nestableQuery .empty).Reaches nestableOnly {} e ∧ e.stack = [("S", 2), ("S", 0)] ∧
      e.isRefused = false ∧ (e.stack.Pairwise fun inner outer => outer.2 < inner.2) ∧
      e.stack.length ≤ 4 := by
  have productive : nestableOnly.Productive .empty := by decide +kernel
  have entered : ((nestableEntry .empty).inner nestableOnly {}).map (·.stack) =
      [[("S", 2), ("S", 0)]] := by
    decide +kernel
  obtain ⟨e, inside, stack⟩ := List.mem_map.mp (entered ▸ List.mem_singleton_self _)
  have reached := (reaches_nestableEntry .empty).inner inside
  obtain ⟨fresh, -, ordered, few, -⟩ := ascending_of_productive productive reached
  exact ⟨productive, e, inside, reached, stack, fresh, ordered, few⟩

/-- A grammar that saves a list of triggers: on `5` the field `h` makes of the fields named `f` the
structure `S`, and saves that as well. -/
def rerouting : Grammar where
  roots := ["S"]
  structures := [
    ⟨"S", [.field ⟨"a", {
      length := some (.bits 8)
      triggers := some [
        .onField "h" [.lookup .triggers [(.int 1, .triggers [
          .onField "f" [.lookup .parse [(.int 5, .parse "S")]], .saveToContext])]],
        .saveToContext] }, false⟩]⟩]

/-- The context with these triggers. -/
def rerouted : StreamContext := (parseTopLevel rerouting {} [1] .empty).2

/-- It is not enough that only the triggers of the grammar leave the first fields alone, and the
context has nothing for them: a trigger that the context holds for another field can have a
structure decoded in place of its own first field. -/
theorem recursive_of_kept :
    (∀ s ∈ nestableOnly.structures, ∀ f ∈ s.fields.head?, f.attributes.parse = none ∧
      f.attributes.conditions.getD [] = [] ∧ f.attributes.length.any Length.takesBits = true ∧
      nestableOnly.every (·.spares f.name) = true ∧ rerouted.get? f.name = none) ∧
    (∃ e, (nestableQuery rerouted).Reaches nestableOnly {} e ∧
      e.stack = [("S", 2), ("S", 2), ("S", 0)] ∧ e.isRefused = true) ∧
    ∃ failure, parseStructure nestableOnly {} "S" ⟨0, [1, 5, 2, 5]⟩ rerouted = .error failure ∧
      failure.error = .recursiveStructure "S" 2 := by
  have absent : rerouted.get? "f" = none := Option.isNone_iff_eq_none.mp (by decide +kernel)
  have entered : (((nestableEntry rerouted).inner nestableOnly {}).flatMap
      (·.inner nestableOnly {})).map (fun e => (e.stack, e.isRefused)) =
      [([("S", 2), ("S", 2), ("S", 0)], true)] := by
    decide +kernel
  have failed : Attempt.cause?
      (parseStructure nestableOnly {} "S" ⟨0, [1, 5, 2, 5]⟩ rerouted) =
      some (.recursiveStructure "S" 2) := by
    decide +kernel
  obtain ⟨e', inside', found⟩ := List.mem_map.mp (entered ▸ List.mem_singleton_self _)
  obtain ⟨e, inside, inside'⟩ := List.mem_flatMap.mp inside'
  obtain ⟨stack, refused⟩ := Prod.mk.inj found
  refine ⟨?_, ⟨e', ((reaches_nestableEntry rerouted).inner inside).inner inside', stack, refused⟩,
    Attempt.eq_error_of_cause? failed⟩
  intro s mem f first
  obtain rfl := List.mem_singleton.mp mem
  cases first
  exact ⟨rfl, rfl, rfl, by decide +kernel, absent⟩

end WireGrammar
