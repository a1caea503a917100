import WireGrammar.Proofs.Decoding.Calls
import WireGrammar.Proofs.Decoding.Step
import WireGrammar.Proofs.Structure.Account

/-!
# Targets that are decoded a number of times

A length in the place of a target says how often the target is decoded.  The list that is built for
it may also end because the bytes of its window have, and this is no failure: a structure may be
decoded although some of the times are left.  Only where all of them are left, because the bytes
have ended before the list, the field counts as missing.

* `count_of_chains`: a list has as many structures as it was asked for, or has used up its window;
* `Counted`: a field that stands for a number of structures;
* `counted_or_used_up`: what follows for the structure that it is a field of;
* `decoded_of_too_few`: two of three structures are there, and nothing is missed.
-/

namespace WireGrammar

variable {o : Options} {parse : TargetParser} {f : FieldDescriptor} {p : Progress} {target : String}
  {n : Nat}

/-! ### Lists of single structures -/

/-- The call decodes, if anything, a structure that takes at least a byte and is not followed by
another. -/
def TargetCall.Single (parse : TargetParser) (call : TargetCall) : Prop :=
  ∀ r, call.on parse = .ok r → 0 < r.consumed ∧ r.next = none

theorem TargetCall.single_iff (parse : TargetParser) (call : TargetCall) : call.Single parse ↔
    (call.on parse).toOption.all (fun r => 0 < r.consumed && r.next.isNone) = true := by
  unfold Single
  cases call.on parse with
  | error failure => simp [Except.toOption]
  | ok r => simp [Except.toOption]

instance (parse : TargetParser) (call : TargetCall) : Decidable (call.Single parse) :=
  decidable_of_iff _ (call.single_iff parse).symm

/-- A chain of one structure takes at least a byte, if there is any. -/
theorem chain_of_single {call : TargetCall} (single : call.Single parse)
    (filled : call.input.bytes ≠ []) {c : Chain}
    (h : chain parse call.name call.input call.context = .ok c) :
    c.structures.length = 1 ∧ c.rest.length < call.input.length := by
  cases ok : parse call.name call.input call.context with
  | error failure =>
    rw [chain_of_error ok] at h
    cases h
  | ok r =>
    obtain ⟨takes, last⟩ := single r ok
    have stop : r.continuation? (call.input.drop r.consumed) = none := by
      rw [Resolved.continuation?, last, ite_self]
    rw [chain_of_stop ok stop] at h
    cases h
    refine ⟨rfl, ?_⟩
    have := List.length_pos_iff.mpr filled
    simp only [Slice.length_drop]
    unfold Slice.length
    omega

/-- A list of single structures has as many of them as it was asked for, or has come to the end of
its bytes. -/
theorem count_of_chains {view : Slice} {ctx : StreamContext} {ch : Chain}
    (single : ∀ call ∈ listCalls parse (.times n) target view ctx, call.Single parse)
    (h : chains parse (.times n) target view ctx = .ok ch) :
    ch.structures.length = n ∨ ch.structures.length < n ∧ ch.rest.length = 0 := by
  generalize times : Repetition.times n = repetition at single h
  fun_induction chains parse repetition target view ctx generalizing n ch with
  | case1 repetition input ctx ended =>
    subst times
    cases h
    rcases Bool.or_eq_true_iff.mp ended with done | none
    · exact .inl (eq_of_beq done).symm
    · have none := List.isEmpty_iff.mp none
      rw [Slice.length, none]
      cases n with
      | zero => exact .inl rfl
      | succ n => exact .inr ⟨Nat.succ_pos n, rfl⟩
  | case2 => cases h
  | case3 repetition input ctx go c ok forward ih =>
    subst times
    rw [listCalls, if_neg go, ok] at single
    simp only [forward, if_true] at single
    obtain ⟨own, later⟩ := List.forall_mem_append.mp single
    simp only [Repetition.isDone, Bool.or_eq_true, beq_iff_eq, List.isEmpty_iff, not_or] at go
    obtain ⟨one, -⟩ := chain_of_single (own _ (mem_chainCalls ..)) go.2 ok
    obtain ⟨ch', rest, rfl⟩ := map_eq_ok.mp h
    have counted := ih rfl later rest
    simp only [Chain.after, List.length_append, one]
    omega
  | case4 repetition input ctx go c ok still =>
    subst times
    rw [listCalls, if_neg go, ok] at single
    simp only [still, if_false] at single
    simp only [Repetition.isDone, Bool.or_eq_true, beq_iff_eq, List.isEmpty_iff, not_or] at go
    exact absurd (chain_of_single (single _ (mem_chainCalls ..)) go.2 ok).2 still

/-! ### Fields that stand for a number of structures -/

/-- At the progress `p`, the field `f` stands for `n` single structures of the target: the length
says so itself, or in bits if it comes from an earlier field or packet. -/
structure Counted (parse : TargetParser) (f : FieldDescriptor) (p : Progress) (target : String)
    (n : Nat) : Prop where
  once : f.repeated = false
  present : (p.memory.effective f).isPresent p.fields = true
  delegated : (p.memory.effective f).parse = some target
  sized : ∃ bits, (p.memory.effective f).length = some (.bits bits) ∧
    n = if p.memory.dynamicLength f then bits / 8 else bits
  single : ∀ view, (p.memory.effective f).view p.cursor = .ok view →
    ∀ call ∈ listCalls parse (.times n) target view p.context, call.Single parse

namespace Counted

variable (c : Counted parse f p target n)

include c

theorem repetition_eq :
    (p.memory.effective f).repetition (p.memory.dynamicLength f) = .times n := by
  obtain ⟨bits, sized, rfl⟩ := c.sized
  rw [FieldAttributes.repetition, sized]

/-- Where the bytes have ended before its turn, the field is missing if it stands for anything. -/
theorem eq_zero_of_not_missing
    (here : ((p.memory.effective f).isPresent p.fields && (p.memory.effective f).isRequired) =
      false) : n = 0 := by
  obtain ⟨bits, sized, rfl⟩ := c.sized
  rw [c.present, Bool.true_and, FieldAttributes.isRequired, sized] at here
  obtain rfl : bits = 0 := by simpa using here
  rw [Nat.zero_div, ite_self]

/-- What the turn of the field comes to, if it does not fail. -/
theorem turn {q : Progress} (h : FieldTurn o parse f p q) :
    ∃ view structures, (p.memory.effective f).view p.cursor = .ok view ∧ q.queue = p.queue ∧
      q.fields = p.fields ++ nestedFields f structures ∧
      (structures.length = n ∨
        structures.length < n ∧ q.cursor = p.cursor.advance view.length) := by
  cases h with
  | idle idle =>
    rcases idle with absent | ⟨noTarget, -⟩
    · rw [c.present] at absent
      cases absent
    · rw [c.delegated] at noTarget
      cases noTarget
  | scalar turn =>
    have noTarget := turn.noTarget
    rw [c.delegated] at noTarget
    cases noTarget
  | @target name view ch turn =>
    obtain rfl : target = name := Option.some.inj (c.delegated.symm.trans turn.delegated)
    have decoded := turn.decoded
    rw [c.repetition_eq] at decoded
    have once (q : Progress) (enough : Bool) : q.requeueIf f p.cursor enough = q := by
      rw [Progress.requeueIf, c.once]
      rfl
    rw [once]
    refine ⟨view, ch.structures, turn.viewed, rfl, rfl, ?_⟩
    rcases count_of_chains (c.single view turn.viewed) decoded with all | ⟨few, used⟩
    · exact .inl all
    · refine .inr ⟨few, ?_⟩
      rw [Progress.afterChain, used, Nat.sub_zero]

end Counted

/-- **Repetition counts.**  Whatever decodes the targets: a field of a decoded structure that stands
for a number of single structures, and is come to while bytes are left, is decoded as just so many
of them; or it is decoded as fewer, and they have used up the bytes that it had.  Then the structure
goes on behind the field.  If no bytes are left where it is come to, it stands for none. -/
theorem counted_or_used_up {s : Structure} {input : Slice} {ctx : StreamContext}
    {out : StructureOutcome} (c : Counted parse f p target n)
    (reached : Progress.Steps o parse (.start s input ctx) (p.put ⟨.field f, false⟩))
    (h : parseDescriptors o parse s input ctx = .ok out) :
    (p.cursor.isExhausted = false → ∃ q view structures later,
      Progress.Steps o parse (.start s input ctx) q ∧ q.queue = p.queue ∧
      (p.memory.effective f).view p.cursor = .ok view ∧
      q.fields = p.fields ++ nestedFields f structures ∧ out.fields = q.fields ++ later ∧
      (structures.length = n ∨
        structures.length < n ∧ q.cursor = p.cursor.advance view.length)) ∧
    (p.cursor.isExhausted = true → n = 0) := by
  obtain ⟨fin, run, ended⟩ := bind_eq_ok.mp h
  have same := Finish.outcome_eq_ok ended
  rw [parseFields_of_steps reached] at run
  constructor
  · intro left
    obtain ⟨q, taken, step⟩ := fieldTurn_of_parseFields left run
    obtain ⟨view, structures, viewed, queue, fields, count⟩ := c.turn taken
    rw [parseFields_of_step step] at run
    obtain ⟨later, fields'⟩ := fields_of_parseFields run
    rw [same]
    exact ⟨q, view, structures, later, reached.tail step, queue, viewed, fields, fields', count⟩
  · intro none
    have stopped : parseFields o parse (p.put ⟨.field f, false⟩) =
        .ok ⟨p.put ⟨.field f, false⟩, Option.none⟩ := parseFields_of_exhausted none
    cases stopped.symm.trans run
    refine c.eq_zero_of_not_missing ?_
    exact Progress.not_required_of_waits (Finish.missing?_eq_none ended rfl none) List.mem_cons_self

/-- Entries of one byte. -/
def entries : FieldDescriptor := ⟨"f", { parse := some "T" }, false⟩

/-- The number of entries, the entries, and a field behind them. -/
def countedEntries : Structure where
  name := "S"
  descriptors := [
    .field ⟨"n", {
      length := some (.bits 8), triggers := some [.onField "f" [.set .length]] }, false⟩,
    .field entries,
    .field ⟨"h", { length := some (.bits 8) }, false⟩]

def countedGrammar (s : Structure) : Grammar where
  roots := ["S"]
  structures := [s, ⟨"T", [.field ⟨"x", { length := some (.bits 8) }, false⟩]⟩]

/-- What decodes the entries of a packet of five bytes. -/
def entryTargets : TargetParser :=
  parseTargetBy (countedGrammar countedEntries)
    (enterStructure (countedGrammar countedEntries) {} 12 [("S", 3)])

/-- Behind the number, which was three. -/
def countedProgress : Progress where
  cursor := ⟨⟨3, [3, 10, 20, 30, 0xee]⟩, 8⟩
  queue := [⟨.field ⟨"h", { length := some (.bits 8) }, false⟩, false⟩]
  fields := [.scalar "n" (.uint 3) 3 4]
  memory := ⟨AttributeTable.override .empty "f" (.length (.bits 24)), .empty⟩

theorem counted_or_used_up_countedEntries :
    ∃ out, parseStructure (countedGrammar countedEntries) {} "S" ⟨3, [3, 10, 20, 30, 0xee]⟩ .empty =
        .ok out ∧
      out.fields.map (fun d => (d.name, d.start, d.stop)) =
        [("n", 3, 4), ("f", 4, 5), ("f", 5, 6), ("f", 6, 7), ("h", 7, 8)] ∧
      ∃ structures later, out.fields = countedProgress.fields ++
          nestedFields entries structures ++ later ∧ structures.length = 3 := by
  have fields : (parseStructure (countedGrammar countedEntries) {} "S" ⟨3, [3, 10, 20, 30, 0xee]⟩
      .empty).toOption.map (fun out => out.fields.map fun d => (d.name, d.start, d.stop)) =
        some [("n", 3, 4), ("f", 4, 5), ("f", 5, 6), ("f", 6, 7), ("h", 7, 8)] := by
    decide +kernel
  obtain ⟨out, decoded, fields⟩ := Option.map_eq_some_iff.mp fields
  have ok := Attempt.eq_ok_of_toOption decoded
  have run : parseDescriptors {} entryTargets countedEntries ⟨3, [3, 10, 20, 30, 0xee]⟩ .empty =
      .ok out := ok
  have reached : Progress.Steps {} entryTargets
      (.start countedEntries ⟨3, [3, 10, 20, 30, 0xee]⟩ .empty)
      (countedProgress.put ⟨.field entries, false⟩) :=
    .single (.turn (by decide) rfl (parseField_eq_ok.mp rfl))
  have counted : Counted entryTargets entries countedProgress "T" 3 := by
    refine ⟨rfl, by decide, rfl, ⟨24, rfl, by decide⟩, fun view viewed => ?_⟩
    cases viewed
    decide +kernel
  obtain ⟨turn, -⟩ := counted_or_used_up counted reached run
  obtain ⟨q, view, structures, later, steps, -, viewed, fields', rest, count⟩ := turn (by decide)
  refine ⟨out, ok, fields, structures, later, rest.trans (congrArg (· ++ later) fields'), ?_⟩
  rcases count with all | ⟨few, cursor⟩
  · exact all
  · -- If the entries had used up the bytes, there would be nothing behind them.
    cases viewed
    have used : q.cursor.isExhausted = true := by
      rw [cursor]
      decide
    obtain ⟨fin, run, ended⟩ := bind_eq_ok.mp run
    rw [parseFields_of_steps steps, parseFields_of_exhausted used] at run
    cases run
    have short : out.fields = q.fields := congrArg (·.fields) (Finish.outcome_eq_ok ended)
    have long := congrArg List.length fields
    rw [List.length_map, short, fields', List.length_append, nestedFields, List.length_map] at long
    simp only [countedProgress, List.length_cons, List.length_nil] at long
    omega

/-- Three entries. -/
def threeEntries : Structure where
  name := "S"
  descriptors := [
    .field ⟨"n", { length := some (.bits 8) }, false⟩,
    .field ⟨"f", { parse := some "T", length := some (.bits 3) }, false⟩]

/-- Two of three entries are there when the bytes end, and the structure is decoded. -/
theorem decoded_of_too_few :
    ∃ out, parseStructure (countedGrammar threeEntries) {} "S" ⟨0, [5, 1, 2]⟩ .empty = .ok out ∧
      out.fields.map (fun d => (d.name, d.start, d.stop)) = [("n", 0, 1), ("f", 1, 2), ("f", 2, 3)] ∧
      out.consumed = 3 ∧ out.next = none := by
  have shape : (parseStructure (countedGrammar threeEntries) {} "S" ⟨0, [5, 1, 2]⟩
      .empty).toOption.map (fun out =>
        (out.fields.map (fun d => (d.name, d.start, d.stop)), out.consumed, out.next)) =
      some ([("n", 0, 1), ("f", 1, 2), ("f", 2, 3)], 3, none) := by
    decide +kernel
  obtain ⟨out, decoded, shape⟩ := Option.map_eq_some_iff.mp shape
  obtain ⟨fields, rest⟩ := Prod.mk.inj shape
  obtain ⟨consumed, next⟩ := Prod.mk.inj rest
  exact ⟨out, Attempt.eq_ok_of_toOption decoded, fields, consumed, next⟩

end WireGrammar
