import Mathlib.Data.List.Infix
import WireGrammar.Proofs.Decoding.Invariant
import WireGrammar.Proofs.Decoding.Turn

/-!
# Why decoding fails

A failure that is handed on was made at one place of the packet: by a read from a cursor, by a value
that is not accepted, by a name for which nothing fits, or at the end of a structure.  Lists and
chains, the windows they are cut in, and the structures around them hand failures on as they are, so
what is true where a failure was made is true of it outside.

* `BitCursor.Refuses`: the cursor is where a read has to fail;
* `Grammar.Fails`: what is wrong in the packet where a field, a structure or a type fails;
* `fails_of_parseTarget`: whatever is decoded in the packet by its name fails so.

Bytes left behind, and a name that a call from outside gives, are no such failures.
-/

namespace WireGrammar

/-! ### Reads -/

section Bind

variable {ε α β : Type} {x : Except ε α} {f : α → Except ε β} {e : ε}

/-- What cannot fail after `x` fails as `x` does. -/
theorem eq_error_of_bind (h : (x >>= f) = .error e) (total : ∀ a, ∃ b, f a = .ok b) :
    x = .error e := by
  cases x with
  | error e' =>
    cases h
    rfl
  | ok a =>
    obtain ⟨b, ok⟩ := total a
    exact absurd (ok.symm.trans h) (by simp)

end Bind

namespace BitCursor

/-- The cursor is where a read fails so. -/
inductive Refuses (c : BitCursor) : ReadError → Prop where
  | short {needed : Nat} (few : c.remainingBytes < needed) :
      Refuses c (.insufficientBytes c.absolute needed c.remainingBytes)
  | unannounced (left : 1 ≤ c.remainingBytes) (reserved : c.pattern = 1) :
      Refuses c (.unknownEncodingPattern c.absolute c.pattern)
  | ragged (inside : c.isAligned = false) : Refuses c (.unaligned c.absolute c.bitOffset)
  | wide {bits : Nat} (many : 64 < bits) : Refuses c (.unsupportedWidth c.absolute bits)

variable {c : BitCursor} {n : Nat} {e : ReadError} {α : Type}

theorem requireAligned_bind_eq_error {f : Unit → Except ReadError α}
    (h : (c.requireAligned >>= f) = .error e) : c.Refuses e ∨ f () = .error e := by
  unfold requireAligned at h
  split at h
  · exact .inr h
  · next inside =>
    cases h
    exact .inl (.ragged (by simpa using inside))

theorem requireBytes_bind_eq_error {f : Unit → Except ReadError α}
    (h : (c.requireBytes n >>= f) = .error e) :
    c.Refuses e ∨ n ≤ c.remainingBytes ∧ f () = .error e := by
  unfold requireBytes at h
  split at h
  · next enough => exact .inr ⟨enough, h⟩
  · next few =>
    cases h
    exact .inl (.short (Nat.lt_of_not_le few))

theorem takeBytes_eq_error (h : c.takeBytes n = .error e) : c.Refuses e := by
  rcases requireAligned_bind_eq_error h with refused | h
  · exact refused
  · rcases requireBytes_bind_eq_error h with refused | ⟨-, h⟩
    · exact refused
    · cases h

theorem takeRest_eq_error (h : c.takeRest = .error e) : c.Refuses e := by
  rcases requireAligned_bind_eq_error h with refused | h
  · exact refused
  · cases h

theorem window_eq_error (h : c.window n = .error e) : c.Refuses e := by
  rcases requireAligned_bind_eq_error h with refused | h
  · exact refused
  · rcases requireBytes_bind_eq_error h with refused | ⟨-, h⟩
    · exact refused
    · cases h

theorem rest_eq_error (h : c.rest = .error e) : c.Refuses e := by
  rcases requireAligned_bind_eq_error h with refused | h
  · exact refused
  · cases h

theorem takePrefixed_eq_error (h : c.takePrefixed n = .error e) : c.Refuses e := by
  rcases requireBytes_bind_eq_error h with refused | ⟨-, h⟩
  · exact refused
  · cases h

theorem leadingPattern_bind_eq_error {f : Nat → Except ReadError α}
    (h : (c.leadingPattern >>= f) = .error e) :
    c.Refuses e ∨ 1 ≤ c.remainingBytes ∧ f c.pattern = .error e := by
  rw [leadingPattern, bind_assoc] at h
  rcases requireAligned_bind_eq_error h with refused | h
  · exact .inl refused
  · rw [bind_assoc] at h
    rcases requireBytes_bind_eq_error h with refused | ⟨left, h⟩
    · exact .inl refused
    · exact .inr ⟨left, h⟩

theorem takeVarint_eq_error (h : c.takeVarint = .error e) : c.Refuses e := by
  rcases leadingPattern_bind_eq_error h with refused | ⟨-, h⟩
  · exact refused
  · exact takePrefixed_eq_error h

/-- Two leading bits that announce no width of a packet number are `01`. -/
theorem pattern_of_packetNumberWidth? (h : packetNumberWidth? c.pattern = none) :
    c.pattern = 1 := by
  have few := c.pattern_lt
  generalize c.pattern = pattern at *
  match pattern, h with
  | 1, _ => rfl
  | n + 4, _ => omega

theorem takePacketNumber_eq_error (h : c.takePacketNumber = .error e) : c.Refuses e := by
  rcases leadingPattern_bind_eq_error h with refused | ⟨left, h⟩
  · exact refused
  · cases announced : packetNumberWidth? c.pattern with
    | some width =>
      rw [announced] at h
      exact takePrefixed_eq_error h
    | none =>
      rw [announced] at h
      cases h
      exact .unannounced left (pattern_of_packetNumberWidth? announced)

theorem takeBits_eq_error (h : c.takeBits n = .error e) : c.Refuses e := by
  unfold takeBits at h
  split at h
  · next many =>
    cases h
    exact .wide many
  · split at h
    · next few =>
      cases h
      refine .short ?_
      simp only [remainingBits, remainingBytes, byteIndex, bitOffset] at *
      omega
    · cases h

/-- A scalar that cannot be read is refused for what is wrong with the cursor. -/
theorem readScalar_eq_error {length : Length} (h : c.readScalar length = .error e) :
    c.Refuses e := by
  cases length with
  | varint => exact takeVarint_eq_error (eq_error_of_bind h fun _ => ⟨_, rfl⟩)
  | packetNumber => exact takePacketNumber_eq_error (eq_error_of_bind h fun _ => ⟨_, rfl⟩)
  | rest => exact takeRest_eq_error (eq_error_of_bind h fun _ => ⟨_, rfl⟩)
  | bits n =>
    rw [readScalar] at h
    split at h
    · cases h
    · split at h
      · exact takeBytes_eq_error (eq_error_of_bind h fun _ => ⟨_, rfl⟩)
      · exact takeBits_eq_error (eq_error_of_bind h fun _ => ⟨_, rfl⟩)

end BitCursor

theorem FieldAttributes.view_eq_error {a : FieldAttributes} {c : BitCursor} {e : ReadError}
    (h : a.view c = .error e) : c.Refuses e := by
  unfold view at h
  split at h
  · exact BitCursor.window_eq_error h
  · exact BitCursor.rest_eq_error h

/-! ### Fields -/

/-- What is wrong with a field whose turn fails: with itself, or with a target that is decoded in
its place. -/
inductive FieldFails (parse : TargetParser) (f : FieldDescriptor) (p : Progress) :
    ParseError → Prop where
  | unreadable {cause : ReadError} (refused : p.cursor.Refuses cause) :
      FieldFails parse f p (.unreadable f.name cause)
  | rejected (value : Value) (expected : Expectation) :
      FieldFails parse f p (.valueMismatch f.name value expected)
  | unsettable (kind : AttributeKind) (value : Value) :
      FieldFails parse f p (.invalidTrigger f.name kind value)
  | target {name : String} {view : Slice} {failure : Failure}
      (viewed : (p.memory.effective f).view p.cursor = .ok view)
      (failed : chains parse ((p.memory.effective f).repetition (p.memory.dynamicLength f)) name
        view p.context = .error failure) : FieldFails parse f p failure.error

section Field

variable {o : Options} {parse : TargetParser} {f : FieldDescriptor} {p : Progress}
  {failure : Failure}

theorem foldlM_eq_error {α β : Type} {step : β → α → Attempt β} {as : List α} {b : β}
    (h : as.foldlM step b = .error failure) : ∃ a ∈ as, ∃ b', step b' a = .error failure := by
  induction as generalizing b with
  | nil => cases h
  | cons a as ih =>
    rw [List.foldlM_cons] at h
    cases first : step b a with
    | error failure' =>
      rw [first] at h
      cases h
      exact ⟨a, List.mem_cons_self, b, first⟩
    | ok b' =>
      rw [first] at h
      obtain ⟨a', mem, failed⟩ := ih h
      exact ⟨a', List.mem_cons_of_mem _ mem, failed⟩

theorem TriggerRule.fire_eq_error {raw : Value} {target : String} {m : Memory} {rule : TriggerRule}
    (h : rule.fire o f.name raw target m = .error failure) :
    FieldFails parse f p failure.error := by
  cases rule with
  | set kind =>
    rw [fire] at h
    split at h
    · cases h
    · split at h
      · cases h
      · cases h
        exact .unsettable kind raw
  | lookup kind table =>
    rw [fire] at h
    split at h
    · cases h
    · cases h
      exact .rejected raw _

theorem fireAll_eq_error {raw : Value} {triggers : List Trigger} {m : Memory}
    (h : fireAll o f.name raw triggers m = .error failure) :
    FieldFails parse f p failure.error := by
  obtain ⟨trigger, -, m', h⟩ := foldlM_eq_error h
  cases trigger with
  | saveToContext => cases h
  | onField target rules =>
    obtain ⟨rule, -, m'', h⟩ := foldlM_eq_error h
    exact TriggerRule.fire_eq_error h

theorem parseTargetField_eq_error {name : String}
    (h : parseTargetField parse f (p.memory.effective f) name p = .error failure) :
    FieldFails parse f p failure.error := by
  unfold parseTargetField at h
  split at h
  · next refused =>
    cases h
    exact .unreadable (FieldAttributes.view_eq_error refused)
  · next viewed =>
    split at h
    · next failed =>
      cases h
      exact .target viewed failed
    · cases h

theorem parseScalar_eq_error {length : Length}
    (h : parseScalar o f (p.memory.effective f) length p = .error failure) :
    FieldFails parse f p failure.error := by
  unfold parseScalar at h
  split at h
  · next refused =>
    cases h
    exact .unreadable (BitCursor.readScalar_eq_error refused)
  · split at h
    · cases h
      exact .rejected _ _
    · split at h
      · next failed =>
        cases h
        exact fireAll_eq_error failed
      · cases h

/-- A turn fails in one of these ways. -/
theorem parseField_eq_error (h : parseField o parse f p = .error failure) :
    FieldFails parse f p failure.error := by
  unfold parseField parseWith at h
  split at h
  · split at h
    · exact parseTargetField_eq_error h
    · exact parseScalar_eq_error h
    · cases h
  · cases h

end Field

/-! ### Chains and lists -/

section Chain

variable {parse : TargetParser} {repetition : Repetition} {name : String} {input : Slice}
  {ctx : StreamContext} {failure : Failure}

/-- A chain fails at its first structure, or where bytes are left behind some of them. -/
theorem chain_eq_error (h : chain parse name input ctx = .error failure) :
    ∃ next n ctx', parse next (input.drop n) ctx' = .error failure ∧
      (n = 0 ∧ next = name ∨ (input.drop n).bytes ≠ []) := by
  fun_induction chain parse name input ctx with
  | case1 name input ctx failure' failed =>
    cases h
    exact ⟨name, 0, ctx, failed, .inl ⟨rfl, rfl⟩⟩
  | case2 => cases h
  | case3 name input ctx r ok next go ih =>
    cases rest : chain parse next (input.drop r.consumed) r.context with
    | ok c =>
      rw [rest] at h
      cases h
    | error failure' =>
      rw [rest] at h
      cases h
      obtain ⟨last, n, ctx', failed, place⟩ := ih rest
      rw [Slice.drop_drop] at failed place
      refine ⟨last, r.consumed + n, ctx', failed, .inr ?_⟩
      rcases place with ⟨rfl, -⟩ | left
      · exact (Resolved.bytes_of_continuation? go)
      · exact left

/-- A list fails where bytes are left. -/
theorem chains_eq_error (h : chains parse repetition name input ctx = .error failure) :
    ∃ next n ctx', parse next (input.drop n) ctx' = .error failure ∧
      (input.drop n).bytes ≠ [] := by
  fun_induction chains parse repetition name input ctx with
  | case1 => cases h
  | case2 repetition input ctx go failure' failed =>
    cases h
    obtain ⟨next, n, ctx', failed, place⟩ := chain_eq_error failed
    refine ⟨next, n, ctx', failed, ?_⟩
    rcases place with ⟨rfl, -⟩ | left
    · intro none
      rw [Slice.drop_zero] at none
      exact go (by simp [none])
    · exact left
  | case3 repetition input ctx go c ok forward ih =>
    cases rest : chains parse repetition.pred name c.rest c.context with
    | ok c' =>
      rw [rest] at h
      cases h
    | error failure' =>
      rw [rest] at h
      cases h
      obtain ⟨next, n, ctx', failed, left⟩ := ih rest
      have row : Row (fun _ _ _ => True) input ctx c.structures c.rest c.context :=
        .of_chain (fun _ _ _ _ _ => trivial) ok
      obtain ⟨taken, gone⟩ := row.rest_eq
      rw [gone, Slice.drop_drop] at failed left
      exact ⟨next, taken + n, ctx', failed, left⟩
  | case4 => cases h

end Chain

/-! ### Structures -/

/-- What is wrong with a structure that fails: with one of its fields, of which some byte is left,
or with its end. -/
inductive StructureFails (parse : TargetParser) (s : Structure) (input : Slice) :
    ParseError → Prop where
  | field {f : FieldDescriptor} {p : Progress} {e : ParseError} (own : .field f ∈ s.descriptors)
      (slice : p.cursor.slice = input) (left : p.cursor.isExhausted = false)
      (refused : FieldFails parse f p e) : StructureFails parse s input e
  | incomplete {f : FieldDescriptor} (own : .field f ∈ s.descriptors) :
      StructureFails parse s input (.incompleteStructure s.name f.name)

section Structure

variable {o : Options} {parse : TargetParser} {s : Structure} {input : Slice} {failure : Failure}

theorem parseFields_eq_error {p : Progress} (h : parseFields o parse p = .error failure)
    (own : p.Own s) (slice : p.cursor.slice = input) :
    StructureFails parse s input failure.error := by
  fun_induction parseFields o parse p with
  | case1 | case2 | case4 => cases h
  | case3 p left item queue hq name hd ih => exact ih h (own.tail hq) slice
  | case5 p left item queue hq f hd q ok ih =>
    have taken := parseField_eq_ok.mp ok
    exact ih h ((own.tail hq).turn (hd ▸ own.head hq) taken) (taken.slice_eq.trans slice)
  | case6 p left item queue hq f hd failure' failed again ih => exact ih h (own.tail hq) slice
  | case7 p left item queue hq f hd failure' failed =>
    cases h
    have refused := parseField_eq_error failed
    exact .field (p := { p with queue }) (hd ▸ own.head hq) slice (by simpa using left) refused

/-- The field that is missing at the end of a structure is one of its own. -/
theorem Progress.Own.missing? {p : Progress} (own : p.Own s) {f : FieldDescriptor}
    (h : p.missing? = some f) : .field f ∈ s.descriptors := by
  obtain ⟨item, mem, kind⟩ := Progress.mem_queue_of_missing? h
  exact kind ▸ own item mem

/-- What is left in the queue at the end are descriptors of the structure. -/
theorem own_of_parseFields {p : Progress} {fin : Finish} (h : parseFields o parse p = .ok fin)
    (own : p.Own s) : fin.progress.Own s := by
  fun_induction parseFields o parse p generalizing fin with
  | case1 | case2 => cases h; exact own
  | case3 p left item queue hq name hd ih => exact ih h (own.tail hq)
  | case4 p left item queue hq name hd => cases h; exact own.tail hq
  | case5 p left item queue hq f hd q ok ih =>
    exact ih h ((own.tail hq).turn (hd ▸ own.head hq) (parseField_eq_ok.mp ok))
  | case6 p left item queue hq f hd failure failed again ih => exact ih h (own.tail hq)
  | case7 => cases h

theorem parseDescriptors_eq_error {ctx : StreamContext}
    (h : parseDescriptors o parse s input ctx = .error failure) :
    StructureFails parse s input failure.error := by
  have own := Progress.Own.start s input ctx
  rw [parseDescriptors] at h
  cases run : parseFields o parse (.start s input ctx) with
  | error failure' =>
    rw [run] at h
    cases h
    exact parseFields_eq_error run own rfl
  | ok fin =>
    simp only [run, Except.bind, Finish.outcome] at h
    split at h
    · split at h
      · next f missing =>
        cases h
        exact .incomplete ((own_of_parseFields run own).missing? missing)
      · cases h
    · cases h

end Structure

/-! ### The packet -/

/-- The bytes of the slice are bytes of the packet, and it says where they are. -/
def Slice.PartOf (packet : List UInt8) (s : Slice) : Prop := s.bytes <+: packet.drop s.offset

namespace Slice.PartOf

variable {packet : List UInt8} {s : Slice}

theorem whole (packet : List UInt8) : PartOf packet ⟨0, packet⟩ := List.prefix_rfl

theorem drop (h : s.PartOf packet) (n : Nat) : (s.drop n).PartOf packet := by
  have shorter := List.IsPrefix.drop h n
  rwa [List.drop_drop] at shorter

theorem view {c : BitCursor} {a : FieldAttributes} {view : Slice} (h : c.slice.PartOf packet)
    (viewed : a.view c = .ok view) : view.PartOf packet := by
  obtain ⟨-, offset, front⟩ := FieldAttributes.view_eq_ok viewed
  rw [PartOf, offset]
  exact front.trans (h.drop c.byteIndex)

end Slice.PartOf

/-- What is wrong where decoding within a packet fails. -/
inductive Grammar.Fails (g : Grammar) (packet : List UInt8) : ParseError → Prop where
  | unreadable {s : Structure} {f : FieldDescriptor} {c : BitCursor} {cause : ReadError}
      (mem : s ∈ g.structures) (own : .field f ∈ s.descriptors) (part : c.slice.PartOf packet)
      (left : c.isExhausted = false) (refused : c.Refuses cause) :
      g.Fails packet (.unreadable f.name cause)
  | rejected {s : Structure} {f : FieldDescriptor} (mem : s ∈ g.structures)
      (own : .field f ∈ s.descriptors) (value : Value) (expected : Expectation) :
      g.Fails packet (.valueMismatch f.name value expected)
  | unsettable {s : Structure} {f : FieldDescriptor} (mem : s ∈ g.structures)
      (own : .field f ∈ s.descriptors) (kind : AttributeKind) (value : Value) :
      g.Fails packet (.invalidTrigger f.name kind value)
  | unmatched {name : String} {input : Slice} (unknown : g.getStructure? name = none)
      (part : input.PartOf packet) (left : input.bytes ≠ []) :
      g.Fails packet (.noMatchingStructure name input.offset input.bytes.head?)
  | incomplete {s : Structure} {f : FieldDescriptor} (mem : s ∈ g.structures)
      (own : .field f ∈ s.descriptors) : g.Fails packet (.incompleteStructure s.name f.name)
  | recursive {s : Structure} (mem : s ∈ g.structures) (offset : Nat) :
      g.Fails packet (.recursiveStructure s.name offset)

section Packet

variable {g : Grammar} {o : Options} {packet : List UInt8} {input : Slice} {ctx : StreamContext}
  {failure : Failure}

/-- Targets in the packet fail for something that is wrong there.  A name that no structure has is
asked for only where bytes are left. -/
def FailsWithin (g : Grammar) (packet : List UInt8) (parse : TargetParser) : Prop :=
  ∀ ⦃name input ctx failure⦄, input.PartOf packet →
    (g.getStructure? name ≠ none ∨ input.bytes ≠ []) →
    parse name input ctx = .error failure → g.Fails packet failure.error

theorem FailsWithin.chain {parse : TargetParser} (fails : FailsWithin g packet parse)
    {name : String} (part : input.PartOf packet)
    (place : g.getStructure? name ≠ none ∨ input.bytes ≠ [])
    (h : chain parse name input ctx = .error failure) : g.Fails packet failure.error := by
  obtain ⟨next, n, ctx', failed, rfl, rfl⟩ | ⟨next, n, ctx', failed, left⟩ := by
    simpa only [and_or_left, exists_or] using chain_eq_error h
  · exact fails (part.drop 0) place failed
  · exact fails (part.drop n) (.inr left) failed

theorem FailsWithin.parseDescriptors {parse : TargetParser} (fails : FailsWithin g packet parse)
    {s : Structure} (mem : s ∈ g.structures) (part : input.PartOf packet)
    (h : parseDescriptors o parse s input ctx = .error failure) :
    g.Fails packet failure.error := by
  have refused := parseDescriptors_eq_error h
  generalize failure.error = e at refused ⊢
  cases refused with
  | incomplete own => exact .incomplete mem own
  | field own slice left refused =>
    rw [← slice] at part
    cases refused with
    | unreadable refused => exact .unreadable mem own part left refused
    | rejected value expected => exact .rejected mem own value expected
    | unsettable kind value => exact .unsettable mem own kind value
    | target viewed failed =>
      obtain ⟨next, n, ctx', failed, some_⟩ := chains_eq_error failed
      exact fails ((part.view viewed).drop n) (.inr some_) failed

theorem fails_of_parseTargetBy {enter : StructureParser}
    (fails : ∀ ⦃s input ctx failure⦄, s ∈ g.structures → input.PartOf packet →
      enter s input ctx = .error failure → g.Fails packet failure.error) :
    FailsWithin g packet (parseTargetBy g enter) := by
  intro name input ctx failure part place h
  rw [parseTargetBy] at h
  cases found : g.getStructure? name with
  | some s =>
    rw [found] at h
    cases entered : enter s input ctx with
    | ok out => simp [entered, Except.map] at h
    | error failure' =>
      simp only [entered, Except.map, Except.error.injEq] at h
      exact h ▸ fails (List.mem_of_find?_eq_some found) part entered
  | none =>
    simp only [found, resolveTypeBy] at h
    split at h
    · cases h
    · cases h
      exact .unmatched found part (place.resolve_left (not_not_intro found))

/-- A structure fails for something that is wrong in it, however deep. -/
theorem fails_of_enterStructure {depth : Nat} {active : Active} {s : Structure}
    (mem : s ∈ g.structures) (part : input.PartOf packet)
    (h : enterStructure g o depth active s input ctx = .error failure) :
    g.Fails packet failure.error := by
  induction depth generalizing active s input ctx failure with
  | zero =>
    cases h
    exact .recursive mem _
  | succ depth ih =>
    rw [enterStructure] at h
    split at h
    · cases h
      exact .recursive mem _
    · exact (fails_of_parseTargetBy fun s input ctx failure mem part h => ih mem part h)
        |>.parseDescriptors mem part h

theorem fails_of_parseTarget (g : Grammar) (o : Options) (packet : List UInt8) :
    FailsWithin g packet (parseTarget g o) :=
  fails_of_parseTargetBy fun _ _ _ _ mem part h => fails_of_enterStructure mem part h

/-! ### Roots -/

/-- A root fails for something that is wrong in the packet. -/
theorem fails_of_attemptRoot {root : String} (known : root ∈ g.structures.map (·.name))
    (h : attemptRoot g o packet root ctx = .error failure) : g.Fails packet failure.error := by
  rw [attemptRoot_eq] at h
  have found : g.getStructure? root ≠ none := fun missing =>
    Grammar.getStructure?_eq_none.mp missing known
  exact (fails_of_parseTarget g o packet).chain (.whole packet) (.inl found) h

end Packet

/-- The failure of a field, a structure or a type. -/
def ParseError.isInner : ParseError → Bool
  | .trailingBytes .. => false
  | .unknownStructure _ => false
  | _ => true

theorem Grammar.Fails.isInner {g : Grammar} {packet : List UInt8} {e : ParseError}
    (h : g.Fails packet e) : e.isInner = true := by
  cases h <;> rfl

end WireGrammar
