import WireGrammar.Dissect.Resolve

/-!
# The same bytes at another offset

A slice may start at any offset of a packet.  What is read from it depends on its bytes alone; the
offset comes back in the places of fields and of failures, and nowhere else.

* `readScalar_shift`, `view_shift`: reading `k` bytes further on;
* `placeless_fireAll`: triggers do not look at offsets at all.
-/

namespace WireGrammar

/-! ### Slices and cursors -/

/-- The slice with the same bytes, `k` bytes further on. -/
def Slice.shift (k : Nat) (s : Slice) : Slice := { s with offset := s.offset + k }

namespace Slice

variable (k n : Nat) (s : Slice)

@[simp] theorem bytes_shift : (s.shift k).bytes = s.bytes := rfl

@[simp] theorem offset_shift : (s.shift k).offset = s.offset + k := rfl

@[simp] theorem length_shift : (s.shift k).length = s.length := rfl

theorem drop_shift : (s.shift k).drop n = (s.drop n).shift k := by
  simp only [drop, shift, Slice.mk.injEq, and_true]
  omega

end Slice

/-- The cursor at the same place of the same bytes, `k` bytes further on. -/
def BitCursor.shift (k : Nat) (c : BitCursor) : BitCursor := { c with slice := c.slice.shift k }

namespace BitCursor

variable (k n : Nat) (c : BitCursor)

@[simp] theorem slice_shift : (c.shift k).slice = c.slice.shift k := rfl

@[simp] theorem position_shift : (c.shift k).position = c.position := rfl

@[simp] theorem byteIndex_shift : (c.shift k).byteIndex = c.byteIndex := rfl

@[simp] theorem bitOffset_shift : (c.shift k).bitOffset = c.bitOffset := rfl

@[simp] theorem isAligned_shift : (c.shift k).isAligned = c.isAligned := rfl

@[simp] theorem isExhausted_shift : (c.shift k).isExhausted = c.isExhausted := rfl

@[simp] theorem remainingBytes_shift : (c.shift k).remainingBytes = c.remainingBytes := rfl

@[simp] theorem remainingBits_shift : (c.shift k).remainingBits = c.remainingBits := rfl

@[simp] theorem consumedBytes_shift : (c.shift k).consumedBytes = c.consumedBytes := rfl

@[simp] theorem absolute_shift : (c.shift k).absolute = c.absolute + k := by
  simp only [absolute, slice_shift, Slice.offset_shift, byteIndex_shift]
  omega

@[simp] theorem peekBytes_shift : (c.shift k).peekBytes n = c.peekBytes n := rfl

@[simp] theorem peekBits_shift : (c.shift k).peekBits n = c.peekBits n := rfl

theorem remaining_shift : (c.shift k).remaining = c.remaining.shift k := by
  rw [remaining, slice_shift, byteIndex_shift, Slice.drop_shift]
  rfl

theorem advance_shift : (c.shift k).advance n = (c.advance n).shift k := rfl

end BitCursor

/-! ### Failures -/

/-- The failure of a read, `k` bytes further on. -/
def ReadError.shift (k : Nat) : ReadError → ReadError
  | .insufficientBytes offset needed available => .insufficientBytes (offset + k) needed available
  | .unknownEncodingPattern offset pattern => .unknownEncodingPattern (offset + k) pattern
  | .unaligned offset bit => .unaligned (offset + k) bit
  | .unsupportedWidth offset bits => .unsupportedWidth (offset + k) bits

/-- The failure, `k` bytes further on.  What has no offset stays as it is, and so do the numbers of
bytes of a root, which is never anywhere but at the start of a packet. -/
def ParseError.shift (k : Nat) : ParseError → ParseError
  | .unreadable field cause => .unreadable field (cause.shift k)
  | .noMatchingStructure typeName offset firstByte =>
    .noMatchingStructure typeName (offset + k) firstByte
  | .recursiveStructure name offset => .recursiveStructure name (offset + k)
  | .valueMismatch field value expected => .valueMismatch field value expected
  | .incompleteStructure owner field => .incompleteStructure owner field
  | .invalidTrigger field kind value => .invalidTrigger field kind value
  | .trailingBytes root consumed total => .trailingBytes root consumed total
  | .unknownStructure name => .unknownStructure name

/-- The failed attempt, `k` bytes further on; the context it leaves is the same. -/
def Failure.shift (k : Nat) (failure : Failure) : Failure :=
  { failure with error := failure.error.shift k }

theorem Failure.shift_zero (failure : Failure) : failure.shift 0 = failure := by
  obtain ⟨error, context⟩ := failure
  cases error with
  | unreadable field cause => cases cause <;> rfl
  | _ => rfl

/-! ### Reads -/

/-- The outcome of a read, `k` bytes further on: a failure is shifted, a result is moved by `f`. -/
def shiftRead {α : Type} (k : Nat) (f : α → α) : Except ReadError α → Except ReadError α
  | .ok a => .ok (f a)
  | .error cause => .error (cause.shift k)

/-- If what follows a read is shifted, all of it is. -/
theorem shiftRead_bind {α β : Type} {k : Nat} {f : α → α} {f' : β → β} {x : Except ReadError α}
    {g g' : α → Except ReadError β} (h : ∀ a, g' (f a) = shiftRead k f' (g a)) :
    (shiftRead k f x >>= g') = shiftRead k f' (x >>= g) := by
  cases x with
  | ok a => exact h a
  | error cause => rfl

namespace BitCursor

/-- The number with the cursor behind it, `k` bytes further on. -/
def Prefixed.shift (k : Nat) (p : Prefixed) : Prefixed := { p with cursor := p.cursor.shift k }

variable (k n : Nat) (c : BitCursor)

theorem requireAligned_shift :
    (c.shift k).requireAligned = shiftRead k id c.requireAligned := by
  simp only [requireAligned, isAligned_shift, absolute_shift, bitOffset_shift]
  split <;> rfl

theorem requireBytes_shift :
    (c.shift k).requireBytes n = shiftRead k id (c.requireBytes n) := by
  simp only [requireBytes, remainingBytes_shift, absolute_shift]
  split <;> rfl

theorem takeBytes_shift :
    (c.shift k).takeBytes n = shiftRead k (Prod.map id (·.shift k)) (c.takeBytes n) := by
  unfold takeBytes
  rw [requireAligned_shift, requireBytes_shift]
  exact shiftRead_bind fun _ => shiftRead_bind fun _ => rfl

theorem takeRest_shift :
    (c.shift k).takeRest = shiftRead k (Prod.map id (·.shift k)) c.takeRest := by
  unfold takeRest
  rw [requireAligned_shift]
  exact shiftRead_bind fun _ => rfl

theorem window_shift : (c.shift k).window n = shiftRead k (·.shift k) (c.window n) := by
  unfold window
  rw [requireAligned_shift, requireBytes_shift, remaining_shift]
  exact shiftRead_bind fun _ => shiftRead_bind fun _ => rfl

theorem rest_shift : (c.shift k).rest = shiftRead k (·.shift k) c.rest := by
  unfold rest
  rw [requireAligned_shift, remaining_shift]
  exact shiftRead_bind fun _ => rfl

theorem leadingPattern_shift : (c.shift k).leadingPattern = shiftRead k id c.leadingPattern := by
  unfold leadingPattern
  rw [requireAligned_shift, requireBytes_shift]
  exact shiftRead_bind fun _ => shiftRead_bind fun _ => rfl

theorem takePrefixed_shift (width : Nat) :
    (c.shift k).takePrefixed width = shiftRead k (·.shift k) (c.takePrefixed width) := by
  unfold takePrefixed
  rw [requireBytes_shift]
  exact shiftRead_bind fun _ => rfl

theorem takeVarint_shift :
    (c.shift k).takeVarint = shiftRead k (·.shift k) c.takeVarint := by
  unfold takeVarint
  rw [leadingPattern_shift]
  exact shiftRead_bind fun pattern => takePrefixed_shift k c (varintWidth pattern)

theorem takePacketNumber_shift :
    (c.shift k).takePacketNumber = shiftRead k (·.shift k) c.takePacketNumber := by
  unfold takePacketNumber
  rw [leadingPattern_shift]
  refine shiftRead_bind fun pattern => ?_
  simp only [id, absolute_shift]
  cases packetNumberWidth? pattern with
  | none => rfl
  | some width => exact takePrefixed_shift k c width

theorem takeBits_shift :
    (c.shift k).takeBits n = shiftRead k (Prod.map id (·.shift k)) (c.takeBits n) := by
  simp only [takeBits, remainingBits_shift, absolute_shift, bitOffset_shift, remainingBytes_shift]
  split
  · rfl
  · split <;> rfl

end BitCursor

/-- The scalar with the cursor behind it, `k` bytes further on. -/
def Reading.shift (k : Nat) (r : Reading) : Reading := { r with cursor := r.cursor.shift k }

/-- A scalar is read from the same bytes alike, wherever they start. -/
theorem BitCursor.readScalar_shift (k : Nat) (c : BitCursor) (length : Length) :
    (c.shift k).readScalar length = shiftRead k (·.shift k) (c.readScalar length) := by
  cases length with
  | varint =>
    simp only [readScalar, takeVarint_shift]
    exact shiftRead_bind fun _ => rfl
  | packetNumber =>
    simp only [readScalar, takePacketNumber_shift]
    exact shiftRead_bind fun _ => rfl
  | rest =>
    simp only [readScalar, takeRest_shift]
    exact shiftRead_bind fun _ => rfl
  | bits n =>
    simp only [readScalar, takeBytes_shift, takeBits_shift, isAligned_shift]
    by_cases none : n = 0
    · rw [if_pos none, if_pos none]
      rfl
    · rw [if_neg none, if_neg none]
      by_cases whole : n % 8 = 0 ∧ c.isAligned
      · rw [if_pos whole, if_pos whole]
        exact shiftRead_bind fun _ => rfl
      · rw [if_neg whole, if_neg whole]
        exact shiftRead_bind fun _ => rfl

/-- The bytes that a target is decoded in are the same, wherever they start. -/
theorem FieldAttributes.view_shift (k : Nat) (a : FieldAttributes) (c : BitCursor) :
    a.view (c.shift k) = shiftRead k (·.shift k) (a.view c) := by
  unfold view
  cases a.byteLength with
  | none => exact c.rest_shift k
  | some n => exact c.window_shift k n

theorem scalarStop_shift (k : Nat) (c : BitCursor) (bits : Nat) :
    scalarStop (c.shift k) bits = scalarStop c bits + k := by
  simp only [scalarStop, BitCursor.absolute_shift, BitCursor.bitOffset_shift]
  split <;> omega

theorem enoughLeft_shift (k : Nat) (c : BitCursor) (length : Length) :
    enoughLeft (c.shift k) length = enoughLeft c length := by
  cases length <;> rfl

/-! ### Triggers -/

/-- Whoever fails without an offset fails alike, wherever the bytes start. -/
def Placeless {α : Type} (x : Attempt α) : Prop :=
  ∀ k failure, x = .error failure → failure.shift k = failure

theorem Placeless.ok {α : Type} (a : α) : Placeless (.ok a : Attempt α) := by
  intro k failure failed
  cases failed

theorem placeless_foldlM {α β : Type} {step : β → α → Attempt β}
    (h : ∀ b a, Placeless (step b a)) (as : List α) (b : β) : Placeless (as.foldlM step b) := by
  induction as generalizing b with
  | nil => exact .ok b
  | cons a as ih =>
    rw [List.foldlM_cons]
    intro k failure failed
    cases first : step b a with
    | error failure' =>
      rw [first] at failed
      cases failed
      exact h b a k _ first
    | ok c =>
      rw [first] at failed
      exact ih c k failure failed

theorem TriggerRule.placeless_fire (o : Options) (field : String) (raw : Value) (target : String)
    (m : Memory) (rule : TriggerRule) : Placeless (rule.fire o field raw target m) := by
  intro k failure failed
  cases rule with
  | set kind =>
    rw [fire] at failed
    split at failed
    · cases failed
    · split at failed
      · cases failed
      · cases failed
        rfl
  | lookup kind table =>
    rw [fire] at failed
    split at failed
    · cases failed
    · cases failed
      rfl

/-- The failures of triggers have no offset. -/
theorem placeless_fireAll (o : Options) (field : String) (raw : Value) (triggers : List Trigger)
    (m : Memory) : Placeless (fireAll o field raw triggers m) := by
  refine placeless_foldlM (fun m trigger => ?_) triggers m
  cases trigger with
  | saveToContext => exact .ok _
  | onField target rules =>
    exact placeless_foldlM (fun m rule => rule.placeless_fire o field raw target m) rules m

/-! ### Structures being decoded -/

/-- The same structures, each `k` bytes further on. -/
def Active.shift (k : Nat) (active : Active) : Active :=
  active.map fun entry => (entry.1, entry.2 + k)

/-- The place of a structure is taken just when it was before everything moved. -/
theorem Active.contains_shift (k : Nat) (active : Active) (name : String) (offset : Nat) :
    (active.shift k).contains (name, offset + k) = active.contains (name, offset) := by
  rw [Bool.eq_iff_iff, List.contains_iff_mem, List.contains_iff_mem]
  constructor
  · intro mem
    obtain ⟨⟨own, start⟩, there, same⟩ := List.mem_map.mp mem
    obtain ⟨rfl, moved⟩ := Prod.mk.inj same
    obtain rfl : start = offset := by simpa using moved
    exact there
  · intro mem
    exact List.mem_map.mpr ⟨(name, offset), mem, rfl⟩

end WireGrammar
