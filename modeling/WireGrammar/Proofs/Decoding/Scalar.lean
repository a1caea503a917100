import WireGrammar.Proofs.Decoding.Turn

/-!
# Which scalar is read

Each way of reading a scalar, with its conditions and its result.

* `readScalar_eq_ok`: a scalar is read just in these ways;
* `Reads.cursor_eq`: the cursor goes forward by the bits the scalar takes, within its slice;
* `Reads.lt_of_uint`: numbers that are read are below `2 ^ 64`;
* `advance_eq_skip`: the cursor goes forward behind structures too, by eight bits a byte;
* `FieldTurn.within`, `FieldTurn.position_le`: so no turn of a field leaves the slice or goes back.
-/

namespace WireGrammar.BitCursor

/-- The cursor `bits` bits further on. -/
def skip (c : BitCursor) (bits : Nat) : BitCursor := { c with position := c.position + bits }

@[simp] theorem slice_skip (c : BitCursor) (bits : Nat) : (c.skip bits).slice = c.slice := rfl

@[simp] theorem position_skip (c : BitCursor) (bits : Nat) :
    (c.skip bits).position = c.position + bits := rfl

/-- The number in the next `width` bytes without its two leading bits. -/
def prefixedValue (c : BitCursor) (width : Nat) : Nat :=
  Bytes.number (c.peekBytes width) % Word.size (8 * width - 2)

/-- The scalars that can be read from a cursor, by their length. -/
inductive Reads (c : BitCursor) : Length → Reading → Prop where
  | varint {width : Nat} (aligned : c.isAligned) (announced : width = varintWidth c.pattern)
      (enough : 1 ≤ c.remainingBytes ∧ width ≤ c.remainingBytes) :
      Reads c .varint ⟨.uint (c.prefixedValue width), 8 * width, c.skip (8 * width)⟩
  | packetNumber {width : Nat} (aligned : c.isAligned)
      (announced : packetNumberWidth? c.pattern = some width)
      (enough : 1 ≤ c.remainingBytes ∧ width ≤ c.remainingBytes) :
      Reads c .packetNumber ⟨.uint (c.prefixedValue width), 8 * width, c.skip (8 * width)⟩
  | rest (aligned : c.isAligned) :
      Reads c .rest ⟨.bytes c.remaining.bytes, 8 * c.remainingBytes,
        { c with position := 8 * c.slice.length }⟩
  | nothing : Reads c (.bits 0) ⟨.bytes [], 0, c⟩
  | block {width : Nat} (aligned : c.isAligned) (some : width ≠ 0)
      (enough : width ≤ c.remainingBytes) :
      Reads c (.bits (8 * width))
        ⟨Value.ofBytes (c.peekBytes width), 8 * width, c.skip (8 * width)⟩
  | run {n : Nat} (some : n ≠ 0) (ragged : n % 8 = 0 → c.isAligned = false) (narrow : n ≤ 64)
      (enough : n ≤ c.remainingBits) :
      Reads c (.bits n) ⟨.uint (c.peekBits n), n, c.skip n⟩

variable {c : BitCursor} {length : Length} {r : Reading}

theorem readScalar_varint_eq_ok : c.readScalar .varint = .ok r ↔ Reads c .varint r := by
  simp only [readScalar]
  constructor
  · intro h
    cases hp : c.takeVarint with
    | error e => simp [hp, bind, Except.bind] at h
    | ok p =>
      obtain ⟨aligned, one, taken⟩ := takeVarint_eq_ok.mp hp
      obtain ⟨enough, rfl⟩ := takePrefixed_eq_ok.mp taken
      simp only [hp, bind, Except.bind, pure, Except.pure, Except.ok.injEq] at h
      exact h ▸ .varint aligned rfl ⟨one, enough⟩
  · intro h
    cases h with
    | varint aligned announced enough =>
      subst announced
      have taken := takeVarint_eq_ok.mpr
        ⟨aligned, enough.1, takePrefixed_eq_ok.mpr ⟨enough.2, rfl⟩⟩
      rw [taken]
      rfl

theorem readScalar_packetNumber_eq_ok :
    c.readScalar .packetNumber = .ok r ↔ Reads c .packetNumber r := by
  simp only [readScalar]
  constructor
  · intro h
    cases hp : c.takePacketNumber with
    | error e => simp [hp, bind, Except.bind] at h
    | ok p =>
      obtain ⟨aligned, one, width, announced, taken⟩ := takePacketNumber_eq_ok.mp hp
      obtain ⟨enough, rfl⟩ := takePrefixed_eq_ok.mp taken
      simp only [hp, bind, Except.bind, pure, Except.pure, Except.ok.injEq] at h
      exact h ▸ .packetNumber aligned announced ⟨one, enough⟩
  · intro h
    cases h with
    | packetNumber aligned announced enough =>
      have taken := takePacketNumber_eq_ok.mpr
        ⟨aligned, enough.1, _, announced, takePrefixed_eq_ok.mpr ⟨enough.2, rfl⟩⟩
      rw [taken]
      rfl

theorem readScalar_rest_eq_ok : c.readScalar .rest = .ok r ↔ Reads c .rest r := by
  simp only [readScalar]
  constructor
  · intro h
    cases hp : c.takeRest with
    | error e => simp [hp, bind, Except.bind] at h
    | ok p =>
      obtain ⟨aligned, rfl⟩ := takeRest_eq_ok.mp hp
      simp only [hp, bind, Except.bind, pure, Except.pure, Except.ok.injEq] at h
      exact h ▸ .rest aligned
  · intro h
    cases h with
    | rest aligned =>
      rw [takeRest_eq_ok.mpr ⟨aligned, rfl⟩]
      rfl

theorem readScalar_bits_eq_ok {n : Nat} : c.readScalar (.bits n) = .ok r ↔ Reads c (.bits n) r := by
  simp only [readScalar]
  constructor
  · intro h
    split at h
    · next none =>
      simp only [pure, Except.pure, Except.ok.injEq] at h
      subst none
      exact h ▸ .nothing
    · next some =>
      split at h
      · next whole =>
        cases hp : c.takeBytes (n / 8) with
        | error e => simp [hp, bind, Except.bind] at h
        | ok p =>
          obtain ⟨aligned, enough, rfl⟩ := takeBytes_eq_ok.mp hp
          simp only [hp, bind, Except.bind, pure, Except.pure, Except.ok.injEq] at h
          have eight : 8 * (n / 8) = n := by omega
          have block := Reads.block aligned (by omega) enough
          rw [eight] at block
          rw [← h, eight]
          exact block
      · next ragged =>
        cases hp : c.takeBits n with
        | error e => simp [hp, bind, Except.bind] at h
        | ok p =>
          obtain ⟨narrow, enough, rfl⟩ := takeBits_eq_ok.mp hp
          simp only [hp, bind, Except.bind, pure, Except.pure, Except.ok.injEq] at h
          exact h ▸ .run some (by simpa using ragged) narrow enough
  · intro h
    cases h with
    | nothing => rfl
    | @block width aligned some enough =>
      rw [if_neg (by omega), if_pos ⟨by omega, aligned⟩, Nat.mul_div_cancel_left width (by decide),
        takeBytes_eq_ok.mpr ⟨aligned, enough, rfl⟩]
      rfl
    | run some ragged narrow enough =>
      rw [if_neg some, if_neg (by simpa using ragged), takeBits_eq_ok.mpr ⟨narrow, enough, rfl⟩]
      rfl

/-- A scalar is read in one of the ways of `Reads`. -/
theorem readScalar_eq_ok : c.readScalar length = .ok r ↔ Reads c length r := by
  cases length with
  | bits n => exact readScalar_bits_eq_ok
  | varint => exact readScalar_varint_eq_ok
  | packetNumber => exact readScalar_packetNumber_eq_ok
  | rest => exact readScalar_rest_eq_ok

/-- No scalar is read as text. -/
theorem text?_of_readScalar (h : c.readScalar length = .ok r) : r.value.text? = none := by
  cases readScalar_eq_ok.mp h with
  | block =>
    simp only [Value.ofBytes]
    split
    · rfl
    · split <;> rfl
  | _ => rfl

/-! ### The cursor behind a scalar -/

theorem byteIndex_of_isAligned (h : c.isAligned) : 8 * c.byteIndex = c.position := by
  simp only [isAligned, bitOffset, beq_iff_eq] at h
  rw [byteIndex]
  omega

/-- Between two bytes, whole bytes are left. -/
theorem remainingBits_of_isAligned (h : c.isAligned) : c.remainingBits = 8 * c.remainingBytes := by
  have index := byteIndex_of_isAligned h
  rw [remainingBits, remainingBytes]
  omega

/-- The cursor goes forward by the bits that the scalar takes. -/
theorem Reads.cursor_eq (h : Reads c length r) (within : c.Within) :
    r.cursor = c.skip r.bits := by
  cases h with
  | rest aligned =>
    have index := byteIndex_of_isAligned aligned
    simp only [Within] at within
    simp only [skip, remainingBytes, BitCursor.mk.injEq, true_and]
    omega
  | _ => rfl

/-- Reading does not leave the slice. -/
theorem Reads.within (h : Reads c length r) (within : c.Within) : r.cursor.Within := by
  have bytes {width : Nat} (aligned : c.isAligned) (enough : width ≤ c.remainingBytes) :
      (c.skip (8 * width)).Within := by
    have index := byteIndex_of_isAligned aligned
    simp only [Within, remainingBytes, slice_skip, position_skip] at *
    omega
  cases h with
  | varint aligned _ enough => exact bytes aligned enough.2
  | packetNumber aligned _ enough => exact bytes aligned enough.2
  | rest => exact Nat.le_refl _
  | nothing => exact within
  | block aligned _ enough => exact bytes aligned enough
  | run _ _ _ enough =>
    simp only [Within, remainingBits, slice_skip, position_skip] at *
    omega

theorem length_peekBytes {n : Nat} (enough : n ≤ c.remainingBytes) :
    (c.peekBytes n).length = n := by
  rw [remainingBytes, ← Slice.length_drop] at enough
  exact Slice.length_take enough

/-! ### Widths of self-describing integers -/

theorem pattern_lt (c : BitCursor) : c.pattern < 4 := by
  unfold pattern
  cases (c.peekBytes 1).head? with
  | none => decide
  | some b =>
    have := b.toNat_lt
    simp only [Option.elim_some]
    omega

theorem varintWidth_le (pattern : Nat) : varintWidth pattern ≤ 8 := by
  unfold varintWidth
  split <;> decide

theorem one_le_varintWidth (pattern : Nat) : 1 ≤ varintWidth pattern := by
  unfold varintWidth
  split <;> decide

theorem one_le_packetNumberWidth? {pattern width : Nat}
    (h : packetNumberWidth? pattern = some width) : 1 ≤ width := by
  unfold packetNumberWidth? at h
  split at h <;> cases h <;> decide

theorem packetNumberWidth?_le {pattern width : Nat} (h : packetNumberWidth? pattern = some width) :
    width ≤ 8 := by
  unfold packetNumberWidth? at h
  split at h <;> cases h <;> decide

/-- A scalar that is read as a number is one below `2 ^ 64`. -/
theorem Reads.lt_of_uint (h : Reads c length r) {n : Nat} (number : r.value = .uint n) :
    n < Word.size 64 := by
  -- At most eight bytes without their two leading bits.
  have prefixed (width : Nat) (le : width ≤ 8) : c.prefixedValue width < Word.size 64 :=
    Nat.lt_of_lt_of_le (Nat.mod_lt _ (Word.size_pos _)) (Word.size_le (by omega))
  cases h with
  | varint _ announced =>
    cases number
    exact prefixed _ (announced ▸ varintWidth_le _)
  | packetNumber _ announced =>
    cases number
    exact prefixed _ (packetNumberWidth?_le announced)
  | rest => cases number
  | nothing => cases number
  | @block width _ _ enough =>
    have lt := Bytes.number_lt (c.peekBytes width)
    rw [length_peekBytes enough] at lt
    by_cases small : width = 1 ∨ width = 2 ∨ width = 4 ∨ width = 8
    · rw [Value.ofBytes, length_peekBytes enough, if_pos small] at number
      cases number
      exact Nat.lt_of_lt_of_le lt (Word.size_le (by omega))
    · rw [Value.ofBytes, length_peekBytes enough, if_neg small] at number
      split at number <;> cases number
  | run _ _ narrow =>
    cases number
    exact Nat.lt_of_lt_of_le (Nat.mod_lt _ (Word.size_pos _)) (Word.size_le narrow)

/-! ### The cursor behind a row of structures -/

/-- Advancing over bytes that are there is going forward by their bits. -/
theorem advance_eq_skip {n : Nat} (aligned : c.isAligned) (enough : n ≤ c.remainingBytes)
    (within : c.Within) : c.advance n = c.skip (8 * n) := by
  have index := byteIndex_of_isAligned aligned
  simp only [isAligned, beq_iff_eq] at aligned
  simp only [Within, remainingBytes] at *
  simp only [advance, skip, aligned, BitCursor.mk.injEq, true_and]
  omega

theorem remaining_start (s : Slice) : (start s).remaining = s := by
  simp only [remaining, byteIndex, start, Nat.zero_div, Slice.drop, Nat.add_zero, List.drop_zero]

theorem absolute_skip (c : BitCursor) (bits : Nat) :
    (c.skip bits).absolute = c.slice.offset + (c.position + bits) / 8 := rfl

theorem absolute_of_isAligned (aligned : c.isAligned) :
    c.absolute = c.slice.offset + c.consumedBytes := by
  have index := byteIndex_of_isAligned aligned
  simp only [absolute, consumedBytes] at *
  omega

end WireGrammar.BitCursor

namespace WireGrammar

/-- A target is decoded in bytes that are left, from where the cursor stands between two bytes. -/
theorem FieldAttributes.view_eq_ok {a : FieldAttributes} {c : BitCursor} {view : Slice}
    (h : a.view c = .ok view) :
    c.isAligned ∧ view.offset = c.absolute ∧ view.bytes <+: c.remaining.bytes := by
  unfold FieldAttributes.view at h
  split at h
  · obtain ⟨aligned, -, rfl⟩ := BitCursor.window_eq_ok.mp h
    exact ⟨aligned, rfl, List.take_prefix ..⟩
  · obtain ⟨aligned, rfl⟩ := BitCursor.rest_eq_ok.mp h
    exact ⟨aligned, rfl, List.prefix_rfl⟩

theorem Slice.length_le_of_prefix {c : BitCursor} {view : Slice}
    (h : view.bytes <+: c.remaining.bytes) : view.length ≤ c.remainingBytes := by
  have le := h.length_le
  rwa [← Slice.length, ← Slice.length, BitCursor.remaining, Slice.length_drop] at le

/-! ### Cursors of turns -/

section Turn

variable {o : Options} {parse : TargetParser} {f : FieldDescriptor} {p q : Progress}

/-- A field leaves its cursor within the slice. -/
theorem FieldTurn.within (h : FieldTurn o parse f p q) (within : p.cursor.Within) :
    q.cursor.Within := by
  cases h with
  | idle => exact within
  | scalar h =>
    rw [Progress.cursor_requeueIf]
    exact (BitCursor.readScalar_eq_ok.mp h.read).within within
  | target h =>
    rw [Progress.cursor_requeueIf]
    exact BitCursor.within_advance (FieldAttributes.view_eq_ok h.viewed).1 _

/-- A field does not take its cursor back. -/
theorem FieldTurn.position_le (h : FieldTurn o parse f p q) (within : p.cursor.Within) :
    p.cursor.position ≤ q.cursor.position := by
  cases h with
  | idle => exact Nat.le_refl _
  | scalar h =>
    rw [Progress.cursor_requeueIf, Progress.afterScalar,
      (BitCursor.readScalar_eq_ok.mp h.read).cursor_eq within]
    exact Nat.le_add_right _ _
  | target h =>
    rw [Progress.cursor_requeueIf]
    exact BitCursor.position_le_advance within _

end Turn

end WireGrammar
