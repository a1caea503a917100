import WireGrammar.Cursor.Read

/-!
# Successful reads

Each read is characterised by its conditions and its result, so that whoever uses a read need not
look inside; in every case the slice stays the same and the cursor moves forward by the bits taken,
never beyond the end of the slice.
-/

namespace WireGrammar.BitCursor

variable {c : BitCursor} {n : Nat}

theorem requireAligned_bind_eq_ok {α : Type} {f : Unit → Except ReadError α} {a : α} :
    (c.requireAligned >>= f) = .ok a ↔ c.isAligned ∧ f () = .ok a := by
  unfold requireAligned
  split <;> simp_all [bind, Except.bind]

theorem requireBytes_bind_eq_ok {α : Type} {f : Unit → Except ReadError α} {a : α} :
    (c.requireBytes n >>= f) = .ok a ↔ n ≤ c.remainingBytes ∧ f () = .ok a := by
  unfold requireBytes
  split
  · next h => simp [bind, Except.bind, h]
  · next h => simp [bind, Except.bind, h]

theorem takeBytes_eq_ok {r : List UInt8 × BitCursor} :
    c.takeBytes n = .ok r ↔ c.isAligned ∧ n ≤ c.remainingBytes ∧
      r = (c.peekBytes n, { c with position := c.position + 8 * n }) := by
  simp only [takeBytes, requireAligned_bind_eq_ok, requireBytes_bind_eq_ok, pure, Except.pure,
    Except.ok.injEq, eq_comm (a := r)]

theorem takeRest_eq_ok {r : List UInt8 × BitCursor} :
    c.takeRest = .ok r ↔
      c.isAligned ∧ r = (c.remaining.bytes, { c with position := 8 * c.slice.length }) := by
  simp only [takeRest, requireAligned_bind_eq_ok, pure, Except.pure, Except.ok.injEq,
    eq_comm (a := r)]

theorem window_eq_ok {s : Slice} :
    c.window n = .ok s ↔ c.isAligned ∧ n ≤ c.remainingBytes ∧ s = c.remaining.take n := by
  simp only [window, requireAligned_bind_eq_ok, requireBytes_bind_eq_ok, pure, Except.pure,
    Except.ok.injEq, eq_comm (a := s)]

theorem rest_eq_ok {s : Slice} : c.rest = .ok s ↔ c.isAligned ∧ s = c.remaining := by
  simp only [rest, requireAligned_bind_eq_ok, pure, Except.pure, Except.ok.injEq,
    eq_comm (a := s)]

theorem takePrefixed_eq_ok {width : Nat} {p : Prefixed} :
    c.takePrefixed width = .ok p ↔ width ≤ c.remainingBytes ∧
      p = ⟨Bytes.number (c.peekBytes width) % Word.size (8 * width - 2), 8 * width,
        { c with position := c.position + 8 * width }⟩ := by
  simp only [takePrefixed, requireBytes_bind_eq_ok, pure, Except.pure, Except.ok.injEq,
    eq_comm (a := p)]

theorem takeBits_eq_ok {r : Nat × BitCursor} :
    c.takeBits n = .ok r ↔
      n ≤ 64 ∧ n ≤ c.remainingBits ∧ r = (c.peekBits n, { c with position := c.position + n }) := by
  unfold takeBits
  split
  · simp; omega
  · split
    · simp; omega
    · simp only [Except.ok.injEq, eq_comm (a := r)]
      exact ⟨fun h => ⟨by omega, by omega, h⟩, fun h => h.2.2⟩

/-! ### Self-describing integers -/

/-- The leading bits of the next byte, as a number. -/
def pattern (c : BitCursor) : Nat := (c.peekBytes 1).head?.elim 0 fun b => b.toNat / 64

theorem leadingPattern_bind_eq_ok {α : Type} {f : Nat → Except ReadError α} {a : α} :
    (c.leadingPattern >>= f) = .ok a ↔
      c.isAligned ∧ 1 ≤ c.remainingBytes ∧ f c.pattern = .ok a := by
  unfold leadingPattern requireAligned requireBytes pattern
  by_cases aligned : c.isAligned <;> by_cases enough : 1 ≤ c.remainingBytes <;>
    simp [bind, Except.bind, pure, Except.pure, aligned, enough]

theorem takeVarint_eq_ok {p : Prefixed} :
    c.takeVarint = .ok p ↔
      c.isAligned ∧ 1 ≤ c.remainingBytes ∧ c.takePrefixed (varintWidth c.pattern) = .ok p := by
  simp only [takeVarint, leadingPattern_bind_eq_ok]

theorem takePacketNumber_eq_ok {p : Prefixed} :
    c.takePacketNumber = .ok p ↔ c.isAligned ∧ 1 ≤ c.remainingBytes ∧
      ∃ width, packetNumberWidth? c.pattern = some width ∧ c.takePrefixed width = .ok p := by
  simp only [takePacketNumber, leadingPattern_bind_eq_ok]
  cases packetNumberWidth? c.pattern <;> simp [throw, throwThe, MonadExceptOf.throw]

/-! ### What is left -/

theorem length_remaining (c : BitCursor) : c.remaining.length = c.remainingBytes :=
  Slice.length_drop ..

/-- Advancing leaves no more than there was. -/
theorem remainingBits_advance_le (c : BitCursor) (n : Nat) :
    (c.advance n).remainingBits ≤ c.remainingBits := by
  simp only [remainingBits, advance, byteIndex, bitOffset]
  omega

/-- Going forward within the slice leaves less. -/
theorem remainingBits_lt {c d : BitCursor} (same : d.slice = c.slice)
    (forward : c.position < d.position) (left : c.isExhausted = false) :
    d.remainingBits < c.remainingBits := by
  rw [isExhausted_eq_false_iff] at left
  unfold remainingBits
  rw [same]
  omega

end WireGrammar.BitCursor
