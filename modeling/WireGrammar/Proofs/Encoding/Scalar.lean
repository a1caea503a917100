import WireGrammar.Proofs.Decoding.Scalar

/-!
# Scalars back to bytes

A scalar and its width determine the bytes it was read from, once it is known whether the field is
self-describing: the two leading bits, which are not part of the value, can be told from the width.

* `Value.encode`: the bytes of a scalar;
* `BitCursor.Reads.encode_append`: encoding gives back what reading has taken.
-/

namespace WireGrammar

/-! ### Encoding -/

/-- The way in which the scalars of a field are written. -/
inductive Coding where
  | varint
  | packetNumber
  /-- Whole bytes, without leading bits of their own. -/
  | plain
  deriving DecidableEq, Repr

namespace Coding

/-- The leading bits of a number of `width` bytes. -/
def leading : Coding → (width : Nat) → Nat
  | .varint, width => Nat.log2 width
  | .packetNumber, width => if width = 1 then 0 else if width = 2 then 2 else 3
  | .plain, _ => 0

/-- Scalars of this length are written in this way. -/
def admits : Coding → Length → Bool
  | .varint, .varint => true
  | .packetNumber, .packetNumber => true
  | .plain, .bits n => n % 8 == 0
  | .plain, .rest => true
  | _, _ => false

end Coding

/-- The bytes that the scalar is read from, `width` of them. -/
def Value.encode (coding : Coding) (width : Nat) : Value → List UInt8
  | .uint n => Bytes.ofNumber width (coding.leading width * Word.size (8 * width - 2) + n)
  | .wide n => Bytes.ofNumber width (coding.leading width * Word.size (8 * width - 2) + n)
  | .bytes bs => bs
  | .text _ => []

/-- Numbers are written to their width, byte strings as they are. -/
theorem Value.encode_ofBytes (bs : List UInt8) : (ofBytes bs).encode .plain bs.length = bs := by
  unfold ofBytes
  split
  · simp only [encode, Coding.leading, Nat.zero_mul, Nat.zero_add, Bytes.ofNumber_number]
  · split
    · simp only [encode, Coding.leading, Nat.zero_mul, Nat.zero_add, Bytes.ofNumber_number]
    · rfl

/-! ### Leading bits -/

namespace BitCursor

variable {c : BitCursor}

/-- The leading bits, in front of the value, make up the number in the next bytes. -/
theorem number_peekBytes {width : Nat} (one : 1 ≤ width) (enough : width ≤ c.remainingBytes) :
    c.pattern * Word.size (8 * width - 2) + c.prefixedValue width =
      Bytes.number (c.peekBytes width) := by
  have length := length_peekBytes enough
  obtain ⟨b, bs, next⟩ := List.exists_cons_of_length_pos (l := c.peekBytes width) (by omega)
  have first : c.pattern = b.toNat / 64 := by
    have head : (c.peekBytes 1).head? = (c.peekBytes width).head? := by
      rw [peekBytes, peekBytes, List.head?_take, List.head?_take, if_neg (by omega),
        if_neg (by omega)]
    rw [pattern, head, next]
    rfl
  have width_eq : bs.length + 1 = width := by rw [← length, next, List.length_cons]
  have leading : Bytes.number (c.peekBytes width) / Word.size (8 * width - 2) = c.pattern := by
    rw [next, ← width_eq, Bytes.number_div, first]
  rw [prefixedValue, ← leading, Nat.mul_comm]
  exact Nat.div_add_mod ..

/-- Where the leading bits can be told from the width, the next bytes can be told from the value. -/
theorem encode_prefixedValue {coding : Coding} {width : Nat} (one : 1 ≤ width)
    (enough : width ≤ c.remainingBytes) (told : coding.leading width = c.pattern) :
    (Value.uint (c.prefixedValue width)).encode coding width = c.peekBytes width := by
  have length := length_peekBytes enough
  have whole := Bytes.ofNumber_number (c.peekBytes width)
  rw [length] at whole
  rw [Value.encode, told, number_peekBytes one enough, whole]

theorem leading_varintWidth {pattern : Nat} (h : pattern < 4) :
    Coding.varint.leading (varintWidth pattern) = pattern := by
  match pattern, h with
  | 0, _ | 1, _ | 2, _ | 3, _ => rfl

theorem leading_packetNumberWidth? {pattern width : Nat}
    (h : packetNumberWidth? pattern = some width) :
    1 ≤ width ∧ Coding.packetNumber.leading width = pattern := by
  unfold packetNumberWidth? at h
  split at h <;> cases h <;> decide

/-! ### Scalars -/

theorem bytes_remaining_skip (c : BitCursor) (n : Nat) :
    (c.skip (8 * n)).remaining.bytes = c.remaining.bytes.drop n := by
  simp only [remaining, Slice.drop, byteIndex, slice_skip, position_skip, List.drop_drop]
  congr 1
  omega

theorem isAligned_skip (aligned : c.isAligned) (n : Nat) : (c.skip (8 * n)).isAligned := by
  simp only [isAligned, bitOffset, position_skip, beq_iff_eq] at *
  omega

/-- The bytes of a scalar, and those behind it, are the bytes it was read from; what is behind it
starts between two bytes. -/
theorem Reads.encode_append {coding : Coding} {length : Length} {r : Reading}
    (h : Reads c length r) (admitted : coding.admits length = true) (aligned : c.isAligned) :
    r.value.encode coding (scalarStop c r.bits - c.absolute) ++ r.cursor.remaining.bytes =
      c.remaining.bytes ∧ r.cursor.isAligned := by
  have span (width : Nat) : scalarStop c (8 * width) - c.absolute = width := by
    simp only [isAligned, beq_iff_eq] at aligned
    rw [scalarStop, aligned]
    split <;> omega
  have block {width : Nat} {bs : List UInt8} (taken : bs = c.peekBytes width) :
      bs ++ (c.skip (8 * width)).remaining.bytes = c.remaining.bytes := by
    rw [bytes_remaining_skip, taken, peekBytes, List.take_append_drop]
  cases h with
  | varint _ announced enough =>
    cases coding with
    | varint =>
      have one := one_le_varintWidth c.pattern
      subst announced
      refine ⟨?_, isAligned_skip aligned _⟩
      rw [span]
      exact block (encode_prefixedValue one enough.2 (leading_varintWidth c.pattern_lt))
    | _ => cases admitted
  | packetNumber _ announced enough =>
    cases coding with
    | packetNumber =>
      obtain ⟨one, told⟩ := leading_packetNumberWidth? announced
      refine ⟨?_, isAligned_skip aligned _⟩
      rw [span]
      exact block (encode_prefixedValue one enough.2 told)
    | _ => cases admitted
  | rest =>
    refine ⟨?_, ?_⟩
    · have nothing : c.slice.bytes.drop c.slice.length = [] := List.drop_length
      simp only [Value.encode, remaining, Slice.drop, byteIndex, Nat.mul_div_cancel_left, nothing,
        Nat.succ_pos, List.append_nil]
    · simp [isAligned, bitOffset]
  | nothing => exact ⟨rfl, aligned⟩
  | @block width _ some enough =>
    cases coding with
    | plain =>
      have whole := Value.encode_ofBytes (c.peekBytes width)
      rw [length_peekBytes enough] at whole
      refine ⟨?_, isAligned_skip aligned _⟩
      rw [span]
      exact block whole
    | _ => cases admitted
  | @run n some ragged narrow enough =>
    -- A run of whole bytes would start inside a byte.
    cases coding with
    | plain =>
      have inside := ragged (by simpa [Coding.admits] using admitted)
      rw [aligned] at inside
      cases inside
    | _ => cases admitted

end BitCursor

end WireGrammar
