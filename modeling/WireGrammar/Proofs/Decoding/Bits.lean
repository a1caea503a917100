import Mathlib.Data.List.Infix
import WireGrammar.Proofs.Machine.Read

/-!
# Scalars by the bits of a buffer

A scalar is read from a cursor, by bytes or by bits, in a slice of a slice of a buffer.  What it
comes to can be told by the bits of the buffer alone.

* `Bytes.bit`, `Bytes.bitNumber`: the bits of a byte string, and the number in a run of them;
* `ScalarAt`: the scalar of some length at a bit of a buffer, and the bits that it takes;
* `BitCursor.Reads.scalarAt`: a scalar that is read is the one at the bit where the cursor stands.
-/

namespace WireGrammar

/-! ### Bits -/

namespace Bytes

/-- The bit `i` of a byte string, where the most significant one of each byte comes first. -/
def bit (bytes : List UInt8) (i : Nat) : Nat :=
  bytes[i / 8]?.elim 0 fun b => b.toNat / Word.size (7 - i % 8) % 2

/-- The big-endian number of the `n` bits from the bit `p` on. -/
def bitNumber (bytes : List UInt8) (p : Nat) : (n : Nat) → Nat
  | 0 => 0
  | n + 1 => 2 * bitNumber bytes p n + bit bytes (p + n)

theorem bitNumber_congr {bytes bytes' : List UInt8} {p p' n : Nat}
    (same : ∀ i, i < n → bit bytes (p + i) = bit bytes' (p' + i)) :
    bitNumber bytes p n = bitNumber bytes' p' n := by
  induction n with
  | zero => rfl
  | succ n ih =>
    rw [bitNumber, bitNumber, ih fun i lt => same i (Nat.lt_succ_of_lt lt),
      same n (Nat.lt_succ_self n)]

end Bytes

/-! ### Runs of bits at a cursor -/

namespace BitCursor

/-- From between two bytes, the number in a run of bits is that of the bytes it fills. -/
theorem peekBits_of_isAligned {c : BitCursor} {width : Nat} (aligned : c.isAligned)
    (enough : width ≤ c.remainingBytes) :
    c.peekBits (8 * width) = Bytes.number (c.peekBytes width) := by
  have offset : c.bitOffset = 0 := by simpa [isAligned] using aligned
  have held : (8 * width + 7) / 8 = width := by omega
  have fits := Bytes.number_lt (c.peekBytes width)
  rw [length_peekBytes enough] at fits
  simp only [peekBits, offset, Nat.zero_add, held, Nat.sub_self, Word.size_zero, Nat.div_one]
  exact Nat.mod_eq_of_lt fits

variable {c : BitCursor} {n width : Nat} (within : c.Within)

include within

/-- The number in a run of bits is that of the bits of the slice from the position on. -/
theorem peekBits_eq_bitNumber (enough : n ≤ c.remainingBits) :
    c.peekBits n = Bytes.bitNumber c.slice.bytes c.position n := by
  induction n with
  | zero => exact c.peekBits_zero
  | succ n ih =>
    -- The last bit of the run is the one at the cursor behind the others.
    have place := within.position_add_remainingBits
    have there : (c.skip n).byteIndex < c.slice.bytes.length := by
      simp only [byteIndex, position_skip]
      unfold Slice.length at place
      omega
    have inside : (c.skip n).bitOffset + 1 ≤ 8 := Nat.mod_lt _ (by decide)
    have current : (c.skip n).slice.bytes[(c.skip n).byteIndex]? =
        some c.slice.bytes[(c.skip n).byteIndex] := List.getElem?_eq_getElem there
    have last : (c.skip n).peekBits 1 = Bytes.bit c.slice.bytes (c.position + n) := by
      rw [peekBits_of_byte (by decide) inside current, Bytes.bit]
      rw [show (c.position + n) / 8 = (c.skip n).byteIndex from rfl, slice_skip] at *
      rw [current, Option.elim_some, Nat.sub_right_comm]
      rfl
    rw [peekBits_add within enough, ih (by omega), last, Bytes.bitNumber, Nat.mul_comm]
    rfl

/-- The number in whole bytes is that of their bits. -/
theorem number_peekBytes_eq (aligned : c.isAligned) (enough : width ≤ c.remainingBytes) :
    Bytes.number (c.peekBytes width) = Bytes.bitNumber c.slice.bytes c.position (8 * width) := by
  rw [← peekBits_of_isAligned aligned enough, peekBits_eq_bitNumber within]
  rw [remainingBits_of_isAligned aligned]
  omega

/-- The two leading bits of a byte. -/
theorem pattern_eq_bitNumber (aligned : c.isAligned) (some : 1 ≤ c.remainingBytes) :
    c.pattern = Bytes.bitNumber c.slice.bytes c.position 2 := by
  have offset : c.bitOffset = 0 := by simpa [isAligned] using aligned
  have there : c.byteIndex < c.slice.bytes.length := by
    simp only [remainingBytes, Slice.length] at some
    omega
  rw [← peekBits_eq_bitNumber within (by rw [remainingBits_of_isAligned aligned]; omega),
    peekBits_of_byte (by decide) (by omega) (List.getElem?_eq_getElem there), offset]
  have next : c.peekBytes 1 = [c.slice.bytes[c.byteIndex]] := by
    rw [peekBytes, remaining, Slice.drop, List.drop_eq_getElem_cons there, List.take_succ_cons,
      List.take_zero]
  have few := c.slice.bytes[c.byteIndex].toNat_lt
  rw [pattern, next, List.head?_cons, Option.elim_some]
  show _ = _ / 64 % 4
  omega

/-- The number in whole bytes without the two leading bits is that of the other bits. -/
theorem prefixedValue_eq_bitNumber (aligned : c.isAligned) (some : 1 ≤ width)
    (enough : width ≤ c.remainingBytes) : c.prefixedValue width =
      Bytes.bitNumber c.slice.bytes (c.position + 2) (8 * width - 2) := by
  have bits : 8 * width ≤ c.remainingBits := by
    rw [remainingBits_of_isAligned aligned]
    omega
  have behind : 8 * width - 2 ≤ (c.skip 2).remainingBits := by
    rw [remainingBits_skip]
    omega
  rw [prefixedValue, number_peekBytes_eq within aligned enough, ← peekBits_eq_bitNumber within bits]
  have split : 8 * width = 2 + (8 * width - 2) := by omega
  rw [congrArg c.peekBits split, peekBits_add within (by omega), Nat.add_comm,
    Nat.add_mul_mod_self_right, Nat.mod_eq_of_lt ((c.skip 2).peekBits_lt _),
    peekBits_eq_bitNumber (within.skip (by omega)) behind]
  rfl

end BitCursor

/-! ### Scalars in a buffer -/

/-- At the bit `p` of a buffer, of which the bytes before `stop` can be seen, there is the scalar of
some length, and it takes so many bits. -/
inductive ScalarAt (buffer : List UInt8) (stop p : Nat) :
    Length → Value → (width : Nat) → Prop where
  | nothing : ScalarAt buffer stop p (.bits 0) (.bytes []) 0
  /-- A number of bits other than the widths below at a byte boundary. -/
  | number {n : Nat} (some : n ≠ 0) (run : n % 8 = 0 → p % 8 ≠ 0 ∨ n / 8 ∈ [1, 2, 4, 8]) :
      ScalarAt buffer stop p (.bits n) (.uint (Bytes.bitNumber buffer p n)) n
  | wide (aligned : p % 8 = 0) :
      ScalarAt buffer stop p (.bits 128) (.wide (Bytes.bitNumber buffer p 128)) 128
  | block {n : Nat} (whole : n % 8 = 0) (aligned : p % 8 = 0)
      (other : n / 8 ∉ [0, 1, 2, 4, 8, 16]) :
      ScalarAt buffer stop p (.bits n) (.bytes ((buffer.drop (p / 8)).take (n / 8))) n
  | varint {width : Nat} (aligned : p % 8 = 0)
      (announced : (Bytes.bitNumber buffer p 2, width) ∈ [(0, 1), (1, 2), (2, 4), (3, 8)]) :
      ScalarAt buffer stop p .varint (.uint (Bytes.bitNumber buffer (p + 2) (8 * width - 2)))
        (8 * width)
  | packetNumber {width : Nat} (aligned : p % 8 = 0)
      (announced : (Bytes.bitNumber buffer p 2, width) ∈ [(0, 1), (2, 2), (3, 4)]) :
      ScalarAt buffer stop p .packetNumber
        (.uint (Bytes.bitNumber buffer (p + 2) (8 * width - 2))) (8 * width)
  | rest (aligned : p % 8 = 0) :
      ScalarAt buffer stop p .rest (.bytes ((buffer.take stop).drop (p / 8))) (8 * stop - p)

/-- A run of bits is not a block of bytes. -/
theorem ScalarAt.not_block_of_run {n p : Nat} (run : n % 8 = 0 → p % 8 ≠ 0 ∨ n / 8 ∈ [1, 2, 4, 8])
    (whole : n % 8 = 0) (aligned : p % 8 = 0) (other : n / 8 ∉ [0, 1, 2, 4, 8, 16]) : False := by
  rcases run whole with inside | common
  · exact inside aligned
  · simp only [List.mem_cons, List.not_mem_nil, or_false, not_or] at common other
    omega

/-- The place and the length leave no choice. -/
theorem ScalarAt.unique {buffer : List UInt8} {stop p : Nat} {length : Length} {v v' : Value}
    {width width' : Nat} (h : ScalarAt buffer stop p length v width)
    (h' : ScalarAt buffer stop p length v' width') : v' = v ∧ width' = width := by
  cases h with
  | nothing =>
    cases h' with
    | nothing => exact ⟨rfl, rfl⟩
    | number some => exact absurd rfl some
    | block _ _ other => exact absurd (by decide) other
  | @number n some run =>
    cases h' with
    | nothing => exact absurd rfl some
    | number => exact ⟨rfl, rfl⟩
    | wide aligned => exact absurd (run (by decide)) (by simp [aligned])
    | block whole aligned other => exact (not_block_of_run run whole aligned other).elim
  | wide aligned =>
    cases h' with
    | number some run => exact absurd (run (by decide)) (by simp [aligned])
    | wide => exact ⟨rfl, rfl⟩
    | block _ _ other => exact absurd (by decide) other
  | block whole aligned other =>
    cases h' with
    | nothing => exact absurd (by decide) other
    | number some run => exact (not_block_of_run run whole aligned other).elim
    | wide => exact absurd (by decide) other
    | block => exact ⟨rfl, rfl⟩
  | @varint width aligned announced =>
    cases h' with
    | @varint width' _ announced' =>
      have same : width' = width := by
        simp only [List.mem_cons, Prod.mk.injEq, List.not_mem_nil, or_false] at announced announced'
        omega
      exact same ▸ ⟨rfl, rfl⟩
  | @packetNumber width aligned announced =>
    cases h' with
    | @packetNumber width' _ announced' =>
      have same : width' = width := by
        simp only [List.mem_cons, Prod.mk.injEq, List.not_mem_nil, or_false] at announced announced'
        omega
      exact same ▸ ⟨rfl, rfl⟩
  | rest =>
    cases h' with
    | rest => exact ⟨rfl, rfl⟩

/-! ### Parts of a buffer -/

/-- The slice is a part of another one, `k` bytes behind its start. -/
structure Slice.PartAt (k : Nat) (part whole : Slice) : Prop where
  offset : part.offset = whole.offset + k
  bytes : part.bytes <+: whole.bytes.drop k

namespace Slice.PartAt

variable {k : Nat} {part whole : Slice}

theorem refl (s : Slice) : PartAt 0 s s := ⟨rfl, List.prefix_rfl⟩

theorem drop (h : part.PartAt k whole) (n : Nat) : (part.drop n).PartAt (k + n) whole where
  offset := by
    rw [offset_drop, h.offset]
    omega
  bytes := by
    have shorter := List.IsPrefix.drop h.bytes n
    rwa [List.drop_drop] at shorter

theorem view {c : BitCursor} {a : FieldAttributes} {view : Slice} (h : c.slice.PartAt k whole)
    (viewed : a.view c = .ok view) : view.PartAt (k + c.byteIndex) whole := by
  obtain ⟨-, offset, front⟩ := FieldAttributes.view_eq_ok viewed
  have behind := h.drop c.byteIndex
  exact ⟨offset.trans behind.offset, front.trans behind.bytes⟩

theorem bytes_eq (h : part.PartAt k whole) :
    part.bytes = (whole.bytes.drop k).take part.length := List.prefix_iff_eq_take.mp h.bytes

theorem length_le (h : part.PartAt k whole) (some : part.bytes ≠ []) :
    k + part.length ≤ whole.length := by
  have few := h.bytes.length_le
  have positive := List.length_pos_iff.mpr some
  rw [List.length_drop] at few
  unfold length
  omega

/-- The bits of a part are bits of the whole. -/
theorem bit_eq (h : part.PartAt k whole) {i : Nat} (inside : i < 8 * part.length) :
    Bytes.bit part.bytes i = Bytes.bit whole.bytes (8 * k + i) := by
  have place : (8 * k + i) / 8 = k + i / 8 := by omega
  have same : part.bytes[i / 8]? = whole.bytes[k + i / 8]? := by
    rw [h.bytes_eq, List.getElem?_take_of_lt (by omega), List.getElem?_drop]
  rw [Bytes.bit, Bytes.bit, same, place, Nat.mul_add_mod]

theorem bitNumber_eq (h : part.PartAt k whole) {p n : Nat} (inside : p + n ≤ 8 * part.length) :
    Bytes.bitNumber part.bytes p n = Bytes.bitNumber whole.bytes (8 * k + p) n :=
  Bytes.bitNumber_congr fun i lt => by
    rw [h.bit_eq (by omega), Nat.add_assoc]

end Slice.PartAt

/-! ### Reads in a part of a buffer -/

namespace BitCursor

variable {c : BitCursor} {k : Nat} {whole : Slice} {length : Length} {r : Reading}

theorem varintWidth_mem {pattern : Nat} (few : pattern < 4) :
    (pattern, varintWidth pattern) ∈ [(0, 1), (1, 2), (2, 4), (3, 8)] := by
  have all : ∀ n < 4, (n, varintWidth n) ∈ [(0, 1), (1, 2), (2, 4), (3, 8)] := by decide
  exact all pattern few

theorem packetNumberWidth?_mem {pattern width : Nat}
    (h : packetNumberWidth? pattern = some width) :
    (pattern, width) ∈ [(0, 1), (2, 2), (3, 4)] := by
  unfold packetNumberWidth? at h
  split at h <;> cases h <;> decide

theorem mod_eight_of_isAligned (aligned : c.isAligned) (k : Nat) :
    (8 * k + c.position) % 8 = 0 := by
  have index := byteIndex_of_isAligned aligned
  omega

section Part

variable (within : c.Within) (part : c.slice.PartAt k whole)

include part

theorem peekBytes_eq_of_partAt {width : Nat} (enough : width ≤ c.remainingBytes) :
    c.peekBytes width = (whole.bytes.drop ((8 * k + c.position) / 8)).take width := by
  have place : (8 * k + c.position) / 8 = k + c.byteIndex := by
    unfold byteIndex
    omega
  have inside : width ≤ c.slice.length - c.byteIndex := enough
  rw [peekBytes, remaining, Slice.drop, part.bytes_eq, List.drop_take, List.drop_drop,
    List.take_take, Nat.min_eq_left inside, place]

/-- The bytes that are left are the scalar at their place. -/
theorem scalarAt_rest (aligned : c.isAligned) :
    ScalarAt whole.bytes (k + c.slice.length) (8 * k + c.position) .rest
      (.bytes c.remaining.bytes) (8 * c.remainingBytes) := by
  have index := byteIndex_of_isAligned aligned
  have bytes : c.remaining.bytes =
      (whole.bytes.take (k + c.slice.length)).drop ((8 * k + c.position) / 8) := by
    have place : (8 * k + c.position) / 8 = k + c.byteIndex := by omega
    have cut : (whole.bytes.take (k + c.slice.length)).drop k = c.slice.bytes := by
      rw [part.bytes_eq, List.drop_take, Nat.add_sub_cancel_left]
    rw [place, ← List.drop_drop, cut]
    rfl
  have bits : 8 * c.remainingBytes = 8 * (k + c.slice.length) - (8 * k + c.position) := by
    simp only [remainingBytes]
    omega
  rw [bytes, bits]
  exact .rest (mod_eight_of_isAligned aligned k)

include within

theorem prefixedValue_eq_of_partAt {width : Nat} (aligned : c.isAligned) (some : 1 ≤ width)
    (enough : width ≤ c.remainingBytes) : c.prefixedValue width =
      Bytes.bitNumber whole.bytes (8 * k + c.position + 2) (8 * width - 2) := by
  have index := byteIndex_of_isAligned aligned
  rw [prefixedValue_eq_bitNumber within aligned some enough, part.bitNumber_eq, Nat.add_assoc]
  simp only [remainingBytes] at enough
  omega

theorem pattern_eq_of_partAt (aligned : c.isAligned) (some : 1 ≤ c.remainingBytes) :
    c.pattern = Bytes.bitNumber whole.bytes (8 * k + c.position) 2 := by
  have index := byteIndex_of_isAligned aligned
  rw [pattern_eq_bitNumber within aligned some, part.bitNumber_eq]
  simp only [remainingBytes] at some
  omega

/-- A block of bytes is the scalar at its place. -/
theorem scalarAt_block {width : Nat} (aligned : c.isAligned) (some : width ≠ 0)
    (enough : width ≤ c.remainingBytes) :
    ScalarAt whole.bytes (k + c.slice.length) (8 * k + c.position) (.bits (8 * width))
      (Value.ofBytes (c.peekBytes width)) (8 * width) := by
  have index := byteIndex_of_isAligned aligned
  have start := mod_eight_of_isAligned aligned k
  have eighth : 8 * width / 8 = width := Nat.mul_div_cancel_left width (by decide)
  have number : Bytes.number (c.peekBytes width) =
      Bytes.bitNumber whole.bytes (8 * k + c.position) (8 * width) := by
    rw [number_peekBytes_eq within aligned enough, part.bitNumber_eq]
    simp only [remainingBytes] at enough
    omega
  rw [Value.ofBytes, length_peekBytes enough, number]
  split
  · next common =>
    refine .number (by omega) fun _ => .inr ?_
    rw [eighth]
    simpa using common
  · next other =>
    split
    · next sixteen =>
      subst sixteen
      exact .wide start
    · next other' =>
      rw [peekBytes_eq_of_partAt part enough, ← congrArg (List.take · _) eighth]
      refine .block (Nat.mul_mod_right 8 width) start ?_
      rw [eighth]
      simp only [List.mem_cons, List.not_mem_nil, or_false, not_or] at other ⊢
      exact ⟨some, other.1, other.2.1, other.2.2.1, other.2.2.2, other'⟩

/-- **A scalar that is read in a part of a buffer is the one at its place in the buffer**, and ends
before the part does. -/
theorem Reads.scalarAt (h : c.Reads length r) :
    ScalarAt whole.bytes (k + c.slice.length) (8 * k + c.position) length r.value r.bits ∧
      8 * k + c.position + r.bits ≤ 8 * (k + c.slice.length) := by
  constructor
  · cases h with
    | @varint width aligned announced enough =>
      have some : 1 ≤ width := announced ▸ one_le_varintWidth c.pattern
      rw [prefixedValue_eq_of_partAt within part aligned some enough.2]
      refine .varint (mod_eight_of_isAligned aligned k) ?_
      rw [← pattern_eq_of_partAt within part aligned enough.1, announced]
      exact varintWidth_mem c.pattern_lt
    | @packetNumber width aligned announced enough =>
      rw [prefixedValue_eq_of_partAt within part aligned (one_le_packetNumberWidth? announced)
        enough.2]
      refine .packetNumber (mod_eight_of_isAligned aligned k) ?_
      rw [← pattern_eq_of_partAt within part aligned enough.1]
      exact packetNumberWidth?_mem announced
    | rest aligned => exact scalarAt_rest part aligned
    | nothing => exact .nothing
    | block aligned some enough => exact scalarAt_block within part aligned some enough
    | @run n some ragged narrow enough =>
      have place := within.position_add_remainingBits
      rw [peekBits_eq_bitNumber within enough, part.bitNumber_eq (by omega)]
      refine .number some fun whole => .inl ?_
      have inside := ragged whole
      simp only [isAligned, bitOffset, beq_eq_false_iff_ne] at inside
      omega
  · have behind := h.within within
    rw [h.cursor_eq within] at behind
    simp only [Within, slice_skip, position_skip] at behind
    omega

end Part

end BitCursor

end WireGrammar
