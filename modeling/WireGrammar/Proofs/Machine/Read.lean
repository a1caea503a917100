import WireGrammar.Proofs.Machine.Cursor

/-!
# Reading on the machine

The machine takes whole bytes as slices of its data, self-describing integers by way of a buffer of
eight bytes whose leading bits it clears, and other runs of bits in a loop, one byte after the
other, by shifts and masks.

* `BitCursor.peekBits_add`: the number in a run of bits, by a first and a second part of it;
* `Cursor.takeBits_of`: the loop over bytes comes to that number;
* `Cursor.readScalar_of`: every scalar is read as it is without the machine.
-/

namespace WireGrammar

/-! ### Runs of bits -/

namespace BitCursor

variable {c : BitCursor}

/-- The number in a run of bits, by the number in all bytes of the slice. -/
theorem peekBits_eq {n : Nat} (within : c.Within) (enough : n ≤ c.remainingBits) :
    c.peekBits n =
      Bytes.number c.slice.bytes / Word.size (c.remainingBits - n) % Word.size n := by
  simp only [Within, remainingBits, Slice.length] at within enough
  have position := c.position_eq
  obtain ⟨last, last_eq⟩ : ∃ last, last = c.bitOffset + n := ⟨_, rfl⟩
  obtain ⟨held, held_eq⟩ : ∃ held, held = (last + 7) / 8 := ⟨_, rfl⟩
  have length_held : (c.peekBytes held).length = held := by
    refine length_peekBytes ?_
    simp only [remainingBytes, Slice.length]
    omega
  -- The slice is what is before the run, the bytes that hold it, and what is behind it.
  obtain ⟨behind, behind_eq⟩ : ∃ behind, behind = c.slice.bytes.drop (c.byteIndex + held) :=
    ⟨_, rfl⟩
  have length_behind : behind.length = c.slice.bytes.length - (c.byteIndex + held) := by
    rw [behind_eq, List.length_drop]
  have cut : c.slice.bytes = (c.slice.bytes.take c.byteIndex ++ c.peekBytes held) ++ behind := by
    have tail : c.slice.bytes.drop c.byteIndex = c.peekBytes held ++ behind := by
      rw [behind_eq, ← List.drop_drop]
      exact (List.take_append_drop held _).symm
    rw [List.append_assoc, ← tail, List.take_append_drop]
  have above : Bytes.number c.slice.bytes / Word.size (8 * behind.length) =
      Bytes.number (c.slice.bytes.take c.byteIndex) * Word.size (8 * held) +
        Bytes.number (c.peekBytes held) := by
    rw [congrArg Bytes.number cut, Bytes.number_append_div, Bytes.number_append, length_held]
  have split : Word.size (8 * c.slice.bytes.length - c.position - n) =
      Word.size (8 * behind.length) * Word.size (8 * held - last) := by
    rw [← Word.size_add]
    congr 1
    omega
  have whole : Word.size (8 * held) = Word.size (8 * held - last) * Word.size last := by
    rw [← Word.size_add]
    congr 1
    omega
  have before : Word.size last = Word.size n * Word.size c.bitOffset := by
    rw [← Word.size_add, last_eq, Nat.add_comm]
  have run : c.peekBits n =
      Bytes.number (c.peekBytes held) / Word.size (8 * held - last) % Word.size n := by
    rw [held_eq, last_eq]
    rfl
  rw [run, remainingBits, Slice.length, split, ← Nat.div_div_eq_div_mul, above, whole,
    Nat.mul_left_comm, Nat.mul_add_div (Word.size_pos _), before, Nat.mul_left_comm,
    Nat.mul_add_mod]

theorem peekBits_lt (c : BitCursor) (n : Nat) : c.peekBits n < Word.size n :=
  Nat.mod_lt _ (Word.size_pos n)

theorem peekBits_zero (c : BitCursor) : c.peekBits 0 = 0 :=
  Nat.lt_one_iff.mp (c.peekBits_lt 0)

@[simp] theorem skip_zero (c : BitCursor) : c.skip 0 = c := rfl

theorem skip_skip (c : BitCursor) (m n : Nat) : (c.skip m).skip n = c.skip (m + n) := by
  simp only [skip, Nat.add_assoc]

theorem remainingBits_skip (c : BitCursor) (n : Nat) :
    (c.skip n).remainingBits = c.remainingBits - n := by
  simp only [remainingBits, slice_skip, position_skip]
  omega

/-- Going forward by bits that are left does not leave the slice. -/
theorem Within.skip {n : Nat} (within : c.Within) (enough : n ≤ c.remainingBits) :
    (c.skip n).Within := by
  simp only [Within, remainingBits, slice_skip, position_skip] at *
  omega

theorem Fits.skip {n : Nat} (h : c.Fits) (enough : n ≤ c.remainingBits) : (c.skip n).Fits :=
  ⟨h.within.skip enough, h.slice⟩

/-- The number in a run of bits has the first part of the run above the second one. -/
theorem peekBits_add {m n : Nat} (within : c.Within) (enough : m + n ≤ c.remainingBits) :
    c.peekBits (m + n) = c.peekBits m * Word.size n + (c.skip m).peekBits n := by
  have left := c.remainingBits_skip m
  rw [peekBits_eq within enough, peekBits_eq within (by omega),
    peekBits_eq (within.skip (by omega)) (by omega), left, slice_skip]
  have cut : Word.size (c.remainingBits - m) =
      Word.size (c.remainingBits - (m + n)) * Word.size n := by
    rw [← Word.size_add]
    congr 1
    omega
  rw [cut, ← Nat.div_div_eq_div_mul, Nat.sub_sub, Word.size_add, Nat.mul_comm (Word.size m),
    Nat.mod_mul, Nat.add_comm, Nat.mul_comm (Word.size n)]

/-- The number in bits of a single byte. -/
theorem peekBits_of_byte {n : Nat} (positive : 0 < n) (inside : c.bitOffset + n ≤ 8) {b : UInt8}
    (current : c.slice.bytes[c.byteIndex]? = some b) :
    c.peekBits n = b.toNat / Word.size (8 - c.bitOffset - n) % Word.size n := by
  obtain ⟨there, rfl⟩ := List.getElem?_eq_some_iff.mp current
  have next : c.peekBytes 1 = [c.slice.bytes[c.byteIndex]] := by
    rw [peekBytes, remaining, Slice.drop, List.drop_eq_getElem_cons there, List.take_succ_cons,
      List.take_zero]
  have held : (c.bitOffset + n + 7) / 8 = 1 := by omega
  have value : Bytes.number [c.slice.bytes[c.byteIndex]] = c.slice.bytes[c.byteIndex].toNat := by
    simp [Bytes.number, Bytes.numberFrom]
  simp only [peekBits, held, next, value, Nat.sub_sub, Nat.mul_one]

end BitCursor

namespace Machine

variable {ε : Type}

/-! ### Whole bytes -/

/-- The scalar in a block of `width` bytes. -/
def blockValue (width : Nat) (block : List UInt8) : Checked ε Value :=
  if width = 1 then do
    let b ← byteAt block 0
    return .uint b.toNat
  else if width = 2 ∨ width = 4 ∨ width = 8 then do
    let n ← bigEndian width block
    return .uint n
  else if width = 16 then do
    let n ← bigEndian width block
    return .wide n
  else return .bytes block

theorem blockValue_eq {width : Nat} {block : List UInt8} (h : block.length = width) :
    blockValue width block = (.ok (Value.ofBytes block) : Checked ε Value) := by
  have number : bigEndian width block = (.ok (Bytes.number block) : Checked ε Nat) :=
    bigEndian_eq h
  unfold blockValue Value.ofBytes
  by_cases one : width = 1
  · obtain ⟨b, rfl⟩ := List.length_eq_one_iff.mp (h.trans one)
    have value : Bytes.number [b] = b.toNat := by simp [Bytes.number, Bytes.numberFrom]
    rw [if_pos one, byteAt_eq (i := 0) (b := b) rfl, if_pos (.inl rfl), value]
    rfl
  · rw [if_neg one, number, h]
    by_cases word : width = 2 ∨ width = 4 ∨ width = 8
    · rw [if_pos word, if_pos (.inr word)]
      rfl
    · rw [if_neg word, if_neg (not_or.mpr ⟨one, word⟩)]
      by_cases wide : width = 16
      · rw [if_pos wide, if_pos wide]
        rfl
      · rw [if_neg wide, if_neg wide]
        rfl

namespace Cursor

/-- Takes a block of `width` bytes. -/
def readFixed (c : Cursor) (width : Nat) : Checked ReadError (Value × Cursor) := do
  c.requireAligned
  c.requireBytes width
  let stop ← add c.pos width
  let block ← part c.data c.pos stop
  let value ← blockValue width block
  let cursor ← c.skipBytes width
  return (value, cursor)

/-- Takes every byte left. -/
def readRest (c : Cursor) : Checked ReadError (Value × Cursor) := do
  c.requireAligned
  let bytes ← c.remaining
  let cursor ← examine { c with pos := c.data.length }
  return (.bytes bytes, cursor)

variable {c : BitCursor}

theorem readFixed_of (h : c.Fits) (width : Nat) :
    (of c).readFixed width =
      Checked.of ((c.takeBytes width).map fun r => (Value.ofBytes r.1, of r.2)) := by
  simp only [readFixed, BitCursor.takeBytes, requireAligned_of h, requireBytes_of h,
    Checked.of_map, Checked.of_bind, bind_assoc]
  refine Checked.of_bind_congr fun _ required => Checked.of_bind_congr fun _ required' => ?_
  have aligned := isAligned_of_required required
  have enough := le_of_required required'
  have stop : add (of c).pos width = (.ok (c.byteIndex + width) : Checked ReadError Nat) :=
    add_pos_of h enough
  have block : part (of c).data (of c).pos (c.byteIndex + width) =
      (.ok (c.peekBytes width) : Checked ReadError (List UInt8)) := part_of h.within enough
  simp only [stop, block, blockValue_eq (BitCursor.length_peekBytes enough),
    skipBytes_of h aligned enough, Checked.ok_bind]
  rfl

/-- Going to the end, from between two bytes. -/
theorem examine_end_of (aligned : c.isAligned) :
    examine { of c with pos := (of c).data.length } =
      (.ok (of { c with position := 8 * c.slice.length }) : Checked ε Cursor) := by
  have index := BitCursor.byteIndex_of_isAligned aligned
  have position := c.position_eq
  have parts : { of c with pos := (of c).data.length } =
      of { c with position := 8 * c.slice.length } := by
    simp only [of, BitCursor.byteIndex, BitCursor.bitOffset, Slice.length, Cursor.mk.injEq,
      true_and] at *
    omega
  rw [parts]
  exact examine_of (Nat.le_refl _)

theorem readRest_of (h : c.Fits) :
    (of c).readRest = Checked.of (c.takeRest.map fun r => (.bytes r.1, of r.2)) := by
  simp only [readRest, BitCursor.takeRest, requireAligned_of h, Checked.of_map, Checked.of_bind,
    bind_assoc]
  refine Checked.of_bind_congr fun _ required => ?_
  simp only [remaining_of h.within, Checked.ok_bind, examine_end_of (isAligned_of_required required)]
  rfl

end Cursor

/-! ### Self-describing integers -/

/-- The buffer with the bytes in the place of its own from an index on. -/
def overwrite (buffer : List UInt8) (start : Nat) (bytes : List UInt8) :
    Checked ε (List UInt8) :=
  if start ≤ buffer.length ∧ buffer.length - start = bytes.length then
    .ok (buffer.take start ++ bytes)
  else .error .outOfRange

/-- The number in at most eight bytes without its two leading bits: the bytes are put behind zeros,
and the leading bits are cleared. -/
def maskedNumber (width : Nat) (bytes : List UInt8) : Checked ε Nat := do
  let start ← sub 8 width
  let buffer ← overwrite (List.replicate 8 0) start bytes
  let lead ← byteAt buffer start
  bigEndian 8 (buffer.set start (lead &&& 0x3f))

theorem number_replicate_zero (n : Nat) : Bytes.number (List.replicate n 0) = 0 := by
  induction n with
  | zero => rfl
  | succ n ih =>
    rw [List.replicate_succ, Bytes.number_cons, ih]
    simp

/-- Clearing the leading bits leaves the remainder of a number by the width below them. -/
theorem number_cleared (b : UInt8) (bs : List UInt8) :
    Bytes.number ((b &&& 0x3f) :: bs) =
      Bytes.number (b :: bs) % Word.size (8 * (bs.length + 1) - 2) := by
  have low := Bytes.number_lt bs
  have cleared : (b &&& 0x3f).toNat = b.toNat % Word.size 6 := by
    rw [UInt8.toNat_and]
    exact and_mask b.toNat 6
  have cut : Word.size (8 * (bs.length + 1) - 2) = Word.size (8 * bs.length) * Word.size 6 := by
    rw [← Word.size_add]
    congr 1
  rw [Bytes.number_cons, Bytes.number_cons, cleared, cut, Nat.mod_mul, Nat.mul_comm b.toNat,
    Nat.mul_add_mod, Nat.mod_eq_of_lt low, Nat.mul_add_div (Word.size_pos _),
    Nat.div_eq_of_lt low, Nat.add_zero, Nat.mul_comm, Nat.add_comm]

theorem maskedNumber_eq {width : Nat} {bytes : List UInt8} (positive : 1 ≤ width)
    (narrow : width ≤ 8) (h : bytes.length = width) :
    maskedNumber width bytes =
      (.ok (Bytes.number bytes % Word.size (8 * width - 2)) : Checked ε Nat) := by
  obtain ⟨b, bs, rfl⟩ := List.exists_cons_of_length_pos (l := bytes) (by omega)
  rw [List.length_cons] at h
  subst h
  have start : sub 8 (bs.length + 1) = (.ok (8 - (bs.length + 1)) : Checked ε Nat) := sub_eq narrow
  obtain ⟨zeros, zeros_eq⟩ : ∃ zeros, zeros = 8 - (bs.length + 1) := ⟨_, rfl⟩
  have buffer : overwrite (List.replicate 8 0) zeros (b :: bs) =
      (.ok (List.replicate zeros 0 ++ b :: bs) : Checked ε (List UInt8)) := by
    have taken : (List.replicate 8 0).take zeros = List.replicate zeros (0 : UInt8) := by
      rw [List.take_replicate, Nat.min_eq_left (by omega)]
    rw [overwrite, if_pos ⟨by simp; omega, by simp; omega⟩, taken]
  have lead : byteAt (List.replicate zeros 0 ++ b :: bs) zeros = (.ok b : Checked ε UInt8) := by
    refine byteAt_eq ?_
    simp
  have cleared : (List.replicate zeros 0 ++ b :: bs).set zeros (b &&& 0x3f) =
      List.replicate zeros 0 ++ (b &&& 0x3f) :: bs := by
    rw [List.set_append_right _ _ (by simp)]
    simp
  have number : Bytes.number (List.replicate zeros 0 ++ (b &&& 0x3f) :: bs) =
      Bytes.number (b :: bs) % Word.size (8 * (bs.length + 1) - 2) := by
    rw [Bytes.number_append, number_replicate_zero, Nat.zero_mul, Nat.zero_add, number_cleared]
  simp only [maskedNumber, start, ← zeros_eq, Checked.ok_bind, buffer, lead, cleared]
  rw [bigEndian_eq (by simp; omega), number]

/-- A scalar read by the machine, the number of bits it took, and the cursor behind it. -/
structure Reading where
  value : Value
  bits : Nat
  cursor : Cursor

/-- What is read, with the parts of its cursor. -/
def Reading.of (r : WireGrammar.Reading) : Reading := ⟨r.value, r.bits, Cursor.of r.cursor⟩

@[simp] theorem Reading.value_of (r : WireGrammar.Reading) : (of r).value = r.value := rfl

@[simp] theorem Reading.bits_of (r : WireGrammar.Reading) : (of r).bits = r.bits := rfl

@[simp] theorem Reading.cursor_of (r : WireGrammar.Reading) :
    (of r).cursor = Cursor.of r.cursor := rfl

namespace Cursor

/-- The two leading bits of the next byte. -/
def leadingPattern (c : Cursor) : Checked ReadError Nat := do
  c.requireAligned
  c.requireBytes 1
  let lead ← byteAt c.data c.pos
  shiftRight 8 lead.toNat 6

/-- Takes `width` bytes as a number whose two leading bits do not count. -/
def readMasked (c : Cursor) (width : Nat) : Checked ReadError Reading := do
  c.requireBytes width
  let stop ← add c.pos width
  let bytes ← part c.data c.pos stop
  let n ← maskedNumber width bytes
  let cursor ← c.skipBytes width
  let bits ← mul width 8
  return ⟨.uint n, bits, cursor⟩

/-- Takes a self-describing integer. -/
def readVarint (c : Cursor) : Checked ReadError Reading := do
  let pattern ← c.leadingPattern
  let width ← shiftLeft 64 1 pattern
  c.readMasked width

/-- Takes a packet number. -/
def readPacketNumber (c : Cursor) : Checked ReadError Reading := do
  let pattern ← c.leadingPattern
  match BitCursor.packetNumberWidth? pattern with
  | some width => c.readMasked width
  | none => do
    let offset ← c.absolute
    throw (.failed (.unknownEncodingPattern offset pattern))

variable {c : BitCursor}

theorem byteAt_of (enough : 1 ≤ c.remainingBytes) :
    ∃ b, (c.peekBytes 1).head? = some b ∧ c.slice.bytes[c.byteIndex]? = some b := by
  simp only [BitCursor.remainingBytes, Slice.length] at enough
  have there : c.byteIndex < c.slice.bytes.length := by omega
  refine ⟨c.slice.bytes[c.byteIndex], ?_, List.getElem?_eq_getElem there⟩
  rw [BitCursor.peekBytes, BitCursor.remaining, Slice.drop, List.drop_eq_getElem_cons there,
    List.take_succ_cons, List.head?_cons]

theorem leadingPattern_of (h : c.Fits) :
    (of c).leadingPattern = Checked.of c.leadingPattern := by
  simp only [leadingPattern, BitCursor.leadingPattern, requireAligned_of h, requireBytes_of h,
    Checked.of_bind]
  refine Checked.of_bind_congr fun _ _ => Checked.of_bind_congr fun _ required => ?_
  obtain ⟨b, first, current⟩ := byteAt_of (le_of_required required)
  have lead : byteAt (of c).data (of c).pos = (.ok b : Checked ReadError UInt8) := byteAt_eq current
  rw [lead, Checked.ok_bind, shiftRight_eq (by decide), first]
  rfl

theorem readMasked_of (h : c.Fits) (aligned : c.isAligned) {width : Nat} (positive : 1 ≤ width)
    (narrow : width ≤ 8) :
    (of c).readMasked width =
      Checked.of ((c.takePrefixed width).map fun p => ⟨.uint p.value, p.bits, of p.cursor⟩) := by
  simp only [readMasked, BitCursor.takePrefixed, requireBytes_of h, Checked.of_map,
    Checked.of_bind, bind_assoc]
  refine Checked.of_bind_congr fun _ required => ?_
  have enough := le_of_required required
  have stop : add (of c).pos width = (.ok (c.byteIndex + width) : Checked ReadError Nat) :=
    add_pos_of h enough
  have bytes : part (of c).data (of c).pos (c.byteIndex + width) =
      (.ok (c.peekBytes width) : Checked ReadError (List UInt8)) := part_of h.within enough
  have bits : mul width 8 = (.ok (8 * width) : Checked ReadError Nat) := by
    rw [mul_eq (by rw [show Word.size 64 = 18446744073709551616 from rfl]; omega), Nat.mul_comm]
  simp only [stop, bytes, bits, maskedNumber_eq positive narrow (BitCursor.length_peekBytes enough),
    skipBytes_of h aligned enough, Checked.ok_bind]
  rfl

theorem of_leadingPattern_eq_ok {pattern : Nat} (h : c.leadingPattern = .ok pattern) :
    c.isAligned ∧ pattern < 4 := by
  have read : (c.leadingPattern >>= fun n => .ok n) = .ok pattern := by
    rw [h]
    rfl
  obtain ⟨aligned, -, eq⟩ := BitCursor.leadingPattern_bind_eq_ok.mp read
  cases eq
  exact ⟨aligned, BitCursor.pattern_lt c⟩

/-- The width of a self-describing integer doubles with its leading bits. -/
theorem shiftLeft_pattern {pattern : Nat} (h : pattern < 4) :
    shiftLeft 64 1 pattern = (.ok (BitCursor.varintWidth pattern) : Checked ε Nat) := by
  match pattern, h with
  | 0, _ | 1, _ | 2, _ | 3, _ => rfl

theorem readVarint_of (h : c.Fits) :
    (of c).readVarint =
      Checked.of (c.takeVarint.map fun p => ⟨.uint p.value, p.bits, of p.cursor⟩) := by
  simp only [readVarint, BitCursor.takeVarint, leadingPattern_of h, Checked.of_map,
    Checked.of_bind, bind_assoc]
  refine Checked.of_bind_congr fun pattern read => ?_
  obtain ⟨aligned, small⟩ := of_leadingPattern_eq_ok read
  rw [shiftLeft_pattern small, Checked.ok_bind,
    readMasked_of h aligned (BitCursor.one_le_varintWidth pattern)
      (BitCursor.varintWidth_le pattern), Checked.of_map]

theorem readPacketNumber_of (h : c.Fits) :
    (of c).readPacketNumber =
      Checked.of (c.takePacketNumber.map fun p => ⟨.uint p.value, p.bits, of p.cursor⟩) := by
  simp only [readPacketNumber, BitCursor.takePacketNumber, leadingPattern_of h, Checked.of_map,
    Checked.of_bind, bind_assoc]
  refine Checked.of_bind_congr fun pattern read => ?_
  obtain ⟨aligned, -⟩ := of_leadingPattern_eq_ok read
  cases announced : BitCursor.packetNumberWidth? pattern with
  | none =>
    simp only [absolute_of h, Checked.ok_bind]
    rfl
  | some width =>
    simp only
    rw [readMasked_of h aligned (BitCursor.one_le_packetNumberWidth? announced)
      (BitCursor.packetNumberWidth?_le announced), Checked.of_map]

/-! ### Runs of bits -/

/-- The cursor `bits` bits further on in its current byte. -/
def skipBits (c : Cursor) (bits : Nat) : Checked ε Cursor := do
  let bit ← word 8 (c.bit + bits)
  if bit = 8 then do
    let pos ← add c.pos 1
    examine { c with pos, bit := 0 }
  else examine { c with bit }

/-- The next bits of the current byte as a number, `taken` of those `available`. -/
def chunk (c : Cursor) (available taken : Nat) : Checked ε Nat := do
  let byte ← byteAt c.data c.pos
  let behind ← sub available taken
  let shifted ← shiftRight 32 byte.toNat behind
  let bit ← shiftLeft 32 1 taken
  let mask ← sub bit 1
  return shifted &&& mask

/-- Takes `left` further bits behind those that form the number `n`, one byte after the other. -/
def takeBits (left n : Nat) (c : Cursor) : Checked ε (Nat × Cursor) :=
  if left = 0 then return (n, c)
  else do
    let available ← sub 8 c.bit
    let low ← c.chunk available (min available left)
    let high ← shiftLeft 64 n (min available left)
    let rest ← sub left (min available left)
    let cursor ← c.skipBits (min available left)
    if _h : rest < left then takeBits rest (high ||| low) cursor else .error .stalled
termination_by left

/-- Takes `n` bits, at most 64. -/
def readBits (c : Cursor) (n : Nat) : Checked ReadError (Nat × Cursor) := do
  if 64 < n then
    let offset ← c.absolute
    throw (.failed (.unsupportedWidth offset n))
  else
    let left ← c.remainingBits
    if left < n then
      let bits ← add c.bit n
      let rounded ← add bits 7
      let offset ← c.absolute
      throw (.failed (.insufficientBytes offset (rounded / 8) c.remainingBytes))
    else takeBits n 0 c

theorem chunk_of {taken : Nat} (positive : 0 < taken)
    (inside : c.bitOffset + taken ≤ 8) (enough : taken ≤ c.remainingBits) :
    (of c).chunk (8 - c.bitOffset) taken = (.ok (c.peekBits taken) : Checked ε Nat) := by
  have index : c.byteIndex < c.slice.bytes.length := by
    simp only [BitCursor.remainingBits, Slice.length, BitCursor.byteIndex] at *
    omega
  obtain ⟨b, current⟩ : ∃ b, c.slice.bytes[c.byteIndex]? = some b :=
    ⟨_, List.getElem?_eq_getElem index⟩
  have byte : byteAt (of c).data (of c).pos = (.ok b : Checked ε UInt8) := byteAt_eq current
  have behind : sub (8 - c.bitOffset) taken = (.ok (8 - c.bitOffset - taken) : Checked ε Nat) :=
    sub_eq (by omega)
  have size : Word.size taken < Word.size 32 :=
    Nat.lt_of_le_of_lt (Word.size_le (by omega : taken ≤ 8)) (by decide)
  have bit : shiftLeft 32 1 taken = (.ok (Word.size taken) : Checked ε Nat) := by
    rw [shiftLeft_eq (by omega) (by rwa [Nat.one_mul]), Nat.one_mul]
  have mask : sub (Word.size taken) 1 = (.ok (Word.size taken - 1) : Checked ε Nat) :=
    sub_eq (Word.size_pos taken)
  have shifted : shiftRight 32 b.toNat (8 - c.bitOffset - taken) =
      (.ok (b.toNat / Word.size (8 - c.bitOffset - taken)) : Checked ε Nat) :=
    shiftRight_eq (by omega)
  simp only [chunk, byte, behind, shifted, bit, mask, Checked.ok_bind, and_mask,
    BitCursor.peekBits_of_byte positive inside current]
  rfl

theorem skipBits_of (h : c.Fits) {bits : Nat} (inside : c.bitOffset + bits ≤ 8)
    (enough : bits ≤ c.remainingBits) :
    (of c).skipBits bits = (.ok (of (c.skip bits)) : Checked ε Cursor) := by
  have fits := h.skip enough
  have position := c.position_eq
  have below : c.bitOffset < 8 := Nat.mod_lt _ (by decide)
  have bit : word 8 ((of c).bit + bits) = (.ok (c.bitOffset + bits) : Checked ε Nat) :=
    word_eq (show c.bitOffset + bits < 256 by omega)
  rw [skipBits, bit, Checked.ok_bind]
  by_cases full : c.bitOffset + bits = 8
  · have one : 1 ≤ c.remainingBytes := by
      simp only [BitCursor.remainingBits, BitCursor.remainingBytes] at *
      omega
    have pos : add (of c).pos 1 = (.ok (c.byteIndex + 1) : Checked ε Nat) := add_pos_of h one
    have parts : { of c with pos := c.byteIndex + 1, bit := 0 } = of (c.skip bits) := by
      simp only [of, BitCursor.skip, BitCursor.byteIndex, BitCursor.bitOffset, Cursor.mk.injEq,
        true_and] at *
      omega
    rw [if_pos full, pos, Checked.ok_bind, parts]
    exact examine_of fits.within
  · have parts : { of c with bit := c.bitOffset + bits } = of (c.skip bits) := by
      simp only [of, BitCursor.skip, BitCursor.byteIndex, BitCursor.bitOffset, Cursor.mk.injEq,
        true_and] at *
      omega
    rw [if_neg full, parts]
    exact examine_of fits.within

/-- The loop puts the number in the bits to come behind the number so far. -/
theorem takeBits_of (h : c.Fits) {left n : Nat} (enough : left ≤ c.remainingBits)
    (narrow : left ≤ 64) (small : n < Word.size (64 - left)) :
    takeBits left n (of c) =
      (.ok (n * Word.size left + c.peekBits left, of (c.skip left)) :
        Checked ε (Nat × Cursor)) := by
  induction left using Nat.strongRecOn generalizing n c with
  | _ left ih =>
    rw [takeBits]
    by_cases none : left = 0
    · subst none
      rw [if_pos rfl, Word.size_zero, Nat.mul_one, BitCursor.peekBits_zero, BitCursor.skip_zero]
      rfl
    · rw [if_neg none]
      have below : c.bitOffset < 8 := Nat.mod_lt _ (by decide)
      have available : sub 8 (of c).bit = (.ok (8 - c.bitOffset) : Checked ε Nat) :=
        sub_eq (Nat.le_of_lt below)
      obtain ⟨taken, taken_eq⟩ : ∃ taken, taken = min (8 - c.bitOffset) left := ⟨_, rfl⟩
      have low : (of c).chunk (8 - c.bitOffset) taken = (.ok (c.peekBits taken) : Checked ε Nat) :=
        chunk_of (by omega) (by omega) (by omega)
      have room : Word.size (64 - left) * Word.size taken = Word.size (64 - (left - taken)) := by
        rw [← Word.size_add]
        congr 1
        omega
      have high : shiftLeft 64 n taken = (.ok (n * Word.size taken) : Checked ε Nat) := by
        refine shiftLeft_eq (by omega) (Nat.lt_of_lt_of_le ?_ (Word.size_le (by omega :
          64 - (left - taken) ≤ 64)))
        rw [← room]
        exact Nat.mul_lt_mul_of_pos_right small (Word.size_pos taken)
      have rest : sub left taken = (.ok (left - taken) : Checked ε Nat) := sub_eq (by omega)
      have next : (of c).skipBits taken = (.ok (of (c.skip taken)) : Checked ε Cursor) :=
        skipBits_of h (by omega) (by omega)
      have low_lt := c.peekBits_lt taken
      have small' : n * Word.size taken + c.peekBits taken < Word.size (64 - (left - taken)) := by
        rw [← room]
        have le := Nat.mul_le_mul_right (Word.size taken) (Nat.succ_le_of_lt small)
        rw [Nat.succ_mul] at le
        omega
      have left' : left - taken ≤ (c.skip taken).remainingBits := by
        rw [BitCursor.remainingBits_skip]
        omega
      simp only [available, ← taken_eq, low, high, rest, next, Checked.ok_bind]
      rw [dif_pos (by omega), or_low low_lt,
        ih _ (by omega) (h.skip (by omega)) left' (by omega) small', BitCursor.skip_skip]
      have parts : taken + (left - taken) = left := by omega
      have value := BitCursor.peekBits_add (m := taken) (n := left - taken) h.within (by omega)
      rw [parts] at value
      rw [parts, value, Nat.add_mul, Nat.mul_assoc, ← Word.size_add, parts, Nat.add_assoc]

theorem readBits_of (h : c.Fits) (n : Nat) :
    (of c).readBits n = Checked.of ((c.takeBits n).map fun r => (r.1, of r.2)) := by
  unfold readBits BitCursor.takeBits
  by_cases wide : 64 < n
  · rw [if_pos wide, if_pos wide, absolute_of h]
    rfl
  · rw [if_neg wide, if_neg wide, remainingBits_of h, Checked.ok_bind]
    by_cases few : c.remainingBits < n
    · have below : c.bitOffset < 8 := Nat.mod_lt _ (by decide)
      have bits : add (of c).bit n = (.ok (c.bitOffset + n) : Checked ReadError Nat) :=
        add_eq (Nat.lt_of_lt_of_le (by simp only [of]; omega : _ < 128) (by decide))
      have rounded : add (c.bitOffset + n) 7 =
          (.ok (c.bitOffset + n + 7) : Checked ReadError Nat) :=
        add_eq (Nat.lt_of_lt_of_le (by omega : _ < 128) (by decide))
      rw [if_pos few, if_pos few, bits, Checked.ok_bind, rounded, Checked.ok_bind, absolute_of h]
      rfl
    · rw [if_neg few, if_neg few, takeBits_of h (by omega) (by omega) (Word.size_pos _),
        Nat.zero_mul, Nat.zero_add]
      rfl

/-! ### Scalars -/

/-- Reads a scalar. -/
def readScalar (c : Cursor) : Length → Checked ReadError Reading
  | .varint => c.readVarint
  | .packetNumber => c.readPacketNumber
  | .rest => do
    let bits ← mul c.remainingBytes 8
    let (value, cursor) ← c.readRest
    return ⟨value, bits, cursor⟩
  | .bits n =>
    if n = 0 then return ⟨.bytes [], 0, c⟩
    else if n % 8 = 0 ∧ c.isAligned then do
      let (value, cursor) ← c.readFixed (n / 8)
      return ⟨value, n, cursor⟩
    else do
      let (value, cursor) ← c.readBits n
      return ⟨.uint value, n, cursor⟩

/-- Every scalar is read, or refused, as it is without the machine. -/
theorem readScalar_of (h : c.Fits) (length : Length) :
    (of c).readScalar length = Checked.of ((c.readScalar length).map Reading.of) := by
  cases length with
  | varint =>
    rw [readScalar, readVarint_of h, BitCursor.readScalar]
    cases c.takeVarint <;> rfl
  | packetNumber =>
    rw [readScalar, readPacketNumber_of h, BitCursor.readScalar]
    cases c.takePacketNumber <;> rfl
  | rest =>
    have fits := h.slice
    have left : c.remainingBytes ≤ c.slice.length := Nat.sub_le ..
    simp only [Slice.Fits] at fits
    have bits : mul c.remainingBytes 8 = (.ok (8 * c.remainingBytes) : Checked ReadError Nat) := by
      rw [mul_eq (by rw [size_word]; omega), Nat.mul_comm]
    rw [readScalar, remainingBytes_of, bits, Checked.ok_bind, readRest_of h, BitCursor.readScalar]
    cases c.takeRest <;> rfl
  | bits n =>
    simp only [readScalar, BitCursor.readScalar, readFixed_of h, readBits_of h]
    by_cases none : n = 0
    · rw [if_pos none, if_pos none]
      rfl
    · rw [if_neg none, if_neg none]
      by_cases whole : n % 8 = 0 ∧ c.isAligned
      · rw [isAligned_of, if_pos whole, if_pos whole]
        cases c.takeBytes (n / 8) <;> rfl
      · rw [isAligned_of, if_neg whole, if_neg whole]
        cases c.takeBits n <;> rfl

/-! ### What the machine refuses -/

section Sound

variable {c d : Cursor}

theorem sound_of_readFixed {width : Nat} {value : Value}
    (h : c.readFixed width = .ok (value, d)) : d.Sound := by
  simp only [readFixed, Checked.bind_eq_ok] at h
  obtain ⟨_, _, _, _, _, _, _, _, _, _, e, moved, h⟩ := h
  cases h
  exact sound_of_skipBytes moved

theorem sound_of_readMasked {width : Nat} {r : Reading} (h : c.readMasked width = .ok r) :
    r.cursor.Sound := by
  simp only [readMasked, Checked.bind_eq_ok] at h
  obtain ⟨_, _, _, _, _, _, _, _, d, moved, _, _, h⟩ := h
  cases h
  exact sound_of_skipBytes moved

theorem sound_of_skipBits {bits : Nat}
    (h : c.skipBits bits = (.ok d : Checked ε Cursor)) : d.Sound := by
  obtain ⟨bit, -, h⟩ := Checked.bind_eq_ok.mp h
  split at h
  · obtain ⟨pos, -, h⟩ := Checked.bind_eq_ok.mp h
    exact sound_of_examine h
  · exact sound_of_examine h

theorem Sound.takeBits {left n : Nat} (h : c.Sound) {r : Nat × Cursor}
    (taken : takeBits left n c = (.ok r : Checked ε (Nat × Cursor))) : r.2.Sound := by
  induction left using Nat.strongRecOn generalizing n c with
  | _ left ih =>
    rw [Cursor.takeBits] at taken
    split at taken
    · cases taken
      exact h
    · simp only [Checked.bind_eq_ok] at taken
      obtain ⟨_, _, _, _, _, _, rest, _, d, moved, taken⟩ := taken
      split at taken
      · next less => exact ih rest less (sound_of_skipBits moved) taken
      · cases taken

theorem Sound.readBits {n : Nat} (h : c.Sound) {r : Nat × Cursor}
    (read : c.readBits n = .ok r) : r.2.Sound := by
  unfold Cursor.readBits at read
  split at read
  · obtain ⟨offset, -, read⟩ := Checked.bind_eq_ok.mp read
    cases read
  · obtain ⟨left, -, read⟩ := Checked.bind_eq_ok.mp read
    split at read
    · simp only [Checked.bind_eq_ok] at read
      obtain ⟨_, _, _, _, _, _, read⟩ := read
      cases read
    · exact h.takeBits read

/-- Reading from a sound cursor leaves a sound cursor. -/
theorem Sound.readScalar (h : c.Sound) {length : Length} {r : Reading}
    (read : c.readScalar length = .ok r) : r.cursor.Sound := by
  cases length with
  | varint =>
    simp only [Cursor.readScalar, readVarint, Checked.bind_eq_ok] at read
    obtain ⟨_, _, _, _, read⟩ := read
    exact sound_of_readMasked read
  | packetNumber =>
    simp only [Cursor.readScalar, readPacketNumber, Checked.bind_eq_ok] at read
    obtain ⟨_, _, read⟩ := read
    split at read
    · exact sound_of_readMasked read
    · obtain ⟨_, _, read⟩ := Checked.bind_eq_ok.mp read
      cases read
  | rest =>
    simp only [Cursor.readScalar, readRest, Checked.bind_eq_ok] at read
    obtain ⟨_, _, _, ⟨_, _, _, _, d, ended, eq⟩, read⟩ := read
    cases eq
    cases read
    exact sound_of_examine ended
  | bits n =>
    rw [Cursor.readScalar] at read
    split at read
    · cases read
      exact h
    · split at read
      · obtain ⟨⟨value, d⟩, taken, read⟩ := Checked.bind_eq_ok.mp read
        cases read
        exact sound_of_readFixed taken
      · obtain ⟨⟨value, d⟩, taken, read⟩ := Checked.bind_eq_ok.mp read
        cases read
        exact h.readBits taken

end Sound

end Cursor

end Machine

end WireGrammar
