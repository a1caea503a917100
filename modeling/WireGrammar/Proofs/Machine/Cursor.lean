import WireGrammar.Proofs.Decoding.Scalar
import WireGrammar.Proofs.Machine.Word

/-!
# Cursors of the machine

The machine has a cursor in two parts, the index of a byte and the bits passed in it, and moves the
index without a look at the bits where structures were decoded in the place of bytes.  Every cursor
that comes up is examined: a cursor that has left its bytes is a fault, and so is going over bytes
from inside of one.

* `Cursor.Sound`: what is asked of a cursor;
* `Cursor.of`: the parts of a cursor, which are sound if it has not left its slice;
* `view_of`, `advance_of`: windows are cut, and cursors moved on, as they are without the parts.
-/

namespace WireGrammar

/-- The offsets of the slice are far from the largest word. -/
def Slice.Fits (s : Slice) : Prop := s.offset + s.length < Word.size 60

theorem Slice.Fits.drop {s : Slice} (h : s.Fits) {n : Nat} (enough : n ≤ s.length) :
    (s.drop n).Fits := by
  unfold Slice.Fits at *
  rw [Slice.offset_drop, Slice.length_drop]
  omega

theorem Slice.Fits.take {s : Slice} (h : s.Fits) {n : Nat} (enough : n ≤ s.length) :
    (s.take n).Fits := by
  unfold Slice.Fits at *
  have offset : (s.take n).offset = s.offset := rfl
  rw [Slice.length_take enough, offset]
  omega

/-- The cursor has not left its slice, which is far from the largest word. -/
structure BitCursor.Fits (c : BitCursor) : Prop where
  within : c.Within
  slice : c.slice.Fits

theorem BitCursor.Fits.start {s : Slice} (h : s.Fits) : (BitCursor.start s).Fits :=
  ⟨within_start s, h⟩

theorem BitCursor.Fits.remaining {c : BitCursor} (h : c.Fits) : c.remaining.Fits := by
  have within := h.within
  refine h.slice.drop ?_
  simp only [Within, byteIndex] at *
  omega

namespace Machine

variable {ε : Type}

/-- A cursor over `data`, whose first byte is at the offset `base` of the packet: the index of a
byte and the number of its bits already passed. -/
structure Cursor where
  data : List UInt8
  base : Nat
  pos : Nat
  bit : Nat
  deriving DecidableEq, Repr

namespace Cursor

def isAligned (c : Cursor) : Bool := c.bit == 0

def isExhausted (c : Cursor) : Bool := c.data.length ≤ c.pos

def remainingBytes (c : Cursor) : Nat := c.data.length - c.pos

/-- What is asked of a cursor wherever it comes up. -/
structure Sound (c : Cursor) : Prop where
  pos : c.pos ≤ c.data.length
  bit : c.bit ≤ 7
  /-- Only a byte that is there can be passed in part. -/
  inside : 0 < c.bit → c.pos < c.data.length
  /-- Every bit is either passed or left. -/
  bits : 8 * c.pos + c.bit + (8 * c.remainingBytes - c.bit) = 8 * c.data.length

instance (c : Cursor) : Decidable c.Sound :=
  decidable_of_iff
    (c.pos ≤ c.data.length ∧ c.bit ≤ 7 ∧ (0 < c.bit → c.pos < c.data.length) ∧
      8 * c.pos + c.bit + (8 * c.remainingBytes - c.bit) = 8 * c.data.length)
    ⟨fun h => ⟨h.1, h.2.1, h.2.2.1, h.2.2.2⟩, fun h => ⟨h.pos, h.bit, h.inside, h.bits⟩⟩

/-- The cursor, if it is sound. -/
def examine (c : Cursor) : Checked ε Cursor := if c.Sound then .ok c else .error .outOfRange

/-- The cursor at the start of bytes. -/
def start (data : List UInt8) (base : Nat) : Checked ε Cursor := examine ⟨data, base, 0, 0⟩

/-- The offset of the current byte in the packet. -/
def absolute (c : Cursor) : Checked ε Nat := add c.base c.pos

/-- The bits passed. -/
def bitPosition (c : Cursor) : Checked ε Nat := do
  let bits ← mul c.pos 8
  add bits c.bit

/-- The bits left. -/
def remainingBits (c : Cursor) : Checked ε Nat := do
  let bits ← mul c.remainingBytes 8
  return bits - c.bit

/-- The bytes left, from the current one on. -/
def remaining (c : Cursor) : Checked ε (List UInt8) :=
  part c.data (min c.pos c.data.length) c.data.length

def requireAligned (c : Cursor) : Checked ReadError Unit :=
  if c.isAligned then .ok ()
  else do
    let offset ← c.absolute
    throw (.failed (.unaligned offset c.bit))

def requireBytes (c : Cursor) (n : Nat) : Checked ReadError Unit :=
  if n ≤ c.remainingBytes then .ok ()
  else do
    let offset ← c.absolute
    throw (.failed (.insufficientBytes offset n c.remainingBytes))

/-- The cursor over the next `n` bytes. -/
def window (c : Cursor) (n : Nat) : Checked ReadError Cursor := do
  c.requireAligned
  c.requireBytes n
  let stop ← add c.pos n
  let bytes ← part c.data c.pos stop
  let offset ← c.absolute
  start bytes offset

/-- The cursor over all that is left. -/
def rest (c : Cursor) : Checked ReadError Cursor := do
  c.requireAligned
  let bytes ← c.remaining
  let offset ← c.absolute
  start bytes offset

/-- The cursor `n` bytes further on, or where its bytes end if that comes first.  The bits are not
looked at, so none of them may be passed. -/
def advance (c : Cursor) (n : Nat) : Checked ε Cursor :=
  if c.isAligned then do
    let pos ← add c.pos n
    examine { c with pos := min pos c.data.length }
  else .error .outOfRange

/-- The cursor `n` bytes further on, behind bytes that were read. -/
def skipBytes (c : Cursor) (n : Nat) : Checked ε Cursor := do
  let pos ← add c.pos n
  examine { c with pos }

/-! ### What the machine refuses

A cursor that the machine goes on with is sound, and windows are cut and bytes gone over only from
between two bytes.
-/

theorem examine_eq_ok {c d : Cursor} :
    c.examine = (.ok d : Checked ε Cursor) ↔ c.Sound ∧ d = c := by
  unfold examine
  split
  · next sound => simp [sound, eq_comm]
  · next unsound => simp [unsound]

theorem sound_of_examine {c d : Cursor} (h : c.examine = (.ok d : Checked ε Cursor)) :
    d.Sound := by
  obtain ⟨sound, rfl⟩ := examine_eq_ok.mp h
  exact sound

theorem isAligned_of_requireAligned {c : Cursor} {u : Unit} (h : c.requireAligned = .ok u) :
    c.isAligned := by
  unfold requireAligned at h
  split at h
  · next aligned => exact aligned
  · obtain ⟨offset, -, h⟩ := Checked.bind_eq_ok.mp h
    cases h

theorem sound_of_window {c d : Cursor} {n : Nat} (h : c.window n = .ok d) :
    c.isAligned ∧ d.Sound := by
  simp only [window, Checked.bind_eq_ok] at h
  obtain ⟨_, aligned, _, _, _, _, _, _, _, _, started⟩ := h
  exact ⟨isAligned_of_requireAligned aligned, sound_of_examine started⟩

theorem sound_of_rest {c d : Cursor} (h : c.rest = .ok d) : c.isAligned ∧ d.Sound := by
  simp only [rest, Checked.bind_eq_ok] at h
  obtain ⟨_, aligned, _, _, _, _, started⟩ := h
  exact ⟨isAligned_of_requireAligned aligned, sound_of_examine started⟩

theorem sound_of_advance {c d : Cursor} {n : Nat}
    (h : c.advance n = (.ok d : Checked ε Cursor)) : c.isAligned ∧ d.Sound := by
  unfold advance at h
  split at h
  · next aligned =>
    obtain ⟨pos, -, examined⟩ := Checked.bind_eq_ok.mp h
    exact ⟨aligned, sound_of_examine examined⟩
  · cases h

theorem sound_of_skipBytes {c d : Cursor} {n : Nat}
    (h : c.skipBytes n = (.ok d : Checked ε Cursor)) : d.Sound := by
  obtain ⟨pos, -, examined⟩ := Checked.bind_eq_ok.mp h
  exact sound_of_examine examined

/-! ### The parts of a cursor -/

/-- The parts of a cursor. -/
def of (c : BitCursor) : Cursor := ⟨c.slice.bytes, c.slice.offset, c.byteIndex, c.bitOffset⟩

@[simp] theorem isAligned_of (c : BitCursor) : (of c).isAligned = c.isAligned := rfl

@[simp] theorem isExhausted_of (c : BitCursor) : (of c).isExhausted = c.isExhausted := rfl

@[simp] theorem remainingBytes_of (c : BitCursor) : (of c).remainingBytes = c.remainingBytes := rfl

variable {c : BitCursor}

/-- A cursor that has not left its slice has sound parts. -/
theorem sound_of (h : c.Within) : (of c).Sound := by
  simp only [BitCursor.Within, Slice.length] at h
  refine ⟨?_, ?_, ?_, ?_⟩
  all_goals
    simp only [of, remainingBytes, BitCursor.byteIndex, BitCursor.bitOffset]
    omega

theorem examine_of (h : c.Within) : (of c).examine = (.ok (of c) : Checked ε Cursor) :=
  if_pos (sound_of h)

theorem start_eq (s : Slice) :
    start s.bytes s.offset = (.ok (of (.start s)) : Checked ε Cursor) := by
  have parts : of (.start s) = ⟨s.bytes, s.offset, 0, 0⟩ := by
    simp only [of, BitCursor.start, BitCursor.byteIndex, BitCursor.bitOffset, Nat.zero_div,
      Nat.zero_mod]
  rw [start, ← parts]
  exact examine_of (BitCursor.within_start s)

theorem byteIndex_le (h : c.Within) : c.byteIndex ≤ c.slice.length := by
  simp only [BitCursor.Within, BitCursor.byteIndex] at *
  omega

theorem add_pos_of (h : c.Fits) {n : Nat} (enough : n ≤ c.remainingBytes) :
    add c.byteIndex n = (.ok (c.byteIndex + n) : Checked ε Nat) := by
  have index := byteIndex_le h.within
  have fits := h.slice
  simp only [Slice.Fits, BitCursor.remainingBytes] at *
  refine add_eq ?_
  rw [size_word]
  omega

theorem absolute_of (h : c.Fits) : (of c).absolute = (.ok c.absolute : Checked ε Nat) := by
  have index := byteIndex_le h.within
  have fits := h.slice
  simp only [Slice.Fits] at fits
  refine add_eq ?_
  simp only [of, size_word]
  omega

theorem bitPosition_of (h : c.Fits) : (of c).bitPosition = (.ok c.position : Checked ε Nat) := by
  have index := byteIndex_le h.within
  have fits := h.slice
  have position := c.position_eq
  have bit : c.bitOffset < 8 := Nat.mod_lt _ (by decide)
  simp only [Slice.Fits] at fits
  have bits : mul c.byteIndex 8 = (.ok (c.byteIndex * 8) : Checked ε Nat) :=
    mul_eq (by rw [size_word]; omega)
  have all : add (c.byteIndex * 8) c.bitOffset = (.ok c.position : Checked ε Nat) := by
    rw [add_eq (by rw [size_word]; omega), position, Nat.mul_comm]
  simp only [bitPosition, of, bits, Checked.ok_bind, all]

theorem remainingBits_of (h : c.Fits) :
    (of c).remainingBits = (.ok c.remainingBits : Checked ε Nat) := by
  have fits := h.slice
  have position := c.position_eq
  simp only [Slice.Fits] at fits
  have left : c.remainingBytes ≤ c.slice.length := Nat.sub_le ..
  have bits : mul c.remainingBytes 8 = (.ok (c.remainingBytes * 8) : Checked ε Nat) :=
    mul_eq (by rw [size_word]; omega)
  have same : c.remainingBytes * 8 - (of c).bit = c.remainingBits := by
    simp only [BitCursor.remainingBytes, BitCursor.remainingBits, of]
    omega
  simp only [remainingBits, remainingBytes_of, bits, Checked.ok_bind, same]
  rfl

theorem remaining_of (h : c.Within) :
    (of c).remaining = (.ok c.remaining.bytes : Checked ε (List UInt8)) := by
  have index : c.byteIndex ≤ c.slice.bytes.length := byteIndex_le h
  rw [remaining, of, Nat.min_eq_left index, part_length index]
  rfl

theorem requireAligned_of (h : c.Fits) :
    (of c).requireAligned = Checked.of c.requireAligned := by
  unfold requireAligned BitCursor.requireAligned
  rw [isAligned_of]
  split
  · rfl
  · rw [absolute_of h]
    rfl

theorem requireBytes_of (h : c.Fits) (n : Nat) :
    (of c).requireBytes n = Checked.of (c.requireBytes n) := by
  unfold requireBytes BitCursor.requireBytes
  rw [remainingBytes_of]
  split
  · rfl
  · rw [absolute_of h]
    rfl

/-- The bytes from the current one on, where they are there. -/
theorem part_of (h : c.Within) {n : Nat} (enough : n ≤ c.remainingBytes) :
    part c.slice.bytes c.byteIndex (c.byteIndex + n) =
      (.ok (c.peekBytes n) : Checked ε (List UInt8)) := by
  have index := byteIndex_le h
  simp only [BitCursor.remainingBytes, Slice.length] at *
  exact part_eq (by omega)

theorem isAligned_of_required {u : Unit} (h : c.requireAligned = .ok u) : c.isAligned := by
  unfold BitCursor.requireAligned at h
  split at h
  · next aligned => exact aligned
  · cases h

theorem le_of_required {n : Nat} {u : Unit} (h : c.requireBytes n = .ok u) :
    n ≤ c.remainingBytes := by
  unfold BitCursor.requireBytes at h
  split at h
  · next enough => exact enough
  · cases h

theorem window_of (h : c.Fits) (n : Nat) :
    (of c).window n = Checked.of ((c.window n).map fun s => of (.start s)) := by
  simp only [window, BitCursor.window, requireAligned_of h, requireBytes_of h, Checked.of_map,
    Checked.of_bind, bind_assoc]
  refine Checked.of_bind_congr fun _ aligned => Checked.of_bind_congr fun _ required => ?_
  have enough := le_of_required required
  have stop : add (of c).pos n = (.ok (c.byteIndex + n) : Checked ReadError Nat) :=
    add_pos_of h enough
  have bytes : part (of c).data (of c).pos (c.byteIndex + n) =
      (.ok (c.peekBytes n) : Checked ReadError (List UInt8)) := part_of h.within enough
  simp only [stop, bytes, absolute_of h, Checked.ok_bind]
  exact start_eq (c.remaining.take n)

theorem rest_of (h : c.Fits) : (of c).rest = Checked.of (c.rest.map fun s => of (.start s)) := by
  simp only [rest, BitCursor.rest, requireAligned_of h, Checked.of_map, Checked.of_bind, bind_assoc]
  refine Checked.of_bind_congr fun _ aligned => ?_
  simp only [remaining_of h.within, absolute_of h, Checked.ok_bind]
  exact start_eq c.remaining

/-- Going on over bytes that are there, from between two bytes. -/
theorem advance_of (h : c.Fits) (aligned : c.isAligned) {n : Nat} (enough : n ≤ c.remainingBytes) :
    (of c).advance n = (.ok (of (c.advance n)) : Checked ε Cursor) := by
  have pos : add (of c).pos n = (.ok (c.byteIndex + n) : Checked ε Nat) := add_pos_of h enough
  have parts : { of c with pos := min (c.byteIndex + n) (of c).data.length } =
      of (c.advance n) := by
    simp only [of, BitCursor.advance, BitCursor.byteIndex, BitCursor.bitOffset, Slice.length,
      Cursor.mk.injEq, true_and]
    omega
  rw [advance, isAligned_of, if_pos aligned, pos, Checked.ok_bind, parts]
  exact examine_of (BitCursor.within_advance aligned n)

/-- Going on behind bytes that were read. -/
theorem skipBytes_of (h : c.Fits) (aligned : c.isAligned) {n : Nat}
    (enough : n ≤ c.remainingBytes) :
    (of c).skipBytes n = (.ok (of (c.skip (8 * n))) : Checked ε Cursor) := by
  have pos : add (of c).pos n = (.ok (c.byteIndex + n) : Checked ε Nat) := add_pos_of h enough
  have parts : { of c with pos := c.byteIndex + n } = of (c.skip (8 * n)) := by
    simp only [of, BitCursor.skip, BitCursor.byteIndex, BitCursor.bitOffset, Cursor.mk.injEq,
      true_and]
    omega
  have within : (c.skip (8 * n)).Within := by
    rw [← BitCursor.advance_eq_skip aligned enough h.within]
    exact BitCursor.within_advance aligned n
  rw [skipBytes, pos, Checked.ok_bind, parts]
  exact examine_of within

end Cursor

/-! ### Where a target is decoded -/

/-- The cursor over the bytes that a target is decoded in. -/
def view (a : FieldAttributes) (c : Cursor) : Checked ReadError Cursor :=
  match a.byteLength with
  | some n => c.window n
  | none => c.rest

theorem view_of {c : BitCursor} (h : c.Fits) (a : FieldAttributes) :
    view a (Cursor.of c) = Checked.of ((a.view c).map fun s => Cursor.of (.start s)) := by
  unfold view FieldAttributes.view
  cases a.byteLength with
  | none => exact Cursor.rest_of h
  | some n => exact Cursor.window_of h n

end Machine

end WireGrammar
