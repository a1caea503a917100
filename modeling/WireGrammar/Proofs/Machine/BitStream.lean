import WireGrammar.Proofs.Decoding.Bits

/-!
# The stream of bits

A cursor that is sound stands at a bit of its bytes.  Whatever the bit is, and however many bytes
the bits to come are spread over, reading takes them in their order, the most significant one of
each byte first.

* `Bytes.bitNumber_add`, `Bytes.bitNumber_bit`: the number in a run of bits, by its parts and by its
  bits;
* `Cursor.joined`: a cursor, by the number of bits passed;
* `Cursor.Takes`: what taking bits comes to, on the machine and without it;
* `Cursor.takes_stream`: taking bits comes to the number in the stream, and its parts may be taken
  one after the other.
-/

namespace WireGrammar

/-! ### Numbers in runs of bits -/

namespace Bytes

variable (bytes : List UInt8) (p : Nat)

theorem bit_lt (i : Nat) : bit bytes i < 2 := by
  unfold bit
  cases bytes[i / 8]? with
  | none => exact Nat.zero_lt_two
  | some b => exact Nat.mod_lt _ Nat.zero_lt_two

theorem bitNumber_lt (n : Nat) : bitNumber bytes p n < Word.size n := by
  induction n with
  | zero => exact Nat.zero_lt_one
  | succ n ih =>
    have last := bit_lt bytes (p + n)
    rw [bitNumber, Word.size_succ]
    omega

/-- The first part of a run of bits is above the second one. -/
theorem bitNumber_add (a b : Nat) :
    bitNumber bytes p (a + b) =
      bitNumber bytes p a * Word.size b + bitNumber bytes (p + a) b := by
  induction b with
  | zero => simp [bitNumber]
  | succ b ih =>
    rw [← Nat.add_assoc, bitNumber, ih, bitNumber, Word.size_succ, Nat.mul_left_comm, Nat.mul_add,
      Nat.add_assoc, Nat.add_assoc]

/-- The bits of the number are those of the run, the first one above all others. -/
theorem bitNumber_bit {n i : Nat} (inside : i < n) :
    bitNumber bytes p n / Word.size (n - (i + 1)) % 2 = bit bytes (p + i) := by
  obtain ⟨below, rfl⟩ := Nat.exists_eq_add_of_lt inside
  have behind := bitNumber_lt bytes (p + (i + 1)) below
  have current := bit_lt bytes (p + i)
  have left : i + below + 1 - (i + 1) = below := by omega
  have cut : i + below + 1 = (i + 1) + below := by omega
  rw [left, cut, bitNumber_add, Nat.mul_comm, Nat.mul_add_div (Word.size_pos below),
    Nat.div_eq_of_lt behind, Nat.add_zero, bitNumber, Nat.mul_add_mod, Nat.mod_eq_of_lt current]

end Bytes

namespace Machine.Cursor

/-! ### Cursors by the bits passed -/

/-- The cursor, by the number of bits passed. -/
def joined (m : Cursor) : BitCursor := ⟨⟨m.base, m.data⟩, 8 * m.pos + m.bit⟩

/-- Nothing is lost in the number of bits, as no byte is passed in all its bits. -/
theorem of_joined {m : Cursor} (sound : m.Sound) : of m.joined = m := by
  have bit := sound.bit
  have index : (8 * m.pos + m.bit) / 8 = m.pos := by omega
  have offset : (8 * m.pos + m.bit) % 8 = m.bit := by omega
  simp only [of, joined, BitCursor.byteIndex, BitCursor.bitOffset, index, offset]

theorem joined_of (c : BitCursor) : (of c).joined = c := by
  have position := c.position_eq
  simp only [of, joined, ← position]

theorem within_joined {m : Cursor} (sound : m.Sound) : m.joined.Within := by
  have bits := sound.bits
  simp only [BitCursor.Within, joined, Slice.length]
  omega

/-! ### Taking bits -/

/-- Taking `n` bits comes to the number `v` and to the cursor `d`, and so it does on the machine, if
its words are wide enough for the offsets. -/
structure Takes (m : Cursor) (n v : Nat) (d : Cursor) : Prop where
  joined : m.joined.takeBits n = .ok (v, d.joined)
  parts : m.joined.slice.Fits → m.readBits n = .ok (v, d)

/-- The cursor `d` is `n` bits behind the cursor `m`, over the same data. -/
structure Behind (m : Cursor) (n : Nat) (d : Cursor) : Prop where
  sound : d.Sound
  data : d.data = m.data
  base : d.base = m.base
  position : d.joined.position = m.joined.position + n
  /-- A byte is left once all its bits are passed, and the next one then starts at its first bit. -/
  passed : ∀ i, i < d.pos ↔ 8 * (i + 1) ≤ m.joined.position + n
  edge : d.bit = 0 ↔ (m.joined.position + n) % 8 = 0

/-- The cursor `n` bits further on. -/
def forward (m : Cursor) (n : Nat) : Cursor := of (m.joined.skip n)

variable {m : Cursor} {n : Nat}

@[simp] theorem joined_forward : (m.forward n).joined = m.joined.skip n := joined_of _

theorem forward_forward (a b : Nat) : (m.forward a).forward b = m.forward (a + b) := by
  rw [forward, joined_forward, BitCursor.skip_skip]
  rfl

section Sound

variable (sound : m.Sound)

include sound

theorem behind_forward (enough : n ≤ m.joined.remainingBits) : m.Behind n (m.forward n) where
  sound := sound_of ((within_joined sound).skip enough)
  data := rfl
  base := rfl
  position := congrArg BitCursor.position joined_forward
  passed i := by
    have index : (m.forward n).pos = (m.joined.position + n) / 8 := rfl
    omega
  edge := Iff.rfl

/-- Taking bits comes to the number in the bits of the data. -/
theorem takes_forward (narrow : n ≤ 64) (enough : n ≤ m.joined.remainingBits) :
    m.Takes n (Bytes.bitNumber m.data m.joined.position n) (m.forward n) := by
  have within := within_joined sound
  have number : m.joined.peekBits n = Bytes.bitNumber m.data m.joined.position n :=
    BitCursor.peekBits_eq_bitNumber within enough
  have taken : m.joined.takeBits n =
      .ok (Bytes.bitNumber m.data m.joined.position n, (m.forward n).joined) := by
    rw [joined_forward, ← number]
    exact BitCursor.takeBits_eq_ok.mpr ⟨narrow, enough, rfl⟩
  refine ⟨taken, fun fits => ?_⟩
  have read := readBits_of (c := m.joined) ⟨within, fits⟩ n
  rw [of_joined sound, taken, joined_forward] at read
  exact read

/-- The bits may be taken in two parts. -/
theorem takes_parts {a b : Nat} (narrow : a + b ≤ 64)
    (enough : a + b ≤ m.joined.remainingBits) :
    ∃ v w e, m.Takes a v e ∧ e.Takes b w (m.forward (a + b)) ∧
      Bytes.bitNumber m.data m.joined.position (a + b) = v * Word.size b + w := by
  have few : a ≤ m.joined.remainingBits := by omega
  have behind := behind_forward sound few
  have rest : b ≤ (m.forward a).joined.remainingBits := by
    rw [joined_forward, BitCursor.remainingBits_skip]
    omega
  have second := takes_forward behind.sound (by omega : b ≤ 64) rest
  rw [behind.data, behind.position, forward_forward] at second
  exact ⟨_, _, _, takes_forward sound (by omega) few, second, Bytes.bitNumber_add ..⟩

/-- **Taking bits reads the stream of bits, the most significant one of each byte first.**  From any
bit, at most 64 bits that are left are taken as the number in which they come one below the other;
the cursor is then exactly so many bits further on, and has left the bytes whose bits are all
taken.  In two parts, the bits come to the number of the first part above that of the second. -/
theorem takes_stream (narrow : n ≤ 64) (enough : n ≤ m.joined.remainingBits) :
    ∃ v d, m.Takes n v d ∧ m.Behind n d ∧
      v = Bytes.bitNumber m.data m.joined.position n ∧ v < Word.size n ∧
      (∀ i, i < n →
        v / Word.size (n - (i + 1)) % 2 = Bytes.bit m.data (m.joined.position + i)) ∧
      ∀ a b, a + b = n →
        ∃ v₁ v₂ e, m.Takes a v₁ e ∧ e.Takes b v₂ d ∧ v = v₁ * Word.size b + v₂ := by
  refine ⟨_, _, takes_forward sound narrow enough, behind_forward sound enough, rfl,
    Bytes.bitNumber_lt .., fun i inside => Bytes.bitNumber_bit _ _ inside, ?_⟩
  rintro a b rfl
  exact takes_parts sound narrow enough

end Sound

/-- Sixty-four bits that are spread over nine bytes. -/
theorem takes_stream_nine_bytes :
    ∃ v d, Takes ⟨[0xff, 1, 2, 3, 4, 5, 6, 7, 8, 9], 40, 1, 3⟩ 64 v d ∧
      v = 0x0810182028303840 ∧ d.pos = 9 ∧ d.bit = 3 := by
  obtain ⟨v, d, taken, behind, number, -⟩ :=
    takes_stream (m := ⟨[0xff, 1, 2, 3, 4, 5, 6, 7, 8, 9], 40, 1, 3⟩) (n := 64) (by decide)
      (by decide) (by decide)
  have position : 8 * d.pos + d.bit = 75 := behind.position
  have passed : 8 < d.pos := (behind.passed 8).mpr (by decide)
  have current : ¬ 9 < d.pos := fun beyond => absurd ((behind.passed 9).mp beyond) (by decide)
  exact ⟨v, d, taken, number.trans (by decide), by omega, by omega⟩

end Machine.Cursor

end WireGrammar
