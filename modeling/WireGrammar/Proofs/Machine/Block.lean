import Mathlib.Algebra.Ring.Nat
import WireGrammar.Proofs.Decoding.Bits
import WireGrammar.Proofs.Encoding.Scalar
import WireGrammar.Proofs.Machine.InPlace

/-!
# Blocks by their bits

A block of whole bytes can also be taken bit by bit, and a field is read in the one way or the other
according to where the cursor stands.  Between two bytes both ways come to the same: the same number
or bytes, the same cursor behind them, and the same failure where too few bytes are left.

* `BitCursor.TakesRuns`: runs of bits that are taken one behind the other;
* `BitCursor.takesRuns_of_le`: as many bits as are left may be taken in any runs;
* `BitCursor.block_by_runs`: a block is what its bits are in runs.
-/

namespace WireGrammar.BitCursor

/-! ### Single operations -/

variable {c d : BitCursor} {n width : Nat} {ns vs : List Nat}

theorem performs_bits (narrow : n ≤ 64) (enough : n ≤ c.remainingBits) :
    c.Performs (.bits n) (.ok ⟨.uint (c.peekBits n), n, c.skip n⟩) :=
  performs_of_run (Operation.run_bits_eq_ok.mpr ⟨narrow, enough, rfl⟩)

theorem performs_block (aligned : c.isAligned) (enough : width ≤ c.remainingBytes) :
    c.Performs (.block width)
      (.ok ⟨Value.ofBytes (c.peekBytes width), 8 * width, c.skip (8 * width)⟩) :=
  performs_of_run (Operation.run_block_eq_ok.mpr ⟨aligned, enough, rfl⟩)

theorem performs_block_of_lt (aligned : c.isAligned) (few : c.remainingBytes < width) :
    c.Performs (.block width) (.error (c.tooFew width)) := by
  refine performs_of_run ?_
  have refused : c.takeBytes width = .error (c.tooFew width) := by
    rw [takeBytes, requireAligned, if_pos aligned, requireBytes, if_neg (Nat.not_le_of_lt few)]
    rfl
  rw [Operation.run, refused]
  rfl

/-- The bits of a block are refused as the block is. -/
theorem performs_bits_of_lt (aligned : c.isAligned) (few : c.remainingBytes < width)
    (narrow : width ≤ 8) : c.Performs (.bits (8 * width)) (.error (c.tooFew width)) := by
  refine performs_of_run ?_
  have offset : c.bitOffset = 0 := by simpa [isAligned] using aligned
  have refused : c.takeBits (8 * width) = .error (c.tooFew width) := by
    have needed : (c.bitOffset + 8 * width + 7) / 8 = width := by omega
    have few' : c.remainingBits < 8 * width := by
      rw [remainingBits_of_isAligned aligned]
      omega
    rw [takeBits, if_neg (by omega), if_pos few', needed, tooFew]
  rw [Operation.run, refused]
  rfl

/-! ### Runs one behind the other -/

/-- From the cursor `c`, runs of so many bits are taken one behind the other.  They come to the
numbers `vs` and to the cursor `d`. -/
inductive TakesRuns : BitCursor → (ns vs : List Nat) → (d : BitCursor) → Prop where
  | nil {c : BitCursor} : TakesRuns c [] [] c
  | cons {c e d : BitCursor} {n v : Nat} {ns vs : List Nat}
      (first : c.Performs (.bits n) (.ok ⟨.uint v, n, e⟩)) (rest : TakesRuns e ns vs d) :
      TakesRuns c (n :: ns) (v :: vs) d

/-- The numbers in runs of bits one behind the other. -/
def peekRuns (c : BitCursor) : List Nat → List Nat
  | [] => []
  | n :: ns => c.peekBits n :: (c.skip n).peekRuns ns

/-- As many bits as are left may be taken in any runs of at most 64 bits. -/
theorem takesRuns_of_le (narrow : ∀ n ∈ ns, n ≤ 64) (enough : ns.sum ≤ c.remainingBits) :
    c.TakesRuns ns (c.peekRuns ns) (c.skip ns.sum) := by
  induction ns generalizing c with
  | nil => exact .nil
  | cons n ns ih =>
    rw [List.sum_cons] at enough ⊢
    obtain ⟨narrow, narrow'⟩ := List.forall_mem_cons.mp narrow
    have behind : ns.sum ≤ (c.skip n).remainingBits := by
      rw [remainingBits_skip]
      omega
    have rest := ih narrow' behind
    rw [skip_skip] at rest
    exact .cons (performs_bits narrow (by omega)) rest

/-- Runs of eight bits each are bytes. -/
theorem peekRuns_replicate (aligned : c.isAligned) (enough : width ≤ c.remainingBytes) :
    c.peekRuns (List.replicate width 8) = (c.peekBytes width).map UInt8.toNat := by
  induction width generalizing c with
  | zero => rfl
  | succ width ih =>
    have length : c.remaining.bytes.length = c.remainingBytes := c.length_remaining
    obtain ⟨b, bs, left⟩ := List.exists_cons_of_length_pos (l := c.remaining.bytes) (by omega)
    have behind : (c.skip 8).remaining.bytes = bs := by
      rw [show 8 = 8 * 1 from rfl, bytes_remaining_skip, left, List.drop_one, List.tail_cons]
    have first : c.peekBits 8 = b.toNat := by
      have one : c.peekBytes 1 = [b] := by rw [peekBytes, left, List.take_succ_cons, List.take_zero]
      have bits : c.peekBits (8 * 1) = Bytes.number (c.peekBytes 1) :=
        peekBits_of_isAligned aligned (by omega)
      rw [bits, one]
      simp [Bytes.number, Bytes.numberFrom]
    have few : width ≤ (c.skip 8).remainingBytes := by
      have length' : (c.skip 8).remaining.bytes.length = (c.skip 8).remainingBytes :=
        (c.skip 8).length_remaining
      rw [behind] at length'
      rw [left, List.length_cons] at length
      omega
    rw [List.replicate_succ, peekRuns, first, ih (isAligned_skip aligned 1) few, peekBytes,
      peekBytes, left, behind, List.take_succ_cons, List.map_cons]

/-! ### Blocks -/

theorem ofBytes_eq_bytes (enough : width ≤ c.remainingBytes)
    (other : width ∉ [1, 2, 4, 8, 16]) :
    Value.ofBytes (c.peekBytes width) = .bytes (c.peekBytes width) := by
  have length := length_peekBytes enough
  simp only [List.mem_cons, List.not_mem_nil, or_false, not_or] at other
  rw [Value.ofBytes, length, if_neg (by omega), if_neg other.2.2.2.2]

section Block

variable (aligned : c.isAligned) (enough : width ≤ c.remainingBytes)

include aligned enough

theorem takesRuns_of_isAligned (narrow : ∀ n ∈ ns, n ≤ 64) (whole : ns.sum = 8 * width) :
    c.TakesRuns ns (c.peekRuns ns) (c.skip (8 * width)) := by
  have left : ns.sum ≤ c.remainingBits := by
    rw [remainingBits_of_isAligned aligned]
    omega
  exact whole ▸ takesRuns_of_le narrow left

theorem ofBytes_eq_uint (number : width ∈ [1, 2, 4, 8]) :
    Value.ofBytes (c.peekBytes width) = .uint (c.peekBits (8 * width)) := by
  have length := length_peekBytes enough
  rw [Value.ofBytes, length, if_pos (by simpa using number), peekBits_of_isAligned aligned enough]

theorem ofBytes_eq_wide (wide : width = 16) : Value.ofBytes (c.peekBytes width) =
    .wide (c.peekBits 64 * Word.size 64 + (c.skip 64).peekBits 64) := by
  subst wide
  have length := length_peekBytes enough
  have index := byteIndex_of_isAligned aligned
  have within : c.Within := by
    simp only [Within, remainingBytes] at *
    omega
  have halves : c.peekBits (64 + 64) = c.peekBits 64 * Word.size 64 + (c.skip 64).peekBits 64 := by
    refine peekBits_add within ?_
    rw [remainingBits_of_isAligned aligned]
    omega
  rw [Value.ofBytes, length, if_neg (by decide), if_pos rfl, ← halves,
    ← peekBits_of_isAligned aligned enough]

end Block

/-- From the cursor `c`, a block of `width` bytes comes to a value and to the cursor `d`, and so do
its bits. -/
structure BlockByRuns (c : BitCursor) (width : Nat) (value : Value) (d : BitCursor) : Prop where
  block : c.Performs (.block width) (.ok ⟨value, 8 * width, d⟩)
  /-- In whatever runs the bits are taken, they lead to the same cursor. -/
  runs : ∀ ns : List Nat, (∀ n ∈ ns, n ≤ 64) → ns.sum = 8 * width → ∃ vs, c.TakesRuns ns vs d
  number : width ∈ [1, 2, 4, 8] →
    ∃ v, c.Performs (.bits (8 * width)) (.ok ⟨.uint v, 8 * width, d⟩) ∧ value = .uint v
  wide : width = 16 →
    ∃ high low, c.TakesRuns [64, 64] [high, low] d ∧ value = .wide (high * Word.size 64 + low)
  bytes : width ∉ [1, 2, 4, 8, 16] → ∃ bs : List UInt8,
    c.TakesRuns (List.replicate width 8) (bs.map UInt8.toNat) d ∧ value = .bytes bs

theorem blockByRuns_of_le (aligned : c.isAligned) (enough : width ≤ c.remainingBytes) :
    c.BlockByRuns width (Value.ofBytes (c.peekBytes width)) (c.skip (8 * width)) where
  block := performs_block aligned enough
  runs ns narrow whole := ⟨_, takesRuns_of_isAligned aligned enough narrow whole⟩
  number common := by
    have narrow : 8 * width ≤ 64 := by
      simp only [List.mem_cons, List.not_mem_nil, or_false] at common
      omega
    have left : 8 * width ≤ c.remainingBits := by
      rw [remainingBits_of_isAligned aligned]
      omega
    exact ⟨_, performs_bits narrow left, ofBytes_eq_uint aligned enough common⟩
  wide sixteen :=
    ⟨_, _, takesRuns_of_isAligned aligned enough (by decide) (by rw [sixteen]; rfl),
      ofBytes_eq_wide aligned enough sixteen⟩
  bytes other := by
    have narrow : ∀ n ∈ List.replicate width 8, n ≤ 64 := by
      intro n mem
      rw [List.eq_of_mem_replicate mem]
      decide
    have whole : (List.replicate width 8).sum = 8 * width := by simp [Nat.mul_comm]
    have runs := takesRuns_of_isAligned aligned enough narrow whole
    rw [peekRuns_replicate aligned enough] at runs
    exact ⟨_, runs, ofBytes_eq_bytes enough other⟩

/-- **A block of whole bytes is what its bits are.**  From between two bytes, where so many bytes
are left, the block and its bits in any runs of at most 64 bits lead to the same cursor.  A block of
1, 2, 4 or 8 bytes is the number in its bits; one of 16 bytes is the number in 64 bits above that in
64 others; any other one consists of the bytes in runs of eight bits.  Where fewer bytes are left,
the block is refused, and so are its bits, for the same reason. -/
theorem block_by_runs (aligned : c.isAligned) (width : Nat) :
    (width ≤ c.remainingBytes → ∃ value d, c.BlockByRuns width value d) ∧
    (c.remainingBytes < width → ∃ e, e = .insufficientBytes c.absolute width c.remainingBytes ∧
      c.Performs (.block width) (.error e) ∧
      (width ≤ 8 → c.Performs (.bits (8 * width)) (.error e))) := by
  refine ⟨fun enough => ⟨_, _, blockByRuns_of_le aligned enough⟩, fun few => ?_⟩
  exact ⟨c.tooFew width, rfl, performs_block_of_lt aligned few, performs_bits_of_lt aligned few⟩

/-- Sixteen bytes in two halves, from the second byte of a slice on. -/
theorem block_by_runs_sixteen :
    ∃ high low d,
      TakesRuns ⟨⟨40, [9, 1, 2, 3, 4, 5, 6, 7, 8, 10, 11, 12, 13, 14, 15, 16, 17, 9]⟩, 8⟩ [64, 64]
        [high, low] d ∧
      high * Word.size 64 + low = 0x01020304050607080a0b0c0d0e0f1011 ∧ d.position = 136 := by
  obtain ⟨value, d, block⟩ := (block_by_runs (c := ⟨⟨40, [9, 1, 2, 3, 4, 5, 6, 7, 8, 10, 11, 12,
    13, 14, 15, 16, 17, 9]⟩, 8⟩) (by decide) 16).1 (by decide)
  obtain ⟨high, low, runs, rfl⟩ := block.wide rfl
  have computed : Operation.run ⟨⟨40, [9, 1, 2, 3, 4, 5, 6, 7, 8, 10, 11, 12, 13, 14, 15, 16, 17,
      9]⟩, 8⟩ (.block 16) = .ok ⟨.wide 0x01020304050607080a0b0c0d0e0f1011, 128, _⟩ := rfl
  obtain ⟨value, -, behind⟩ := Reading.mk.inj (Except.ok.inj (block.block.run.symm.trans computed))
  exact ⟨high, low, d, runs, Value.wide.inj value, congrArg position behind⟩

end WireGrammar.BitCursor
