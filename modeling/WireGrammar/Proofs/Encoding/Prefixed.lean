import WireGrammar.Proofs.Encoding.Scalar
import WireGrammar.Proofs.Machine.InPlace

/-!
# Self-describing integers are read just as they are written

A self-describing integer is written in one of a few widths, which its two leading bits tell.
Reading takes what is written, whatever stands behind it, and it takes nothing else; so a number and
its width are as good as the bytes.

* `BitCursor.Announced`: what there is to read behind leading bits, by the widths these announce;
* `Operation.Codes`: an operation reads just what is written in a coding;
* `Operation.codes_of_announced`: it does if the widths and the leading bits tell each other;
* `Operation.codes_prefixed`: so do the operations for both kinds of self-describing integers.
-/

namespace WireGrammar

namespace BitCursor

/-! ### Leading bits -/

/-- What there is to read from a cursor between two bytes, where leading bits announce widths as
`width?` says. -/
inductive Announced (c : BitCursor) (width? : Nat → Option Nat) :
    Except ReadError Reading → Prop where
  | nothing (none : c.remainingBytes = 0) : Announced c width? (.error (c.tooFew 1))
  | unknown (some : 1 ≤ c.remainingBytes) (announced : width? c.pattern = none) :
      Announced c width? (.error (.unknownEncodingPattern c.absolute c.pattern))
  | cut {width : Nat} (some : 1 ≤ c.remainingBytes) (announced : width? c.pattern = .some width)
      (few : c.remainingBytes < width) : Announced c width? (.error (c.tooFew width))
  | whole {width : Nat} (some : 1 ≤ c.remainingBytes) (announced : width? c.pattern = .some width)
      (enough : width ≤ c.remainingBytes) :
      Announced c width? (.ok ⟨.uint (c.prefixedValue width), 8 * width, c.skip (8 * width)⟩)

variable {c : BitCursor} {b : UInt8} {bs tail : List UInt8} {width v : Nat}

namespace Announced

variable {width? : Nat → Option Nat} {x : Except ReadError Reading} (h : c.Announced width? x)

include h

theorem eq_of_nothing (none : c.remainingBytes = 0) : x = .error (c.tooFew 1) := by
  cases h with
  | nothing => rfl
  | unknown some => omega
  | cut some => omega
  | whole some => omega

theorem eq_of_unknown (some : 1 ≤ c.remainingBytes) (unknown : width? c.pattern = .none) :
    x = .error (.unknownEncodingPattern c.absolute c.pattern) := by
  cases h with
  | nothing none => omega
  | unknown => rfl
  | cut _ announced => cases unknown.symm.trans announced
  | whole _ announced => cases unknown.symm.trans announced

theorem eq_of_cut (some : 1 ≤ c.remainingBytes) (announced : width? c.pattern = .some width)
    (few : c.remainingBytes < width) : x = .error (c.tooFew width) := by
  cases h with
  | nothing none => omega
  | unknown _ unknown => cases unknown.symm.trans announced
  | cut _ other => cases other.symm.trans announced; rfl
  | whole _ other enough =>
    cases other.symm.trans announced
    omega

theorem eq_of_whole (some : 1 ≤ c.remainingBytes) (announced : width? c.pattern = .some width)
    (enough : width ≤ c.remainingBytes) :
    x = .ok ⟨.uint (c.prefixedValue width), 8 * width, c.skip (8 * width)⟩ := by
  cases h with
  | nothing none => omega
  | unknown _ unknown => cases unknown.symm.trans announced
  | cut _ other few =>
    cases other.symm.trans announced
    omega
  | whole _ other => cases other.symm.trans announced; rfl

end Announced

theorem leadingPattern_of_remainingBytes_eq_zero (aligned : c.isAligned)
    (none : c.remainingBytes = 0) : c.leadingPattern = .error (c.tooFew 1) := by
  rw [leadingPattern, requireAligned, if_pos aligned, requireBytes, if_neg (by omega)]
  rfl

theorem leadingPattern_of_isAligned (aligned : c.isAligned) (some : 1 ≤ c.remainingBytes) :
    c.leadingPattern = .ok c.pattern := by
  rw [leadingPattern, requireAligned, if_pos aligned, requireBytes, if_pos some]
  rfl

theorem takePrefixed_of_lt (few : c.remainingBytes < width) :
    c.takePrefixed width = .error (c.tooFew width) := by
  rw [takePrefixed, requireBytes, if_neg (Nat.not_le_of_lt few)]
  rfl

theorem takePrefixed_of_le (enough : width ≤ c.remainingBytes) :
    c.takePrefixed width = .ok ⟨c.prefixedValue width, 8 * width, c.skip (8 * width)⟩ :=
  takePrefixed_eq_ok.mpr ⟨enough, rfl⟩

/-- Behind leading bits that announce a width, there are so many bytes or too few. -/
theorem announced_of_takePrefixed {width? : Nat → Option Nat} (some : 1 ≤ c.remainingBytes)
    (announced : width? c.pattern = .some width) :
    c.Announced width? (do
      let p ← c.takePrefixed width
      return ⟨.uint p.value, p.bits, p.cursor⟩) := by
  by_cases enough : width ≤ c.remainingBytes
  · rw [takePrefixed_of_le enough]
    exact .whole some announced enough
  · rw [takePrefixed_of_lt (by omega)]
    exact .cut some announced (by omega)

theorem announced_varint (aligned : c.isAligned) :
    c.Announced (fun pattern => some (varintWidth pattern)) (Operation.varint.run c) := by
  rw [Operation.run, takeVarint]
  by_cases none : c.remainingBytes = 0
  · rw [leadingPattern_of_remainingBytes_eq_zero aligned none]
    exact .nothing none
  · rw [leadingPattern_of_isAligned aligned (by omega)]
    exact announced_of_takePrefixed (by omega) rfl

theorem announced_packetNumber (aligned : c.isAligned) :
    c.Announced packetNumberWidth? (Operation.packetNumber.run c) := by
  rw [Operation.run, takePacketNumber]
  by_cases none : c.remainingBytes = 0
  · rw [leadingPattern_of_remainingBytes_eq_zero aligned none]
    exact .nothing none
  · rw [leadingPattern_of_isAligned aligned (by omega)]
    cases announced : packetNumberWidth? c.pattern with
    | none =>
      simp only [bind, Except.bind, announced]
      exact .unknown (by omega) announced
    | some width =>
      simp only [bind, Except.bind, announced]
      exact announced_of_takePrefixed (by omega) announced

/-! ### What is written -/

theorem pattern_of_cons (left : c.remaining.bytes = b :: bs) : c.pattern = b.toNat / 64 := by
  rw [pattern, peekBytes, left, List.take_succ_cons, List.head?_cons, Option.elim_some]

/-- Where a number is written, it is found together with the leading bits of its coding. -/
theorem prefixed_of_encode {coding : Coding} (one : 1 ≤ width) (few : coding.leading width < 4)
    (small : v < Word.size (8 * width - 2))
    (left : c.remaining.bytes = (Value.uint v).encode coding width ++ tail) :
    width ≤ c.remainingBytes ∧ c.pattern = coding.leading width ∧ c.prefixedValue width = v := by
  have length : ((Value.uint v).encode coding width).length = width := Bytes.length_ofNumber ..
  have enough : width ≤ c.remainingBytes := by
    rw [← length_remaining, Slice.length, left, List.length_append, length]
    omega
  have next : c.peekBytes width = (Value.uint v).encode coding width := by
    rw [peekBytes, left, List.take_left' length]
  -- The leading bits are above the value, and together they fill the width.
  have size : Word.size (8 * width) = 4 * Word.size (8 * width - 2) := by
    rw [show 8 * width = 2 + (8 * width - 2) by omega, Word.size_add, Nat.add_sub_cancel_left]
    rfl
  have fits : coding.leading width * Word.size (8 * width - 2) + v < Word.size (8 * width) := by
    have most : coding.leading width * Word.size (8 * width - 2) ≤ 3 * Word.size (8 * width - 2) :=
      Nat.mul_le_mul_right _ (by omega)
    omega
  have number := number_peekBytes one enough
  rw [next, Value.encode, Bytes.number_ofNumber fits] at number
  have below : c.prefixedValue width < Word.size (8 * width - 2) := Nat.mod_lt _ (Word.size_pos _)
  have above : ∀ {pattern n : Nat}, n < Word.size (8 * width - 2) →
      (pattern * Word.size (8 * width - 2) + n) / Word.size (8 * width - 2) = pattern := by
    intro pattern n lt
    rw [Nat.mul_comm, Nat.mul_add_div (Word.size_pos _), Nat.div_eq_of_lt lt, Nat.add_zero]
  have same : c.pattern = coding.leading width := by
    calc c.pattern = _ := (above below).symm
      _ = (coding.leading width * Word.size (8 * width - 2) + v) / Word.size (8 * width - 2) := by
        rw [number]
      _ = coding.leading width := above small
  rw [same] at number
  exact ⟨enough, same, Nat.add_left_cancel number⟩

end BitCursor

namespace Operation

/-! ### Operations and codings -/

/-- The operation reads just what is written in the coding with one of the widths. -/
structure Codes (op : Operation) (coding : Coding) (widths : List Nat) : Prop where
  /-- A number that is written is read, whatever stands behind it. -/
  reads : ∀ (c : BitCursor) (width v : Nat) (tail : List UInt8), c.isAligned → width ∈ widths →
    v < Word.size (8 * width - 2) →
    c.remaining.bytes = (Value.uint v).encode coding width ++ tail →
    c.Performs op (.ok ⟨.uint v, 8 * width, c.skip (8 * width)⟩)
  /-- What is read is a number that was written there. -/
  written : ∀ (c : BitCursor) (r : Reading), c.Performs op (.ok r) →
    ∃ width ∈ widths, ∃ v tail, v < Word.size (8 * width - 2) ∧
      r = ⟨.uint v, 8 * width, c.skip (8 * width)⟩ ∧
      c.remaining.bytes = (Value.uint v).encode coding width ++ tail
  /-- Bytes are missing where there is none, or fewer than the first one announces. -/
  missing : ∀ c : BitCursor, c.isAligned →
    ((∃ offset needed available,
        c.Performs op (.error (.insufficientBytes offset needed available))) ↔
      c.remaining.bytes = [] ∨ ∃ width ∈ widths, ∃ b bs, c.remaining.bytes = b :: bs ∧
        b.toNat / 64 = coding.leading width ∧ (b :: bs).length < width)

variable {op : Operation} {coding : Coding} {widths : List Nat} {width? : Nat → Option Nat}

/-- An operation reads just what is written if the widths and the leading bits tell each other. -/
theorem codes_of_announced
    (announces : ∀ {c : BitCursor}, c.isAligned → c.Announced width? (op.run c))
    (aligned_of_run : ∀ {c : BitCursor} {r : Reading}, op.run c = .ok r → c.isAligned)
    (tells : ∀ pattern < 4, ∀ width, width? pattern = some width ↔
      width ∈ widths ∧ coding.leading width = pattern)
    (small : ∀ width ∈ widths, 1 ≤ width ∧ coding.leading width < 4) :
    op.Codes coding widths where
  reads c width v tail aligned mem fits left := by
    obtain ⟨one, few⟩ := small width mem
    obtain ⟨enough, told, value⟩ := BitCursor.prefixed_of_encode one few fits left
    have announced := (tells c.pattern c.pattern_lt width).mpr ⟨mem, told.symm⟩
    have outcome := (announces aligned).eq_of_whole (by omega) announced enough
    rw [value] at outcome
    exact BitCursor.performs_of_run outcome
  written c r h := by
    have outcome := announces (aligned_of_run h.run)
    rw [h.run] at outcome
    cases outcome with
    | @whole width _ announced enough =>
      obtain ⟨mem, told⟩ := (tells c.pattern c.pattern_lt width).mp announced
      refine ⟨width, mem, c.prefixedValue width, c.remaining.bytes.drop width,
        Nat.mod_lt _ (Word.size_pos _), rfl, ?_⟩
      rw [BitCursor.encode_prefixedValue (small width mem).1 enough told, BitCursor.peekBytes,
        List.take_append_drop]
  missing c aligned := by
    have length : c.remaining.bytes.length = c.remainingBytes := c.length_remaining
    have outcome := announces aligned
    constructor
    · rintro ⟨offset, needed, available, h⟩
      rw [h.run] at outcome
      generalize failed : Except.error (ReadError.insufficientBytes offset needed available) = x
        at outcome
      cases outcome with
      | nothing none => exact .inl (List.length_eq_zero_iff.mp (length.trans none))
      | unknown => cases failed
      | @cut width some announced few =>
        obtain ⟨mem, told⟩ := (tells c.pattern c.pattern_lt width).mp announced
        obtain ⟨b, bs, left⟩ := List.exists_cons_of_length_pos (l := c.remaining.bytes) (by omega)
        rw [BitCursor.pattern_of_cons left] at told
        exact .inr ⟨width, mem, b, bs, left, told.symm, by rwa [← left, length]⟩
      | whole => cases failed
    · rintro (none | ⟨width, mem, b, bs, left, told, few⟩)
      · rw [none, List.length_nil] at length
        exact ⟨_, _, _, BitCursor.performs_of_run (outcome.eq_of_nothing length.symm)⟩
      · rw [left] at length
        have announced := (tells c.pattern c.pattern_lt width).mpr
          ⟨mem, told.symm.trans (BitCursor.pattern_of_cons left).symm⟩
        have some : 1 ≤ c.remainingBytes := by simp [← length]
        have cut := outcome.eq_of_cut some announced (by omega)
        exact ⟨_, _, _, BitCursor.performs_of_run cut⟩

theorem codes_varint : Operation.varint.Codes .varint [1, 2, 4, 8] := by
  refine codes_of_announced BitCursor.announced_varint ?_ ?_ (by decide)
  · intro c r h
    cases BitCursor.readScalar_varint_eq_ok.mp h with
    | varint aligned => exact aligned
  · intro pattern lt width
    have back : ∀ width ∈ [1, 2, 4, 8],
        BitCursor.varintWidth (Coding.varint.leading width) = width := by decide
    have all : ∀ pattern < 4, BitCursor.varintWidth pattern ∈ [1, 2, 4, 8] := by decide
    constructor
    · rintro ⟨⟩
      exact ⟨all pattern lt, BitCursor.leading_varintWidth lt⟩
    · rintro ⟨mem, rfl⟩
      rw [back width mem]

theorem codes_packetNumber : Operation.packetNumber.Codes .packetNumber [1, 2, 4] := by
  refine codes_of_announced BitCursor.announced_packetNumber ?_ ?_ (by decide)
  · intro c r h
    cases BitCursor.readScalar_packetNumber_eq_ok.mp h with
    | packetNumber aligned => exact aligned
  · intro pattern lt width
    have back : ∀ width ∈ [1, 2, 4],
        BitCursor.packetNumberWidth? (Coding.packetNumber.leading width) = some width := by decide
    have all : ∀ pattern < 4, ∀ width ∈ BitCursor.packetNumberWidth? pattern,
        width ∈ [1, 2, 4] := by decide
    constructor
    · intro announced
      exact ⟨all pattern lt width announced, (BitCursor.leading_packetNumberWidth? announced).2⟩
    · rintro ⟨mem, rfl⟩
      exact back width mem

/-- **Self-describing integers are read just as they are written**: those of 1, 2, 4 and 8 bytes
whose leading bits are the logarithm of the width, and packet numbers of 1, 2 and 4 bytes with the
leading bits `00`, `10` and `11`.  The leading bits `01` announce no packet number. -/
theorem codes_prefixed :
    Operation.varint.Codes .varint [1, 2, 4, 8] ∧
    Operation.packetNumber.Codes .packetNumber [1, 2, 4] ∧
    ∀ (c : BitCursor) (b : UInt8) (bs : List UInt8), c.isAligned → c.remaining.bytes = b :: bs →
      b.toNat / 64 = 1 →
        c.Performs .packetNumber (.error (.unknownEncodingPattern c.absolute 1)) := by
  refine ⟨codes_varint, codes_packetNumber, fun c b bs aligned left lead => ?_⟩
  have pattern : c.pattern = 1 := (BitCursor.pattern_of_cons left).trans lead
  have some : 1 ≤ c.remainingBytes := by
    rw [← c.length_remaining, Slice.length, left, List.length_cons]
    omega
  have refused := (BitCursor.announced_packetNumber aligned).eq_of_unknown some
    (by rw [pattern]; rfl)
  rw [pattern] at refused
  exact BitCursor.performs_of_run refused

/-- A number of two bytes with others in front of it and behind it, and a byte that announces no
packet number. -/
theorem codes_prefixed_surrounded :
    BitCursor.Performs ⟨⟨7, [0xff, 0x7b, 0xbd, 5]⟩, 8⟩ .varint
      (.ok ⟨.uint 0x3bbd, 16, ⟨⟨7, [0xff, 0x7b, 0xbd, 5]⟩, 24⟩⟩) ∧
    BitCursor.Performs ⟨⟨7, [0xff, 0x40, 0]⟩, 8⟩ .packetNumber
      (.error (.unknownEncodingPattern 8 1)) :=
  ⟨codes_prefixed.1.reads _ 2 0x3bbd [5] (by decide) (by decide) (by decide) (by decide),
    codes_prefixed.2.2 _ 0x40 [0] (by decide) (by decide) (by decide)⟩

end Operation

end WireGrammar
