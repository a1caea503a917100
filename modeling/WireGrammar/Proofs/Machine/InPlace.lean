import WireGrammar.Proofs.Machine.Read

/-!
# Reading in place

Who reads keeps one cursor and moves it in its place.  A read that fails leaves the cursor wherever
it has moved it to by then, so that nothing is lost only if a read makes every check before its
first move.

* `InPlace`: runs that move a cursor and leave one also where they fail;
* `InPlace.Careful`: a run does not move the cursor before its last check;
* `Operation`: the reads, by `Operation.run` from a cursor that is kept, by `Operation.act` in
  place;
* `Operation.careful_act`: an operation that fails leaves the cursor where it was;
* `Operation.on_act`: in place an operation comes to what it comes to from a cursor that is kept.
-/

namespace WireGrammar

namespace Machine

/-- A run that cannot fail in decoding ends with a result or a fault. -/
theorem Checked.mapFailure_elim_ne {ε α : Type} (x : Checked Empty α) (e : ε) :
    x.mapFailure Empty.elim ≠ .error (.failed e) := by
  intro failed
  rcases x with (_ | _ | e) | a
  · cases failed
  · cases failed
  · exact e.elim
  · cases failed

/-- The cursor behind its last byte. -/
def Cursor.skipAll {ε : Type} (c : Cursor) : Checked ε Cursor :=
  examine { c with pos := c.data.length }

/-! ### Runs in place -/

/-- A run that moves a cursor in its place.  It leaves a cursor also where it has no result. -/
abbrev InPlace (α : Type) := ExceptT (Fault ReadError) (StateM Cursor) α

namespace InPlace

variable {α β : Type}

/-- How the run ends from a cursor, and the cursor it leaves. -/
def on (x : InPlace α) (c : Cursor) : Checked ReadError α × Cursor := x.run.run c

/-- A check or a look at the cursor, which does not move it. -/
def look (f : Cursor → Checked ReadError α) : InPlace α := ExceptT.mk do return f (← get)

/-- A look at the cursor by operations that do not fail, out of range as they may be. -/
def sure (f : Cursor → Checked Empty α) : InPlace α := look fun c => (f c).mapFailure Empty.elim

section On

variable {x : InPlace α} {f : α → InPlace β} {c d : Cursor}

@[simp] theorem on_set (c d : Cursor) : (set d : InPlace PUnit).on c = (.ok ⟨⟩, d) := rfl

@[simp] theorem on_look (f : Cursor → Checked ReadError α) (c : Cursor) :
    (look f).on c = (f c, c) := rfl

theorem on_sure {f : Cursor → Checked Empty α} {a : α} (h : f c = .ok a) :
    (sure f).on c = (.ok a, c) := by
  rw [sure, on_look, h]
  rfl

theorem on_bind_of_ok {a : α} (h : x.on c = (.ok a, d)) : (x >>= f).on c = (f a).on d := by
  simp only [on, ExceptT.run_bind, StateT.run_bind] at *
  rw [h]
  rfl

theorem on_bind_of_error {fault : Fault ReadError} (h : x.on c = (.error fault, d)) :
    (x >>= f).on c = (.error fault, d) := by
  simp only [on, ExceptT.run_bind, StateT.run_bind] at *
  rw [h]
  rfl

theorem on_sure_bind {g : Cursor → Checked Empty α} {a : α} (h : g c = .ok a) :
    (sure g >>= f).on c = (f a).on c := on_bind_of_ok (on_sure h)

end On

/-! ### Checks come first -/

/-- The run does not move the cursor before its last check: where it fails, the cursor is where it
was. -/
def Careful (x : InPlace α) : Prop := ∀ c d e, x.on c = (.error (.failed e), d) → d = c

/-- The run makes no checks. -/
def Unfailing (x : InPlace α) : Prop := ∀ c d e, x.on c ≠ (.error (.failed e), d)

section Careful

variable {x : InPlace α} {f : α → InPlace β}

theorem Unfailing.careful (h : x.Unfailing) : x.Careful :=
  fun c d e failed => absurd failed (h c d e)

theorem careful_look (f : Cursor → Checked ReadError α) : (look f).Careful := by
  intro c d e failed
  rw [on_look] at failed
  exact (congrArg Prod.snd failed).symm

/-- A check in front of a careful run. -/
theorem Careful.look_bind {g : Cursor → Checked ReadError α} (h : ∀ a, (f a).Careful) :
    (look g >>= f).Careful := by
  intro c d e failed
  cases looked : g c with
  | error fault =>
    rw [on_bind_of_error (d := c) (by rw [on_look, looked])] at failed
    exact (congrArg Prod.snd failed).symm
  | ok a =>
    rw [on_bind_of_ok (d := c) (by rw [on_look, looked])] at failed
    exact h a c d e failed

theorem Careful.sure_bind {g : Cursor → Checked Empty α} (h : ∀ a, (f a).Careful) :
    (sure g >>= f).Careful := look_bind h

theorem unfailing_pure (a : α) : (pure a : InPlace α).Unfailing := by
  intro c d e failed
  cases congrArg Prod.fst failed

theorem unfailing_set (c : Cursor) : (set c : InPlace PUnit).Unfailing := by
  intro c' d e failed
  cases congrArg Prod.fst failed

theorem unfailing_sure (f : Cursor → Checked Empty α) : (sure f).Unfailing := by
  intro c d e failed
  exact Checked.mapFailure_elim_ne (f c) e (congrArg Prod.fst failed)

/-- Neither part of the run makes checks. -/
theorem Unfailing.bind (h : x.Unfailing) (h' : ∀ a, (f a).Unfailing) : (x >>= f).Unfailing := by
  intro c d e failed
  rcases ended : x.on c with ⟨fault | a, c'⟩
  · rw [on_bind_of_error ended] at failed
    cases failed
    exact h c d e ended
  · rw [on_bind_of_ok ended] at failed
    exact h' a c' d e failed

theorem Unfailing.sure_bind {g : Cursor → Checked Empty α} (h : ∀ a, (f a).Unfailing) :
    (sure g >>= f).Unfailing := bind (unfailing_sure g) h

theorem Unfailing.set_bind {g : PUnit → InPlace β} {c : Cursor} (h : (g ⟨⟩).Unfailing) :
    ((set c : InPlace PUnit) >>= g).Unfailing := bind (unfailing_set c) fun _ => h

end Careful

/-! ### Reads in place

Each read has as its result a scalar and the number of bits that were taken for it.
-/

/-- Takes a block of `width` bytes. -/
def readFixed (width : Nat) : InPlace (Value × Nat) := do
  look (·.requireAligned)
  look (·.requireBytes width)
  let stop ← sure fun c => add c.pos width
  let block ← sure fun c => part c.data c.pos stop
  let value ← sure fun _ => blockValue width block
  set (← sure (·.skipBytes width))
  return (value, 8 * width)

/-- Takes `width` bytes as a number whose two leading bits do not count. -/
def readMasked (width : Nat) : InPlace (Value × Nat) := do
  look (·.requireBytes width)
  let stop ← sure fun c => add c.pos width
  let bytes ← sure fun c => part c.data c.pos stop
  let n ← sure fun _ => maskedNumber width bytes
  set (← sure (·.skipBytes width))
  let bits ← sure fun _ => mul width 8
  return (.uint n, bits)

/-- Takes a self-describing integer. -/
def readVarint : InPlace (Value × Nat) := do
  let pattern ← look (·.leadingPattern)
  let width ← sure fun _ => shiftLeft 64 1 pattern
  readMasked width

/-- Takes a packet number. -/
def readPacketNumber : InPlace (Value × Nat) := do
  let pattern ← look (·.leadingPattern)
  match BitCursor.packetNumberWidth? pattern with
  | some width => readMasked width
  | none => look fun c => do
    let offset ← c.absolute
    throw (.failed (.unknownEncodingPattern offset pattern))

/-- Takes `left` further bits behind those that form the number `n`, one byte after the other. -/
def takeBits (left n : Nat) : InPlace Nat :=
  if left = 0 then return n
  else do
    let available ← sure fun c => sub 8 c.bit
    let low ← sure (·.chunk available (min available left))
    let high ← sure fun _ => shiftLeft 64 n (min available left)
    let rest ← sure fun _ => sub left (min available left)
    set (← sure (·.skipBits (min available left)))
    if _h : rest < left then takeBits rest (high ||| low) else sure fun _ => .error .stalled
termination_by left

/-- Takes `n` bits, at most 64. -/
def readBits (n : Nat) : InPlace (Value × Nat) :=
  if 64 < n then
    look fun c => do
      let offset ← c.absolute
      throw (.failed (.unsupportedWidth offset n))
  else do
    let left ← sure (·.remainingBits)
    if left < n then
      look fun c => do
        let bits ← add c.bit n
        let rounded ← add bits 7
        let offset ← c.absolute
        throw (.failed (.insufficientBytes offset (rounded / 8) c.remainingBytes))
    else do
      let value ← takeBits n 0
      return (.uint value, n)

/-- Takes every byte left. -/
def readRest : InPlace (Value × Nat) := do
  let bits ← sure fun c => mul c.remainingBytes 8
  look (·.requireAligned)
  let bytes ← sure (·.remaining)
  set (← sure (·.skipAll))
  return (.bytes bytes, bits)

theorem careful_readFixed (width : Nat) : (readFixed width).Careful :=
  .look_bind fun _ => .look_bind fun _ => Unfailing.careful <|
    .sure_bind fun _ => .sure_bind fun _ => .sure_bind fun _ => .sure_bind fun _ =>
      .set_bind (unfailing_pure _)

theorem careful_readMasked (width : Nat) : (readMasked width).Careful :=
  .look_bind fun _ => Unfailing.careful <|
    .sure_bind fun _ => .sure_bind fun _ => .sure_bind fun _ => .sure_bind fun _ =>
      .set_bind (.sure_bind fun _ => unfailing_pure _)

theorem careful_readVarint : readVarint.Careful :=
  .look_bind fun _ => .sure_bind fun _ => careful_readMasked _

theorem careful_readPacketNumber : readPacketNumber.Careful := by
  refine .look_bind fun pattern => ?_
  cases BitCursor.packetNumberWidth? pattern with
  | some width => exact careful_readMasked width
  | none => exact careful_look _

/-- The loop over bytes makes no checks, though it moves the cursor with each byte. -/
theorem unfailing_takeBits (left n : Nat) : (takeBits left n).Unfailing := by
  induction left using Nat.strongRecOn generalizing n with
  | _ left ih =>
    rw [takeBits]
    by_cases none : left = 0
    · rw [if_pos none]
      exact unfailing_pure n
    · rw [if_neg none]
      refine .sure_bind fun available => .sure_bind fun low => .sure_bind fun high =>
        .sure_bind fun rest => .sure_bind fun moved => .set_bind ?_
      by_cases less : rest < left
      · rw [dif_pos less]
        exact ih rest less _
      · rw [dif_neg less]
        exact unfailing_sure _

theorem careful_readBits (n : Nat) : (readBits n).Careful := by
  unfold readBits
  by_cases wide : 64 < n
  · rw [if_pos wide]
    exact careful_look _
  · rw [if_neg wide]
    refine .sure_bind fun left => ?_
    by_cases few : left < n
    · rw [if_pos few]
      exact careful_look _
    · rw [if_neg few]
      exact Unfailing.careful (.bind (unfailing_takeBits n 0) fun _ => unfailing_pure _)

theorem careful_readRest : readRest.Careful :=
  .sure_bind fun _ => .look_bind fun _ => Unfailing.careful <|
    .sure_bind fun _ => .sure_bind fun _ => .set_bind (unfailing_pure _)

/-! ### What the reads come to -/

/-- A scalar that is read, and the cursor behind it; or the failure, and the cursor where it was. -/
def settled (c : BitCursor) :
    Except ReadError WireGrammar.Reading → Checked ReadError (Value × Nat) × Cursor
  | .ok r => (.ok (r.value, r.bits), .of r.cursor)
  | .error e => (.error (.failed e), .of c)

section Settled

variable {c : BitCursor}

/-- A check that comes to the same, and then what comes to the same. -/
theorem on_look_bind {f : Cursor → Checked ReadError α} {x : Except ReadError α}
    {g : α → InPlace (Value × Nat)} {k : α → Except ReadError WireGrammar.Reading}
    (h : f (.of c) = Checked.of x)
    (next : ∀ a, x = .ok a → (g a).on (.of c) = settled c (k a)) :
    (look f >>= g).on (.of c) = settled c (x >>= k) := by
  cases x with
  | error e =>
    have ended : (look f).on (.of c) = (.error (.failed e), .of c) := by
      rw [on_look, h, Checked.of_error]
    exact on_bind_of_error ended
  | ok a =>
    have ended : (look f).on (.of c) = (.ok a, .of c) := by rw [on_look, h, Checked.of_ok]
    rw [on_bind_of_ok ended]
    exact next a rfl

theorem on_set_bind {g : PUnit → InPlace α} {d e : Cursor} :
    ((set d : InPlace PUnit) >>= g).on e = (g ⟨⟩).on d := on_bind_of_ok (on_set e d)

theorem on_readFixed (h : c.Fits) (width : Nat) :
    (readFixed width).on (.of c) = settled c (do
      let (bytes, d) ← c.takeBytes width
      return ⟨Value.ofBytes bytes, 8 * width, d⟩) := by
  simp only [BitCursor.takeBytes, bind_assoc, pure_bind]
  refine on_look_bind (Cursor.requireAligned_of h) fun _ required =>
    on_look_bind (Cursor.requireBytes_of h width) fun _ required' => ?_
  have aligned := Cursor.isAligned_of_required required
  have enough := Cursor.le_of_required required'
  rw [on_sure_bind (Cursor.add_pos_of h enough), on_sure_bind (Cursor.part_of h.within enough),
    on_sure_bind (blockValue_eq (BitCursor.length_peekBytes enough)),
    on_sure_bind (Cursor.skipBytes_of h aligned enough), on_set_bind]
  rfl

theorem on_readMasked (h : c.Fits) (aligned : c.isAligned) {width : Nat} (positive : 1 ≤ width)
    (narrow : width ≤ 8) :
    (readMasked width).on (.of c) = settled c (do
      let p ← c.takePrefixed width
      return ⟨.uint p.value, p.bits, p.cursor⟩) := by
  simp only [BitCursor.takePrefixed, bind_assoc, pure_bind]
  refine on_look_bind (Cursor.requireBytes_of h width) fun _ required => ?_
  have enough := Cursor.le_of_required required
  have bits : mul width 8 = (.ok (8 * width) : Checked Empty Nat) := by
    rw [mul_eq (by rw [size_word, show Word.size 60 = 1152921504606846976 from rfl]; omega),
      Nat.mul_comm]
  rw [on_sure_bind (Cursor.add_pos_of h enough), on_sure_bind (Cursor.part_of h.within enough),
    on_sure_bind (maskedNumber_eq positive narrow (BitCursor.length_peekBytes enough)),
    on_sure_bind (Cursor.skipBytes_of h aligned enough), on_set_bind, on_sure_bind bits]
  rfl

theorem on_readVarint (h : c.Fits) :
    readVarint.on (.of c) = settled c (do
      let p ← c.takeVarint
      return ⟨.uint p.value, p.bits, p.cursor⟩) := by
  simp only [BitCursor.takeVarint, bind_assoc]
  refine on_look_bind (Cursor.leadingPattern_of h) fun pattern read => ?_
  obtain ⟨aligned, small⟩ := Cursor.of_leadingPattern_eq_ok read
  rw [on_sure_bind (Cursor.shiftLeft_pattern small)]
  exact on_readMasked h aligned (BitCursor.one_le_varintWidth pattern)
    (BitCursor.varintWidth_le pattern)

theorem on_readPacketNumber (h : c.Fits) :
    readPacketNumber.on (.of c) = settled c (do
      let p ← c.takePacketNumber
      return ⟨.uint p.value, p.bits, p.cursor⟩) := by
  simp only [BitCursor.takePacketNumber, bind_assoc]
  refine on_look_bind (Cursor.leadingPattern_of h) fun pattern read => ?_
  obtain ⟨aligned, -⟩ := Cursor.of_leadingPattern_eq_ok read
  cases announced : BitCursor.packetNumberWidth? pattern with
  | none =>
    simp only [on_look, Cursor.absolute_of h, Checked.ok_bind]
    rfl
  | some width =>
    exact on_readMasked h aligned (BitCursor.one_le_packetNumberWidth? announced)
      (BitCursor.packetNumberWidth?_le announced)

/-- The loop over bytes, in place and with cursors that are kept. -/
theorem on_takeBits {left n v : Nat} {m d : Cursor}
    (taken : Cursor.takeBits left n m = (.ok (v, d) : Checked Empty (Nat × Cursor))) :
    (takeBits left n).on m = (.ok v, d) := by
  induction left using Nat.strongRecOn generalizing n m with
  | _ left ih =>
    rw [Cursor.takeBits] at taken
    rw [takeBits]
    by_cases none : left = 0
    · rw [if_pos none] at taken ⊢
      cases taken
      rfl
    · rw [if_neg none] at taken ⊢
      simp only [Checked.bind_eq_ok] at taken
      obtain ⟨available, available_eq, low, low_eq, high, high_eq, rest, rest_eq, e, moved,
        taken⟩ := taken
      rw [on_sure_bind available_eq, on_sure_bind low_eq, on_sure_bind high_eq,
        on_sure_bind rest_eq, on_sure_bind moved, on_set_bind]
      by_cases less : rest < left
      · rw [dif_pos less] at taken ⊢
        exact ih rest less taken
      · rw [dif_neg less] at taken
        cases taken

theorem on_readBits (h : c.Fits) (n : Nat) :
    (readBits n).on (.of c) = settled c (do
      let (value, d) ← c.takeBits n
      return ⟨.uint value, n, d⟩) := by
  unfold readBits BitCursor.takeBits
  by_cases wide : 64 < n
  · rw [if_pos wide, if_pos wide, on_look, Cursor.absolute_of h]
    rfl
  · rw [if_neg wide, if_neg wide, on_sure_bind (Cursor.remainingBits_of h)]
    by_cases few : c.remainingBits < n
    · have below : c.bitOffset < 8 := Nat.mod_lt _ (by decide)
      have bits : add (Cursor.of c).bit n = (.ok (c.bitOffset + n) : Checked ReadError Nat) :=
        add_eq (Nat.lt_of_lt_of_le (by simp only [Cursor.of]; omega : _ < 128) (by decide))
      have rounded : add (c.bitOffset + n) 7 =
          (.ok (c.bitOffset + n + 7) : Checked ReadError Nat) :=
        add_eq (Nat.lt_of_lt_of_le (by omega : _ < 128) (by decide))
      rw [if_pos few, if_pos few, on_look, bits, Checked.ok_bind, rounded, Checked.ok_bind,
        Cursor.absolute_of h]
      rfl
    · rw [if_neg few, if_neg few]
      have taken : Cursor.takeBits n 0 (.of c) = (.ok _ : Checked Empty (Nat × Cursor)) :=
        Cursor.takeBits_of h (by omega) (by omega) (Word.size_pos _)
      rw [on_bind_of_ok (on_takeBits taken), Nat.zero_mul, Nat.zero_add]
      rfl

theorem on_readRest (h : c.Fits) :
    readRest.on (.of c) = settled c (do
      let (bytes, d) ← c.takeRest
      return ⟨.bytes bytes, 8 * c.remainingBytes, d⟩) := by
  have fits := h.slice
  have left : c.remainingBytes ≤ c.slice.length := Nat.sub_le ..
  simp only [Slice.Fits] at fits
  have bits : mul c.remainingBytes 8 = (.ok (8 * c.remainingBytes) : Checked Empty Nat) := by
    rw [mul_eq (by rw [size_word]; omega), Nat.mul_comm]
  rw [readRest, on_sure_bind bits]
  simp only [BitCursor.takeRest, bind_assoc, pure_bind]
  refine on_look_bind (Cursor.requireAligned_of h) fun _ required => ?_
  have ended : (Cursor.of c).skipAll =
      (.ok (.of { c with position := 8 * c.slice.length }) : Checked Empty Cursor) :=
    Cursor.examine_end_of (Cursor.isAligned_of_required required)
  rw [on_sure_bind (Cursor.remaining_of h.within), on_sure_bind ended, on_set_bind]
  rfl

end Settled

end InPlace

end Machine

/-! ### Operations -/

/-- A read from a cursor. -/
inductive Operation where
  /-- A block of so many bytes. -/
  | block (width : Nat)
  /-- A run of so many bits. -/
  | bits (n : Nat)
  | varint
  | packetNumber
  /-- All that is left. -/
  | rest
  deriving DecidableEq, Repr

namespace Operation

open Machine

/-- What the operation reads from a cursor that is kept. -/
def run (c : BitCursor) : Operation → Except ReadError Reading
  | .block width => do
    let (bytes, d) ← c.takeBytes width
    return ⟨Value.ofBytes bytes, 8 * width, d⟩
  | .bits n => do
    let (value, d) ← c.takeBits n
    return ⟨.uint value, n, d⟩
  | .varint => do
    let p ← c.takeVarint
    return ⟨.uint p.value, p.bits, p.cursor⟩
  | .packetNumber => do
    let p ← c.takePacketNumber
    return ⟨.uint p.value, p.bits, p.cursor⟩
  | .rest => do
    let (bytes, d) ← c.takeRest
    return ⟨.bytes bytes, 8 * c.remainingBytes, d⟩

variable {c : BitCursor} {r : Reading}

theorem run_block_eq_ok {width : Nat} : (block width).run c = .ok r ↔
    c.isAligned ∧ width ≤ c.remainingBytes ∧
      r = ⟨Value.ofBytes (c.peekBytes width), 8 * width, c.skip (8 * width)⟩ := by
  constructor
  · intro h
    obtain ⟨⟨bytes, d⟩, taken, h⟩ := bind_eq_ok.mp h
    obtain ⟨aligned, enough, eq⟩ := BitCursor.takeBytes_eq_ok.mp taken
    cases eq
    cases h
    exact ⟨aligned, enough, rfl⟩
  · rintro ⟨aligned, enough, rfl⟩
    exact bind_eq_ok.mpr ⟨_, BitCursor.takeBytes_eq_ok.mpr ⟨aligned, enough, rfl⟩, rfl⟩

theorem run_bits_eq_ok {n : Nat} : (bits n).run c = .ok r ↔
    n ≤ 64 ∧ n ≤ c.remainingBits ∧ r = ⟨.uint (c.peekBits n), n, c.skip n⟩ := by
  constructor
  · intro h
    obtain ⟨⟨value, d⟩, taken, h⟩ := bind_eq_ok.mp h
    obtain ⟨narrow, enough, eq⟩ := BitCursor.takeBits_eq_ok.mp taken
    cases eq
    cases h
    exact ⟨narrow, enough, rfl⟩
  · rintro ⟨narrow, enough, rfl⟩
    exact bind_eq_ok.mpr ⟨_, BitCursor.takeBits_eq_ok.mpr ⟨narrow, enough, rfl⟩, rfl⟩

/-- The operation on a cursor in its place. -/
def act : Operation → InPlace (Value × Nat)
  | .block width => InPlace.readFixed width
  | .bits n => InPlace.readBits n
  | .varint => InPlace.readVarint
  | .packetNumber => InPlace.readPacketNumber
  | .rest => InPlace.readRest

/-- **An operation that fails leaves the cursor where it was.** -/
theorem careful_act (op : Operation) : op.act.Careful := by
  cases op with
  | block width => exact InPlace.careful_readFixed width
  | bits n => exact InPlace.careful_readBits n
  | varint => exact InPlace.careful_readVarint
  | packetNumber => exact InPlace.careful_readPacketNumber
  | rest => exact InPlace.careful_readRest

/-- **In place, an operation comes to what it comes to from a cursor that is kept.** -/
theorem on_act (h : c.Fits) (op : Operation) :
    op.act.on (.of c) = InPlace.settled c (op.run c) := by
  cases op with
  | block width => exact InPlace.on_readFixed h width
  | bits n => exact InPlace.on_readBits h n
  | varint => exact InPlace.on_readVarint h
  | packetNumber => exact InPlace.on_readPacketNumber h
  | rest => exact InPlace.on_readRest h

end Operation

namespace BitCursor

/-- What an operation comes to from a cursor: it comes to a result or a failure, and in place it
does so as well, if the words of the machine are wide enough for the offsets; where it fails, the
cursor is then where it was. -/
structure Performs (c : BitCursor) (op : Operation) (x : Except ReadError Reading) : Prop where
  run : op.run c = x
  act : c.Fits → op.act.on (.of c) = Machine.InPlace.settled c x

theorem performs_of_run {c : BitCursor} {op : Operation} {x : Except ReadError Reading}
    (h : op.run c = x) : c.Performs op x := ⟨h, fun fits => h ▸ op.on_act fits⟩

/-- The refusal to take `width` bytes where fewer are left. -/
def tooFew (c : BitCursor) (width : Nat) : ReadError :=
  .insufficientBytes c.absolute width c.remainingBytes

end BitCursor

end WireGrammar
