import WireGrammar.Bytes.Number

/-!
# Operations that are checked

Operations on words and on byte strings as a machine with words of 64 bits has them: each one
refuses to give a result that is not in its range.  A run over such operations ends with a result,
fails as decoding may, or comes to a fault: an operation was out of range, or a loop stood still.

* `Checked`: the ways in which a run ends;
* `Checked.of`: a result or a failure of decoding, without a fault;
* `add`, `mul`, `sub`, `shiftLeft`, `shiftRight`, `byteAt`, `part`, `bigEndian`: the operations,
  each with its result where it is in range.
-/

namespace WireGrammar.Machine

/-! ### Runs -/

/-- Why a run ends without a result. -/
inductive Fault (ε : Type) where
  /-- An operation is out of range. -/
  | outOfRange
  /-- A loop stands still. -/
  | stalled
  /-- Decoding fails. -/
  | failed (e : ε)
  deriving DecidableEq, Repr

/-- A run that may come to a fault. -/
abbrev Checked (ε α : Type) := Except (Fault ε) α

variable {ε ε' α β : Type}

namespace Checked

/-- The end of a run that comes to no fault. -/
def of (x : Except ε α) : Checked ε α := x.mapError .failed

/-- The run with its failures of decoding replaced. -/
def mapFailure (f : ε → ε') (x : Checked ε α) : Checked ε' α :=
  x.mapError fun
    | .outOfRange => .outOfRange
    | .stalled => .stalled
    | .failed e => .failed (f e)

/-- What is done with the result of a run, or with its failure of decoding; a fault ends it all. -/
def resume (x : Checked ε α) (go : α → Checked ε' β) (retry : ε → Checked ε' β) : Checked ε' β :=
  match x with
  | .ok a => go a
  | .error (.failed e) => retry e
  | .error .outOfRange => .error .outOfRange
  | .error .stalled => .error .stalled

@[simp] theorem resume_ok (a : α) (go : α → Checked ε' β) (retry : ε → Checked ε' β) :
    resume (.ok a) go retry = go a := rfl

@[simp] theorem resume_failed (e : ε) (go : α → Checked ε' β) (retry : ε → Checked ε' β) :
    resume (.error (.failed e)) go retry = retry e := rfl

@[simp] theorem ok_bind (a : α) (f : α → Checked ε β) : (Except.ok a >>= f) = f a := rfl

@[simp] theorem of_ok (a : α) : of (.ok a : Except ε α) = .ok a := rfl

@[simp] theorem of_error (e : ε) : of (.error e : Except ε α) = .error (.failed e) := rfl

theorem bind_eq_ok {x : Checked ε α} {f : α → Checked ε β} {b : β} :
    (x >>= f) = .ok b ↔ ∃ a, x = .ok a ∧ f a = .ok b := by
  cases x with
  | error fault => simp [bind, Except.bind]
  | ok a => simp [bind, Except.bind]

theorem eq_ok_of_mapFailure {f : ε → ε'} {x : Checked ε α} {a : α}
    (h : x.mapFailure f = .ok a) : x = .ok a := by
  cases x with
  | error fault => cases h
  | ok b =>
    cases h
    rfl

theorem resume_eq_ok {x : Checked ε α} {go : α → Checked ε' β}
    {retry : ε → Checked ε' β} {b : β} :
    x.resume go retry = .ok b ↔
      (∃ a, x = .ok a ∧ go a = .ok b) ∨ ∃ e, x = .error (.failed e) ∧ retry e = .ok b := by
  rcases x with (_ | _ | e) | a <;> simp [resume]

theorem of_bind (x : Except ε α) (f : α → Except ε β) :
    of (x >>= f) = of x >>= fun a => of (f a) := by
  cases x <;> rfl

theorem of_map (x : Except ε α) (f : α → β) :
    of (x.map f) = of x >>= fun a => .ok (f a) := by
  cases x <;> rfl

/-- Two runs agree if they do behind a first part that they share. -/
theorem of_bind_congr {x : Except ε α} {f f' : α → Checked ε β}
    (h : ∀ a, x = .ok a → f a = f' a) : (of x >>= f) = (of x >>= f') := by
  cases x with
  | error e => rfl
  | ok a => exact h a rfl

theorem mapFailure_of (f : ε → ε') (x : Except ε α) : (of x).mapFailure f = of (x.mapError f) := by
  cases x <;> rfl

end Checked

/-! ### Words -/

/-- The number, as a word of `bits` bits. -/
def word (bits n : Nat) : Checked ε Nat :=
  if n < Word.size bits then .ok n else .error .outOfRange

def add (a b : Nat) : Checked ε Nat := word 64 (a + b)

def mul (a b : Nat) : Checked ε Nat := word 64 (a * b)

def sub (a b : Nat) : Checked ε Nat := if b ≤ a then .ok (a - b) else .error .outOfRange

/-- The word of `bits` bits shifted to the left; higher bits are lost. -/
def shiftLeft (bits a distance : Nat) : Checked ε Nat :=
  if distance < bits then .ok (a <<< distance % Word.size bits) else .error .outOfRange

/-- The word of `bits` bits shifted to the right. -/
def shiftRight (bits a distance : Nat) : Checked ε Nat :=
  if distance < bits then .ok (a >>> distance) else .error .outOfRange

theorem word_eq {bits n : Nat} (h : n < Word.size bits) : word bits n = (.ok n : Checked ε Nat) :=
  if_pos h

theorem add_eq {a b : Nat} (h : a + b < Word.size 64) : add a b = (.ok (a + b) : Checked ε Nat) :=
  if_pos h

theorem mul_eq {a b : Nat} (h : a * b < Word.size 64) : mul a b = (.ok (a * b) : Checked ε Nat) :=
  if_pos h

theorem sub_eq {a b : Nat} (h : b ≤ a) : sub a b = (.ok (a - b) : Checked ε Nat) := if_pos h

/-- What the offsets of a packet are far from. -/
theorem size_word : Word.size 64 = 16 * Word.size 60 := rfl

/-- Shifting to the left multiplies, if no bits are lost. -/
theorem shiftLeft_eq {bits a distance : Nat} (h : distance < bits)
    (small : a * Word.size distance < Word.size bits) :
    shiftLeft bits a distance = (.ok (a * Word.size distance) : Checked ε Nat) := by
  have value : a <<< distance = a * Word.size distance := Nat.shiftLeft_eq ..
  rw [shiftLeft, if_pos h, value, Nat.mod_eq_of_lt small]

/-- Shifting to the right divides. -/
theorem shiftRight_eq {bits a distance : Nat} (h : distance < bits) :
    shiftRight bits a distance = (.ok (a / Word.size distance) : Checked ε Nat) := by
  have value : a >>> distance = a / Word.size distance := Nat.shiftRight_eq_div_pow ..
  rw [shiftRight, if_pos h, value]

/-- The lower bits of a number are its remainder. -/
theorem and_mask (a width : Nat) : a &&& (Word.size width - 1) = a % Word.size width :=
  Nat.and_two_pow_sub_one_eq_mod ..

/-- A number below the lowest bit of another one is added to it by joining their bits. -/
theorem or_low {a low width : Nat} (h : low < Word.size width) :
    a * Word.size width ||| low = a * Word.size width + low := by
  have value : Word.size width * a + low = Word.size width * a ||| low :=
    Nat.two_pow_add_eq_or_of_lt h a
  rw [Nat.mul_comm a, value]

/-! ### Byte strings -/

/-- The byte at an index. -/
def byteAt (bytes : List UInt8) (i : Nat) : Checked ε UInt8 :=
  match bytes[i]? with
  | some b => .ok b
  | none => .error .outOfRange

/-- The bytes from one index up to another one. -/
def part (bytes : List UInt8) (start stop : Nat) : Checked ε (List UInt8) :=
  if start ≤ stop ∧ stop ≤ bytes.length then .ok ((bytes.drop start).take (stop - start))
  else .error .outOfRange

/-- The number in the first `width` bytes. -/
def bigEndian (width : Nat) (bytes : List UInt8) : Checked ε Nat :=
  if width ≤ bytes.length then .ok (Bytes.number (bytes.take width)) else .error .outOfRange

theorem byteAt_eq {bytes : List UInt8} {i : Nat} {b : UInt8} (h : bytes[i]? = some b) :
    byteAt bytes i = (.ok b : Checked ε UInt8) := by
  rw [byteAt, h]

theorem part_eq {bytes : List UInt8} {start width : Nat} (h : start + width ≤ bytes.length) :
    part bytes start (start + width) =
      (.ok ((bytes.drop start).take width) : Checked ε (List UInt8)) := by
  rw [part, if_pos ⟨Nat.le_add_right .., h⟩, Nat.add_sub_cancel_left]

/-- The bytes from an index on. -/
theorem part_length {bytes : List UInt8} {start : Nat} (h : start ≤ bytes.length) :
    part bytes start bytes.length = (.ok (bytes.drop start) : Checked ε (List UInt8)) := by
  rw [part, if_pos ⟨h, Nat.le_refl _⟩, ← List.length_drop, List.take_length]

theorem bigEndian_eq {width : Nat} {bytes : List UInt8} (h : bytes.length = width) :
    bigEndian width bytes = (.ok (Bytes.number bytes) : Checked ε Nat) := by
  rw [bigEndian, if_pos (Nat.le_of_eq h.symm), ← h, List.take_length]

end WireGrammar.Machine
