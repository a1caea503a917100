import WireGrammar.Word

/-!
# Byte strings as numbers

Byte strings as big-endian numbers, and numbers as byte strings of a fixed width.

* `number_append`: a cut divides a number into a higher and a lower part;
* `number_lt`: a byte string denotes a number of eight bits a byte;
* `number_ofNumber`: the bytes of a number that fits denote it;
* `ofNumber_number`: no other byte string of that width does.
-/

namespace WireGrammar.Bytes

/-- The big-endian number that `bs` denotes after bytes that denote `high`. -/
def numberFrom (high : Nat) (bs : List UInt8) : Nat :=
  bs.foldl (fun n b => 256 * n + b.toNat) high

/-- The big-endian number that a byte string denotes. -/
def number (bs : List UInt8) : Nat := numberFrom 0 bs

/-- The big-endian bytes of `n`, to the given width; higher bytes of `n` are lost. -/
def ofNumber : Nat → Nat → List UInt8
  | 0, _ => []
  | width + 1, n => ofNumber width (n / 256) ++ [UInt8.ofNat n]

@[simp] theorem length_ofNumber (width n : Nat) : (ofNumber width n).length = width := by
  induction width generalizing n with
  | zero => rfl
  | succ width ih => simp [ofNumber, ih]

theorem numberFrom_append (high : Nat) (as bs : List UInt8) :
    numberFrom high (as ++ bs) = numberFrom (numberFrom high as) bs := by
  simp [numberFrom]

theorem numberFrom_eq (high : Nat) (bs : List UInt8) :
    numberFrom high bs = high * Word.size (8 * bs.length) + number bs := by
  induction bs generalizing high with
  | nil => simp [numberFrom, number]
  | cons b bs ih =>
    have step : ∀ n, numberFrom n (b :: bs) = numberFrom (256 * n + b.toNat) bs := fun _ => rfl
    rw [number, step, step, ih, ih (256 * 0 + b.toNat), List.length_cons, Nat.mul_succ,
      Nat.add_comm (8 * bs.length), Word.size_add, show Word.size 8 = 256 from rfl]
    simp only [Nat.mul_zero, Nat.zero_add, Nat.add_mul]
    rw [Nat.mul_comm 256 high, Nat.mul_assoc, Nat.add_assoc]

/-- A number is the part above a cut, shifted by the width below it, and the part below. -/
theorem number_append (as bs : List UInt8) :
    number (as ++ bs) = number as * Word.size (8 * bs.length) + number bs := by
  rw [number, numberFrom_append, numberFrom_eq]
  rfl

/-- The first byte makes up the highest eight bits of a number. -/
theorem number_cons (b : UInt8) (bs : List UInt8) :
    number (b :: bs) = b.toNat * Word.size (8 * bs.length) + number bs := by
  have single : number [b] = b.toNat := by simp [number, numberFrom]
  rw [← List.singleton_append, number_append, single]

/-- A number fits into eight bits a byte. -/
theorem number_lt (bs : List UInt8) : number bs < Word.size (8 * bs.length) := by
  induction bs with
  | nil => simp [number, numberFrom]
  | cons b bs ih =>
    have hlt := b.toNat_lt
    rw [number_cons, List.length_cons, Nat.mul_succ, Word.size_add, show Word.size 8 = 256 from rfl]
    have : b.toNat * Word.size (8 * bs.length) ≤ 255 * Word.size (8 * bs.length) :=
      Nat.mul_le_mul_right _ (by omega)
    omega

/-- The part of a number above a cut is what dividing by the width below it leaves. -/
theorem number_append_div (as bs : List UInt8) :
    number (as ++ bs) / Word.size (8 * bs.length) = number as := by
  rw [number_append, Nat.mul_comm, Nat.mul_add_div (Word.size_pos _),
    Nat.div_eq_of_lt (number_lt bs), Nat.add_zero]

/-- The bytes of a number that fits denote it. -/
theorem number_ofNumber {width n : Nat} (h : n < Word.size (8 * width)) :
    number (ofNumber width n) = n := by
  induction width generalizing n with
  | zero => simp at h; simp [ofNumber, number, numberFrom, h]
  | succ width ih =>
    have small : n / 256 < Word.size (8 * width) := by
      rw [Nat.mul_succ, Word.size_add, show Word.size 8 = 256 from rfl] at h
      exact Nat.div_lt_of_lt_mul (by omega)
    have last : number [UInt8.ofNat n] = n % 256 := by simp [number, numberFrom]
    rw [ofNumber, number_append, ih small, last, List.length_singleton,
      show Word.size (8 * 1) = 256 from rfl]
    omega

theorem ofNumber_numberFrom (width high : Nat) (bs : List UInt8) :
    ofNumber (width + bs.length) (numberFrom high bs) = ofNumber width high ++ bs := by
  induction bs generalizing width high with
  | nil => simp [numberFrom]
  | cons b bs ih =>
    have hlt := b.toNat_lt
    have above : (256 * high + b.toNat) / 256 = high := by omega
    have last : UInt8.ofNat (256 * high + b.toNat) = b := by
      apply UInt8.toNat_inj.mp
      rw [UInt8.toNat_ofNat']
      omega
    have step : numberFrom high (b :: bs) = numberFrom (256 * high + b.toNat) bs := rfl
    rw [step, List.length_cons, ← Nat.add_assoc, Nat.add_right_comm, ih, ofNumber, above, last,
      List.append_assoc, List.singleton_append]

/-- The bytes of the number that a byte string denotes are that byte string. -/
theorem ofNumber_number (bs : List UInt8) : ofNumber bs.length (number bs) = bs := by
  have := ofNumber_numberFrom 0 0 bs
  rwa [Nat.zero_add] at this

/-- The two leading bits of a number are those of its first byte. -/
theorem number_div (b : UInt8) (bs : List UInt8) :
    number (b :: bs) / Word.size (8 * (bs.length + 1) - 2) = b.toNat / 64 := by
  have low := number_lt bs
  have size : Word.size (8 * (bs.length + 1) - 2) = Word.size (8 * bs.length) * 64 := by
    rw [show 8 * (bs.length + 1) - 2 = 8 * bs.length + 6 by omega, Word.size_add]
    rfl
  rw [number_cons, size, ← Nat.div_div_eq_div_mul, Nat.mul_comm b.toNat,
    Nat.mul_add_div (Word.size_pos _), Nat.div_eq_of_lt low, Nat.add_zero]

end WireGrammar.Bytes
