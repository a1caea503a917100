import WireGrammar.Proofs.Decoding.Bits
import WireGrammar.Proofs.Machine.InPlace

/-!
# Windows are faithful

A window shows the next bytes of a packet and nothing else.  Whatever is read in it, in whatever
order and in whatever windows inside of it, could be read from the cursor it was opened at as well,
with the same results at the same places; and what stands behind the window has no part in it.

* `Script`: reads one after the other, each chosen by what was read before it, and windows that are
  opened on the way;
* `BitCursor.Views`: a cursor in a part of a slice, at the place where another one stands in the
  whole;
* `Operation.run_of_views`, `Script.run_of_views`: what the one reads, the other reads;
* `BitCursor.window_faithful`: so it is for windows, also where cursors are moved in their place.
-/

namespace WireGrammar

open Machine

/-! ### Scripts -/

/-- What a script tells of one of its steps. -/
inductive Mark where
  /-- A scalar and its bits, and the place behind it. -/
  | read (value : Value) (bits absolute bitOffset : Nat)
  | window (view : Slice)
  deriving DecidableEq, Repr

/-- Reads that know how much they take, one after the other, and windows that are opened on the way.
What has been read may decide what comes next. -/
inductive Script where
  | stop
  | read (op : Operation) (known : op ≠ .rest) (next : Value → Script)
  /-- Opens a window of `n` bytes for another script, and goes on from where it was opened. -/
  | inside (n : Nat) (inner : Script) (next : List Mark → Script)

namespace Script

/-- What the script comes to from a cursor that is kept, and the cursor behind it. -/
def run : Script → BitCursor → Except ReadError (List Mark × BitCursor)
  | .stop, c => return ([], c)
  | .read op _ next, c => do
    let r ← op.run c
    let (log, d) ← (next r.value).run r.cursor
    return (.read r.value r.bits r.cursor.absolute r.cursor.bitOffset :: log, d)
  | .inside n inner next, c => do
    let view ← c.window n
    let (seen, _) ← inner.run (.start view)
    let (log, d) ← (next seen).run c
    return (.window view :: seen ++ log, d)

/-- The script on a cursor in its place.  The cursor of a window is another one. -/
def act : Script → InPlace (List Mark)
  | .stop => return []
  | .read op _ next => do
    let (value, bits) ← op.act
    let absolute ← InPlace.sure (·.absolute)
    let bit ← InPlace.sure fun c => .ok c.bit
    let log ← (next value).act
    return .read value bits absolute bit :: log
  | .inside n inner next => do
    let view ← InPlace.look (·.window n)
    let seen ← InPlace.look fun _ => (inner.act.on view).1
    let log ← (next seen).act
    return .window ⟨view.base, view.data⟩ :: seen ++ log

variable {c d : BitCursor} {log : List Mark} {n : Nat} {inner : Script}

theorem run_stop_eq_ok : stop.run c = .ok (log, d) ↔ log = [] ∧ d = c := by
  simp [run, pure, Except.pure, eq_comm]

theorem run_read_eq_ok {op : Operation} {known : op ≠ .rest} {next : Value → Script} :
    (read op known next).run c = .ok (log, d) ↔ ∃ r behind, op.run c = .ok r ∧
      (next r.value).run r.cursor = .ok (behind, d) ∧
      log = .read r.value r.bits r.cursor.absolute r.cursor.bitOffset :: behind := by
  constructor
  · intro h
    obtain ⟨r, done, h⟩ := bind_eq_ok.mp h
    obtain ⟨⟨behind, e⟩, rest, h⟩ := bind_eq_ok.mp h
    cases h
    exact ⟨r, behind, done, rest, rfl⟩
  · rintro ⟨r, behind, done, rest, rfl⟩
    exact bind_eq_ok.mpr ⟨r, done, bind_eq_ok.mpr ⟨(behind, d), rest, rfl⟩⟩

theorem run_inside_eq_ok {next : List Mark → Script} :
    (inside n inner next).run c = .ok (log, d) ↔ ∃ view seen e behind,
      c.window n = .ok view ∧ inner.run (.start view) = .ok (seen, e) ∧
      (next seen).run c = .ok (behind, d) ∧ log = .window view :: seen ++ behind := by
  constructor
  · intro h
    obtain ⟨view, opened, h⟩ := bind_eq_ok.mp h
    obtain ⟨⟨seen, e⟩, within, h⟩ := bind_eq_ok.mp h
    obtain ⟨⟨behind, d'⟩, rest, h⟩ := bind_eq_ok.mp h
    cases h
    exact ⟨view, seen, e, behind, opened, within, rest, rfl⟩
  · rintro ⟨view, seen, e, behind, opened, within, rest, rfl⟩
    exact bind_eq_ok.mpr ⟨view, opened, bind_eq_ok.mpr ⟨(seen, e), within,
      bind_eq_ok.mpr ⟨(behind, d), rest, rfl⟩⟩⟩

end Script

/-! ### Cursors in parts of a slice -/

namespace BitCursor

/-- The cursor `w` stands in a part of the slice of `c`, `k` bytes behind its start, and both stand
at the same place of the packet. -/
structure Views (k : Nat) (w c : BitCursor) : Prop where
  part : w.slice.PartAt k c.slice
  position : c.position = 8 * k + w.position

namespace Views

variable {k n : Nat} {w c : BitCursor} (h : Views k w c)

include h

theorem byteIndex_eq : c.byteIndex = k + w.byteIndex := by
  have position := h.position
  unfold byteIndex
  omega

theorem bitOffset_eq : c.bitOffset = w.bitOffset := by
  have position := h.position
  unfold bitOffset
  omega

theorem isAligned_eq : c.isAligned = w.isAligned := by
  rw [isAligned, h.bitOffset_eq, isAligned]

theorem absolute_eq : c.absolute = w.absolute := by
  rw [absolute, h.byteIndex_eq, absolute, h.part.offset, Nat.add_assoc]

theorem length_le : w.slice.length ≤ c.slice.length - k := by
  have few := h.part.bytes.length_le
  rwa [List.length_drop] at few

theorem remainingBytes_le : w.remainingBytes ≤ c.remainingBytes := by
  have few := h.length_le
  rw [remainingBytes, remainingBytes, h.byteIndex_eq]
  omega

theorem remainingBits_le : w.remainingBits ≤ c.remainingBits := by
  have few := h.length_le
  rw [remainingBits, remainingBits, h.position]
  omega

theorem peekBytes_eq (enough : n ≤ w.remainingBytes) : c.peekBytes n = w.peekBytes n := by
  rw [peekBytes_eq_of_partAt h.part enough, ← h.position]
  rfl

theorem peekBits_eq (within : w.Within) (enough : n ≤ w.remainingBits) :
    c.peekBits n = w.peekBits n := by
  have held : (w.bitOffset + n + 7) / 8 ≤ w.remainingBytes := by
    simp only [Within, remainingBits, remainingBytes, bitOffset, byteIndex] at *
    omega
  simp only [peekBits, h.bitOffset_eq, h.peekBytes_eq held]

theorem pattern_eq (some : 1 ≤ w.remainingBytes) : c.pattern = w.pattern := by
  rw [pattern, h.peekBytes_eq some, pattern]

theorem prefixedValue_eq (enough : n ≤ w.remainingBytes) :
    c.prefixedValue n = w.prefixedValue n := by
  rw [prefixedValue, h.peekBytes_eq enough, prefixedValue]

theorem skip (n : Nat) : Views k (w.skip n) (c.skip n) where
  part := h.part
  position := by
    rw [position_skip, position_skip, h.position, Nat.add_assoc]

/-- A window inside of a part is one of the whole. -/
theorem window {view : Slice} (opened : w.window n = .ok view) : c.window n = .ok view := by
  obtain ⟨aligned, enough, rfl⟩ := window_eq_ok.mp opened
  refine window_eq_ok.mpr ⟨h.isAligned_eq ▸ aligned, enough.trans h.remainingBytes_le, ?_⟩
  exact Slice.mk.injEq .. ▸ ⟨h.absolute_eq.symm, (h.peekBytes_eq enough).symm⟩

end Views

end BitCursor

/-! ### Reads in parts of a slice -/

open BitCursor

namespace Operation

variable {op : Operation} {w c : BitCursor} {r : Reading}

/-- An operation that knows how much it takes goes forward by that. -/
theorem run_forward (known : op ≠ .rest) (done : op.run w = .ok r) :
    r.cursor = w.skip r.bits ∧ r.bits ≤ w.remainingBits := by
  have bytes {width : Nat} (aligned : w.isAligned) (enough : width ≤ w.remainingBytes) :
      8 * width ≤ w.remainingBits := by
    rw [remainingBits_of_isAligned aligned]
    omega
  cases op with
  | block width =>
    obtain ⟨aligned, enough, rfl⟩ := run_block_eq_ok.mp done
    exact ⟨rfl, bytes aligned enough⟩
  | bits n =>
    obtain ⟨-, enough, rfl⟩ := run_bits_eq_ok.mp done
    exact ⟨rfl, enough⟩
  | varint =>
    cases readScalar_varint_eq_ok.mp done with
    | varint aligned _ enough => exact ⟨rfl, bytes aligned enough.2⟩
  | packetNumber =>
    cases readScalar_packetNumber_eq_ok.mp done with
    | packetNumber aligned _ enough => exact ⟨rfl, bytes aligned enough.2⟩
  | rest => exact absurd rfl known

/-- What is read in a part of a slice is read in the whole. -/
theorem run_of_views (known : op ≠ .rest) {k : Nat} (h : Views k w c) (within : w.Within)
    (done : op.run w = .ok r) : op.run c = .ok ⟨r.value, r.bits, c.skip r.bits⟩ := by
  have left {n : Nat} (enough : n ≤ w.remainingBytes) : n ≤ c.remainingBytes :=
    enough.trans h.remainingBytes_le
  cases op with
  | block width =>
    obtain ⟨aligned, enough, rfl⟩ := run_block_eq_ok.mp done
    exact run_block_eq_ok.mpr
      ⟨h.isAligned_eq ▸ aligned, left enough, by rw [h.peekBytes_eq enough]⟩
  | bits n =>
    obtain ⟨narrow, enough, rfl⟩ := run_bits_eq_ok.mp done
    exact run_bits_eq_ok.mpr
      ⟨narrow, enough.trans h.remainingBits_le, by rw [h.peekBits_eq within enough]⟩
  | varint =>
    cases readScalar_varint_eq_ok.mp done with
    | varint aligned announced enough =>
      rw [← h.prefixedValue_eq enough.2]
      rw [← h.pattern_eq enough.1] at announced
      exact readScalar_varint_eq_ok.mpr
        (.varint (h.isAligned_eq ▸ aligned) announced ⟨left enough.1, left enough.2⟩)
  | packetNumber =>
    cases readScalar_packetNumber_eq_ok.mp done with
    | packetNumber aligned announced enough =>
      rw [← h.prefixedValue_eq enough.2]
      rw [← h.pattern_eq enough.1] at announced
      exact readScalar_packetNumber_eq_ok.mpr
        (.packetNumber (h.isAligned_eq ▸ aligned) announced ⟨left enough.1, left enough.2⟩)
  | rest => exact absurd rfl known

end Operation

namespace Script

/-- **What a script does in a part of a slice, it does in the whole**, and it ends at the same place
of the packet. -/
theorem run_of_views {script : Script} {k : Nat} {w e c : BitCursor} {log : List Mark}
    (h : Views k w c) (within : w.Within) (done : script.run w = .ok (log, e)) :
    e.Within ∧ e.slice = w.slice ∧
      script.run c = .ok (log, { c with position := 8 * k + e.position }) := by
  induction script generalizing w c log with
  | stop =>
    obtain ⟨rfl, rfl⟩ := run_stop_eq_ok.mp done
    exact ⟨within, rfl, run_stop_eq_ok.mpr ⟨rfl, by rw [← h.position]⟩⟩
  | read op known next ih =>
    obtain ⟨r, behind, first, rest, rfl⟩ := run_read_eq_ok.mp done
    obtain ⟨forward, enough⟩ := op.run_forward known first
    rw [forward] at rest
    obtain ⟨within', slice, rest'⟩ := ih r.value (h.skip r.bits) (within.skip enough) rest
    refine ⟨within', slice, run_read_eq_ok.mpr
      ⟨_, behind, op.run_of_views known h within first, rest', ?_⟩⟩
    rw [forward, (h.skip r.bits).absolute_eq, (h.skip r.bits).bitOffset_eq]
  | inside n inner next _ ih =>
    obtain ⟨view, seen, f, behind, opened, first, rest, rfl⟩ := run_inside_eq_ok.mp done
    obtain ⟨within', slice, rest'⟩ := ih seen h within rest
    exact ⟨within', slice,
      run_inside_eq_ok.mpr ⟨view, seen, f, behind, h.window opened, first, rest', rfl⟩⟩

/-- In place, a script comes to what it comes to from a cursor that is kept. -/
theorem on_act {script : Script} {c d : BitCursor} {log : List Mark} (fits : c.Fits)
    (done : script.run c = .ok (log, d)) : script.act.on (.of c) = (.ok log, .of d) := by
  induction script generalizing c d log with
  | stop =>
    obtain ⟨rfl, rfl⟩ := run_stop_eq_ok.mp done
    rfl
  | read op known next ih =>
    obtain ⟨r, behind, first, rest, rfl⟩ := run_read_eq_ok.mp done
    obtain ⟨forward, enough⟩ := op.run_forward known first
    have fits' : r.cursor.Fits := forward ▸ fits.skip enough
    have acted : op.act.on (.of c) = (.ok (r.value, r.bits), .of r.cursor) := by
      rw [op.on_act fits, first]
      rfl
    have bit : (fun m : Cursor => (.ok m.bit : Checked Empty Nat)) (.of r.cursor) =
        .ok r.cursor.bitOffset := rfl
    rw [act, InPlace.on_bind_of_ok acted, InPlace.on_sure_bind (Cursor.absolute_of fits'),
      InPlace.on_sure_bind bit, InPlace.on_bind_of_ok (ih r.value fits' rest)]
    rfl
  | inside n inner next ih ih' =>
    obtain ⟨view, seen, e, behind, opened, first, rest, rfl⟩ := run_inside_eq_ok.mp done
    obtain ⟨-, enough, cut⟩ := window_eq_ok.mp opened
    have length : n ≤ c.remaining.length := c.length_remaining.symm ▸ enough
    have fits' : (start view).Fits := .start (cut ▸ fits.remaining.take length)
    have window : (InPlace.look (·.window n)).on (.of c) = (.ok (.of (start view)), .of c) := by
      rw [InPlace.on_look, Cursor.window_of fits, opened]
      rfl
    have looked : (InPlace.look fun _ => (inner.act.on (.of (start view))).1).on (.of c) =
        (.ok seen, .of c) := by
      rw [InPlace.on_look, ih fits' first]
    rw [act, InPlace.on_bind_of_ok window, InPlace.on_bind_of_ok looked,
      InPlace.on_bind_of_ok (ih' seen fits rest)]
    rfl

end Script

/-! ### Windows -/

/-- The slice with other bytes behind its first `n`. -/
def Slice.ending (s : Slice) (n : Nat) (tail : List UInt8) : Slice :=
  ⟨s.offset, s.bytes.take n ++ tail⟩

theorem Slice.ending_drop (s : Slice) (n : Nat) : s.ending n (s.bytes.drop n) = s := by
  rw [ending, List.take_append_drop]

namespace BitCursor

/-- From the cursor `c`, the script tells `log` and leads to the cursor `d`, and in place it does so
as well, if the words of the machine are wide enough for the offsets. -/
structure Follows (c : BitCursor) (script : Script) (log : List Mark) (d : BitCursor) : Prop where
  run : script.run c = .ok (log, d)
  act : c.Fits → script.act.on (.of c) = (.ok log, .of d)

theorem follows_of_run {c d : BitCursor} {script : Script} {log : List Mark}
    (h : script.run c = .ok (log, d)) : c.Follows script log d :=
  ⟨h, fun fits => Script.on_act fits h⟩

/-- The script leads to `e` in a window of `n` bytes, and to `d` from the cursor `c` that the window
was opened at; it tells the same of either. -/
structure Faithful (c : BitCursor) (n : Nat) (view : Slice) (script : Script) (log : List Mark)
    (e d : BitCursor) : Prop where
  inside : (start view).Follows script log e
  outside : c.Follows script log d
  absolute : d.absolute = e.absolute
  bitOffset : d.bitOffset = e.bitOffset
  slice : d.slice = c.slice
  position_le : d.position ≤ 8 * (c.byteIndex + n)
  /-- Nothing behind the window is read: there may be other bytes, or none. -/
  unread : ∀ tail, Follows { c with slice := c.slice.ending (c.byteIndex + n) tail } script log
    { d with slice := c.slice.ending (c.byteIndex + n) tail }
  /-- What is left then are the bytes up to the end of the window. -/
  rest : e.isAligned → e.Performs .rest
    (.ok ⟨.bytes ((c.slice.bytes.take (c.byteIndex + n)).drop d.byteIndex), 8 * e.remainingBytes,
      { e with position := 8 * n }⟩)

variable {c : BitCursor} {n : Nat} {view : Slice} (opened : c.window n = .ok view)

include opened

theorem bytes_of_window :
    view.bytes = (c.slice.bytes.take (c.byteIndex + n)).drop c.byteIndex ∧ view.length = n := by
  obtain ⟨-, enough, rfl⟩ := window_eq_ok.mp opened
  have length : n ≤ c.remaining.length := c.length_remaining.symm ▸ enough
  refine ⟨?_, Slice.length_take length⟩
  rw [List.drop_take, Nat.add_sub_cancel_left]
  rfl

/-- A window stands where it was opened, whatever comes behind it. -/
theorem views_of_window (tail : List UInt8) :
    Views c.byteIndex (start view) { c with slice := c.slice.ending (c.byteIndex + n) tail } := by
  obtain ⟨bytes, -⟩ := bytes_of_window opened
  obtain ⟨aligned, -, cut⟩ := window_eq_ok.mp opened
  refine ⟨⟨?_, ?_⟩, (byteIndex_of_isAligned aligned).symm⟩
  · rw [start, cut]
    rfl
  · rw [start, bytes, Slice.ending, List.drop_append]
    exact List.prefix_append ..

/-- What a script does in a window, it does where the window was opened. -/
theorem faithful_of_run {script : Script} {log : List Mark} {e : BitCursor}
    (done : script.run (start view) = .ok (log, e)) :
    ∃ d, c.Faithful n view script log e d := by
  obtain ⟨bytes, length⟩ := bytes_of_window opened
  have ended (tail : List UInt8) :=
    Script.run_of_views (views_of_window opened tail) (within_start view) done
  obtain ⟨within, slice, outside⟩ := ended (c.slice.bytes.drop (c.byteIndex + n))
  have views := views_of_window opened (c.slice.bytes.drop (c.byteIndex + n))
  rw [Slice.ending_drop] at outside views
  have views' : Views c.byteIndex e { c with position := 8 * c.byteIndex + e.position } :=
    ⟨slice ▸ views.part, rfl⟩
  have last : e.slice.length = n := by rw [slice, ← length, start]
  refine ⟨{ c with position := 8 * c.byteIndex + e.position }, follows_of_run done,
    follows_of_run outside, views'.absolute_eq, views'.bitOffset_eq, rfl, ?_,
    fun tail => follows_of_run (ended tail).2.2, fun aligned => performs_of_run ?_⟩
  · show 8 * c.byteIndex + e.position ≤ _
    simp only [Within, last] at within
    omega
  · have left : e.remaining.bytes = (c.slice.bytes.take (c.byteIndex + n)).drop
        (c.byteIndex + e.byteIndex) := by
      rw [← List.drop_drop, ← bytes, remaining, slice]
      rfl
    rw [views'.byteIndex_eq, ← left, ← last]
    exact readScalar_rest_eq_ok.mpr (.rest aligned)

/-- **A window is faithful**: a script that succeeds in the window succeeds from where the window
was opened, and it tells the same of either; nothing behind the window is read, and what is left in
the window are the bytes up to its end.  An operation that fails leaves a cursor where it was. -/
theorem window_faithful :
    (c.Fits → (Cursor.of c).window n = .ok (.of (start view))) ∧
    (∀ script log e, script.run (start view) = .ok (log, e) →
      ∃ d, c.Faithful n view script log e d) ∧
    ∀ (op : Operation) (m m' : Cursor) (e : ReadError),
      op.act.on m = (.error (.failed e), m') → m' = m := by
  refine ⟨fun fits => ?_, fun script log e done => faithful_of_run opened done,
    fun op => op.careful_act⟩
  rw [Cursor.window_of fits, opened]
  rfl

omit opened in
/-- A number, then three bits in a window inside of the window, then four bits. -/
theorem window_faithful_nested :
    ∃ log d, (⟨⟨40, [0xff, 0x7b, 0xbd, 0xc5, 9]⟩, 8⟩ : BitCursor).Follows
        (.read .varint (by decide) fun _ => .inside 1 (.read (.bits 3) (by decide) fun _ => .stop)
          fun _ => .read (.bits 4) (by decide) fun _ => .stop) log d ∧
      log = [.read (.uint 0x3bbd) 16 43 0, .window ⟨43, [0xc5]⟩, .read (.uint 6) 3 43 3,
        .read (.uint 12) 4 43 4] ∧ d.absolute = 43 := by
  have opened : window ⟨⟨40, [0xff, 0x7b, 0xbd, 0xc5, 9]⟩, 8⟩ 3 = .ok ⟨41, [0x7b, 0xbd, 0xc5]⟩ := rfl
  obtain ⟨d, faithful⟩ := (window_faithful opened).2.1
    (.read .varint (by decide) fun _ => .inside 1 (.read (.bits 3) (by decide) fun _ => .stop)
      fun _ => .read (.bits 4) (by decide) fun _ => .stop) _ _ rfl
  exact ⟨_, d, faithful.outside, rfl, faithful.absolute⟩

end BitCursor

end WireGrammar
