import WireGrammar.Proofs.Machine.Dissect
import WireGrammar.Proofs.Termination

/-!
# Fields on the machine

If the machine decodes targets as it is done without it, it decodes fields as it is done without it.
A list is gone over by a cursor whose place in the window is where the rest of the list starts, so
it moves on by bytes that are there, and as often as it moves on, it comes closer to the end.

* `Realizes`: targets are decoded alike, and what is decoded lies in its slice;
* `walkChain_of`, `walkList_of`: so are the structures in the place of a field;
* `parseField_of`: and so are fields.
-/

namespace WireGrammar

/-! ### Cursors that go on -/

namespace BitCursor

variable {c : BitCursor}

theorem isAligned_advance (aligned : c.isAligned) (n : Nat) : (c.advance n).isAligned := by
  simp only [isAligned, bitOffset, advance, beq_iff_eq] at *
  omega

theorem Fits.advance (h : c.Fits) (aligned : c.isAligned) (n : Nat) : (c.advance n).Fits :=
  ⟨within_advance aligned n, h.slice⟩

/-- A target is decoded in a window that is far from the largest word. -/
theorem Fits.view (h : c.Fits) {a : FieldAttributes} {window : Slice}
    (viewed : a.view c = .ok window) : window.Fits := by
  obtain ⟨-, offset, front⟩ := FieldAttributes.view_eq_ok viewed
  have short := Slice.length_le_of_prefix front
  have index := Machine.Cursor.byteIndex_le h.within
  have fits := h.slice
  simp only [Slice.Fits, offset, absolute, remainingBytes] at *
  omega

theorem advance_advance (c : BitCursor) (m n : Nat) :
    (c.advance m).advance n = c.advance (m + n) := by
  simp only [BitCursor.advance, byteIndex, bitOffset, BitCursor.mk.injEq, true_and]
  omega

theorem advance_zero (h : c.Within) : c.advance 0 = c := by
  simp only [Within, BitCursor.advance, byteIndex, bitOffset] at *
  rw [BitCursor.mk.injEq]
  refine ⟨rfl, ?_⟩
  show 8 * min (c.position / 8 + 0) c.slice.length + c.position % 8 = c.position
  omega

theorem byteIndex_advance {n : Nat} (h : c.Within) (enough : n ≤ c.remainingBytes) :
    (c.advance n).byteIndex = c.byteIndex + n := by
  simp only [Within, BitCursor.advance, remainingBytes, byteIndex, bitOffset] at *
  omega

theorem remainingBytes_advance {n : Nat} (h : c.Within) (enough : n ≤ c.remainingBytes) :
    (c.advance n).remainingBytes = c.remainingBytes - n := by
  have index := byteIndex_advance h enough
  simp only [remainingBytes, index, slice_advance]
  omega

theorem remaining_advance {n : Nat} (h : c.Within) (enough : n ≤ c.remainingBytes) :
    (c.advance n).remaining = c.remaining.drop n := by
  rw [remaining, byteIndex_advance h enough]
  simp only [remaining, Slice.drop, slice_advance, List.drop_drop, Nat.add_assoc]

theorem isExhausted_iff : c.isExhausted ↔ c.remainingBytes = 0 := by
  simp only [isExhausted, remainingBytes, decide_eq_true_eq]
  omega

theorem isEmpty_remaining (c : BitCursor) : c.remaining.bytes.isEmpty = c.isExhausted := by
  rw [Bool.eq_iff_iff, isExhausted_iff, ← length_remaining, List.isEmpty_iff,
    ← List.length_eq_zero_iff]
  rfl

end BitCursor

/-- A field leaves a cursor that is far from the largest word. -/
theorem FieldTurn.fits {o : Options} {parse : TargetParser} {f : FieldDescriptor} {p q : Progress}
    (h : FieldTurn o parse f p q) (fits : p.cursor.Fits) : q.cursor.Fits := by
  refine ⟨?_, h.slice_eq ▸ fits.slice⟩
  cases h with
  | idle => exact fits.within
  | scalar h =>
    rw [Progress.cursor_requeueIf]
    exact (BitCursor.readScalar_eq_ok.mp h.read).within fits.within
  | target h =>
    rw [Progress.cursor_requeueIf]
    exact BitCursor.within_advance (FieldAttributes.view_eq_ok h.viewed).1 _

/-- A row of structures leaves the end of the slice it starts in. -/
theorem Row.rest_eq_drop {input rest : Slice} {ctx ctx' : StreamContext}
    {ss : List DecodedStructure}
    (row : Row (fun input _ r => r.consumed ≤ input.length) input ctx ss rest ctx') :
    rest.length ≤ input.length ∧ rest = input.drop (input.length - rest.length) := by
  have inside := row.inside
  obtain ⟨n, rfl⟩ := row.rest_eq
  simp only [Slice.Inside, Slice.offset_drop, Slice.length_drop] at inside
  have taken : input.length - (input.length - n) = n := by omega
  rw [Slice.length_drop, taken]
  exact ⟨Nat.sub_le .., rfl⟩

namespace Machine

variable {o : Options} {run : TargetParser} {parse : WireGrammar.TargetParser}

/-! ### Walks -/

/-- The machine decodes targets as it is done without it, and what is decoded lies in its slice. -/
structure Realizes (run : TargetParser) (parse : WireGrammar.TargetParser) : Prop where
  same : ∀ {name input ctx}, input.Fits → run name input ctx = Checked.of (parse name input ctx)
  consumed : ∀ name input ctx r, parse name input ctx = .ok r → r.consumed ≤ input.length
  ordered : ∀ {name input ctx r}, parse name input ctx = .ok r → r.decoded.start ≤ r.decoded.stop

/-- The walk behind a chain that starts at the cursor `v`, after other structures. -/
def Walk.of (v : BitCursor) (before : List DecodedStructure) (c : Chain) : Walk :=
  ⟨.of (v.advance (v.remainingBytes - c.rest.length)), before ++ c.structures, c.context⟩

/-- A walk goes on where the one before it stops. -/
theorem Walk.of_advance {v : BitCursor} (h : v.Within) {n : Nat} (enough : n ≤ v.remainingBytes)
    {c : Chain} (inside : c.rest.length ≤ v.remainingBytes - n)
    (before structures : List DecodedStructure) :
    Walk.of (v.advance n) (before ++ structures) c = Walk.of v before (c.after structures) := by
  have bytes : n + (v.remainingBytes - n - c.rest.length) = v.remainingBytes - c.rest.length := by
    omega
  simp only [Walk.of, Chain.after, BitCursor.remainingBytes_advance h enough,
    BitCursor.advance_advance, bytes, List.append_assoc]

section Step

variable (real : Realizes run parse) {v : BitCursor} (fits : v.Fits) (aligned : v.isAligned)
  {name : String} {before : List DecodedStructure} {ctx : StreamContext} {r : Resolved}

include real

/-- What is decoded at a cursor lies in the bytes left there. -/
theorem Realizes.enough (decoded : parse name v.remaining ctx = .ok r) :
    r.consumed ≤ v.remainingBytes := by
  rw [← v.length_remaining]
  exact real.consumed _ _ _ _ decoded

include fits aligned

/-- One structure is gone over as it is decoded. -/
theorem Walk.step_of :
    Walk.step run name ⟨.of v, before, ctx⟩ =
      Checked.of ((parse name v.remaining ctx).map fun r =>
        (r, ⟨.of (v.advance r.consumed), before ++ [r.decoded], r.context⟩)) := by
  rw [step, Cursor.remaining_of fits.within, Checked.ok_bind, Cursor.absolute_of fits,
    Checked.ok_bind, Checked.of_map]
  show (run name v.remaining ctx >>= _) = _
  rw [real.same fits.remaining]
  refine Checked.of_bind_congr fun r decoded => ?_
  rw [sub_eq (real.ordered decoded), Checked.ok_bind,
    Cursor.advance_of fits aligned (real.enough decoded)]
  rfl

variable (left : v.isExhausted = false)

include left

theorem walkChain_of_error {failure : Failure}
    (failed : parse name v.remaining ctx = .error failure) :
    walkChain run name ⟨.of v, before, ctx⟩ = .error (.failed failure) := by
  rw [walkChain, if_neg (by simp [left]), Walk.step_of real fits aligned, failed]
  rfl

/-- The walk ends where the chain does: the next structure is not asked for, or no bytes are left
to decode it in. -/
theorem walkChain_of_stop (decoded : parse name v.remaining ctx = .ok r)
    (stop : r.continuation? (v.remaining.drop r.consumed) = none) :
    walkChain run name ⟨.of v, before, ctx⟩ =
      .ok ⟨.of (v.advance r.consumed), before ++ [r.decoded], r.context⟩ := by
  rw [walkChain, if_neg (by simp [left]), Walk.step_of real fits aligned, decoded]
  simp only [Except.map, Checked.of_ok, Checked.ok_bind]
  by_cases none : r.consumed = 0
  · rw [if_pos none]
    rfl
  · rw [if_neg none]
    cases following : r.next with
    | none => rfl
    | some next =>
      have enough := real.enough decoded
      have fewer := BitCursor.remainingBytes_advance fits.within enough
      have closer : (v.advance r.consumed).remainingBytes < v.remainingBytes := by omega
      have ended : (v.advance r.consumed).isExhausted = true := by
        rw [← BitCursor.isEmpty_remaining, BitCursor.remaining_advance fits.within enough,
          List.isEmpty_iff]
        by_contra some
        rw [Resolved.continuation?, if_neg (by simp [none, some]), following] at stop
        cases stop
      dsimp only
      rw [dif_pos (by simpa using closer), walkChain, if_pos (by simpa using ended)]
      rfl

theorem walkChain_of_go (decoded : parse name v.remaining ctx = .ok r) {next : String}
    (go : r.continuation? (v.remaining.drop r.consumed) = some next) :
    walkChain run name ⟨.of v, before, ctx⟩ =
      walkChain run next ⟨.of (v.advance r.consumed), before ++ [r.decoded], r.context⟩ := by
  obtain ⟨some_, few⟩ := Resolved.lt_of_continuation? go
  have fewer := BitCursor.remainingBytes_advance fits.within (real.enough decoded)
  rw [BitCursor.length_remaining] at few
  have closer : (v.advance r.consumed).remainingBytes < v.remainingBytes := by omega
  rw [walkChain, if_neg (by simp [left]), Walk.step_of real fits aligned, decoded]
  simp only [Except.map, Checked.of_ok, Checked.ok_bind]
  rw [if_neg (Nat.ne_of_gt some_), Resolved.next_of_continuation? go]
  dsimp only
  rw [dif_pos (by simpa using closer)]

end Step

/-- The structures of a chain are gone over as they are decoded. -/
theorem walkChain_of (real : Realizes run parse) {v : BitCursor} (fits : v.Fits)
    (aligned : v.isAligned) (left : v.isExhausted = false) (name : String)
    (before : List DecodedStructure) (ctx : StreamContext) :
    walkChain run name ⟨.of v, before, ctx⟩ =
      Checked.of ((chain parse name v.remaining ctx).map (Walk.of v before)) := by
  obtain ⟨n, bytes⟩ : ∃ n, v.remainingBytes = n := ⟨_, rfl⟩
  induction n using Nat.strongRecOn generalizing v name before ctx with
  | _ n ih =>
    cases decoded : parse name v.remaining ctx with
    | error failure =>
      rw [walkChain_of_error real fits aligned left decoded, chain_of_error decoded]
      rfl
    | ok r =>
      have enough := real.enough decoded
      cases go : r.continuation? (v.remaining.drop r.consumed) with
      | none =>
        have bytes : v.remainingBytes - (v.remainingBytes - r.consumed) = r.consumed := by omega
        rw [walkChain_of_stop real fits aligned left decoded go, chain_of_stop decoded go]
        simp only [Except.map, Walk.of, Slice.length_drop, BitCursor.length_remaining, bytes,
          Checked.of_ok]
      | some next =>
        obtain ⟨some_, few⟩ := Resolved.lt_of_continuation? go
        rw [BitCursor.length_remaining] at few
        have fewer := BitCursor.remainingBytes_advance fits.within enough
        have left' : (v.advance r.consumed).isExhausted = false := by
          rw [← Bool.not_eq_true, BitCursor.isExhausted_iff]
          omega
        rw [walkChain_of_go real fits aligned left decoded go,
          ih _ (by omega) (fits.advance aligned _) (BitCursor.isAligned_advance aligned _) left' _
            _ _ rfl, BitCursor.remaining_advance fits.within enough, chain_of_go decoded go]
        cases rest : chain parse next (v.remaining.drop r.consumed) r.context with
        | error failure => rfl
        | ok c =>
          have inside := (Row.of_chain real.consumed rest).rest_eq_drop.1
          rw [Slice.length_drop, BitCursor.length_remaining] at inside
          exact congrArg Except.ok (Walk.of_advance fits.within enough inside before _)

/-- The chains left after `done` ones. -/
def remaining (done : Nat) : Repetition → Repetition
  | .times n => .times (n - done)
  | .untilExhausted => .untilExhausted

theorem isReached_eq (done : Nat) (repetition : Repetition) :
    isReached done repetition = (remaining done repetition).isDone := by
  cases repetition with
  | untilExhausted => rfl
  | times n =>
    rw [isReached, remaining, Repetition.isDone, Bool.eq_iff_iff, decide_eq_true_eq, beq_iff_eq]
    omega

theorem remaining_succ (done : Nat) (repetition : Repetition) :
    remaining (done + 1) repetition = (remaining done repetition).pred := by
  cases repetition <;> rfl

/-- The chains of a list are gone over as they are decoded.  There are no more of them than bytes,
so they can be counted. -/
theorem walkList_of (real : Realizes run parse) {v : BitCursor} (fits : v.Fits)
    (aligned : v.isAligned) (repetition : Repetition) (name : String) {done : Nat}
    (few : done ≤ v.byteIndex) (before : List DecodedStructure) (ctx : StreamContext) :
    walkList run repetition name done ⟨.of v, before, ctx⟩ =
      Checked.of ((chains parse (remaining done repetition) name v.remaining ctx).map
        (Walk.of v before)) := by
  obtain ⟨n, bytes⟩ : ∃ n, v.remainingBytes = n := ⟨_, rfl⟩
  induction n using Nat.strongRecOn generalizing v done before ctx with
  | _ n ih =>
    have index := Cursor.byteIndex_le fits.within
    have small := fits.slice
    simp only [Slice.Fits] at small
    have asked : (isReached done repetition || (Cursor.of v).isExhausted) =
        ((remaining done repetition).isDone || v.remaining.bytes.isEmpty) := by
      rw [isReached_eq, BitCursor.isEmpty_remaining, Cursor.isExhausted_of]
    have counted : add done 1 = (.ok (done + 1) : Checked Failure Nat) :=
      add_eq (by rw [size_word]; omega)
    rw [walkList, asked]
    by_cases ended : ((remaining done repetition).isDone || v.remaining.bytes.isEmpty) = true
    · rw [if_pos ended, chains_of_done ended]
      simp only [Except.map, Walk.of, BitCursor.length_remaining, Nat.sub_self,
        BitCursor.advance_zero fits.within, List.append_nil]
      rfl
    · have left : v.isExhausted = false := by
        rw [← BitCursor.isEmpty_remaining]
        simp only [Bool.or_eq_true, not_or, Bool.not_eq_true] at ended
        exact ended.2
      rw [if_neg ended, walkChain_of real fits aligned left]
      cases decoded : chain parse name v.remaining ctx with
      | error failure =>
        rw [chains_of_error ended decoded]
        rfl
      | ok c =>
        obtain ⟨inside, rest⟩ := (Row.of_chain real.consumed decoded).rest_eq_drop
        rw [BitCursor.length_remaining] at inside rest
        have enough : v.remainingBytes - c.rest.length ≤ v.remainingBytes := Nat.sub_le ..
        have pos := BitCursor.byteIndex_advance fits.within enough
        have fewer := BitCursor.remainingBytes_advance fits.within enough
        simp only [Except.map, Checked.of_ok, Checked.ok_bind, counted]
        by_cases still : c.rest.length < v.remaining.length
        · rw [chains_of_forward ended decoded still]
          rw [BitCursor.length_remaining] at still
          have further : (Walk.of v before c).cursor.pos ≠ (Cursor.of v).pos := by
            show (v.advance _).byteIndex ≠ v.byteIndex
            omega
          have closer : (v.advance (v.remainingBytes - c.rest.length)).remainingBytes <
              v.remainingBytes := by omega
          rw [if_neg further, dif_pos (show (Walk.of v before c).cursor.remainingBytes <
            (Cursor.of v).remainingBytes from closer), Walk.of,
            ih _ (bytes ▸ closer) (fits.advance aligned _) (BitCursor.isAligned_advance aligned _)
              (by omega) _ _ rfl, BitCursor.remaining_advance fits.within enough, ← rest,
            remaining_succ]
          cases others : chains parse (remaining done repetition).pred name c.rest c.context with
          | error failure => rfl
          | ok d =>
            have short := (Row.of_chains real.consumed others).rest_eq_drop.1
            exact congrArg Except.ok (Walk.of_advance fits.within enough (by omega) before _)
        · rw [chains_of_stuck ended decoded still]
          rw [BitCursor.length_remaining] at still
          have same : (Walk.of v before c).cursor.pos = (Cursor.of v).pos := by
            show (v.advance _).byteIndex = v.byteIndex
            omega
          rw [if_pos same]
          rfl

theorem remaining_zero (repetition : Repetition) : remaining 0 repetition = repetition := by
  cases repetition <;> rfl

/-- The structures in a window are gone over as they are decoded. -/
theorem walkList_start (real : Realizes run parse) {window : Slice} (fits : window.Fits)
    (repetition : Repetition) (name : String) (ctx : StreamContext) :
    walkList run repetition name 0 ⟨.of (.start window), [], ctx⟩ =
      Checked.of ((chains parse repetition name window ctx).map (Walk.of (.start window) [])) := by
  have walked := walkList_of real (.start fits) rfl repetition name (Nat.zero_le _) [] ctx
  rwa [remaining_zero, BitCursor.remaining_start] at walked

/-- The bytes gone over in a window are those that are not left of it. -/
theorem Walk.pos_start (window : Slice) (c : Chain) :
    (Walk.of (.start window) [] c).cursor.pos = window.length - c.rest.length := by
  simp only [Walk.of, Cursor.of, BitCursor.byteIndex, BitCursor.advance, BitCursor.bitOffset,
    BitCursor.remainingBytes, BitCursor.start]
  omega

/-! ### Fields -/

namespace Progress

/-- The structure so far, with the parts of its cursor. -/
def of (p : WireGrammar.Progress) : Progress := ⟨.of p.cursor, p.queue, p.fields, p.memory⟩

@[simp] theorem cursor_of (p : WireGrammar.Progress) : (of p).cursor = Cursor.of p.cursor := rfl

@[simp] theorem queue_of (p : WireGrammar.Progress) : (of p).queue = p.queue := rfl

@[simp] theorem fields_of (p : WireGrammar.Progress) : (of p).fields = p.fields := rfl

@[simp] theorem memory_of (p : WireGrammar.Progress) : (of p).memory = p.memory := rfl

@[simp] theorem context_of (p : WireGrammar.Progress) : (of p).context = p.context := rfl

theorem work_of (p : WireGrammar.Progress) : (of p).work = p.work := by
  simp only [work, WireGrammar.Progress.work, of, Cursor.of, Cursor.remainingBytes,
    BitCursor.remainingBits, Slice.length, BitCursor.byteIndex, BitCursor.bitOffset]
  omega

theorem requeueIf_of {p : WireGrammar.Progress} (fits : p.cursor.Fits) (f : FieldDescriptor)
    (before : BitCursor) {enough : Bool} {asked : Cursor → Checked Failure Bool}
    (left : asked (.of p.cursor) = .ok enough) :
    (of p).requeueIf f before.position asked = .ok (of (p.requeueIf f before enough)) := by
  have after : (of p).cursor.bitPosition = (.ok p.cursor.position : Checked Failure Nat) :=
    Cursor.bitPosition_of fits
  simp only [requeueIf, WireGrammar.Progress.requeueIf, after, Checked.ok_bind]
  by_cases repeated : f.repeated = true
  · rw [if_pos repeated]
    by_cases further : before.position < p.cursor.position
    · rw [if_pos further, cursor_of, left, Checked.ok_bind, repeated, decide_eq_true further]
      cases enough <;> rfl
    · rw [if_neg further, if_neg (by simp [further])]
      rfl
  · rw [if_neg repeated, if_neg (by simp [repeated])]
    rfl

end Progress

namespace Cursor

variable {ε : Type} {c : BitCursor}

theorem scalarStop_of (h : c.Fits) {length : Length} {r : WireGrammar.Reading}
    (read : c.readScalar length = .ok r) :
    (of c).scalarStop c.absolute r.bits =
      (.ok (WireGrammar.scalarStop c r.bits) : Checked ε Nat) := by
  have reads := BitCursor.readScalar_eq_ok.mp read
  have within := reads.within h.within
  have fits := h.slice
  have position := c.position_eq
  rw [reads.cursor_eq h.within] at within
  simp only [BitCursor.Within, BitCursor.slice_skip, BitCursor.position_skip, Slice.Fits] at *
  unfold scalarStop WireGrammar.scalarStop
  split
  · rfl
  · have last : add (of c).bit r.bits = (.ok (c.bitOffset + r.bits) : Checked ε Nat) :=
      add_eq (show c.bitOffset + r.bits < _ by rw [size_word]; omega)
    have rounded : add (c.bitOffset + r.bits) 7 =
        (.ok (c.bitOffset + r.bits + 7) : Checked ε Nat) := add_eq (by rw [size_word]; omega)
    have stop : add c.absolute ((c.bitOffset + r.bits + 7) / 8) =
        (.ok (c.absolute + (c.bitOffset + r.bits + 7) / 8) : Checked ε Nat) :=
      add_eq (by rw [size_word, BitCursor.absolute]; omega)
    rw [last, Checked.ok_bind, rounded, Checked.ok_bind, stop]

theorem enoughLeft_of (h : c.Fits) (length : Length) :
    (of c).enoughLeft length = (.ok (WireGrammar.enoughLeft c length) : Checked ε Bool) := by
  cases length with
  | bits n =>
    rw [enoughLeft, remainingBits_of h]
    rfl
  | _ => rfl

end Cursor

theorem absolute_le_scalarStop (c : BitCursor) (bits : Nat) : c.absolute ≤ scalarStop c bits := by
  unfold scalarStop
  split <;> omega

theorem parseScalar_of {p : WireGrammar.Progress} (fits : p.cursor.Fits) (f : FieldDescriptor)
    (a : FieldAttributes) (length : Length) :
    parseScalar o f a length p.cursor.position (.of p) =
      Checked.of ((WireGrammar.parseScalar o f a length p).map Progress.of) := by
  have start : (Cursor.of p.cursor).absolute = (.ok p.cursor.absolute : Checked Failure Nat) :=
    Cursor.absolute_of fits
  rw [parseScalar, WireGrammar.parseScalar, Progress.cursor_of, start, Checked.ok_bind,
    Cursor.readScalar_of fits, Checked.mapFailure_of]
  cases read : p.cursor.readScalar length with
  | error cause => rfl
  | ok r =>
    have stop : (Cursor.of p.cursor).scalarStop p.cursor.absolute r.bits =
        (.ok (scalarStop p.cursor r.bits) : Checked Failure Nat) := Cursor.scalarStop_of fits read
    have width : sub (scalarStop p.cursor r.bits) p.cursor.absolute =
        (.ok (scalarStop p.cursor r.bits - p.cursor.absolute) : Checked Failure Nat) :=
      sub_eq (absolute_le_scalarStop p.cursor r.bits)
    simp only [Except.map, Except.mapError, Checked.of_ok, Checked.ok_bind, Reading.bits_of,
      Reading.value_of, Reading.cursor_of, stop, width]
    cases a.rejects? r.value with
    | some spec => rfl
    | none =>
      dsimp only
      cases fired : fireAll o f.name r.value (a.triggers.getD []) p.memory with
      | error failure =>
        rw [Progress.memory_of, fired]
        rfl
      | ok memory =>
        have fits' : r.cursor.Fits :=
          ⟨(BitCursor.readScalar_eq_ok.mp read).within fits.within,
            (BitCursor.readScalar_forward read).1 ▸ fits.slice⟩
        rw [Progress.memory_of, fired, Checked.of_ok, Checked.ok_bind]
        exact Progress.requeueIf_of (p := p.afterScalar o f.name a r memory) fits' f p.cursor
          (Cursor.enoughLeft_of fits' length)

theorem parseTargetField_of (real : Realizes run parse) {p : WireGrammar.Progress}
    (fits : p.cursor.Fits) (f : FieldDescriptor) (a : FieldAttributes) (target : String) :
    parseTargetField run f a target p.cursor.position (.of p) =
      Checked.of ((WireGrammar.parseTargetField parse f a target p).map Progress.of) := by
  rw [parseTargetField, WireGrammar.parseTargetField, Progress.cursor_of, view_of fits,
    Checked.mapFailure_of]
  cases viewed : a.view p.cursor with
  | error cause => rfl
  | ok window =>
    obtain ⟨aligned, -, front⟩ := FieldAttributes.view_eq_ok viewed
    have short := Slice.length_le_of_prefix front
    simp only [Except.map, Except.mapError, Checked.of_ok, Checked.ok_bind, Progress.memory_of,
      Progress.context_of, walkList_start real (fits.view viewed)]
    cases decoded : chains parse (a.repetition (p.memory.dynamicLength f)) target window
      p.context with
    | error failure => rfl
    | ok c =>
      have moved : (Cursor.of p.cursor).advance (window.length - c.rest.length) =
          (.ok (.of (p.cursor.advance (window.length - c.rest.length))) : Checked Failure Cursor) :=
        Cursor.advance_of fits aligned (by omega)
      have left (d : BitCursor) : (pure (decide (0 < (Cursor.of d).remainingBytes)) :
          Checked Failure Bool) = .ok (decide (0 < d.remainingBytes)) := rfl
      simp only [Checked.of_ok, Checked.ok_bind, Walk.pos_start, moved]
      exact Progress.requeueIf_of (p := p.afterChain f.name window c)
        (fits.advance aligned _) f p.cursor (left _)

/-- A field is decoded as it is without the machine. -/
theorem parseField_of (real : Realizes run parse) {p : WireGrammar.Progress}
    (fits : p.cursor.Fits) (f : FieldDescriptor) :
    parseField o run f (.of p) =
      Checked.of ((WireGrammar.parseField o parse f p).map Progress.of) := by
  have before : (Cursor.of p.cursor).bitPosition = (.ok p.cursor.position : Checked Failure Nat) :=
    Cursor.bitPosition_of fits
  unfold parseField WireGrammar.parseField parseWith WireGrammar.parseWith
  rw [Progress.memory_of, Progress.fields_of, Progress.cursor_of, before, Checked.ok_bind]
  by_cases present : (p.memory.effective f).isPresent p.fields = true
  · rw [if_pos present, if_pos present]
    cases (p.memory.effective f).parse with
    | some target => exact parseTargetField_of real fits f _ target
    | none =>
      cases (p.memory.effective f).length with
      | some length => exact parseScalar_of fits f _ length
      | none => rfl
  · rw [if_neg present, if_neg present]
    rfl

theorem parseField_of_ok (real : Realizes run parse) {p q : WireGrammar.Progress}
    {f : FieldDescriptor} (ok : WireGrammar.parseField o parse f p = .ok q)
    (fits : p.cursor.Fits) :
    parseField o run f (.of p) = .ok (.of q) := by
  rw [parseField_of real fits, ok]
  rfl

theorem parseField_of_error (real : Realizes run parse) {p : WireGrammar.Progress}
    {f : FieldDescriptor} {failure : Failure}
    (failed : WireGrammar.parseField o parse f p = .error failure) (fits : p.cursor.Fits) :
    parseField o run f (.of p) = .error (.failed failure) := by
  rw [parseField_of real fits, failed]
  rfl

end Machine

end WireGrammar
