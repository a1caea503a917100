import WireGrammar.Proofs.Decoding.Bits
import WireGrammar.Proofs.Decoding.Entry

/-!
# Scalars are faithful to their bits

A scalar is read in a slice of a slice, with attributes that earlier fields and packets may have
changed, from a cursor that may stand inside of a byte, and its place is worked out apart from its
value.  All of this can be checked against the buffer.

* `Query.Reaches.part`: structures are entered in parts of the buffer;
* `FieldTry.Shows`: a field is what the buffer has at the bit where a turn stands;
* `leaf_of_parseStructure`: every scalar of a decoded structure is of this kind, however deep.
-/

namespace WireGrammar

variable {g : Grammar} {o : Options} {q : Query} {e e' : Entry}

/-! ### Parts of the buffer -/

/-- A part of a part is a part. -/
theorem Entry.part_of_inner {k : Nat} {whole : Slice} (part : e.input.PartAt k whole)
    (inside : e' ∈ e.inner g o) : ∃ k', e'.input.PartAt k' whole := by
  obtain ⟨-, t, turn, call, made, s, -, rfl⟩ := mem_inner inside
  obtain ⟨name, view, -, viewed, made⟩ := viewed_of_mem_fieldCalls made
  have slice := (within_of_turn t turn).1
  have viewPart := (slice ▸ part).view viewed
  -- The structures of a list follow each other in the view.
  refine listCalls_invariant (P := fun input _ => ∃ k', input.PartAt k' whole) ?_
    ⟨_, viewPart⟩ call made
  intro _ _ _ r _ ⟨k', part'⟩
  exact ⟨k' + r.consumed, part'.drop r.consumed⟩

/-- Wherever a structure is entered, it is entered in a part of the bytes that are asked about. -/
theorem Query.Reaches.part (reached : q.Reaches g o e) : ∃ k, e.input.PartAt k q.input := by
  induction reached with
  | outermost mem =>
    refine outermost_invariant (P := fun input _ => ∃ k, input.PartAt k q.input) ?_
      ⟨0, .refl q.input⟩ mem
    intro _ _ _ r _ ⟨k, part⟩
    exact ⟨k + r.consumed, part.drop r.consumed⟩
  | inner _ mem ih =>
    obtain ⟨k, part⟩ := ih
    exact Entry.part_of_inner part mem

/-! ### Scalars in the buffer -/

namespace FieldTry

/-- The turn stands at this bit of a buffer, if its slice starts `k` bytes behind the start. -/
def bit (t : FieldTry) (k : Nat) : Nat := 8 * k + t.progress.cursor.position

/-- The field is what the buffer has at the bit where the turn stands: the scalar of the length with
which the turn decodes its field, shown in the format of the turn, from the byte of that bit up to
the boundary at or behind its last one.  The bytes before `stop` can be seen. -/
def Shows (t : FieldTry) (buffer : Slice) (k stop : Nat) (l : DecodedField) : Prop :=
  ∃ length raw width, t.attributes.length = some length ∧
    ScalarAt buffer.bytes stop (t.bit k) length raw width ∧ t.bit k + width ≤ 8 * stop ∧
    l = .scalar t.field.name (t.attributes.shown raw) (buffer.offset + t.bit k / 8)
      (buffer.offset + if width = 0 then t.bit k / 8 else (t.bit k + width + 7) / 8)

variable {t : FieldTry} {buffer : Slice} {k : Nat} {length : Length} {r : Reading} {m : Memory}

theorem absolute_eq (part : t.progress.cursor.slice.PartAt k buffer) :
    t.progress.cursor.absolute = buffer.offset + t.bit k / 8 := by
  rw [BitCursor.absolute, part.offset, BitCursor.byteIndex, bit]
  omega

/-- The end of a scalar is worked out from the bits of the current byte, but is the boundary behind
its last bit. -/
theorem scalarStop_eq (part : t.progress.cursor.slice.PartAt k buffer) (bits : Nat) :
    scalarStop t.progress.cursor bits =
      buffer.offset + if bits = 0 then t.bit k / 8 else (t.bit k + bits + 7) / 8 := by
  have start := absolute_eq part
  rw [scalarStop]
  split
  · exact start
  · rw [start, BitCursor.bitOffset, bit]
    omega

/-- What a turn decodes in a part of the buffer is in the buffer. -/
theorem Decodes.shows (h : t.Decodes o length r m) (within : t.progress.cursor.Within)
    (part : t.progress.cursor.slice.PartAt k buffer) :
    t.Shows buffer k (k + t.progress.cursor.slice.length)
      (scalarField t.field t.progress.cursor t.progress.memory r) := by
  obtain ⟨there, inside⟩ := (BitCursor.readScalar_eq_ok.mp h.read).scalarAt within part
  refine ⟨length, r.value, r.bits, h.sized, there, inside, ?_⟩
  rw [scalarField, absolute_eq part, scalarStop_eq part]
  rfl

end FieldTry

/-- **Every scalar within an entry shows bits of the buffer.** -/
theorem Query.Reaches.shows_of_leaf (reached : q.Reaches g o e) {out : StructureOutcome}
    (h : e.outcome g o = .ok out) {l : DecodedField} (mem : l ∈ leavesOfFields out.fields) :
    ∃ e', q.Reaches g o e' ∧ ∃ t ∈ e'.turns g o, (∃ length r m, t.Decodes o length r m ∧
        l = scalarField t.field t.progress.cursor t.progress.memory r) ∧
      ∃ k, e'.input.PartAt k q.input ∧
        k + e'.input.length ≤ q.input.length ∧ t.Shows q.input k (k + e'.input.length) l := by
  obtain ⟨e', reached', t, turn, length, r, m, decodes, rfl⟩ := reached.turn_of_leaf h mem
  obtain ⟨slice, left, within⟩ := Entry.within_of_turn t turn
  obtain ⟨k, part⟩ := reached'.part
  have filled : e'.input.bytes ≠ [] := by
    intro none
    rw [BitCursor.isExhausted_eq_false_iff, slice, Slice.length, none] at left
    exact Nat.not_lt_zero _ left
  refine ⟨e', reached', t, turn, ⟨length, r, m, decodes, rfl⟩, k, part, part.length_le filled, ?_⟩
  have shows := decodes.shows within (slice ▸ part)
  rwa [slice] at shows

/-! ### Decoded structures -/

section Decoded

variable {name : String} {input : Slice} {ctx : StreamContext} {out : StructureOutcome}

theorem entry_of_parseStructure (h : parseStructure g o name input ctx = .ok out) :
    ∃ e, (Query.structureNamed name input ctx).Reaches g o e ∧ e.outcome g o = .ok out := by
  unfold parseStructure at h
  split at h
  · next s found =>
    refine ⟨.outermost g s input ctx, .outermost ?_, h⟩
    exact List.mem_map_of_mem (Option.mem_toList.mpr found)
  · cases h

/-- **Every scalar of a decoded structure is faithful to its bits**, at any depth.  It was decoded
by the turn of a field in a structure that was entered in a part of the buffer: the turn read it,
accepted it and fired its triggers.  And it is what the buffer has at the bit where the turn stood,
of the length that was in force then. -/
theorem leaf_of_parseStructure (h : parseStructure g o name input ctx = .ok out) :
    ∀ l ∈ leavesOfFields out.fields,
      ∃ e, (Query.structureNamed name input ctx).Reaches g o e ∧ ∃ t ∈ e.turns g o,
        (∃ length r m, t.Decodes o length r m ∧
          l = scalarField t.field t.progress.cursor t.progress.memory r) ∧
        ∃ k, e.input.PartAt k input ∧ k + e.input.length ≤ input.length ∧
          t.Shows input k (k + e.input.length) l := by
  intro l mem
  obtain ⟨e, reached, entered⟩ := entry_of_parseStructure h
  exact reached.shows_of_leaf entered mem

end Decoded

/-- A structure with a byte across a byte boundary, and another structure in a window of two
bytes. -/
def windowing : Grammar where
  roots := ["S"]
  structures := [
    ⟨"S", [
      .field ⟨"hi", { length := some (.bits 4) }, false⟩,
      .field ⟨"mid", { length := some (.bits 8), format := some .hex }, false⟩,
      .field ⟨"lo", { length := some (.bits 4) }, false⟩,
      .field ⟨"body", { parse := some "T", byteLength := some 2 }, false⟩]⟩,
    ⟨"T", [
      .field ⟨"kind", { length := some .varint }, false⟩,
      .field ⟨"rest", { length := some .rest }, false⟩]⟩]

/-- A buffer for it, which starts at the offset 7 and goes on behind the window. -/
def windowingSlice : Slice := ⟨7, [0xab, 0xcd, 0x25, 0xff, 0xee]⟩

/-- The scalars of both structures. -/
theorem leaf_of_parseStructure_windowing :
    ∃ out, parseStructure windowing {} "S" windowingSlice .empty = .ok out ∧
      ((leavesOfFields out.fields).map fun l => (l.name, l.value?, l.start, l.stop)) = [
        ("hi", some (.uint 0xa), 7, 8), ("mid", some (.text "0xbc"), 7, 9),
        ("lo", some (.uint 0xd), 8, 9), ("kind", some (.uint 0x25), 9, 10),
        ("rest", some (.bytes [0xff]), 10, 11)] ∧
      ∀ l ∈ leavesOfFields out.fields, ∃ (t : FieldTry) (k stop : Nat),
        t.Shows windowingSlice k stop l := by
  have decoded : (parseStructure windowing {} "S" windowingSlice .empty).toOption.map (fun out =>
      (leavesOfFields out.fields).map fun l => (l.name, l.value?, l.start, l.stop)) = some [
        ("hi", some (.uint 0xa), 7, 8), ("mid", some (.text "0xbc"), 7, 9),
        ("lo", some (.uint 0xd), 8, 9), ("kind", some (.uint 0x25), 9, 10),
        ("rest", some (.bytes [0xff]), 10, 11)] := by
    decide +kernel
  obtain ⟨out, parsed, leaves⟩ := Option.map_eq_some_iff.mp decoded
  have ok := Attempt.eq_ok_of_toOption parsed
  refine ⟨out, ok, leaves, ?_⟩
  intro l mem
  obtain ⟨e, -, t, -, -, k, -, -, shows⟩ := leaf_of_parseStructure ok l mem
  exact ⟨t, k, _, shows⟩

end WireGrammar
