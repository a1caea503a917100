import WireGrammar.Proofs.Decoding.Invariant
import WireGrammar.Proofs.Decoding.Scalar
import WireGrammar.Proofs.Tree.Part

/-!
# Decoded packets are tiled

The scalars of a structure lie side by side over its bytes: none is left out, and only a byte that
is taken in part belongs to more than one of them.  The cursor carries this, since scalars end where
it stands, rounded up to a whole byte, and start in the byte it stands in.

* `Covers`: scalars that follow each other without a gap, from one offset to another;
* `Tiled`: what this says about a structure;
* `tiled_of_parseTopLevel`: every structure of a decoded packet is tiled.
-/

namespace WireGrammar

/-- The scalars lie side by side from `reach`, up to where those before them reach, to `stop`: each
starts at the reach of those before it, or one byte earlier, and none starts before `floor`. -/
def Covers (floor : Nat) : (reach : Nat) → List DecodedField → (stop : Nat) → Prop
  | reach, [], stop => reach = stop
  | reach, l :: ls, stop => (l.start = reach ∨ l.start + 1 = reach) ∧ floor ≤ l.start ∧
      l.start ≤ l.stop ∧ Covers floor (max reach l.stop) ls stop

/-- A structure whose scalars lie side by side over its bytes. -/
structure DecodedStructure.Tiled (s : DecodedStructure) : Prop where
  covered : Covers s.start s.start s.leaves s.stop
  /-- No byte is left out. -/
  complete : ∀ i, s.start ≤ i → i < s.stop → ∃ l ∈ s.leaves, l.start ≤ i ∧ i < l.stop
  /-- Scalars start in the order of the packet, and a later one starts no earlier than in the last
  byte of an earlier one. -/
  ascending : s.leaves.Pairwise fun a b => a.start ≤ b.start ∧ a.stop ≤ b.start + 1
  /-- No scalar and no nested structure sticks out. -/
  inside : (∀ l ∈ s.leaves, s.start ≤ l.start ∧ l.stop ≤ s.stop) ∧
    ∀ f ∈ s.fields, s.start ≤ f.start ∧ f.start ≤ f.stop ∧ f.stop ≤ s.stop
  /-- A nested structure lies where its field does. -/
  placed : ∀ f ∈ s.fields, ∀ inner, f.structure? = some inner →
    inner.start = f.start ∧ inner.stop = f.stop

/-- The structures lie one behind the other from `start` to `stop`. -/
def Contiguous : (start : Nat) → List DecodedStructure → (stop : Nat) → Prop
  | start, [], stop => start = stop
  | start, s :: ss, stop => s.start = start ∧ Contiguous s.stop ss stop

/-! ### Coverings -/

namespace Covers

variable {floor reach middle stop : Nat} {as bs : List DecodedField}

theorem append (h : Covers floor reach as middle) (h' : Covers floor middle bs stop) :
    Covers floor reach (as ++ bs) stop := by
  induction as generalizing reach with
  | nil => cases h; exact h'
  | cons l ls ih =>
    obtain ⟨start, low, order, rest⟩ := h
    exact ⟨start, low, order, ih rest⟩

theorem lower {floor' : Nat} (le : floor' ≤ floor) (h : Covers floor reach as stop) :
    Covers floor' reach as stop := by
  induction as generalizing reach with
  | nil => exact h
  | cons l ls ih =>
    obtain ⟨start, low, order, rest⟩ := h
    exact ⟨start, Nat.le_trans le low, order, ih rest⟩

theorem reach_le (h : Covers floor reach as stop) : reach ≤ stop := by
  induction as generalizing reach with
  | nil => exact Nat.le_of_eq h
  | cons l ls ih => exact Nat.le_trans (Nat.le_max_left ..) (ih h.2.2.2)

/-- A scalar that is covered starts no earlier than in the byte before the reach of those before
it. -/
theorem mem (h : Covers floor reach as stop) {l : DecodedField} (hl : l ∈ as) :
    floor ≤ l.start ∧ reach ≤ l.start + 1 ∧ l.start ≤ l.stop ∧ l.stop ≤ stop := by
  induction as generalizing reach with
  | nil => cases hl
  | cons first ls ih =>
    obtain ⟨start, low, order, rest⟩ := h
    rcases List.mem_cons.mp hl with rfl | hl
    · have := rest.reach_le
      omega
    · have := ih rest hl
      omega

theorem complete (h : Covers floor reach as stop) {i : Nat} (low : reach ≤ i) (high : i < stop) :
    ∃ l ∈ as, l.start ≤ i ∧ i < l.stop := by
  induction as generalizing reach with
  | nil => cases h; omega
  | cons first ls ih =>
    obtain ⟨start, -, -, rest⟩ := h
    by_cases own : i < first.stop
    · exact ⟨first, List.mem_cons_self, by omega, own⟩
    · obtain ⟨l, hl, there⟩ := ih rest (by omega)
      exact ⟨l, List.mem_cons_of_mem _ hl, there⟩

/-- Later scalars start no earlier than in the last byte of earlier ones. -/
theorem pairwise (h : Covers floor reach as stop) :
    as.Pairwise fun a b => a.stop ≤ b.start + 1 := by
  induction as generalizing reach with
  | nil => exact .nil
  | cons first ls ih =>
    obtain ⟨-, -, -, rest⟩ := h
    refine List.pairwise_cons.mpr ⟨fun l hl => ?_, ih rest⟩
    have := rest.mem hl
    omega

end Covers

theorem Contiguous.append {start middle stop : Nat} {ss ts : List DecodedStructure}
    (h : Contiguous start ss middle) (h' : Contiguous middle ts stop) :
    Contiguous start (ss ++ ts) stop := by
  induction ss generalizing start with
  | nil => cases h; exact h'
  | cons s ss ih => exact ⟨h.1, ih h.2⟩

/-- A structure whose scalars are covered in order is tiled. -/
theorem DecodedStructure.Tiled.of_covers {s : DecodedStructure}
    (covered : Covers s.start s.start s.leaves s.stop)
    (ascending : s.leaves.Pairwise (·.start ≤ ·.start))
    (fields : ∀ f ∈ s.fields, s.start ≤ f.start ∧ f.start ≤ f.stop ∧ f.stop ≤ s.stop)
    (placed : ∀ f ∈ s.fields, ∀ inner, f.structure? = some inner →
      inner.start = f.start ∧ inner.stop = f.stop) : s.Tiled where
  covered := covered
  complete _ low high := covered.complete low high
  ascending := ascending.and covered.pairwise
  inside := ⟨fun _ hl => ⟨(covered.mem hl).1, (covered.mem hl).2.2.2⟩, fields⟩
  placed := placed

/-! ### Rows -/

/-- A structure decoded at the front of a slice, itself and all structures in it tiled. -/
structure TiledAt (input : Slice) (r : Resolved) : Prop where
  start : r.decoded.start = input.offset
  stop : r.decoded.stop = input.offset + r.consumed
  consumed : r.consumed ≤ input.length
  parts : ∀ t ∈ r.decoded.parts, t.Tiled

/-- A row of tiled structures leaves no gap between them. -/
theorem Row.contiguous {input rest : Slice} {ctx ctx' : StreamContext} {ss : List DecodedStructure}
    (h : Row (fun input _ r => TiledAt input r) input ctx ss rest ctx') :
    Contiguous input.offset ss rest.offset ∧
      input.offset + input.length = rest.offset + rest.length ∧
      ∀ s ∈ ss, ∀ t ∈ s.parts, t.Tiled := by
  induction h with
  | nil => exact ⟨rfl, rfl, by simp⟩
  | @cons input rest ctx ctx' r ss head tail ih =>
    obtain ⟨gapless, whole, parts⟩ := ih
    have enough := head.consumed
    rw [Slice.offset_drop] at gapless whole
    rw [Slice.length_drop] at whole
    refine ⟨⟨head.start, head.stop ▸ gapless⟩, by omega, ?_⟩
    rintro s (_ | ⟨_, hs⟩)
    · exact head.parts
    · exact parts s hs

namespace Contiguous

variable {start stop : Nat} {ss : List DecodedStructure}

theorem covers (h : Contiguous start ss stop) (tiled : ∀ s ∈ ss, s.Tiled) :
    Covers start start (ss.flatMap (·.leaves)) stop := by
  induction ss generalizing start with
  | nil => exact h
  | cons s ss ih =>
    obtain ⟨rfl, rest⟩ := h
    have first := (tiled s List.mem_cons_self).covered
    rw [List.flatMap_cons]
    exact first.append
      ((ih rest fun t ht => tiled t (List.mem_cons_of_mem _ ht)).lower first.reach_le)

theorem ascending (h : Contiguous start ss stop) (tiled : ∀ s ∈ ss, s.Tiled) :
    (ss.flatMap (·.leaves)).Pairwise (·.start ≤ ·.start) := by
  induction ss generalizing start with
  | nil => exact .nil
  | cons s ss ih =>
    obtain ⟨rfl, rest⟩ := h
    have first := tiled s List.mem_cons_self
    have others : ∀ t ∈ ss, t.Tiled := fun t ht => tiled t (List.mem_cons_of_mem _ ht)
    rw [List.flatMap_cons]
    refine List.pairwise_append.mpr
      ⟨first.ascending.imp fun le => le.1, ih rest others, fun a ha b hb => ?_⟩
    have before := first.covered.mem ha
    have behind := (rest.covers others).mem hb
    omega

/-- Each of the structures lies between the ends of the row. -/
theorem mem (h : Contiguous start ss stop) (tiled : ∀ s ∈ ss, s.Tiled) {s : DecodedStructure}
    (hs : s ∈ ss) : start ≤ s.start ∧ s.start ≤ s.stop ∧ s.stop ≤ stop := by
  induction ss generalizing start with
  | nil => cases hs
  | cons first ss ih =>
    obtain ⟨rfl, rest⟩ := h
    have others : ∀ t ∈ ss, t.Tiled := fun t ht => tiled t (List.mem_cons_of_mem _ ht)
    have order := (tiled first List.mem_cons_self).covered.reach_le
    rcases List.mem_cons.mp hs with rfl | hs
    · exact ⟨Nat.le_refl _, order, (rest.covers others).reach_le⟩
    · have := ih rest others hs
      omega

end Contiguous

/-- What a row leaves begins where the bytes it took end. -/
theorem Row.offset_rest {input rest : Slice} {ctx ctx' : StreamContext}
    {ss : List DecodedStructure}
    (h : Row (fun input _ r => TiledAt input r) input ctx ss rest ctx') :
    rest.offset = input.offset + (input.length - rest.length) := by
  obtain ⟨gapless, whole, parts⟩ := h.contiguous
  have tiled : ∀ s ∈ ss, s.Tiled :=
    fun s hs => parts s hs s (DecodedStructure.mem_parts.mpr (.inl rfl))
  have := (gapless.covers tiled).reach_le
  omega

/-! ### The fields of a structure -/

/-- The scalars so far cover the slice up to the cursor. -/
structure TiledUpTo (input : Slice) (c : BitCursor) (fields : List DecodedField) : Prop where
  slice : c.slice = input
  within : c.Within
  covered : Covers input.offset input.offset (leavesOfFields fields)
    (input.offset + c.consumedBytes)
  ascending : (leavesOfFields fields).Pairwise (·.start ≤ ·.start)
  started : ∀ l ∈ leavesOfFields fields, l.start ≤ c.absolute
  inside : ∀ f ∈ fields, input.offset ≤ f.start ∧ f.start ≤ f.stop ∧
    f.stop ≤ input.offset + c.consumedBytes
  placed : ∀ f ∈ fields, ∀ inner, f.structure? = some inner →
    inner.start = f.start ∧ inner.stop = f.stop
  parts : ∀ t ∈ partsOfFields fields, t.Tiled

theorem TiledUpTo.start (input : Slice) : TiledUpTo input (.start input) [] where
  slice := rfl
  within := BitCursor.within_start input
  covered := by simp [leavesOfFields, Covers, BitCursor.consumedBytes, BitCursor.start]
  ascending := .nil
  started := by simp [leavesOfFields]
  inside := by simp
  placed := by simp
  parts := by simp [partsOfFields]

/-- Fields that cover the bytes from the cursor to a later one are added. -/
theorem TiledUpTo.extend {input : Slice} {c d : BitCursor} {fields added : List DecodedField}
    (h : TiledUpTo input c fields) (slice : d.slice = c.slice) (within : d.Within)
    (forward : c.position ≤ d.position)
    (covered : Covers c.absolute (input.offset + c.consumedBytes) (leavesOfFields added)
      (input.offset + d.consumedBytes))
    (ascending : (leavesOfFields added).Pairwise (·.start ≤ ·.start))
    (started : ∀ l ∈ leavesOfFields added, l.start ≤ d.absolute)
    (inside : ∀ f ∈ added, c.absolute ≤ f.start ∧ f.start ≤ f.stop ∧
      f.stop ≤ input.offset + d.consumedBytes)
    (placed : ∀ f ∈ added, ∀ inner, f.structure? = some inner →
      inner.start = f.start ∧ inner.stop = f.stop)
    (parts : ∀ t ∈ partsOfFields added, t.Tiled) :
    TiledUpTo input d (fields ++ added) := by
  have index : c.absolute ≤ d.absolute := by
    simp only [BitCursor.absolute, BitCursor.byteIndex, slice]
    omega
  have base : input.offset ≤ c.absolute := by
    rw [← h.slice]
    exact Nat.le_add_right ..
  have ends : c.consumedBytes ≤ d.consumedBytes := by
    simp only [BitCursor.consumedBytes]
    omega
  have leaves := leavesOfFields_append fields added
  refine ⟨slice.trans h.slice, within, ?_, ?_, ?_, ?_, ?_, ?_⟩
  · rw [leaves]
    exact h.covered.append (covered.lower base)
  · rw [leaves]
    refine List.pairwise_append.mpr ⟨h.ascending, ascending, fun a ha b hb => ?_⟩
    exact Nat.le_trans (h.started a ha) (covered.mem hb).1
  · intro l hl
    rw [leaves] at hl
    rcases List.mem_append.mp hl with old | new
    · exact Nat.le_trans (h.started l old) index
    · exact started l new
  · intro f hf
    rcases List.mem_append.mp hf with old | new
    · have := h.inside f old
      omega
    · have := inside f new
      omega
  · intro f hf
    rcases List.mem_append.mp hf with old | new
    · exact h.placed f old
    · exact placed f new
  · intro t ht
    rw [partsOfFields_append] at ht
    rcases List.mem_append.mp ht with old | new
    · exact h.parts t old
    · exact parts t new

/-- A scalar covers the bytes up to where the cursor stands behind it. -/
theorem TiledUpTo.scalar {input : Slice} {c : BitCursor} {fields : List DecodedField}
    (h : TiledUpTo input c fields) {length : Length} {r : Reading} (read : c.Reads length r)
    (name : String) (value : Value) :
    TiledUpTo input r.cursor
      (fields ++ [.scalar name value c.absolute (scalarStop c r.bits)]) := by
  have moved := read.cursor_eq h.within
  have within := read.within h.within
  rw [moved] at within ⊢
  -- The scalar reaches as far as the cursor, or takes no bits at all.
  have reach : max (input.offset + c.consumedBytes) (scalarStop c r.bits) =
      input.offset + (c.skip r.bits).consumedBytes := by
    simp only [scalarStop, BitCursor.consumedBytes, BitCursor.absolute, BitCursor.byteIndex,
      BitCursor.bitOffset, h.slice, BitCursor.position_skip]
    split <;> omega
  have order : c.absolute ≤ scalarStop c r.bits := by
    unfold scalarStop
    split <;> omega
  have first : c.absolute = input.offset + c.consumedBytes ∨
      c.absolute + 1 = input.offset + c.consumedBytes := by
    simp only [BitCursor.absolute, BitCursor.consumedBytes, BitCursor.byteIndex, h.slice]
    omega
  have index : c.absolute ≤ (c.skip r.bits).absolute := by
    simp only [BitCursor.absolute, BitCursor.byteIndex, BitCursor.slice_skip,
      BitCursor.position_skip]
    omega
  refine h.extend (c.slice_skip _) within (Nat.le_add_right ..) ?_ ?_ ?_ ?_ ?_ ?_
  · exact ⟨first, Nat.le_refl _, order, reach⟩
  · exact List.pairwise_singleton ..
  · simpa [leavesOfFields, DecodedField.leaves, DecodedField.start] using index
  · simp only [List.mem_singleton, forall_eq]
    exact ⟨Nat.le_refl _, order, reach ▸ Nat.le_max_right ..⟩
  · simp [DecodedField.structure?]
  · simp [partsOfFields, DecodedField.parts]

/-- A row of nested structures covers the bytes that the cursor goes over. -/
theorem TiledUpTo.target {input : Slice} {c : BitCursor} {fields : List DecodedField}
    (h : TiledUpTo input c fields) {view rest : Slice} {ctx ctx' : StreamContext}
    {ss : List DecodedStructure} (aligned : c.isAligned) (at_ : view.offset = c.absolute)
    (enough : view.length ≤ c.remainingBytes)
    (row : Row (fun input _ r => TiledAt input r) view ctx ss rest ctx') (f : FieldDescriptor) :
    TiledUpTo input (c.advance (view.length - rest.length)) (fields ++ nestedFields f ss) := by
  obtain ⟨gapless, whole, parts⟩ := row.contiguous
  have tiled : ∀ s ∈ ss, s.Tiled := fun s hs => parts s hs s (DecodedStructure.mem_parts.mpr (.inl rfl))
  have taken : rest.offset = c.absolute + (view.length - rest.length) := at_ ▸ row.offset_rest
  have moved : c.advance (view.length - rest.length) = c.skip (8 * (view.length - rest.length)) :=
    BitCursor.advance_eq_skip aligned (by omega) h.within
  have here := BitCursor.absolute_of_isAligned aligned
  have there : (c.skip (8 * (view.length - rest.length))).absolute = rest.offset := by
    rw [BitCursor.absolute_skip, taken]
    simp only [BitCursor.absolute, BitCursor.byteIndex]
    omega
  have stop : input.offset + (c.skip (8 * (view.length - rest.length))).consumedBytes =
      rest.offset := by
    have index := BitCursor.byteIndex_of_isAligned aligned
    simp only [BitCursor.consumedBytes, BitCursor.position_skip, taken, BitCursor.absolute,
      h.slice]
    omega
  have leaves := leavesOfFields_nestedFields f ss
  have covered := gapless.covers tiled
  rw [h.slice] at here
  rw [moved]
  refine h.extend (c.slice_skip _) (moved ▸ BitCursor.within_advance aligned _)
    (Nat.le_add_right ..) ?_ ?_ ?_ ?_ ?_ ?_
  · rwa [leaves, stop, ← here, ← at_]
  · rw [leaves]
    exact gapless.ascending tiled
  · intro l hl
    rw [leaves] at hl
    have := covered.mem hl
    omega
  · intro field hf
    obtain ⟨s, hs, rfl⟩ := List.mem_map.mp hf
    rw [stop, ← at_]
    exact gapless.mem tiled hs
  · intro field hf inner nested
    obtain ⟨s, hs, rfl⟩ := List.mem_map.mp hf
    cases nested
    exact ⟨rfl, rfl⟩
  · intro t ht
    rw [partsOfFields_nestedFields] at ht
    obtain ⟨s, hs, ht⟩ := List.mem_flatMap.mp ht
    exact parts s hs t ht

/-! ### Whole packets -/

/-- Tiling is an invariant of decoding. -/
theorem decodingInvariant_tiled (g : Grammar) (o : Options) (entry : StreamContext) :
    DecodingInvariant g o entry (fun _ input _ c fields _ => TiledUpTo input c fields)
      (fun input _ r => TiledAt input r) where
  start _ := .start _
  scalar _ _ _ _ h turn := h.scalar (BitCursor.readScalar_eq_ok.mp turn.read) _ _
  target _ _ _ _ h viewed row := by
    obtain ⟨aligned, at_, front⟩ := FieldAttributes.view_eq_ok viewed
    exact h.target aligned at_ (Slice.length_le_of_prefix front) row _
  finish := by
    intro s input ctx c fields m _ h next
    refine ⟨rfl, rfl, ?_, fun t ht => ?_⟩
    · have within := h.within
      rw [BitCursor.Within, h.slice] at within
      simp only [BitCursor.consumedBytes]
      omega
    · rcases List.mem_cons.mp ht with rfl | inner
      · exact .of_covers h.covered h.ascending h.inside h.placed
      · exact h.parts t inner

/-- The structures of a chain form a row of tiled ones. -/
theorem tiledRow_of_chain {g : Grammar} {o : Options} {name : String} {input : Slice}
    {ctx : StreamContext} {c : Chain} (h : chain (parseTarget g o) name input ctx = .ok c) :
    Row (fun input _ r => TiledAt input r) input ctx c.structures c.rest c.context := by
  have tiled : ∀ name input ctx' r, parseTarget g o name input ctx' = .ok r →
      Keeps g ctx (fun input _ r => TiledAt input r) input ctx' r := fun _ _ _ _ parsed =>
    (decodingInvariant_tiled g o ctx).of_parseTarget parsed
  exact ((Row.of_chain tiled h).of_keeps (.refl g ctx)).2

/-- A packet is decoded to structures that lie one behind the other from its first byte to its last,
and each structure in them, however deep, is tiled. -/
theorem tiled_of_parseTopLevel {g : Grammar} {o : Options} {packet : List UInt8}
    {ctx ctx' : StreamContext} {tree : ParseTree}
    (h : parseTopLevel g o packet ctx = (.ok tree, ctx')) :
    tree.structures ≠ [] ∧ Contiguous 0 tree.structures packet.length ∧
      ∀ s ∈ tree.parts, s.Tiled := by
  obtain ⟨rest, row, all⟩ := (decodingInvariant_tiled g o ctx).row_of_parseTopLevel h
  obtain ⟨gapless, -, parts⟩ := row.contiguous
  refine ⟨structures_ne_nil_of_parseTopLevel h, all ▸ gapless, fun s hs => ?_⟩
  obtain ⟨root, mem, inner⟩ := List.mem_flatMap.mp hs
  exact parts root mem s inner

/-- Scalars across byte boundaries, a list in a window, and a structure that follows. -/
def straddling : Grammar where
  roots := ["Packet"]
  structures := [
    ⟨"Packet", [
      .field ⟨"high", { length := some (.bits 4) }, false⟩,
      .field ⟨"middle", { length := some (.bits 8) }, false⟩,
      .field ⟨"low", { length := some (.bits 4) }, false⟩,
      .field ⟨"items",
        { parse := some "Item", length := some .rest, byteLength := some 2 }, false⟩,
      .next "Tail"]⟩,
    ⟨"Item", [
      .field ⟨"tag", { length := some (.bits 3) }, false⟩,
      .field ⟨"size", { length := some (.bits 5) }, false⟩]⟩,
    ⟨"Tail", [.field ⟨"nibble", { length := some (.bits 4) }, true⟩]⟩]

theorem tiled_of_parseTopLevel_straddling :
    ∃ tree ctx', parseTopLevel straddling {} [0xab, 0xcd, 0x21, 0x42, 0x97] .empty =
        (.ok tree, ctx') ∧
      (tree.leaves.map fun l => (l.start, l.stop)) =
        [(0, 1), (0, 2), (1, 2), (2, 3), (2, 3), (3, 4), (3, 4), (4, 5), (4, 5)] ∧
      tree.structures ≠ [] ∧ Contiguous 0 tree.structures 5 ∧ ∀ s ∈ tree.parts, s.Tiled := by
  have spans : (parseTopLevel straddling {} [0xab, 0xcd, 0x21, 0x42, 0x97] .empty).1.toOption.map
      (fun tree => tree.leaves.map fun l => (l.start, l.stop)) =
        some [(0, 1), (0, 2), (1, 2), (2, 3), (2, 3), (3, 4), (3, 4), (4, 5), (4, 5)] := by
    decide +kernel
  obtain ⟨tree, decoded, spans⟩ := Option.map_eq_some_iff.mp spans
  have ok := eq_ok_of_toOption decoded
  exact ⟨tree, _, ok, spans, tiled_of_parseTopLevel ok⟩

end WireGrammar
