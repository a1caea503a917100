import WireGrammar.Proofs.Decoding.Invariant
import WireGrammar.Proofs.Encoding.Coded
import WireGrammar.Proofs.Tree.Part

/-!
# Decoded packets back to bytes

If fields take whole bytes and no format hides the scalars, the bytes of a packet can be rebuilt
from its scalars and their widths.  The fields decoded so far give back the bytes up to the cursor,
however they were found: in windows, lists or chains, or with lengths from earlier fields.

* `ParseTree.encode`: the bytes of a decoded packet;
* `encode_of_parseTopLevel`: they are the bytes that were decoded.
-/

namespace WireGrammar

/-! ### Encoding -/

mutual

/-- The bytes of a field of the structure with the name `owner`. -/
def DecodedField.encode (coding : CodingTable) (owner : String) : DecodedField → List UInt8
  | .scalar name value start stop => value.encode (coding owner name) (stop - start)
  | .nested _ inner _ _ => inner.encode coding

/-- The bytes of a structure. -/
def DecodedStructure.encode (coding : CodingTable) : DecodedStructure → List UInt8
  | ⟨name, fields, _, _⟩ => encodeFields coding name fields

/-- The bytes of several fields of the structure with the name `owner`. -/
def encodeFields (coding : CodingTable) (owner : String) : List DecodedField → List UInt8
  | [] => []
  | f :: fs => f.encode coding owner ++ encodeFields coding owner fs

end

/-- The bytes of a packet. -/
def ParseTree.encode (coding : CodingTable) (t : ParseTree) : List UInt8 :=
  t.structures.flatMap (·.encode coding)

variable {g : Grammar} {o : Options} {coding : CodingTable} {owner : String}

theorem encodeFields_eq (fields : List DecodedField) :
    encodeFields coding owner fields = fields.flatMap (·.encode coding owner) := by
  induction fields with
  | nil => rfl
  | cons f fields ih => rw [encodeFields, ih, List.flatMap_cons]

theorem encodeFields_append (as bs : List DecodedField) :
    encodeFields coding owner (as ++ bs) =
      encodeFields coding owner as ++ encodeFields coding owner bs := by
  rw [encodeFields_eq, encodeFields_eq, encodeFields_eq, List.flatMap_append]

theorem encodeFields_nestedFields (f : FieldDescriptor) (ss : List DecodedStructure) :
    encodeFields coding owner (nestedFields f ss) = ss.flatMap (·.encode coding) := by
  rw [encodeFields_eq, nestedFields, List.flatMap_map]
  rfl

/-! ### Rows -/

/-- The bytes of a row of structures, and those behind it, are the bytes it was decoded from. -/
theorem Row.encode_append {input rest : Slice} {ctx ctx' : StreamContext}
    {ss : List DecodedStructure}
    (row : Row (fun input _ r => r.decoded.encode coding ++ (input.drop r.consumed).bytes =
      input.bytes) input ctx ss rest ctx') :
    ss.flatMap (·.encode coding) ++ rest.bytes = input.bytes := by
  induction row with
  | nil => rfl
  | cons head tail ih => rw [List.flatMap_cons, List.append_assoc, ih, head]

/-! ### The fields of a structure -/

/-- What is declared for a field to stand for is not given up. -/
theorem FieldAttributes.parse_eq_none_of_merge {a upper : FieldAttributes}
    (h : (a.merge upper).parse = none) : a.parse = none := by
  unfold merge at h
  cases given : upper.parse with
  | none => simpa [given] using h
  | some target => simp [given] at h

/-- The fields decoded so far give back the bytes up to the cursor, which is between two bytes. -/
structure EncodedUpTo (coding : CodingTable) (owner : String) (input : Slice) (c : BitCursor)
    (fields : List DecodedField) : Prop where
  slice : c.slice = input
  within : c.Within
  aligned : c.isAligned
  encoded : encodeFields coding owner fields ++ c.remaining.bytes = input.bytes

theorem EncodedUpTo.start (input : Slice) : EncodedUpTo coding owner input (.start input) [] where
  slice := rfl
  within := BitCursor.within_start input
  aligned := rfl
  encoded := by
    simp [encodeFields, BitCursor.start, BitCursor.remaining, BitCursor.byteIndex, Slice.drop]

theorem EncodedUpTo.scalar {input : Slice} {c : BitCursor} {fields : List DecodedField}
    (h : EncodedUpTo coding owner input c fields) {name : String} {length : Length} {r : Reading}
    (read : BitCursor.Reads c length r) (admitted : (coding owner name).admits length = true) :
    EncodedUpTo coding owner input r.cursor
      (fields ++ [.scalar name r.value c.absolute (scalarStop c r.bits)]) := by
  obtain ⟨encoded, aligned⟩ := read.encode_append admitted h.aligned
  refine ⟨?_, read.within h.within, aligned, ?_⟩
  · rw [read.cursor_eq h.within, BitCursor.slice_skip, h.slice]
  · rw [encodeFields_append, encodeFields, encodeFields, DecodedField.encode, List.append_nil,
      List.append_assoc, encoded, h.encoded]

theorem EncodedUpTo.target {input : Slice} {c : BitCursor} {fields : List DecodedField}
    (h : EncodedUpTo coding owner input c fields) {view rest : Slice}
    {ss : List DecodedStructure} (front : view.bytes <+: c.remaining.bytes)
    (encoded : ss.flatMap (·.encode coding) ++ rest.bytes = view.bytes) (f : FieldDescriptor) :
    EncodedUpTo coding owner input (c.advance (view.length - rest.length))
      (fields ++ nestedFields f ss) := by
  obtain ⟨tail, behind⟩ := front
  have taken : view.length - rest.length = (ss.flatMap (·.encode coding)).length := by
    rw [Slice.length, Slice.length, ← encoded, List.length_append]
    omega
  have enough := Slice.length_le_of_prefix ⟨tail, behind⟩
  have moved : c.advance (view.length - rest.length) = c.skip (8 * (view.length - rest.length)) :=
    BitCursor.advance_eq_skip h.aligned (by omega) h.within
  have left : (c.advance (view.length - rest.length)).remaining.bytes = rest.bytes ++ tail := by
    rw [moved, BitCursor.bytes_remaining_skip, ← behind, ← encoded, taken, List.append_assoc,
      List.drop_left]
  refine ⟨h.slice, BitCursor.within_advance h.aligned _, ?_, ?_⟩
  · rw [moved]
    exact BitCursor.isAligned_skip h.aligned _
  · rw [encodeFields_append, encodeFields_nestedFields, left, List.append_assoc,
      ← List.append_assoc _ rest.bytes, encoded, behind, h.encoded]

/-! ### Whole packets -/

/-- To give back the bytes is an invariant of decoding. -/
theorem decodingInvariant_encoded {entry : StreamContext} (free : FormatFree g entry)
    (coded : Coded g entry coding) (o : Options) :
    DecodingInvariant g o entry
      (fun s input _ c fields _ => EncodedUpTo coding s.name input c fields)
      (fun input _ r => r.decoded.encode coding ++ (input.drop r.consumed).bytes = input.bytes) where
  start _ := .start _
  scalar := by
    intro s input ctx c fields m f length r m' mem own more sourced h turn
    have scalar := FieldAttributes.parse_eq_none_of_merge
      (FieldAttributes.parse_eq_none_of_merge turn.noTarget)
    have sized : (m.effective f).get? .length = some (.length length) := by
      rw [FieldAttributes.get?, turn.sized]
      rfl
    have admitted := coded scalar (sourced.effective mem own sized)
    rw [scalarField, sourced.shown_eq free mem own]
    exact h.scalar (BitCursor.readScalar_eq_ok.mp turn.read) admitted
  target := by
    intro s input ctx c fields m f view structures rest ctx' mem own more sourced h viewed row
    obtain ⟨-, -, front⟩ := FieldAttributes.view_eq_ok viewed
    exact h.target front row.encode_append f
  finish := by
    intro s input ctx c fields m mem h next
    have encoded := h.encoded
    have index := BitCursor.byteIndex_of_isAligned h.aligned
    have taken : c.consumedBytes = c.byteIndex := by
      unfold BitCursor.consumedBytes
      omega
    rw [BitCursor.remaining, h.slice] at encoded
    rw [DecodedStructure.encode, taken]
    exact encoded

/-- The bytes of a decoded packet are those that it was decoded from, so decoding them once more
comes to the same packet. -/
theorem encode_of_parseTopLevel {ctx : StreamContext} (free : FormatFree g ctx)
    (coded : Coded g ctx coding) {packet : List UInt8} {tree : ParseTree} {ctx' : StreamContext}
    (h : parseTopLevel g o packet ctx = (.ok tree, ctx')) :
    tree.encode coding = packet ∧
      parseTopLevel g o (tree.encode coding) ctx = (.ok tree, ctx') := by
  obtain ⟨rest, row, all⟩ := (decodingInvariant_encoded free coded o).row_of_parseTopLevel h
  obtain ⟨n, rfl⟩ := row.rest_eq
  have whole := row.encode_append
  have none : ((⟨0, packet⟩ : Slice).drop n).bytes = [] := by
    rw [Slice.offset_drop, Nat.zero_add] at all
    rw [all]
    exact List.drop_length
  have same : tree.encode coding = packet := by
    rw [none, List.append_nil] at whole
    exact whole
  rw [same]
  exact ⟨rfl, h⟩

/-- Self-describing integers in a window of dynamic size, a length from a packet number and one from
a table, and a structure that follows. -/
def measured : Grammar where
  roots := ["Packet"]
  structures := [
    ⟨"Packet", [
      .field ⟨"kind", {
        length := some (.bits 8)
        triggers := some [.onField "token" [.lookup .length
          [(.int 1, .length (.bits 24)), (.int 2, .length (.bits 128))]]] }, false⟩,
      .field ⟨"number", {
        length := some .packetNumber
        triggers := some [.onField "data" [.set .length]] }, false⟩,
      .field ⟨"token", {}, false⟩,
      .field ⟨"data", { length := some (.bits 8) }, false⟩,
      .field ⟨"size", {
        length := some .varint
        triggers := some [.onField "items" [.set .byteLength]] }, false⟩,
      .field ⟨"items", { parse := some "Item", length := some .rest }, false⟩,
      .next "Tail"]⟩,
    ⟨"Item", [
      .field ⟨"tag", { length := some (.bits 16) }, false⟩,
      .field ⟨"amount", { length := some .varint }, false⟩]⟩,
    ⟨"Tail", [.field ⟨"rest", { length := some .rest }, false⟩]⟩]

/-- The coding of its fields. -/
def measuredCoding : CodingTable := fun _ field =>
  if field = "number" then .packetNumber
  else if field = "size" ∨ field = "amount" then .varint
  else .plain

def measuredBytes : List UInt8 :=
  [1, 0x80, 2, 0xaa, 0xbb, 0xcc, 0x12, 0x34, 0x40, 9, 0, 1, 0x80, 0, 1, 0, 0, 2, 7, 5, 6]

theorem encode_of_parseTopLevel_measured :
    ∃ tree ctx', FormatFree measured .empty ∧ Coded measured .empty measuredCoding ∧
      parseTopLevel measured {} measuredBytes .empty = (.ok tree, ctx') ∧
      tree.encode measuredCoding = measuredBytes ∧
      parseTopLevel measured {} (tree.encode measuredCoding) .empty = (.ok tree, ctx') := by
  have free : FormatFree measured .empty := by decide
  have coded : Coded measured .empty measuredCoding := coded_of_isCoded (by decide)
  have decodes : (parseTopLevel measured {} measuredBytes .empty).1.toOption.isSome := by
    decide +kernel
  obtain ⟨tree, decoded⟩ := Option.isSome_iff_exists.mp decodes
  have ok := eq_ok_of_toOption decoded
  exact ⟨tree, _, free, coded, ok, encode_of_parseTopLevel free coded ok⟩

end WireGrammar
