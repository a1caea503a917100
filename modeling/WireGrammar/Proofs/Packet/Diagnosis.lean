import WireGrammar.Proofs.Decoding.Failure
import WireGrammar.Proofs.Packet.Selection

/-!
# What a failure says about the packet

A packet is decoded in slices within slices, and each counts its bytes from its own start.  The
failure that comes out of a packet speaks of the packet nevertheless: its offsets are those of bytes
of the packet, it claims no byte that is not there, and what it says of a byte is so.

* `ParseError.Truthful`: what each failure says;
* `truthful_of_parseTopLevel`: it is so.
-/

namespace WireGrammar

/-! ### What failures say -/

/-- What a failed read says of a packet. -/
def ReadError.Truthful (packet : List UInt8) : ReadError → Prop
  | .insufficientBytes offset needed available =>
    available < needed ∧ offset + available ≤ packet.length
  | .unknownEncodingPattern offset pattern =>
    pattern = 1 ∧ ∃ inside : offset < packet.length, packet[offset].toNat / 64 = 1
  | .unaligned offset bit => 1 ≤ bit ∧ bit ≤ 7 ∧ offset < packet.length
  | .unsupportedWidth offset bits => 64 < bits ∧ offset < packet.length

/-- The structure has a field with the given name. -/
def Structure.Declares (s : Structure) (field : String) : Prop :=
  ∃ f, .field f ∈ s.descriptors ∧ f.name = field

/-- Some structure has a field with the given name. -/
def Grammar.Declares (g : Grammar) (field : String) : Prop :=
  ∃ s ∈ g.structures, s.Declares field

/-- What a failure says of a packet and of the grammar it is decoded by. -/
def ParseError.Truthful (g : Grammar) (packet : List UInt8) : ParseError → Prop
  | .unreadable field cause => g.Declares field ∧ cause.Truthful packet
  | .valueMismatch field _ _ => g.Declares field
  | .noMatchingStructure typeName offset firstByte =>
    typeName ∉ g.structures.map (·.name) ∧
      ∃ inside : offset < packet.length, firstByte = some packet[offset]
  | .incompleteStructure owner field => ∃ s ∈ g.structures, s.name = owner ∧ s.Declares field
  | .recursiveStructure name _ => name ∈ g.structures.map (·.name)
  | .invalidTrigger field _ _ => g.Declares field
  | .trailingBytes root consumed total =>
    root ∈ g.roots ∧ consumed < total ∧ total = packet.length
  | .unknownStructure _ => False

/-! ### Places in the packet -/

namespace Slice.PartOf

variable {packet : List UInt8} {s : Slice}

/-- A slice with bytes in it lies in the packet, and its first byte is the one that its offset is
the place of. -/
theorem of_bytes (h : s.PartOf packet) (left : s.bytes ≠ []) :
    s.offset + s.length ≤ packet.length ∧
      ∃ inside : s.offset < packet.length, s.bytes.head? = some packet[s.offset] := by
  have short := h.length_le
  have positive := List.length_pos_of_ne_nil left
  rw [List.length_drop] at short
  have inside : s.offset < packet.length := by omega
  refine ⟨by unfold Slice.length; omega, inside, ?_⟩
  obtain ⟨behind, all⟩ := h
  rw [List.drop_eq_getElem_cons inside] at all
  cases first : s.bytes with
  | nil => exact absurd first left
  | cons b bs =>
    rw [first] at all
    exact congrArg some (List.head_eq_of_cons_eq all)

end Slice.PartOf

namespace BitCursor

variable {packet : List UInt8} {c : BitCursor}

theorem bytes_remaining (left : c.isExhausted = false) : c.remaining.bytes ≠ [] := by
  rw [isExhausted, decide_eq_false_iff_not] at left
  simpa [remaining, Slice.drop, Slice.length] using left

/-- Where bytes are left, the cursor stands at a byte of the packet, and what is left are bytes of
the packet. -/
theorem absolute_lt (part : c.slice.PartOf packet) (left : c.isExhausted = false) :
    c.absolute + c.remainingBytes ≤ packet.length ∧ c.absolute < packet.length := by
  obtain ⟨stop, inside, -⟩ := (part.drop c.byteIndex).of_bytes (bytes_remaining left)
  rw [Slice.length_drop] at stop
  exact ⟨stop, inside⟩

/-- The leading bits are those of the byte of the packet. -/
theorem pattern_eq (part : c.slice.PartOf packet) (left : c.isExhausted = false) :
    ∃ inside : c.absolute < packet.length, packet[c.absolute].toNat / 64 = c.pattern := by
  obtain ⟨-, inside, first⟩ := (part.drop c.byteIndex).of_bytes (bytes_remaining left)
  refine ⟨inside, ?_⟩
  have here : (c.peekBytes 1).head? = some packet[c.absolute] := by
    rw [peekBytes, List.head?_take, if_neg Nat.one_ne_zero]
    exact first
  rw [pattern, here]
  rfl

/-- A cursor that stands at a byte refuses a read for what is so of the packet. -/
theorem Refuses.truthful {cause : ReadError} (h : c.Refuses cause)
    (part : c.slice.PartOf packet) (left : c.isExhausted = false) : cause.Truthful packet := by
  obtain ⟨stop, inside⟩ := absolute_lt part left
  cases h with
  | short few => exact ⟨few, stop⟩
  | unannounced _ reserved =>
    obtain ⟨inside, bits⟩ := pattern_eq part left
    exact ⟨reserved, inside, bits.trans reserved⟩
  | ragged ragged =>
    simp only [isAligned, beq_eq_false_iff_ne] at ragged
    refine ⟨Nat.pos_of_ne_zero ragged, ?_, inside⟩
    unfold bitOffset
    omega
  | wide many => exact ⟨many, inside⟩

end BitCursor

/-! ### Failures -/

section Failure

variable {g : Grammar} {o : Options} {packet : List UInt8} {ctx : StreamContext}

/-- What is wrong within a packet is so. -/
theorem Grammar.Fails.truthful {e : ParseError} (h : g.Fails packet e) : e.Truthful g packet := by
  cases h with
  | unreadable mem own part left refused =>
    exact ⟨⟨_, mem, _, own, rfl⟩, refused.truthful part left⟩
  | rejected mem own => exact ⟨_, mem, _, own, rfl⟩
  | unsettable mem own => exact ⟨_, mem, _, own, rfl⟩
  | unmatched unknown part left =>
    exact ⟨Grammar.getStructure?_eq_none.mp unknown, (part.of_bytes left).2⟩
  | incomplete mem own => exact ⟨_, mem, rfl, _, own, rfl⟩
  | recursive mem => exact List.mem_map_of_mem mem

/-- A root takes no more bytes than there are. -/
theorem offset_rest_le {root : String} {c : Chain} (h : attemptRoot g o packet root ctx = .ok c) :
    c.rest.offset ≤ packet.length := by
  rw [attemptRoot_eq] at h
  have whole := (tiledRow_of_chain h).contiguous.2.1
  simp only [Nat.zero_add, Slice.length] at whole
  omega

/-- A root is refused for what is so. -/
theorem Refusal.truthful {root : String} (rooted : root ∈ g.roots)
    (known : root ∈ g.structures.map (·.name)) {e : ParseError}
    (h : Refusal packet root (attemptRoot g o packet root ctx) e) : e.Truthful g packet := by
  generalize attempt : attemptRoot g o packet root ctx = outcome at h
  cases h with
  | failed failure => exact (fails_of_attemptRoot known attempt).truthful
  | trailing c short => exact ⟨rooted, Nat.lt_of_le_of_ne (offset_rest_le attempt) short, rfl⟩

/-- The failure of a packet tells the truth about it, by whatever grammar, from whatever context and
however deep in the packet it comes about.  Offsets are those of the packet, no byte is missed that
is there, and whatever is named is in the grammar.  A root that fails is never an unknown one. -/
theorem truthful_of_parseTopLevel (valid : g.WellFormed) {e : ParseError} {after : StreamContext}
    (h : parseTopLevel g o packet ctx = (.error e, after)) : e.Truthful g packet := by
  rw [parseTopLevel] at h
  rcases firstRoot_cases g o packet ctx noRoot g.roots with
    ⟨j, root, c, -, -, -, eq⟩ | ⟨-, cause, eq, why⟩
  · rw [eq] at h
    cases h
  · rw [eq] at h
    cases h
    rcases why with ⟨none, -⟩ | ⟨root, last, refused⟩
    · exact absurd none valid.rooted
    · have rooted := List.mem_of_getLast? last
      exact refused.truthful rooted (valid.known root rooted)

end Failure

/-- A body in a window, of which the kind of the message tells what it is. -/
def windowed : Grammar where
  roots := ["Message"]
  structures := [
    ⟨"Message", [
      .field ⟨"kind", {
        length := some (.bits 8)
        triggers := some [.onField "body" [.lookup .parse [
          (.int 1, .parse "Wide"), (.int 2, .parse "Nibbles"), (.int 3, .parse "Body")]]] }, false⟩,
      .field ⟨"body", { parse := some "Wide", byteLength := some 3 }, false⟩,
      .field ⟨"trailer", { length := some .rest }, false⟩]⟩,
    ⟨"Wide", [
      .field ⟨"tag", { length := some (.bits 8) }, false⟩,
      .field ⟨"value", { length := some (.bits 32) }, false⟩]⟩,
    ⟨"Nibbles", [
      .type "Body",
      .field ⟨"flags", { length := some (.bits 12) }, false⟩,
      .field ⟨"number", { length := some .varint }, false⟩]⟩]

theorem truthful_of_parseTopLevel_windowed :
    windowed.WellFormed ∧
    (∃ e after, parseTopLevel windowed {} [1, 7, 8, 9, 5, 6] .empty = (.error e, after) ∧
      e.message = "field `value` needs 4 bytes at offset 2, only 2 left" ∧
      e.Truthful windowed [1, 7, 8, 9, 5, 6]) ∧
    ∃ e after, parseTopLevel windowed {} [2, 7, 8, 9, 5, 6] .empty = (.error e, after) ∧
      e.message = "field `number` cannot start mid-byte (bit 4 of offset 2)" ∧
      e.Truthful windowed [2, 7, 8, 9, 5, 6] := by
  have valid : windowed.WellFormed := ⟨by decide, by decide, by decide⟩
  have told : ∀ packet text,
      (match (parseTopLevel windowed {} packet .empty).1 with
        | .ok _ => none
        | .error e => some e.message) = some text →
      ∃ e after, parseTopLevel windowed {} packet .empty = (.error e, after) ∧
        e.message = text ∧ e.Truthful windowed packet := by
    intro packet text worded
    cases result : parseTopLevel windowed {} packet .empty with
    | mk outcome after =>
      rw [result] at worded
      cases outcome with
      | ok tree => cases worded
      | error e =>
        exact ⟨e, after, rfl, Option.some.inj worded, truthful_of_parseTopLevel valid result⟩
  exact ⟨valid, told _ _ (by decide +kernel), told _ _ (by decide +kernel)⟩

end WireGrammar
