import WireGrammar.Proofs.Structure.Announcement
import WireGrammar.Proofs.Value.Numeral

/-!
# Expected values that are copied

A field may copy its scalar as the value that a later field is expected to have.  The scalar is
written as a literal, and whatever the later field decodes is compared with what is read back from
that literal.  Small numbers are written as numbers, wide ones as numerals, byte strings as
hexadecimal digits; the comparison holds of the very scalar that was copied and of no other of its
kind.  Only wide numbers with the highest bit set are out of the range of the numerals that can be
read back: the literal written for one of them agrees with nothing.

* `Value.matches_echo`: which scalars agree with the literal that is written for one;
* `accepts_echo`: a field that expects a copied scalar accepts this scalar and no other;
* `refused_of_beyondNumerals`: a wide number that its own copy refuses.
-/

namespace WireGrammar

variable {g : Grammar} {o : Options} {s : Structure} {input : Slice} {ctx : StreamContext}
  {out : StructureOutcome}

/-! ### Literals that are written for scalars -/

/-- The two scalars are of one kind, as they come from the reader. -/
inductive Value.Alike : Value → Value → Prop where
  | uint (m n : Nat) : Alike (.uint m) (.uint n)
  | wide (m n : Nat) : Alike (.wide m) (.wide n)
  | bytes (bs cs : List UInt8) : Alike (.bytes bs) (.bytes cs)

/-- The scalar is a wide number that no numeral denotes. -/
def Value.beyondNumerals : Value → Bool
  | .wide n => Word.size 127 ≤ n
  | _ => false

/-- The digits of a byte string do not start with the mark of a base. -/
theorem withoutHexMark_toHex (bs : List UInt8) :
    withoutHexMark (Bytes.toHex bs) = Bytes.hexDigits bs := by
  rw [withoutHexMark, Bytes.toHex, String.toList_ofList]
  cases bs with
  | nil => rfl
  | cons b bs =>
    -- What stands second is the lower digit of the first byte.
    have digit : Bytes.hexDigit (b.toNat % 16) ≠ 'x' :=
      (Text.digitChar_plain (Nat.mod_lt _ (by decide))).2.2.2.1
    rw [Bytes.hexDigits, List.flatMap_cons, Bytes.hexByte, List.cons_append, List.cons_append,
      List.nil_append]
    generalize Bytes.hexDigit (b.toNat / 16) = high
    generalize Bytes.hexDigit (b.toNat % 16) = low at digit
    split
    · next same =>
      cases same
      exact absurd rfl digit
    · rfl

theorem Value.sameInteger_hexadecimal (m n : Nat) :
    (Value.wide n).sameInteger (Text.hexadecimal m) = true ↔ n = m ∧ m < Word.size 127 := by
  rw [sameInteger, Text.integer?_hexadecimal_eq, integer?]
  by_cases small : m < Word.size 127
  · by_cases small' : n < Word.size 127
    · simp only [small, small', if_true, beq_iff_eq, Int.natCast_inj, and_true]
    · simp only [small, small', if_true, if_false]
      constructor
      · intro h
        cases h
      · rintro ⟨rfl, -⟩
        exact absurd small small'
  · simp only [small, if_false, and_false, iff_false, Bool.not_eq_true]
    split
    · next same => cases same
    · rfl

/-- With the literal that is written for a scalar, no other of its kind agrees; it agrees itself if
the literal can be read back. -/
theorem Value.matches_echo {v w : Value} (alike : v.Alike w) {l : Literal}
    (echo : v.echo? = some l) : w.matches l = true ↔ w = v ∧ v.beyondNumerals = false := by
  cases alike with
  | uint m n =>
    rw [echo?] at echo
    split at echo
    · cases echo
      simp only [Value.matches, integer?, beq_iff_eq, Option.some.injEq, Int.natCast_inj,
        Value.uint.injEq, beyondNumerals, and_true]
    · cases echo
  | wide m n =>
    cases echo
    simp only [Value.matches, text?, Bool.or_eq_true, sameInteger_hexadecimal, Value.wide.injEq,
      beyondNumerals, decide_eq_false_iff_not, Nat.not_le, reduceCtorEq, beq_iff_eq, false_or]
  | bytes bs cs =>
    cases echo
    rw [Value.matches, withoutHexMark_toHex, Bytes.ofHexDigits?_hexDigits, beq_iff_eq]
    simp [beyondNumerals, eq_comm]

/-- What a scalar sets as the expected value is the literal that is written for it. -/
theorem AttributeValue.ofValue?_values_eq_some {raw : Value} {v : AttributeValue} :
    ofValue? .values raw = some v ↔ ∃ l, raw.echo? = some l ∧ v = .values (.single l) := by
  simp only [ofValue?, Option.map_eq_some_iff]
  exact exists_congr fun l => and_congr_right fun _ => eq_comm

/-! ### Fields that expect a copy -/

theorem FieldAttributes.rejects?_eq_none_iff {a : FieldAttributes} {spec : ValueSpec}
    (expected : a.values = some spec) (raw : Value) :
    a.rejects? raw = none ↔ spec.accepts raw = true := by
  rw [rejects?, expected]
  simp [Option.filter]

/-- **Copied values.**  The test that a scalar sets for another field accepts, of the scalars of its
kind, this one and no other, unless it is a number beyond the numerals: then it accepts none.  The
same goes for the later field of a decoded structure, whatever its declaration and the context
expect of it. -/
theorem accepts_echo {v w : Value} (alike : v.Alike w) {spec : ValueSpec}
    (set : AttributeValue.ofValue? .values v = some (.values spec)) :
    (spec.accepts w = true ↔ w = v ∧ v.beyondNumerals = false) ∧
    ∀ (g : Grammar) (o : Options) (s : Structure) (input : Slice) (ctx : StreamContext)
      (out : StructureOutcome) (ts : List Turn) (stop : Nat) (fin : Stage) (i j : Nat)
      (lead f : FieldDescriptor), Announces g ctx s .values i j lead f → o.pruneZero = false →
      Account g o s input ctx out ts stop fin →
      ∀ t ∈ ts, t.place = i → ∀ length r, t.Reads o length r → r.value = v →
        ∀ u ∈ ts, u.place = j →
          (u.attributes.rejects? w = none ↔ w = v ∧ v.beyondNumerals = false) := by
  obtain ⟨l, echo, same⟩ := AttributeValue.ofValue?_values_eq_some.mp set
  cases same
  have copied : (ValueSpec.single l).accepts w = true ↔ w = v ∧ v.beyondNumerals = false :=
    Value.matches_echo alike echo
  refine ⟨copied, ?_⟩
  intro g o s input ctx out ts stop fin i j lead f a off account t turn place length r reads read u
    turn' at_
  obtain ⟨v', value, held, -⟩ := a.announced account off turn place reads
  rw [read, set] at value
  cases value
  have expected : u.attributes.values = some (.single l) :=
    Option.map_injective (fun _ _ h => AttributeValue.values.inj h) (held u turn' at_)
  rw [FieldAttributes.rejects?_eq_none_iff expected]
  exact copied

/-- A number is copied over the one that the declaration expects. -/
theorem accepts_echo_prefixed :
    ∃ a out, a = ({ length := some (.bits 8), values := some (.single (.int 7)) } :
        FieldAttributes) ∧
      (ValueSpec.single (.int 2)).accepts (.uint 2) = true ∧
      parseStructure (prefixing .values a) {} "S" ⟨3, [2, 9, 2]⟩ .empty = .ok out ∧
      out.fields.map (fun d => (d.name, d.value?)) =
        [("n", some (.uint 2)), ("h", some (.uint 9)), ("f", some (.uint 2))] ∧
      ∃ ts stop fin, Account (prefixing .values a) {} (prefixed .values a) ⟨3, [2, 9, 2]⟩ .empty out
          ts stop fin ∧
        ∃ t ∈ ts, t.place = 0 ∧ ∃ length r, t.Reads {} length r ∧ r.value = .uint 2 ∧
          ∃ u ∈ ts, u.place = 2 ∧ u.attributes.rejects? (.uint 2) = none := by
  have fields : (parseStructure (prefixing .values
      { length := some (.bits 8), values := some (.single (.int 7)) }) {} "S" ⟨3, [2, 9, 2]⟩
      .empty).toOption.map (fun out => out.fields.map fun d => (d.name, d.value?)) =
      some [("n", some (.uint 2)), ("h", some (.uint 9)), ("f", some (.uint 2))] := by
    decide +kernel
  have announces := announces_prefixed .values
    { length := some (.bits 8), values := some (.single (.int 7)) } .empty
    (by decide +kernel) (by decide) (by decide)
  obtain ⟨out, decoded, fields⟩ := Option.map_eq_some_iff.mp fields
  have ok := Attempt.eq_ok_of_toOption decoded
  obtain ⟨d, mem, shown⟩ : ∃ d ∈ out.fields, (d.name, d.value?) = ("n", some (.uint 2)) :=
    List.mem_map.mp (fields ▸ List.mem_cons_self)
  obtain ⟨d', mem', shown'⟩ : ∃ d ∈ out.fields, (d.name, d.value?) = ("f", some (.uint 2)) :=
    List.mem_map.mp (fields ▸ by simp)
  obtain ⟨name, value⟩ := Prod.mk.inj shown
  obtain ⟨ts, stop, fin, account⟩ := Structure.Decodes.account (.called rfl ok)
  obtain ⟨t, turn, place, length, r, reads, rfl⟩ := announces.exists_reads account mem name
  obtain ⟨u, turn', at_, -, -⟩ := account.exists_turn announces.distinct announces.at_ mem'
    (Prod.mk.inj shown').1
  have read : r.value = .uint 2 := by
    have unformatted := announces.untouched.effective_eq (account.sourced.1 t turn) rfl
    simpa [scalarField, DecodedField.value?, unformatted, FieldAttributes.shown] using value
  have set : AttributeValue.ofValue? .values (.uint 2) = some (.values (.single (.int 2))) := rfl
  obtain ⟨accepted, copies⟩ := accepts_echo (.uint 2 2) set
  refine ⟨_, out, rfl, accepted.mpr ⟨rfl, rfl⟩, ok, fields, ts, stop, fin, account, t, turn, place,
    length, r, reads, read, u, turn', at_, ?_⟩
  exact (copies _ _ _ _ _ _ _ _ _ 0 2 _ _ announces rfl account t turn place length r reads read u
    turn' at_).mpr ⟨rfl, rfl⟩

/-- Two blocks of sixteen bytes, of which the second is expected to be the first. -/
def mirrored : Grammar where
  roots := ["S"]
  structures := [
    ⟨"S", [
      .field ⟨"n", {
        length := some (.bits 128), triggers := some [.onField "f" [.set .values]] }, false⟩,
      .field ⟨"f", { length := some (.bits 128) }, false⟩]⟩]

/-- A block with the highest bit set is copied, and the same block behind it is refused: the literal
written for it does not agree with the number it was written for. -/
theorem refused_of_beyondNumerals :
    ∃ block r l failure, block = 128 :: List.replicate 15 0 ∧
      BitCursor.readScalar (.start ⟨0, block⟩) (.bits 128) = .ok r ∧
      AttributeValue.ofValue? .values r.value = some (.values (.single l)) ∧
      (ValueSpec.single l).accepts r.value = false ∧
      parseStructure mirrored {} "S" ⟨0, block ++ block⟩ .empty = .error failure ∧
      failure.error = .valueMismatch "f" r.value (.test (.single l)) := by
  have read : BitCursor.readScalar (.start ⟨0, 128 :: List.replicate 15 0⟩) (.bits 128) =
      .ok ⟨.wide (Word.size 127), 128, ⟨⟨0, 128 :: List.replicate 15 0⟩, 128⟩⟩ := by
    rfl
  have refused : Attempt.cause? (parseStructure mirrored {} "S"
      ⟨0, 128 :: List.replicate 15 0 ++ 128 :: List.replicate 15 0⟩ .empty) =
        some (.valueMismatch "f" (.wide (Word.size 127))
          (.test (.single (.str (Text.hexadecimal (Word.size 127)))))) := by
    decide +kernel
  obtain ⟨failure, failed, cause⟩ := Attempt.eq_error_of_cause? refused
  exact ⟨_, _, _, failure, rfl, read, rfl, by decide +kernel, failed, cause⟩

end WireGrammar
