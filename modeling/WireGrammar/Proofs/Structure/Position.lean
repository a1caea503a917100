import WireGrammar.Proofs.Decoding.Lockstep

/-!
# The place of the bytes does not matter

The offset that a slice starts at comes back in the places of fields and of failures.  It also takes
part in the guard against structures that enter themselves, and in the windows of targets.  All the
same it steers nothing: the same bytes `k` bytes further on are decoded alike, and every offset in
the result is greater by `k`.

* `DecodedStructure.shift`: a decoded structure `k` bytes further on;
* `decode_shift`: structures, types and names are decoded alike wherever the bytes start.
-/

namespace WireGrammar

/-! ### Moving what is decoded -/

mutual

/-- The field `k` bytes further on, and all that is in it. -/
def DecodedField.shift (k : Nat) : DecodedField → DecodedField
  | .scalar name value start stop => .scalar name value (start + k) (stop + k)
  | .nested name inner start stop => .nested name (inner.shift k) (start + k) (stop + k)

/-- The structure `k` bytes further on, and all that is in it. -/
def DecodedStructure.shift (k : Nat) : DecodedStructure → DecodedStructure
  | ⟨name, fields, start, stop⟩ => ⟨name, shiftFields k fields, start + k, stop + k⟩

/-- The fields `k` bytes further on. -/
def shiftFields (k : Nat) : List DecodedField → List DecodedField
  | [] => []
  | f :: fs => f.shift k :: shiftFields k fs

end

/-- The outcome with its fields `k` bytes further on; the number of bytes taken, the structure that
follows and the context are the same. -/
def StructureOutcome.shift (k : Nat) (out : StructureOutcome) : StructureOutcome :=
  { out with fields := shiftFields k out.fields }

/-- The decoded structure `k` bytes further on; the rest is the same. -/
def Resolved.shift (k : Nat) (r : Resolved) : Resolved := { r with decoded := r.decoded.shift k }

/-- The outcome of an attempt, `k` bytes further on: a failure is shifted, a result is moved by
`f`. -/
def shiftAttempt {α : Type} (k : Nat) (f : α → α) : Attempt α → Attempt α
  | .ok a => .ok (f a)
  | .error failure => .error (failure.shift k)

theorem InStep.eq_shiftAttempt {α : Type} {k : Nat} {f : α → α} {x y : Attempt α}
    (h : InStep k (fun a b => b = f a) x y) : y = shiftAttempt k f x := by
  cases h with
  | ok same => rw [same, shiftAttempt]
  | error failure => rfl

section Shift

variable (k : Nat)

@[simp] theorem DecodedField.name_shift (f : DecodedField) : (f.shift k).name = f.name := by
  cases f <;> rfl

@[simp] theorem DecodedField.value?_shift (f : DecodedField) : (f.shift k).value? = f.value? := by
  cases f <;> rfl

/-- Nesting a structure and moving it may be done in either order. -/
theorem DecodedField.shift_nested (name : String) (s : DecodedStructure) :
    (DecodedField.nested name s s.start s.stop).shift k =
      .nested name (s.shift k) (s.shift k).start (s.shift k).stop := by
  obtain ⟨own, fields, start, stop⟩ := s
  rw [DecodedField.shift, DecodedStructure.shift]

theorem shiftFields_eq_map (fs : List DecodedField) :
    shiftFields k fs = fs.map (DecodedField.shift k) := by
  induction fs with
  | nil => rfl
  | cons f fs ih => rw [shiftFields, ih, List.map_cons]

theorem eq_shiftFields {fs fs' : List DecodedField}
    (h : List.Forall₂ (fun f f' => f' = f.shift k) fs fs') : fs' = shiftFields k fs := by
  induction h with
  | nil => rfl
  | cons head tail ih => rw [shiftFields, head, ih]

/-- Conditions look at names and values. -/
theorem Condition.holds_shiftFields (fs : List DecodedField) (c : Condition) :
    Condition.holds (shiftFields k fs) c = Condition.holds fs c := by
  have named : ((fun f : DecodedField => f.name == c.field) ∘ DecodedField.shift k) =
      fun f : DecodedField => f.name == c.field := by
    funext f
    rw [Function.comp_apply, DecodedField.name_shift]
  unfold Condition.holds
  rw [shiftFields_eq_map, List.find?_map, named]
  cases fs.find? (fun f => f.name == c.field) with
  | none => rfl
  | some f => simp only [Option.map_some, DecodedField.value?_shift]

theorem FieldAttributes.isPresent_shiftFields (a : FieldAttributes) (fs : List DecodedField) :
    a.isPresent (shiftFields k fs) = a.isPresent fs := by
  unfold FieldAttributes.isPresent
  congr 1
  funext c
  exact Condition.holds_shiftFields k fs c

end Shift

/-! ### Decoding alike -/

/-- Side by side with itself, a list has the same element at the same place. -/
theorem eq_of_mem_zip_self {α : Type} {as : List α} {a b : α} (h : (a, b) ∈ as.zip as) : a = b := by
  induction as with
  | nil => cases h
  | cons c as ih =>
    rw [List.zip_cons_cons] at h
    rcases List.mem_cons.mp h with same | rest
    · cases same
      rfl
    · exact ih rest

/-- A run with a grammar and one with the same grammar, `k` bytes further on, are in step. -/
theorem lockstep_shift (g : Grammar) (o : Options) (entry : StreamContext) (k : Nat) :
    Lockstep g g o entry k (fun _ _ f f' => f' = f.shift k) (fun d d' => d' = d.shift k) where
  like := .refl g
  present := by
    intro s s' f m fields fields' _ _ _ related
    rw [eq_shiftFields k related, FieldAttributes.isPresent_shiftFields]
  scalar := by
    intro s s' f format c fields m length r m' pair own _ turn
    obtain rfl := eq_of_mem_zip_self pair
    have same : f = f.withFormat format := Descriptor.field.inj (eq_of_mem_zip_self own)
    rw [← same]
    simp only [scalarField, DecodedField.shift, Reading.shift, BitCursor.absolute_shift,
      scalarStop_shift]
  nested := by
    intro s s' d d' name related
    rw [related, DecodedField.shift_nested]
  finish := by
    intro s s' fields fields' pair related offset n
    obtain rfl := eq_of_mem_zip_self pair
    rw [eq_shiftFields k related]
    simp only [DecodedStructure.shift, DecodedStructure.mk.injEq, true_and]
    omega

/-- The same bytes are decoded alike at any offset: as a structure, as a type and by any name.  With
`k` bytes in front, every offset in a result or a failure is greater by `k`, and all else is the
same. -/
theorem decode_shift (g : Grammar) (o : Options) (name : String) (offset : Nat)
    (bytes : List UInt8) (ctx : StreamContext) (k : Nat) :
    parseStructure g o name ⟨offset + k, bytes⟩ ctx =
        shiftAttempt k (·.shift k) (parseStructure g o name ⟨offset, bytes⟩ ctx) ∧
      resolveType g o name ⟨offset + k, bytes⟩ ctx =
        shiftAttempt k (·.shift k) (resolveType g o name ⟨offset, bytes⟩ ctx) ∧
      parseTarget g o name ⟨offset + k, bytes⟩ ctx =
        shiftAttempt k (·.shift k) (parseTarget g o name ⟨offset, bytes⟩ ctx) := by
  have l := lockstep_shift g o ctx k
  have resolved : ∀ r r', Resolved.Paired g ctx (fun d d' => d' = d.shift k) r r' →
      r' = r.shift k := by
    intro r r' h
    obtain ⟨decoded, consumed, next, context⟩ := r'
    obtain ⟨rfl, rfl, rfl, rfl, -⟩ := h
    rfl
  refine ⟨?_, ?_, ?_⟩
  · have step := l.parseStructure name ⟨offset, bytes⟩ (.refl g ctx)
    refine (step.mono fun out out' related => ?_).eq_shiftAttempt
    obtain ⟨s, s', -, paired⟩ := related
    obtain ⟨fields, consumed, next, context⟩ := out'
    obtain ⟨fields, rfl, rfl, rfl, -⟩ := paired
    rw [StructureOutcome.shift, ← eq_shiftFields k fields]
  · have step := l.resolveType name ⟨offset, bytes⟩ (.refl g ctx)
    exact (step.mono resolved).eq_shiftAttempt
  · have step := l.parseTarget name ⟨offset, bytes⟩ (.refl g ctx)
    exact (step.mono resolved).eq_shiftAttempt

end WireGrammar
