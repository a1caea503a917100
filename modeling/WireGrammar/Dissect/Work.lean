import WireGrammar.Cursor.Lemmas
import WireGrammar.Dissect.Field

/-!
# The work left in a structure

Decoding a field never adds to the work to be done (`parseField_work_le`).  The cursor only goes
forward, and a field is queued again only if it took something, so the bits left and the descriptors
pending, taken together, do not grow.  Whatever decodes the targets does not matter for this.
-/

namespace WireGrammar

/-- A scalar is read from the slice of its cursor, forward. -/
theorem BitCursor.readScalar_forward {c : BitCursor} {length : Length} {r : Reading}
    (h : c.readScalar length = .ok r) :
    r.cursor.slice = c.slice ∧ r.cursor.remainingBits ≤ c.remainingBits := by
  have ofPrefixed {width : Nat} {p : Prefixed} (hp : c.takePrefixed width = .ok p) :
      p.cursor.slice = c.slice ∧ p.cursor.remainingBits ≤ c.remainingBits := by
    obtain ⟨-, rfl⟩ := takePrefixed_eq_ok.mp hp
    exact ⟨rfl, by simp only [remainingBits]; omega⟩
  cases length with
  | varint =>
    simp only [readScalar] at h
    cases hp : c.takeVarint with
    | error e => simp [hp, bind, Except.bind] at h
    | ok p =>
      simp only [hp, bind, Except.bind, pure, Except.pure, Except.ok.injEq] at h
      subst h
      exact ofPrefixed (takeVarint_eq_ok.mp hp).2.2
  | packetNumber =>
    simp only [readScalar] at h
    cases hp : c.takePacketNumber with
    | error e => simp [hp, bind, Except.bind] at h
    | ok p =>
      simp only [hp, bind, Except.bind, pure, Except.pure, Except.ok.injEq] at h
      subst h
      obtain ⟨-, -, _, -, hw⟩ := takePacketNumber_eq_ok.mp hp
      exact ofPrefixed hw
  | rest =>
    simp only [readScalar] at h
    cases hp : c.takeRest with
    | error e => simp [hp, bind, Except.bind] at h
    | ok p =>
      obtain ⟨-, rfl⟩ := takeRest_eq_ok.mp hp
      simp only [hp, bind, Except.bind, pure, Except.pure, Except.ok.injEq] at h
      subst h
      exact ⟨rfl, by simp only [remainingBits]; omega⟩
  | bits n =>
    simp only [readScalar] at h
    split at h
    · simp only [pure, Except.pure, Except.ok.injEq] at h
      subst h
      exact ⟨rfl, Nat.le_refl _⟩
    · split at h
      · cases hp : c.takeBytes (n / 8) with
        | error e => simp [hp, bind, Except.bind] at h
        | ok p =>
          obtain ⟨-, -, rfl⟩ := takeBytes_eq_ok.mp hp
          simp only [hp, bind, Except.bind, pure, Except.pure, Except.ok.injEq] at h
          subst h
          exact ⟨rfl, by simp only [remainingBits]; omega⟩
      · cases hp : c.takeBits n with
        | error e => simp [hp, bind, Except.bind] at h
        | ok p =>
          obtain ⟨-, -, rfl⟩ := takeBits_eq_ok.mp hp
          simp only [hp, bind, Except.bind, pure, Except.pure, Except.ok.injEq] at h
          subst h
          exact ⟨rfl, by simp only [remainingBits]; omega⟩

/-- Queueing a field again does not add to the work, since the cursor went forward. -/
theorem Progress.work_requeueIf_le {p q : Progress} {f : FieldDescriptor} {enough : Bool}
    (same : q.cursor.slice = p.cursor.slice)
    (bits : q.cursor.remainingBits ≤ p.cursor.remainingBits)
    (queue : q.queue.length ≤ p.queue.length) (left : p.cursor.isExhausted = false) :
    (q.requeueIf f p.cursor enough).work ≤ p.work := by
  unfold requeueIf
  split
  · next again =>
    simp only [Bool.and_eq_true, decide_eq_true_eq] at again
    have := BitCursor.remainingBits_lt same again.1.2 left
    simp only [work, requeue, List.length_cons]
    omega
  · exact Nat.add_le_add bits queue

theorem parseScalar_work_le {o : Options} {f : FieldDescriptor} {a : FieldAttributes}
    {length : Length} {p q : Progress} (h : parseScalar o f a length p = .ok q)
    (left : p.cursor.isExhausted = false) : q.work ≤ p.work := by
  unfold parseScalar at h
  split at h
  · simp [Progress.fail] at h
  next r hr =>
    have forward := BitCursor.readScalar_forward hr
    split at h
    · simp [Progress.fail] at h
    · split at h
      · simp at h
      · cases h
        exact Progress.work_requeueIf_le forward.1 forward.2 (List.length_filter_le ..) left

theorem parseTargetField_work_le {parse : TargetParser} {f : FieldDescriptor}
    {a : FieldAttributes} {target : String} {p q : Progress}
    (h : parseTargetField parse f a target p = .ok q)
    (left : p.cursor.isExhausted = false) : q.work ≤ p.work := by
  unfold parseTargetField at h
  split at h
  · simp [Progress.fail] at h
  · split at h
    · simp at h
    · cases h
      exact Progress.work_requeueIf_le rfl (BitCursor.remainingBits_advance_le ..)
        (Nat.le_refl _) left

/-- Decoding a field does not add to the work to be done. -/
theorem parseField_work_le {o : Options} {parse : TargetParser} {f : FieldDescriptor}
    {p q : Progress} (h : parseField o parse f p = .ok q) (left : p.cursor.isExhausted = false) :
    q.work ≤ p.work := by
  unfold parseField parseWith at h
  split at h
  · split at h
    · exact parseTargetField_work_le h left
    · exact parseScalar_work_le h left
    · cases h; exact Nat.le_refl _
  · cases h; exact Nat.le_refl _

end WireGrammar
