import WireGrammar.Packet.Dissection

/-!
# The loops, case by case

What each loop of the decoding comes to, by what its next turn does.  The structures that follow a
root are decoded by a loop of their own, which comes to what the chain inside a structure comes to
(`rootChain_eq_chain`).
-/

namespace WireGrammar

variable {o : Options} {parse : TargetParser}

/-! ### Chains -/

theorem Resolved.lt_of_continuation? {r : Resolved} {input : Slice} {next : String}
    (h : r.continuation? (input.drop r.consumed) = some next) :
    0 < r.consumed ∧ r.consumed < input.length := by
  unfold continuation? at h
  split at h
  · cases h
  · next go =>
    simp only [Slice.drop, not_or, List.drop_eq_nil_iff, Nat.not_le] at go
    unfold Slice.length
    omega

theorem Resolved.bytes_of_continuation? {r : Resolved} {rest : Slice} {next : String}
    (h : r.continuation? rest = some next) : rest.bytes ≠ [] := by
  unfold continuation? at h
  split at h
  · cases h
  · next go => exact (not_or.mp go).2

theorem Resolved.next_of_continuation? {r : Resolved} {rest : Slice} {next : String}
    (h : r.continuation? rest = some next) : r.next = some next := by
  unfold continuation? at h
  split at h
  · cases h
  · exact h

section Chain

variable {name : String} {input : Slice} {ctx : StreamContext}

theorem chain_of_error {failure : Failure} (h : parse name input ctx = .error failure) :
    chain parse name input ctx = .error failure := by
  rw [chain, h]

theorem chain_of_stop {r : Resolved} (h : parse name input ctx = .ok r)
    (stop : r.continuation? (input.drop r.consumed) = none) :
    chain parse name input ctx = .ok ⟨[r.decoded], input.drop r.consumed, r.context⟩ := by
  rw [chain, h]
  simp only
  split
  · rfl
  · next go => rw [stop] at go; cases go

theorem chain_of_go {r : Resolved} {next : String} (h : parse name input ctx = .ok r)
    (go : r.continuation? (input.drop r.consumed) = some next) :
    chain parse name input ctx =
      (chain parse next (input.drop r.consumed) r.context).map (·.after [r.decoded]) := by
  rw [chain, h]
  simp only
  split
  · next stop => rw [stop] at go; cases go
  · next go' => rw [go] at go'; cases go'; rfl

end Chain

/-! ### Roots -/

theorem Chain.after_after (c : Chain) (first second : List DecodedStructure) :
    (c.after second).after first = c.after (first ++ second) := by
  simp only [after, List.append_assoc]

/-- The structures of a packet are those of a chain, although an offset is kept for them, what is
left is asked in another place, and they are put behind those so far. -/
theorem rootChain_eq_chain {packet : List UInt8} {name : String}
    {structures : List DecodedStructure} {offset : Nat} {ctx : StreamContext}
    (go : structures = [] ∨ offset < packet.length) :
    rootChain parse packet name structures offset ctx =
      (chain parse name ⟨offset, packet.drop offset⟩ ctx).map (·.after structures) := by
  fun_induction rootChain parse packet name structures offset ctx with
  | case1 name structures offset ctx ended =>
    simp only [Bool.and_eq_true, Bool.not_eq_true', List.isEmpty_eq_false_iff,
      decide_eq_true_eq] at ended
    rcases go with none | left
    · exact absurd none ended.1
    · omega
  | case2 name structures offset ctx _ failure failed =>
    rw [chain_of_error failed]
    rfl
  | case3 name structures offset ctx _ r ok stuck =>
    have stop : r.continuation? (Slice.drop ⟨offset, packet.drop offset⟩ r.consumed) = none := by
      rw [Resolved.continuation?, if_pos (.inl stuck)]
    rw [chain_of_stop ok stop]
    simp only [Chain.upTo, Except.map, Chain.after, Slice.drop, List.drop_drop]
  | case4 name structures offset ctx _ r ok some last =>
    have stop : r.continuation? (Slice.drop ⟨offset, packet.drop offset⟩ r.consumed) = none := by
      rw [Resolved.continuation?, last, ite_self]
    rw [chain_of_stop ok stop]
    simp only [Chain.upTo, Except.map, Chain.after, Slice.drop, List.drop_drop]
  | case5 name structures offset ctx _ r ok some next goes ih =>
    by_cases left : offset + r.consumed < packet.length
    · have more : r.continuation? (Slice.drop ⟨offset, packet.drop offset⟩ r.consumed) =
          Option.some next := by
        rw [Resolved.continuation?, if_neg, goes]
        simp only [Slice.drop, List.drop_drop, List.drop_eq_nil_iff, not_or]
        omega
      rw [ih (.inr left), chain_of_go ok more]
      simp only [Slice.drop, List.drop_drop]
      cases chain parse next _ r.context with
      | error failure => rfl
      | ok c => simp only [Except.map, Chain.after_after]
    · have stop : r.continuation? (Slice.drop ⟨offset, packet.drop offset⟩ r.consumed) = none := by
        rw [Resolved.continuation?, if_pos]
        simp only [Slice.drop, List.drop_drop, List.drop_eq_nil_iff]
        omega
      rw [chain_of_stop ok stop, rootChain, dif_pos (by simp; omega)]
      simp only [Chain.upTo, Except.map, Chain.after, Slice.drop, List.drop_drop]

/-- A root is decoded as the chain on the whole packet. -/
theorem attemptRoot_eq (g : Grammar) (o : Options) (packet : List UInt8) (root : String)
    (ctx : StreamContext) :
    attemptRoot g o packet root ctx = chain (parseTarget g o) root ⟨0, packet⟩ ctx := by
  rw [attemptRoot, rootChain_eq_chain (.inl rfl), List.drop_zero]
  cases chain (parseTarget g o) root ⟨0, packet⟩ ctx <;> rfl

/-! ### Lists -/

section Chains

variable {repetition : Repetition} {name : String} {input : Slice} {ctx : StreamContext}

theorem chains_of_done (ended : repetition.isDone || input.bytes.isEmpty) :
    chains parse repetition name input ctx = .ok ⟨[], input, ctx⟩ := by
  rw [chains, if_pos ended]

theorem chains_of_error (go : ¬(repetition.isDone || input.bytes.isEmpty)) {failure : Failure}
    (h : chain parse name input ctx = .error failure) :
    chains parse repetition name input ctx = .error failure := by
  rw [chains, if_neg go, h]

theorem chains_of_stuck (go : ¬(repetition.isDone || input.bytes.isEmpty)) {c : Chain}
    (h : chain parse name input ctx = .ok c) (still : ¬c.rest.length < input.length) :
    chains parse repetition name input ctx = .ok c := by
  rw [chains, if_neg go, h]
  exact if_neg still

theorem chains_of_forward (go : ¬(repetition.isDone || input.bytes.isEmpty)) {c : Chain}
    (h : chain parse name input ctx = .ok c) (forward : c.rest.length < input.length) :
    chains parse repetition name input ctx =
      (chains parse repetition.pred name c.rest c.context).map (·.after c.structures) := by
  rw [chains, if_neg go, h]
  exact if_pos forward

end Chains

/-! ### Fields -/

section Field

variable {f : FieldDescriptor} {p : Progress}

/-- A field that no target stands for is the same whatever decodes targets. -/
theorem parseField_of_own (here : (p.memory.effective f).isPresent p.fields = false ∨
    (p.memory.effective f).parse = none) (parse parse' : TargetParser) :
    parseField o parse f p = parseField o parse' f p := by
  unfold parseField parseWith
  rcases here with absent | own
  · rw [absent]
    rfl
  · rw [own]
    cases (p.memory.effective f).length <;> rfl

theorem parseField_of_unviewed (present : (p.memory.effective f).isPresent p.fields = true)
    {name : String} (delegated : (p.memory.effective f).parse = some name) {cause : ReadError}
    (refused : (p.memory.effective f).view p.cursor = .error cause) :
    parseField o parse f p = p.fail (.unreadable f.name cause) := by
  rw [parseField, parseWith, if_pos present, delegated]
  simp only
  rw [parseTargetField, refused]

theorem parseField_of_viewed (present : (p.memory.effective f).isPresent p.fields = true)
    {name : String} (delegated : (p.memory.effective f).parse = some name) {view : Slice}
    (viewed : (p.memory.effective f).view p.cursor = .ok view) :
    parseField o parse f p =
      (chains parse ((p.memory.effective f).repetition (p.memory.dynamicLength f)) name view
        p.context).map fun c => (p.afterChain f.name view c).requeueIf f p.cursor
          (0 < (p.afterChain f.name view c).cursor.remainingBytes) := by
  rw [parseField, parseWith, if_pos present, delegated]
  simp only
  rw [parseTargetField, viewed]
  simp only
  cases chains parse _ name view p.context <;> rfl

end Field

/-! ### Descriptors -/

section Descriptors

variable {p : Progress} {item : Pending} {queue : List Pending}

theorem parseFields_of_exhausted (ended : p.cursor.isExhausted) :
    parseFields o parse p = .ok ⟨p, none⟩ := by
  rw [parseFields, dif_pos ended]

theorem parseFields_of_empty (go : p.cursor.isExhausted = false) (ended : p.queue = []) :
    parseFields o parse p = .ok ⟨p, none⟩ := by
  rw [parseFields, dif_neg (by simp [go])]
  split
  · rfl
  · next first => rw [ended] at first; cases first

theorem parseFields_of_cons (go : p.cursor.isExhausted = false) (first : p.queue = item :: queue) :
    parseFields o parse p =
      match item.descriptor with
      | .type _ => parseFields o parse { p with queue }
      | .next name => .ok ⟨{ p with queue }, some name⟩
      | .field f =>
        match parseField o parse f { p with queue } with
        | .ok q => parseFields o parse q
        | .error failure =>
          if item.again then parseFields o parse { p with queue } else .error failure := by
  rw [parseFields, dif_neg (by simp [go])]
  split
  · next none => rw [first] at none; cases none
  · next item' queue' first' =>
    rw [first] at first'
    cases first'
    cases item.descriptor with
    | type name => rfl
    | next name => rfl
    | field f =>
      dsimp only
      split
      · next q ok => rw [ok]
      · next failure failed => rw [failed]

section Kinds

variable (go : p.cursor.isExhausted = false) (first : p.queue = item :: queue)

include go first

theorem parseFields_of_type {name : String} (kind : item.descriptor = .type name) :
    parseFields o parse p = parseFields o parse { p with queue } := by
  rw [parseFields_of_cons go first, kind]

theorem parseFields_of_next {name : String} (kind : item.descriptor = .next name) :
    parseFields o parse p = .ok ⟨{ p with queue }, some name⟩ := by
  rw [parseFields_of_cons go first, kind]

variable {f : FieldDescriptor} (kind : item.descriptor = .field f)

include kind

theorem parseFields_of_turn {q : Progress} (ok : parseField o parse f { p with queue } = .ok q) :
    parseFields o parse p = parseFields o parse q := by
  rw [parseFields_of_cons go first, kind]
  simp only [ok]

variable {failure : Failure} (failed : parseField o parse f { p with queue } = .error failure)

include failed

theorem parseFields_of_dropped (again : item.again = true) :
    parseFields o parse p = parseFields o parse { p with queue } := by
  rw [parseFields_of_cons go first, kind]
  simp only [failed, again, if_true]

theorem parseFields_of_failed (once : ¬item.again = true) :
    parseFields o parse p = .error failure := by
  rw [parseFields_of_cons go first, kind]
  simp only [failed, if_neg once]

end Kinds

/-- A field that takes its first turn. -/
theorem parseFields_of_field {f : FieldDescriptor} (go : p.cursor.isExhausted = false)
    (first : p.queue = ⟨.field f, false⟩ :: queue) :
    parseFields o parse p = (parseField o parse f { p with queue }).bind (parseFields o parse) := by
  cases turn : parseField o parse f { p with queue } with
  | ok q => exact parseFields_of_turn go first rfl turn
  | error failure => exact parseFields_of_failed go first rfl turn Bool.false_ne_true

theorem parseFields_of_nil (ended : p.queue = []) : parseFields o parse p = .ok ⟨p, none⟩ := by
  cases left : p.cursor.isExhausted with
  | true => exact parseFields_of_exhausted left
  | false => exact parseFields_of_empty left ended

end Descriptors

end WireGrammar
