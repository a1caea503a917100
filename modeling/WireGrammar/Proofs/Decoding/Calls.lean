import WireGrammar.Proofs.Decoding.Agreement

/-!
# The calls that a run makes

Chains, lists and runs over descriptors call on what decodes the targets, and which calls they make
depends on what the calls before have come to.  All these calls can be listed.  Whatever answers the
calls of the list alike is as good as the decoder itself: nothing else of it is ever asked.

* `chainCalls`, `listCalls`, `fieldCalls`, `runCalls`: the calls, in their order;
* `chain_of_calls`, `chains_of_calls`, `parseField_of_calls`, `parseFields_of_calls`: the loops come
  to the same if their calls do.
-/

namespace WireGrammar

variable {o : Options} {parse parse' : TargetParser}

/-- A call of what decodes targets. -/
structure TargetCall where
  name : String
  input : Slice
  context : StreamContext

/-- What a call comes to. -/
def TargetCall.on (call : TargetCall) (parse : TargetParser) : Attempt Resolved :=
  parse call.name call.input call.context

/-! ### Chains -/

/-- The calls of a chain, the first of which is the given one. -/
def chainCalls (parse : TargetParser) (call : TargetCall) : List TargetCall :=
  match call.on parse with
  | .error _ => [call]
  | .ok r =>
    match _h : r.continuation? (call.input.drop r.consumed) with
    | none => [call]
    | some next => call :: chainCalls parse ⟨next, call.input.drop r.consumed, r.context⟩
termination_by call.input.length
decreasing_by exact Resolved.length_drop_lt _h

theorem mem_chainCalls (parse : TargetParser) (call : TargetCall) :
    call ∈ chainCalls parse call := by
  fun_cases chainCalls parse call with
  | case1 | case2 => exact List.mem_singleton_self _
  | case3 => exact List.mem_cons_self

theorem chain_of_calls {call : TargetCall}
    (same : ∀ c ∈ chainCalls parse call, c.on parse' = c.on parse) :
    chain parse' call.name call.input call.context =
      chain parse call.name call.input call.context := by
  have first := same call (mem_chainCalls parse call)
  fun_induction chainCalls parse call with
  | case1 call failure failed =>
    rw [chain_of_error failed, chain_of_error (first.trans failed)]
  | case2 call r ok stop =>
    rw [chain_of_stop ok stop, chain_of_stop (first.trans ok) stop]
  | case3 call r ok next go ih =>
    have later := (List.forall_mem_cons.mp same).2
    rw [chain_of_go ok go, chain_of_go (first.trans ok) go]
    exact congrArg _ (ih later (later _ (mem_chainCalls ..)))

/-! ### Lists -/

/-- The calls of a list of chains. -/
def listCalls (parse : TargetParser) (repetition : Repetition) (name : String) (input : Slice)
    (ctx : StreamContext) : List TargetCall :=
  if repetition.isDone || input.bytes.isEmpty then []
  else
    match chain parse name input ctx with
    | .error _ => chainCalls parse ⟨name, input, ctx⟩
    | .ok c =>
      if c.rest.length < input.length then
        chainCalls parse ⟨name, input, ctx⟩ ++
          listCalls parse repetition.pred name c.rest c.context
      else chainCalls parse ⟨name, input, ctx⟩
termination_by input.length

theorem chains_of_calls {repetition : Repetition} {name : String} {input : Slice}
    {ctx : StreamContext}
    (same : ∀ c ∈ listCalls parse repetition name input ctx, c.on parse' = c.on parse) :
    chains parse' repetition name input ctx = chains parse repetition name input ctx := by
  fun_induction listCalls parse repetition name input ctx with
  | case1 repetition input ctx ended => rw [chains_of_done ended, chains_of_done ended]
  | case2 repetition input ctx go failure failed =>
    rw [chains_of_error go failed, chains_of_error go ((chain_of_calls same).trans failed)]
  | case3 repetition input ctx go c ok forward ih =>
    obtain ⟨own, later⟩ := List.forall_mem_append.mp same
    rw [chains_of_forward go ok forward,
      chains_of_forward go ((chain_of_calls own).trans ok) forward, ih later]
  | case4 repetition input ctx go c ok still =>
    rw [chains_of_stuck go ok still, chains_of_stuck go ((chain_of_calls same).trans ok) still]

/-! ### Fields -/

/-- The calls of the turn of a field. -/
def fieldCalls (parse : TargetParser) (f : FieldDescriptor) (p : Progress) : List TargetCall :=
  let a := p.memory.effective f
  if a.isPresent p.fields then
    match a.parse, a.view p.cursor with
    | some name, .ok view =>
      listCalls parse (a.repetition (p.memory.dynamicLength f)) name view p.context
    | _, _ => []
  else []

theorem fieldCalls_of_viewed {f : FieldDescriptor} {p : Progress}
    (present : (p.memory.effective f).isPresent p.fields = true) {name : String}
    (delegated : (p.memory.effective f).parse = some name) {view : Slice}
    (viewed : (p.memory.effective f).view p.cursor = .ok view) :
    fieldCalls parse f p =
      listCalls parse ((p.memory.effective f).repetition (p.memory.dynamicLength f)) name view
        p.context := by
  simp only [fieldCalls, present, delegated, viewed, if_true]

theorem parseField_of_calls {f : FieldDescriptor} {p : Progress}
    (same : ∀ c ∈ fieldCalls parse f p, c.on parse' = c.on parse) :
    parseField o parse' f p = parseField o parse f p := by
  cases present : (p.memory.effective f).isPresent p.fields with
  | false => exact parseField_of_own (.inl present) parse' parse
  | true =>
    refine parseField_congr fun name view delegated viewed => ?_
    rw [fieldCalls_of_viewed present delegated viewed] at same
    exact chains_of_calls same

/-! ### Descriptors -/

/-- The calls of the run over the pending descriptors. -/
def runCalls (o : Options) (parse : TargetParser) (p : Progress) : List TargetCall :=
  if _exhausted : p.cursor.isExhausted then []
  else
    match _hq : p.queue with
    | [] => []
    | item :: queue =>
      match item.descriptor with
      | .type _ => runCalls o parse { p with queue }
      | .next _ => []
      | .field f =>
        match _hf : parseField o parse f { p with queue } with
        | .ok q => fieldCalls parse f { p with queue } ++ runCalls o parse q
        | .error _ =>
          if item.again then fieldCalls parse f { p with queue } ++ runCalls o parse { p with queue }
          else fieldCalls parse f { p with queue }
termination_by p.work
decreasing_by
  · simp [Progress.work, _hq]
  · have := parseField_work_le _hf (by simpa using _exhausted)
    simp only [Progress.work, _hq, List.length_cons] at this ⊢
    omega
  · simp [Progress.work, _hq]

/-- **The run over the descriptors asks for nothing but its calls.** -/
theorem parseFields_of_calls {p : Progress}
    (same : ∀ c ∈ runCalls o parse p, c.on parse' = c.on parse) :
    parseFields o parse' p = parseFields o parse p := by
  -- The list follows the run with `parse`, a try that is rolled back included, so each turn comes
  -- to the same with `parse'`.
  fun_induction runCalls o parse p with
  | case1 p ended => rw [parseFields_of_exhausted ended, parseFields_of_exhausted ended]
  | case2 p left none => rw [parseFields_of_nil none, parseFields_of_nil none]
  | case3 p left item queue first name kind ih =>
    have go := eq_false_of_ne_true left
    rw [parseFields_of_type go first kind, parseFields_of_type go first kind]
    exact ih same
  | case4 p left item queue first name kind =>
    have go := eq_false_of_ne_true left
    rw [parseFields_of_next go first kind, parseFields_of_next go first kind]
  | case5 p left item queue first f kind q ok ih =>
    have go := eq_false_of_ne_true left
    obtain ⟨own, later⟩ := List.forall_mem_append.mp same
    rw [parseFields_of_turn go first kind ok,
      parseFields_of_turn go first kind ((parseField_of_calls own).trans ok)]
    exact ih later
  | case6 p left item queue first f kind failure failed again ih =>
    have go := eq_false_of_ne_true left
    obtain ⟨own, later⟩ := List.forall_mem_append.mp same
    rw [parseFields_of_dropped go first kind failed again,
      parseFields_of_dropped go first kind ((parseField_of_calls own).trans failed) again]
    exact ih later
  | case7 p left item queue first f kind failure failed last =>
    have go := eq_false_of_ne_true left
    rw [parseFields_of_failed go first kind failed last,
      parseFields_of_failed go first kind ((parseField_of_calls same).trans failed) last]

end WireGrammar
