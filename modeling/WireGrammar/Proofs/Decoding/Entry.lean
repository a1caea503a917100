import WireGrammar.Proofs.Grammar.Cut
import WireGrammar.Proofs.Grammar.Insertion

/-!
# Entries into structures

Whatever is asked of a grammar, structures are entered for it, others inside of them, and so on, and
those count as well that turn out not to fit.  In each structure fields take their turns, also turns
that fail, and their turns call for the structures inside.

* `runTurns`: the fields that take their turns in a run, with the progress that each of them finds;
* `Entry`, `Entry.inner`: a structure that is entered, and the structures that are entered in it;
* `Query.Reaches`: all structures that are entered for what is asked of a grammar;
* `Query.Reaches.sourced`, `Entry.sourced_of_turn`: wherever they are entered, contexts and memories
  hold nothing but what can come about.
-/

namespace WireGrammar

variable {g : Grammar} {o : Options} {parse : TargetParser} {entry : StreamContext}

/-! ### Turns -/

/-- A field that takes its turn, and the progress that it finds. -/
structure FieldTry where
  field : FieldDescriptor
  progress : Progress

/-- The fields that take their turns in the run over the pending descriptors. -/
def runTurns (o : Options) (parse : TargetParser) (p : Progress) : List FieldTry :=
  if _exhausted : p.cursor.isExhausted then []
  else
    match _hq : p.queue with
    | [] => []
    | item :: queue =>
      match item.descriptor with
      | .type _ => runTurns o parse { p with queue }
      | .next _ => []
      | .field f =>
        match _hf : parseField o parse f { p with queue } with
        | .ok q => ⟨f, { p with queue }⟩ :: runTurns o parse q
        | .error _ =>
          if item.again then ⟨f, { p with queue }⟩ :: runTurns o parse { p with queue }
          else [⟨f, { p with queue }⟩]
termination_by p.work
decreasing_by
  · simp [Progress.work, _hq]
  · have := parseField_work_le _hf (by simpa using _exhausted)
    simp only [Progress.work, _hq, List.length_cons] at this ⊢
    omega
  · simp [Progress.work, _hq]

theorem runCalls_of_cons {p : Progress} {item : Pending} {queue : List Pending}
    (go : ¬p.cursor.isExhausted = true) (first : p.queue = item :: queue) :
    runCalls o parse p =
      match item.descriptor with
      | .type _ => runCalls o parse { p with queue }
      | .next _ => []
      | .field f =>
        match parseField o parse f { p with queue } with
        | .ok q => fieldCalls parse f { p with queue } ++ runCalls o parse q
        | .error _ =>
          if item.again then
            fieldCalls parse f { p with queue } ++ runCalls o parse { p with queue }
          else fieldCalls parse f { p with queue } := by
  rw [runCalls, dif_neg go]
  split
  · next none => rw [first] at none; cases none
  · next item' queue' first' =>
    rw [first] at first'
    cases first'
    cases item.descriptor with
    | type name => rfl
    | next name => rfl
    | field f =>
      dsimp only
      split
      · next q ok => rw [ok]
      · next failure failed => rw [failed]

/-- The calls of a run are those of its turns. -/
theorem runCalls_eq (o : Options) (parse : TargetParser) (p : Progress) :
    runCalls o parse p =
      (runTurns o parse p).flatMap fun t => fieldCalls parse t.field t.progress := by
  fun_induction runTurns o parse p with
  | case1 p ended => rw [runCalls, dif_pos ended, List.flatMap_nil]
  | case2 p left none =>
    rw [runCalls, dif_neg left, List.flatMap_nil]
    split
    · rfl
    · next some => rw [none] at some; cases some
  | case3 p left item queue first name kind ih => rw [runCalls_of_cons left first, kind, ← ih]
  | case4 p left item queue first name kind =>
    rw [runCalls_of_cons left first, kind, List.flatMap_nil]
  | case5 p left item queue first f kind q ok ih =>
    rw [runCalls_of_cons left first, kind, List.flatMap_cons, ← ih]
    simp only [ok]
  | case6 p left item queue first f kind failure failed again ih =>
    rw [runCalls_of_cons left first, kind, List.flatMap_cons, ← ih]
    simp only [failed, again, if_true]
  | case7 p left item queue first f kind failure failed last =>
    rw [runCalls_of_cons left first, kind, List.flatMap_singleton]
    simp only [failed, if_neg last]

/-- What holds at the start of a run, and is kept by passing over descriptors, by turns that go well
and by tries that are dropped, holds at the turns, one way or another. -/
theorem runTurns_invariant {s : Structure} (Inv : Progress → Prop)
    (At : FieldDescriptor → Progress → Prop) {p : Progress} (hp : Inv p) (own : p.Own s)
    (pass : ∀ p item queue name, Inv p → p.queue = item :: queue →
      item.descriptor = .type name → Inv { p with queue })
    (found : ∀ p item queue f, Inv p → p.cursor.isExhausted = false → p.queue = item :: queue →
      item.descriptor = .field f → .field f ∈ s.descriptors → At f { p with queue })
    (turn : ∀ p item queue f q, Inv p → p.cursor.isExhausted = false → p.queue = item :: queue →
      item.descriptor = .field f → .field f ∈ s.descriptors →
      FieldTurn o parse f { p with queue } q → Inv q)
    (drop : ∀ p item queue, Inv p → p.queue = item :: queue → item.again = true →
      Inv { p with queue }) :
    ∀ t ∈ runTurns o parse p, At t.field t.progress := by
  fun_induction runTurns o parse p with
  | case1 | case2 | case4 => exact List.forall_mem_nil _
  | case3 p left item queue first name kind ih =>
    exact ih (pass p item queue name hp first kind) (own.tail first)
  | case5 p left item queue first f kind q ok ih =>
    have go := eq_false_of_ne_true left
    have isOwn : .field f ∈ s.descriptors := kind ▸ own.head first
    have taken := parseField_eq_ok.mp ok
    exact List.forall_mem_cons.mpr ⟨found p item queue f hp go first kind isOwn,
      ih (turn p item queue f q hp go first kind isOwn taken) ((own.tail first).turn isOwn taken)⟩
  | case6 p left item queue first f kind failure failed again ih =>
    have go := eq_false_of_ne_true left
    have isOwn : .field f ∈ s.descriptors := kind ▸ own.head first
    exact List.forall_mem_cons.mpr ⟨found p item queue f hp go first kind isOwn,
      ih (drop p item queue hp first again) (own.tail first)⟩
  | case7 p left item queue first f kind failure failed last =>
    have go := eq_false_of_ne_true left
    have isOwn : .field f ∈ s.descriptors := kind ▸ own.head first
    exact List.forall_mem_singleton.mpr (found p item queue f hp go first kind isOwn)

/-! ### Calls -/

section Calls

variable {P : Slice → StreamContext → Prop}
  (keeps : ∀ {name input ctx r}, parse name input ctx = .ok r → P input ctx →
    P (input.drop r.consumed) r.context)

include keeps

theorem chainCalls_invariant {call : TargetCall} (h : P call.input call.context) :
    ∀ c ∈ chainCalls parse call, P c.input c.context := by
  fun_induction chainCalls parse call with
  | case1 | case2 => exact List.forall_mem_singleton.mpr h
  | case3 call r ok next go ih => exact List.forall_mem_cons.mpr ⟨h, ih (keeps ok h)⟩

theorem chain_invariant {name : String} {input : Slice} {ctx : StreamContext} {c : Chain}
    (h : P input ctx) (ok : chain parse name input ctx = .ok c) : P c.rest c.context := by
  fun_induction chain parse name input ctx generalizing c with
  | case1 => cases ok
  | case2 name input ctx r ok' last => cases ok; exact keeps ok' h
  | case3 name input ctx r ok' next more ih =>
    obtain ⟨t, tail, rfl⟩ := map_eq_ok.mp ok
    have last := ih (keeps ok' h) tail
    exact last

theorem listCalls_invariant {repetition : Repetition} {name : String} {input : Slice}
    {ctx : StreamContext} (h : P input ctx) :
    ∀ c ∈ listCalls parse repetition name input ctx, P c.input c.context := by
  fun_induction listCalls parse repetition name input ctx with
  | case1 => exact List.forall_mem_nil _
  | case2 | case4 => exact chainCalls_invariant keeps h
  | case3 repetition input ctx go c ok forward ih =>
    exact List.forall_mem_append.mpr
      ⟨chainCalls_invariant keeps h, ih (chain_invariant keeps h ok)⟩

end Calls

/-- Behind the first call, a chain calls only where bytes are left. -/
theorem bytes_of_mem_chainCalls {call c : TargetCall} (some_ : call.input.bytes ≠ [])
    (mem : c ∈ chainCalls parse call) : c.input.bytes ≠ [] := by
  fun_induction chainCalls parse call with
  | case1 | case2 => rwa [List.mem_singleton.mp mem]
  | case3 call r ok next go ih =>
    rcases List.mem_cons.mp mem with rfl | later
    · exact some_
    · exact ih (Resolved.bytes_of_continuation? go) later

/-- A list calls only where bytes are left. -/
theorem bytes_of_mem_listCalls {repetition : Repetition} {name : String} {input : Slice}
    {ctx : StreamContext} {c : TargetCall}
    (mem : c ∈ listCalls parse repetition name input ctx) : c.input.bytes ≠ [] := by
  have filled {repetition : Repetition} {input : Slice}
      (go : ¬(repetition.isDone || input.bytes.isEmpty)) : input.bytes ≠ [] := by
    intro none
    simp [none] at go
  fun_induction listCalls parse repetition name input ctx with
  | case1 => cases mem
  | case2 repetition input ctx go | case4 repetition input ctx go =>
    exact bytes_of_mem_chainCalls (filled go) mem
  | case3 repetition input ctx go c ok forward ih =>
    rcases List.mem_append.mp mem with own | later
    · exact bytes_of_mem_chainCalls (filled go) own
    · exact ih later

/-- The turn of a field calls for a target only in its view of the bytes. -/
theorem viewed_of_mem_fieldCalls {f : FieldDescriptor} {p : Progress} {c : TargetCall}
    (mem : c ∈ fieldCalls parse f p) : ∃ name view,
      (p.memory.effective f).parse = some name ∧ (p.memory.effective f).view p.cursor = .ok view ∧
      c ∈ listCalls parse ((p.memory.effective f).repetition (p.memory.dynamicLength f)) name view
        p.context := by
  unfold fieldCalls at mem
  simp only at mem
  split at mem
  · split at mem
    · next name view delegated viewed => exact ⟨name, view, delegated, viewed, mem⟩
    · cases mem
  · cases mem

/-- The structures of a chain are what its calls come to. -/
theorem call_of_mem_chain (call : TargetCall) {c : Chain}
    (ok : chain parse call.name call.input call.context = .ok c) {d : DecodedStructure}
    (mem : d ∈ c.structures) :
    ∃ made ∈ chainCalls parse call, ∃ r, made.on parse = .ok r ∧ r.decoded = d := by
  fun_induction chainCalls parse call generalizing c with
  | case1 call failure failed =>
    rw [chain_of_error failed] at ok
    cases ok
  | case2 call r first stop =>
    rw [chain_of_stop first stop] at ok
    cases ok
    exact ⟨call, List.mem_singleton_self call, r, first, (List.mem_singleton.mp mem).symm⟩
  | case3 call r first next go ih =>
    rw [chain_of_go first go] at ok
    obtain ⟨rest, later, rfl⟩ := map_eq_ok.mp ok
    rcases List.mem_cons.mp mem with rfl | further
    · exact ⟨call, List.mem_cons_self, r, first, rfl⟩
    · obtain ⟨made, own, r', on, same⟩ := ih later further
      exact ⟨made, List.mem_cons_of_mem _ own, r', on, same⟩

/-- So are those of a list. -/
theorem call_of_mem_chains {repetition : Repetition} {name : String} {input : Slice}
    {ctx : StreamContext} {c : Chain} (ok : chains parse repetition name input ctx = .ok c)
    {d : DecodedStructure} (mem : d ∈ c.structures) :
    ∃ made ∈ listCalls parse repetition name input ctx, ∃ r,
      made.on parse = .ok r ∧ r.decoded = d := by
  fun_induction listCalls parse repetition name input ctx generalizing c with
  | case1 repetition input ctx ended =>
    rw [chains_of_done ended] at ok
    cases ok
    cases mem
  | case2 repetition input ctx go failure failed =>
    rw [chains_of_error go failed] at ok
    cases ok
  | case3 repetition input ctx go first here forward ih =>
    rw [chains_of_forward go here forward] at ok
    obtain ⟨rest, later, rfl⟩ := map_eq_ok.mp ok
    rcases List.mem_append.mp mem with own | further
    · obtain ⟨made, call, found⟩ := call_of_mem_chain ⟨name, input, ctx⟩ here own
      exact ⟨made, List.mem_append_left _ call, found⟩
    · obtain ⟨made, call, found⟩ := ih later further
      exact ⟨made, List.mem_append_right _ call, found⟩
  | case4 repetition input ctx go first here still =>
    rw [chains_of_stuck go here still] at ok
    cases ok
    exact call_of_mem_chain ⟨name, input, ctx⟩ here mem

/-! ### Fields of turns -/

namespace FieldTry

/-- The attributes that the field is decoded with. -/
def attributes (t : FieldTry) : FieldAttributes := t.progress.memory.effective t.field

/-- The turn decodes the scalar `r` of this length, and leaves the memory `m`. -/
def Decodes (o : Options) (t : FieldTry) (length : Length) (r : Reading) (m : Memory) : Prop :=
  ScalarTurn o t.field t.progress.cursor t.progress.fields t.progress.memory length r m

/-- The turn adds the field to those of the structure. -/
inductive Adds (o : Options) (parse : TargetParser) (t : FieldTry) : DecodedField → Prop where
  | scalar {length : Length} {r : Reading} {m : Memory} (turn : t.Decodes o length r m) :
      Adds o parse t (scalarField t.field t.progress.cursor t.progress.memory r)
  | nested {call : TargetCall} {r : Resolved} (made : call ∈ fieldCalls parse t.field t.progress)
      (ok : call.on parse = .ok r) :
      Adds o parse t (.nested t.field.name r.decoded r.decoded.start r.decoded.stop)

end FieldTry

/-- The turn of a field adds what it decodes. -/
theorem FieldTurn.adds {f : FieldDescriptor} {p q : Progress} (h : FieldTurn o parse f p q)
    {d : DecodedField} (mem : d ∈ q.fields) : d ∈ p.fields ∨ FieldTry.Adds o parse ⟨f, p⟩ d := by
  cases h with
  | idle => exact .inl mem
  | scalar turn =>
    rw [Progress.fields_requeueIf] at mem
    rcases List.mem_append.mp mem with old | new
    · exact .inl old
    · rw [List.mem_singleton.mp new]
      exact .inr (.scalar (t := ⟨f, p⟩) turn)
  | target turn =>
    rw [Progress.fields_requeueIf] at mem
    rcases List.mem_append.mp mem with old | new
    · exact .inl old
    · obtain ⟨s, own, rfl⟩ := List.mem_map.mp new
      obtain ⟨call, made, r, ok, rfl⟩ := call_of_mem_chains turn.decoded own
      refine .inr (.nested (t := ⟨f, p⟩) ?_ ok)
      rw [fieldCalls_of_viewed turn.present turn.delegated turn.viewed]
      exact made

/-- What is decoded at the end of a run was added by its turns. -/
theorem adds_of_parseFields {p : Progress} {fin : Finish} (run : parseFields o parse p = .ok fin)
    {d : DecodedField} (mem : d ∈ fin.progress.fields) :
    d ∈ p.fields ∨ ∃ t ∈ runTurns o parse p, t.Adds o parse d := by
  fun_induction runTurns o parse p with
  | case1 p ended =>
    rw [parseFields_of_exhausted ended] at run
    cases run
    exact .inl mem
  | case2 p left none =>
    rw [parseFields_of_nil none] at run
    cases run
    exact .inl mem
  | case3 p left item queue first name kind ih =>
    rw [parseFields_of_type (eq_false_of_ne_true left) first kind] at run
    exact ih run
  | case4 p left item queue first name kind =>
    rw [parseFields_of_next (eq_false_of_ne_true left) first kind] at run
    cases run
    exact .inl mem
  | case5 p left item queue first f kind q ok ih =>
    rw [parseFields_of_turn (eq_false_of_ne_true left) first kind ok] at run
    rcases ih run with before | ⟨t, turn, adds⟩
    · exact ((parseField_eq_ok.mp ok).adds before).imp_right
        fun adds => ⟨_, List.mem_cons_self, adds⟩
    · exact .inr ⟨t, List.mem_cons_of_mem _ turn, adds⟩
  | case6 p left item queue first f kind failure failed again ih =>
    rw [parseFields_of_dropped (eq_false_of_ne_true left) first kind failed again] at run
    exact (ih run).imp_right fun ⟨t, turn, adds⟩ => ⟨t, List.mem_cons_of_mem _ turn, adds⟩
  | case7 p left item queue first f kind failure failed last =>
    rw [parseFields_of_failed (eq_false_of_ne_true left) first kind failed last] at run
    cases run

/-! ### Structures that are tried -/

theorem mem_of_mem_triedAmong {enter : StructureParser} {input : Slice} {ctx : StreamContext}
    {ss : List Structure} {s : Structure} (mem : s ∈ triedAmong enter input ctx ss) : s ∈ ss := by
  induction ss with
  | nil => cases mem
  | cons t ss ih =>
    rw [triedAmong] at mem
    split at mem
    · exact List.mem_singleton.mp mem ▸ List.mem_cons_self
    · rcases List.mem_cons.mp mem with rfl | later
      · exact List.mem_cons_self
      · exact List.mem_cons_of_mem _ (ih later)

theorem mem_of_mem_structuresOfType {typeName : String} {s : Structure}
    (mem : s ∈ g.structuresOfType typeName) : s ∈ g.structures :=
  (List.mem_filter.mp mem).1

theorem mem_of_mem_tried {enter : StructureParser} {call : TargetCall} {s : Structure}
    (mem : s ∈ tried g enter call) : s ∈ g.structures := by
  unfold tried at mem
  split at mem
  · next t found =>
    rw [List.mem_singleton.mp mem]
    exact (Grammar.mem_of_getStructure? found).1
  · exact mem_of_mem_structuresOfType (mem_of_mem_triedAmong mem)

theorem triedAmong_of_firstFit {enter : StructureParser} {input : Slice} {ctx : StreamContext}
    {ss : List Structure} {r : Resolved} (h : firstFit enter input ctx ss = some r) :
    ∃ s ∈ triedAmong enter input ctx ss, ∃ out, enter s input ctx = .ok out ∧
      r = out.resolved s input := by
  induction ss with
  | nil => cases h
  | cons s ss ih =>
    rw [firstFit] at h
    rw [triedAmong]
    cases fits : enter s input ctx with
    | ok out =>
      rw [fits] at h
      cases h
      exact ⟨s, List.mem_singleton_self s, out, fits, rfl⟩
    | error failure =>
      rw [fits] at h
      obtain ⟨t, tries, found⟩ := ih h
      exact ⟨t, List.mem_cons_of_mem _ tries, found⟩

/-- A call comes to what one of the structures that are tried for it is decoded to. -/
theorem tried_of_on_eq_ok {enter : StructureParser} {call : TargetCall} {r : Resolved}
    (h : call.on (parseTargetBy g enter) = .ok r) :
    ∃ s ∈ tried g enter call, ∃ out, enter s call.input call.context = .ok out ∧
      r = out.resolved s call.input := by
  rw [TargetCall.on, parseTargetBy] at h
  rw [tried]
  cases found : g.getStructure? call.name with
  | some s =>
    rw [found] at h
    obtain ⟨out, entered, rfl⟩ := map_eq_ok.mp h
    exact ⟨s, List.mem_singleton_self s, out, entered, rfl⟩
  | none =>
    simp only [found, resolveTypeBy] at h
    split at h
    · next fits =>
      cases h
      exact triedAmong_of_firstFit fits
    · cases h

/-! ### Entries -/

/-- A structure that is entered while others are being decoded around it, with at most `depth`
further ones inside each other. -/
structure Entry where
  depth : Nat
  active : Active
  owner : Structure
  input : Slice
  context : StreamContext

namespace Entry

/-- The structures being decoded, the one that is entered included. -/
def stack (e : Entry) : Active := (e.owner.name, e.input.offset) :: e.active

/-- What the entry comes to. -/
def outcome (g : Grammar) (o : Options) (e : Entry) : Attempt StructureOutcome :=
  enterStructure g o e.depth e.active e.owner e.input e.context

/-- The entry is refused, as the structure is already being decoded at its offset, or as nothing
further may be entered. -/
def isRefused (e : Entry) : Bool :=
  e.depth == 0 || e.active.contains (e.owner.name, e.input.offset)

/-- What decodes the structures inside. -/
def within (g : Grammar) (o : Options) (e : Entry) : StructureParser :=
  enterStructure g o (e.depth - 1) e.stack

/-- The turns that fields of the structure take. -/
def turns (g : Grammar) (o : Options) (e : Entry) : List FieldTry :=
  if e.isRefused then []
  else runTurns o (parseTargetBy g (e.within g o)) (.start e.owner e.input e.context)

/-- The structures that are entered for a call inside. -/
def called (g : Grammar) (o : Options) (e : Entry) (call : TargetCall) : List Entry :=
  (tried g (e.within g o) call).map fun s => ⟨e.depth - 1, e.stack, s, call.input, call.context⟩

/-- The structures that are entered directly inside. -/
def inner (g : Grammar) (o : Options) (e : Entry) : List Entry :=
  if e.isRefused then []
  else
    (runCalls o (parseTargetBy g (e.within g o)) (.start e.owner e.input e.context)).flatMap
      (e.called g o)

/-- An entry that is not refused comes to what its descriptors come to. -/
theorem outcome_eq {e : Entry} (h : e.isRefused = false) :
    e.outcome g o =
      parseDescriptors o (parseTargetBy g (e.within g o)) e.owner e.input e.context := by
  obtain ⟨depth, active, owner, input, ctx⟩ := e
  simp only [isRefused, Bool.or_eq_false_iff, beq_eq_false_iff_ne] at h
  obtain ⟨n, rfl⟩ := Nat.exists_eq_succ_of_ne_zero h.1
  rw [outcome, enterStructure, h.2]
  rfl

/-- What is entered inside is called for by a turn. -/
theorem mem_inner {e e' : Entry} (h : e' ∈ e.inner g o) : e.isRefused = false ∧
    ∃ t ∈ e.turns g o, ∃ call ∈ fieldCalls (parseTargetBy g (e.within g o)) t.field t.progress,
      ∃ s ∈ g.structures, e' = ⟨e.depth - 1, e.stack, s, call.input, call.context⟩ := by
  unfold inner at h
  split at h
  · cases h
  · next fresh =>
    obtain ⟨call, made, h⟩ := List.mem_flatMap.mp h
    obtain ⟨s, mem, rfl⟩ := List.mem_map.mp h
    rw [runCalls_eq] at made
    obtain ⟨t, turn, made⟩ := List.mem_flatMap.mp made
    rw [turns, if_neg fresh]
    exact ⟨eq_false_of_ne_true fresh, t, turn, call, made, s, mem_of_mem_tried mem, rfl⟩

/-- What the structures tried for a call inside come to is what entries inside come to. -/
theorem inner_of_on_eq_ok {e : Entry} (fresh : e.isRefused = false) {t : FieldTry}
    (turn : t ∈ e.turns g o) {call : TargetCall}
    (made : call ∈ fieldCalls (parseTargetBy g (e.within g o)) t.field t.progress) {r : Resolved}
    (ok : call.on (parseTargetBy g (e.within g o)) = .ok r) :
    ∃ e' ∈ e.inner g o, ∃ out, e'.outcome g o = .ok out ∧ r.decoded.fields = out.fields := by
  obtain ⟨s, tries, out, entered, rfl⟩ := tried_of_on_eq_ok ok
  refine ⟨⟨e.depth - 1, e.stack, s, call.input, call.context⟩, ?_, out, entered, rfl⟩
  rw [turns, if_neg (by simp [fresh])] at turn
  rw [inner, if_neg (by simp [fresh]), runCalls_eq]
  exact List.mem_flatMap.mpr
    ⟨call, List.mem_flatMap.mpr ⟨t, turn, made⟩, List.mem_map_of_mem tries⟩

/-- An entry that is refused is not decoded. -/
theorem isRefused_of_outcome_eq_ok {e : Entry} {out : StructureOutcome}
    (h : e.outcome g o = .ok out) : e.isRefused = false := by
  obtain ⟨depth, active, owner, input, ctx⟩ := e
  cases depth with
  | zero => cases h
  | succ depth =>
    simp only [outcome, enterStructure] at h
    split at h
    · cases h
    · next fresh => simpa [isRefused] using fresh

/-- The fields of a decoded structure are added by its turns. -/
theorem adds_of_outcome {e : Entry} {out : StructureOutcome} (h : e.outcome g o = .ok out)
    {d : DecodedField} (mem : d ∈ out.fields) :
    ∃ t ∈ e.turns g o, t.Adds o (parseTargetBy g (e.within g o)) d := by
  have fresh := isRefused_of_outcome_eq_ok h
  rw [outcome_eq fresh] at h
  obtain ⟨fin, run, ended⟩ := bind_eq_ok.mp h
  rw [Finish.outcome_eq_ok ended] at mem
  rw [turns, if_neg (by simp [fresh])]
  exact (adds_of_parseFields run mem).resolve_left (List.not_mem_nil)

/-- The entry of a structure that no other is decoded around. -/
def outermost (g : Grammar) (s : Structure) (input : Slice) (ctx : StreamContext) : Entry :=
  ⟨depthBound g input, [], s, input, ctx⟩

end Entry

/-! ### What is asked of a grammar -/

/-- What can be asked of a grammar. -/
inductive Query where
  /-- The structure of a name. -/
  | structureNamed (name : String) (input : Slice) (ctx : StreamContext)
  /-- An alternative of the type of a name. -/
  | typeNamed (name : String) (input : Slice) (ctx : StreamContext)
  /-- The structure of a name, or else an alternative of the type. -/
  | targetNamed (name : String) (input : Slice) (ctx : StreamContext)
  /-- A whole packet. -/
  | packet (bytes : List UInt8) (ctx : StreamContext)

namespace Query

/-- The bytes that the query is about. -/
def input : Query → Slice
  | structureNamed _ input _ => input
  | typeNamed _ input _ => input
  | targetNamed _ input _ => input
  | packet bytes _ => ⟨0, bytes⟩

/-- The context that the query starts with. -/
def context : Query → StreamContext
  | structureNamed _ _ ctx => ctx
  | typeNamed _ _ ctx => ctx
  | targetNamed _ _ ctx => ctx
  | packet _ ctx => ctx

/-- The calls that a query makes from outside, and the structures that are tried for them. -/
def outermost (g : Grammar) (o : Options) : Query → List Entry
  | structureNamed name input ctx =>
    (g.getStructure? name).toList.map fun s => .outermost g s input ctx
  | typeNamed name input ctx =>
    (triedAmong (enterOutermost g o) input ctx (g.structuresOfType name)).map fun s =>
      .outermost g s input ctx
  | targetNamed name input ctx =>
    (tried g (enterOutermost g o) ⟨name, input, ctx⟩).map fun s => .outermost g s input ctx
  | packet bytes ctx =>
    (rootsTried g o bytes ctx g.roots).flatMap fun root =>
      (chainCalls (parseTarget g o) ⟨root, ⟨0, bytes⟩, ctx⟩).flatMap fun call =>
        (tried g (enterOutermost g o) call).map fun s => .outermost g s call.input call.context

variable {q : Query} {e : Entry}

/-- No other is decoded around the structures that are entered from outside. -/
theorem outermost_eq (mem : e ∈ q.outermost g o) :
    e.owner ∈ g.structures ∧ e = .outermost g e.owner e.input e.context := by
  cases q with
  | structureNamed name input ctx =>
    obtain ⟨s, found, rfl⟩ := List.mem_map.mp mem
    exact ⟨(Grammar.mem_of_getStructure? (Option.mem_toList.mp found)).1, rfl⟩
  | typeNamed name input ctx =>
    obtain ⟨s, tries, rfl⟩ := List.mem_map.mp mem
    exact ⟨mem_of_mem_structuresOfType (mem_of_mem_triedAmong tries), rfl⟩
  | targetNamed name input ctx =>
    obtain ⟨s, tries, rfl⟩ := List.mem_map.mp mem
    exact ⟨mem_of_mem_tried tries, rfl⟩
  | packet bytes ctx =>
    obtain ⟨root, -, mem⟩ := List.mem_flatMap.mp mem
    obtain ⟨call, -, mem⟩ := List.mem_flatMap.mp mem
    obtain ⟨s, tries, rfl⟩ := List.mem_map.mp mem
    exact ⟨mem_of_mem_tried tries, rfl⟩

/-- What holds of the bytes and the context of a query, and is kept from one structure to the one
that follows, holds where structures are entered from outside. -/
theorem outermost_invariant {P : Slice → StreamContext → Prop}
    (keeps : ∀ {name input ctx r}, parseTarget g o name input ctx = .ok r → P input ctx →
      P (input.drop r.consumed) r.context)
    (start : P q.input q.context) (mem : e ∈ q.outermost g o) : P e.input e.context := by
  cases q with
  | structureNamed | typeNamed | targetNamed =>
    obtain ⟨s, -, rfl⟩ := List.mem_map.mp mem
    exact start
  | packet bytes ctx =>
    obtain ⟨root, -, mem⟩ := List.mem_flatMap.mp mem
    obtain ⟨call, made, mem⟩ := List.mem_flatMap.mp mem
    obtain ⟨s, -, rfl⟩ := List.mem_map.mp mem
    exact chainCalls_invariant keeps start call made

/-- The structure is entered for what is asked. -/
inductive Reaches (g : Grammar) (o : Options) (q : Query) : Entry → Prop where
  | outermost {e : Entry} (mem : e ∈ q.outermost g o) : Reaches g o q e
  | inner {e e' : Entry} (around : Reaches g o q e) (mem : e' ∈ e.inner g o) : Reaches g o q e'

end Query

/-- **Every scalar of a decoded structure, however deep, was decoded by the turn of a field.** -/
theorem Query.Reaches.turn_of_leaf {q : Query} {e : Entry} (reached : q.Reaches g o e)
    {out : StructureOutcome} (h : e.outcome g o = .ok out) {l : DecodedField}
    (mem : l ∈ leavesOfFields out.fields) :
    ∃ e', q.Reaches g o e' ∧ ∃ t ∈ e'.turns g o, ∃ length r m, t.Decodes o length r m ∧
      l = scalarField t.field t.progress.cursor t.progress.memory r := by
  generalize same : e.depth = depth
  induction depth generalizing e out with
  | zero =>
    have fresh := Entry.isRefused_of_outcome_eq_ok h
    simp [Entry.isRefused, same] at fresh
  | succ depth ih =>
    rw [leavesOfFields_eq] at mem
    obtain ⟨d, own, mem⟩ := List.mem_flatMap.mp mem
    obtain ⟨t, turn, adds⟩ := Entry.adds_of_outcome h own
    cases adds with
    | scalar decodes => exact ⟨e, reached, t, turn, _, _, _, decodes, List.mem_singleton.mp mem⟩
    | @nested call r made ok =>
      have fresh := Entry.isRefused_of_outcome_eq_ok h
      obtain ⟨e', inside, out', entered, fields⟩ := Entry.inner_of_on_eq_ok fresh turn made ok
      have leaves : r.decoded.leaves = leavesOfFields r.decoded.fields := by
        cases r.decoded
        rfl
      have deeper : l ∈ leavesOfFields out'.fields := fields ▸ leaves ▸ mem
      refine ih (reached.inner inside) entered deeper ?_
      obtain ⟨-, _, -, _, -, _, -, rfl⟩ := Entry.mem_inner inside
      simp only [same, Nat.add_sub_cancel]

/-- The fields of a structure take their turns in its bytes. -/
theorem Entry.within_of_turn {e : Entry} : ∀ t ∈ e.turns g o,
    t.progress.cursor.slice = e.input ∧ t.progress.cursor.isExhausted = false ∧
      t.progress.cursor.Within := by
  unfold turns
  split
  · exact List.forall_mem_nil _
  · exact runTurns_invariant (fun p => p.cursor.slice = e.input ∧ p.cursor.Within)
      (fun _ p => p.cursor.slice = e.input ∧ p.cursor.isExhausted = false ∧ p.cursor.Within)
      ⟨rfl, BitCursor.within_start e.input⟩ (Progress.Own.start e.owner _ _)
      (fun _ _ _ _ hp _ _ => hp) (fun _ _ _ _ hp left _ _ _ => ⟨hp.1, left, hp.2⟩)
      (fun _ _ _ _ _ hp _ _ _ _ taken =>
        ⟨taken.slice_eq.trans hp.1, taken.within hp.2⟩)
      (fun _ _ _ hp _ _ => hp)

/-! ### What can come about -/

namespace Entry

variable {e : Entry}

/-- The fields of a structure that is entered find nothing in the memory but what can come about. -/
theorem sourced_of_turn (mem : e.owner ∈ g.structures) (known : SourcedContext g entry e.context) :
    ∀ t ∈ e.turns g o,
      .field t.field ∈ e.owner.descriptors ∧ t.progress.memory.Sourced g entry e.owner := by
  unfold turns
  split
  · exact List.forall_mem_nil _
  · have start : (Progress.start e.owner e.input e.context).memory.Sourced g entry e.owner :=
      .start known e.owner
    exact runTurns_invariant (fun p => p.memory.Sourced g entry e.owner)
      (fun f p => .field f ∈ e.owner.descriptors ∧ p.memory.Sourced g entry e.owner)
      start (Progress.Own.start _ _ _) (fun _ _ _ _ hp _ _ => hp)
      (fun _ _ _ _ hp _ _ _ own => ⟨own, hp⟩)
      (fun _ _ _ _ _ hp _ _ _ own taken => taken.sourced keeps_of_parseTargetBy hp mem own)
      (fun _ _ _ hp _ _ => hp)

/-- So do the structures that are entered inside. -/
theorem sourced_of_inner (mem : e.owner ∈ g.structures) (known : SourcedContext g entry e.context)
    {e' : Entry} (inside : e' ∈ e.inner g o) :
    e'.owner ∈ g.structures ∧ SourcedContext g entry e'.context := by
  obtain ⟨-, t, turn, call, made, s, own, rfl⟩ := mem_inner inside
  obtain ⟨name, view, -, -, made⟩ := viewed_of_mem_fieldCalls made
  have sourced := (sourced_of_turn mem known t turn).2
  exact ⟨own, listCalls_invariant (P := fun _ ctx => SourcedContext g entry ctx)
    (fun ok known => (keeps_of_parseTargetBy _ _ _ _ ok known).1) sourced.context call made⟩

end Entry

/-- **Wherever a structure is entered, the context holds nothing but what can come about.** -/
theorem Query.Reaches.sourced {q : Query} {e : Entry} (h : q.Reaches g o e) :
    e.owner ∈ g.structures ∧ SourcedContext g q.context e.context := by
  induction h with
  | outermost mem =>
    exact ⟨(Query.outermost_eq mem).1,
      Query.outermost_invariant (P := fun _ ctx => SourcedContext g q.context ctx)
        (fun ok known => ((sourced_invariant g o q.context).of_parseTarget ok known).1)
        (.refl g q.context) mem⟩
  | inner _ mem ih => exact Entry.sourced_of_inner ih.1 ih.2 mem

end WireGrammar
