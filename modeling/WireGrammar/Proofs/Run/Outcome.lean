import WireGrammar.Proofs.Decoding.Loop
import WireGrammar.Proofs.Run.Basic
import WireGrammar.Proofs.Tiling

/-!
# What runs come to

Every run computes what the library computes, hands back the stack it was given, and shows bounded
events only; and there is a run of everything the library computes.  Both are carried from the
targets to the chains, lists, fields, descriptors and structures that are built over them.

* `Event.Bounded`: how large stacks and counts can be;
* `Lawful`: the three things that hold of a run.
-/

namespace WireGrammar

/-! ### Bounds -/

/-- Each turn but the last takes at least a byte. -/
def Progressive (taken : List Nat) : Prop := ∀ n ∈ taken.dropLast, 0 < n

/-- The slice lies within another. -/
def Slice.Inside (s whole : Slice) : Prop :=
  whole.offset ≤ s.offset ∧ s.offset + s.length ≤ whole.offset + whole.length

/-- The structures being decoded within a buffer: no two of them the same at the same offset, inner
ones not in front of outer ones. -/
structure Active.Legal (g : Grammar) (buffer : Slice) (stack : Active) : Prop where
  distinct : stack.Nodup
  ordered : stack.Pairwise fun inner outer => outer.2 ≤ inner.2
  inside : ∀ entry ∈ stack, entry.1 ∈ g.structures.map (·.name) ∧ buffer.offset ≤ entry.2 ∧
    entry.2 ≤ buffer.offset + buffer.length

/-- What the events of a run within a buffer keep to. -/
def Event.Bounded (g : Grammar) (buffer : Slice) : Event → Prop
  | .entered stack => stack.Legal g buffer ∧
      stack.length ≤ g.structures.length * (buffer.length + 1)
  | .left before after => after = before
  | .turns descriptors bytes count => bytes ≤ buffer.length ∧ count ≤ descriptors + 8 * bytes
  | .chain taken => Progressive taken
  | .list taken => Progressive taken

/-- The run computes `value`, hands back the stack, and shows bounded events only. -/
structure Lawful {α : Type} (g : Grammar) (buffer : Slice) (value res : Attempt α)
    (stack stack' : Active) (es : List Event) : Prop where
  result : res = value
  stack : stack' = stack
  events : ∀ e ∈ es, e.Bounded g buffer

/-! ### Slices -/

namespace Slice.Inside

variable {s t whole : Slice}

theorem refl (s : Slice) : s.Inside s := ⟨Nat.le_refl _, Nat.le_refl _⟩

theorem trans (h : s.Inside t) (h' : t.Inside whole) : s.Inside whole :=
  ⟨Nat.le_trans h'.1 h.1, Nat.le_trans h.2 h'.2⟩

theorem drop {n : Nat} (h : s.Inside whole) (le : n ≤ s.length) : (s.drop n).Inside whole := by
  unfold Inside at *
  rw [Slice.offset_drop, Slice.length_drop]
  omega

end Slice.Inside

/-- A target is decoded inside the slice of the cursor. -/
theorem FieldAttributes.view_inside {a : FieldAttributes} {c : BitCursor} {view : Slice}
    (h : a.view c = .ok view) (left : c.isExhausted = false) : view.Inside c.slice := by
  obtain ⟨-, offset, front⟩ := view_eq_ok h
  have short := Slice.length_le_of_prefix front
  rw [BitCursor.isExhausted, decide_eq_false_iff_not] at left
  simp only [Slice.Inside, offset, BitCursor.absolute, BitCursor.remainingBytes] at *
  omega

theorem Row.inside {input rest : Slice} {ctx ctx' : StreamContext} {ss : List DecodedStructure}
    (row : Row (fun input _ r => r.consumed ≤ input.length) input ctx ss rest ctx') :
    rest.Inside input := by
  induction row with
  | nil => exact .refl _
  | cons head tail ih => exact ih.trans ((Slice.Inside.refl _).drop head)

/-- Structures that take no more than there is leave a slice inside the one they started in. -/
theorem rest_inside {parse : TargetParser}
    (modest : ∀ name input ctx r, parse name input ctx = .ok r → r.consumed ≤ input.length)
    {name : String} {input : Slice} {ctx : StreamContext} {c : Chain}
    (h : chain parse name input ctx = .ok c) : c.rest.Inside input :=
  (Row.of_chain modest h).inside

theorem Progressive.cons {n : Nat} {taken : List Nat} (positive : 0 < n)
    (h : Progressive taken) : Progressive (n :: taken) := by
  intro m hm
  cases taken with
  | nil => cases hm
  | cons k ks =>
    rcases List.mem_cons.mp hm with rfl | hm
    · exact positive
    · exact h m hm

theorem Progressive.singleton (n : Nat) : Progressive [n] := by
  intro m hm
  cases hm

/-! ### Runs are lawful -/

/-- The runs of names on slices inside `whole`, from the stack `stack`, compute what `parse`
does. -/
def TargetRuns.Sound (target : TargetRuns) (parse : TargetParser) (g : Grammar) (buffer : Slice)
    (stack : Active) (whole : Slice) : Prop :=
  ∀ ⦃name input ctx res stack' es⦄, input.Inside whole →
    target name input ctx stack res stack' es →
    Lawful g buffer (parse name input ctx) res stack stack' es

section Sound

variable {g : Grammar} {o : Options} {buffer whole : Slice} {target : TargetRuns}
  {parse : TargetParser} {stack stack' : Active} {es : List Event}

theorem ChainRun.sound {name : String} {input : Slice} {ctx : StreamContext} {res : Attempt Chain}
    {taken : List Nat} (run : ChainRun target name input ctx stack res taken stack' es)
    (sound : target.Sound parse g buffer stack whole) (inside : input.Inside whole) :
    Lawful g buffer (chain parse name input ctx) res stack stack' es ∧ Progressive taken := by
  induction run with
  | failed run =>
    obtain ⟨result, handed, events⟩ := sound inside run
    exact ⟨⟨(chain_of_error result.symm).symm, handed, events⟩, .singleton 0⟩
  | @last name input ctx stack r stack' es run stop =>
    obtain ⟨result, handed, events⟩ := sound inside run
    exact ⟨⟨(chain_of_stop result.symm stop).symm, handed, events⟩, .singleton r.consumed⟩
  | more run go rest ih =>
    obtain ⟨result, rfl, events⟩ := sound inside run
    obtain ⟨some_, few⟩ := Resolved.lt_of_continuation? go
    obtain ⟨⟨rfl, rfl, events'⟩, progressive⟩ := ih sound (inside.drop (Nat.le_of_lt few))
    have all := List.forall_mem_append.mpr ⟨events, events'⟩
    exact ⟨⟨(chain_of_go result.symm go).symm, rfl, all⟩, progressive.cons some_⟩

theorem ListRun.sound {repetition : Repetition} {name : String} {input : Slice}
    {ctx : StreamContext} {res : Attempt Chain} {taken : List Nat}
    (run : ListRun target name repetition input ctx stack res taken stack' es)
    (sound : target.Sound parse g buffer stack whole) (inside : input.Inside whole)
    (modest : ∀ name input ctx r, parse name input ctx = .ok r → r.consumed ≤ input.length) :
    Lawful g buffer (chains parse repetition name input ctx) res stack stack' es ∧
      Progressive taken := by
  have shown {es : List Event} {taken : List Nat} (events : ∀ e ∈ es, e.Bounded g buffer)
      (progressive : Progressive taken) : ∀ e ∈ es ++ [.chain taken], e.Bounded g buffer :=
    List.forall_mem_append.mpr ⟨events, List.forall_mem_singleton.mpr progressive⟩
  induction run with
  | done ended => exact ⟨⟨(chains_of_done ended).symm, rfl, by simp⟩, .singleton 0⟩
  | failed go run =>
    obtain ⟨⟨result, handed, events⟩, progressive⟩ := run.sound sound inside
    exact ⟨⟨(chains_of_error go result.symm).symm, handed, shown events progressive⟩, .singleton 0⟩
  | stuck go run still =>
    obtain ⟨⟨result, handed, events⟩, progressive⟩ := run.sound sound inside
    exact ⟨⟨(chains_of_stuck go result.symm still).symm, handed, shown events progressive⟩,
      .singleton _⟩
  | more go run forward rest ih =>
    obtain ⟨⟨result, rfl, events⟩, progressive⟩ := run.sound sound inside
    obtain ⟨⟨rfl, rfl, events'⟩, progressive'⟩ :=
      ih sound ((rest_inside modest result.symm).trans inside)
    have all := List.forall_mem_append.mpr ⟨shown events progressive, events'⟩
    exact ⟨⟨(chains_of_forward go result.symm forward).symm, rfl, all⟩,
      progressive'.cons (Nat.sub_pos_of_lt forward)⟩

theorem FieldRun.sound {f : FieldDescriptor} {p : Progress} {res : Attempt Progress}
    (run : FieldRun o target f p stack res stack' es)
    (sound : target.Sound parse g buffer stack whole) (inside : p.cursor.slice.Inside whole)
    (left : p.cursor.isExhausted = false)
    (modest : ∀ name input ctx r, parse name input ctx = .ok r → r.consumed ≤ input.length) :
    Lawful g buffer (parseField o parse f p) res stack stack' es := by
  cases run with
  | own here parse' => exact ⟨parseField_of_own here parse' parse, rfl, by simp⟩
  | unviewed present delegated refused =>
    exact ⟨(parseField_of_unviewed present delegated refused).symm, rfl, by simp⟩
  | target present delegated viewed run =>
    have there := (FieldAttributes.view_inside viewed left).trans inside
    obtain ⟨⟨rfl, handed, events⟩, progressive⟩ := run.sound sound there modest
    exact ⟨(parseField_of_viewed present delegated viewed).symm, handed,
      List.forall_mem_append.mpr ⟨events, List.forall_mem_singleton.mpr progressive⟩⟩

theorem DescriptorsRun.sound {p : Progress} {res : Attempt Finish} {turns : Nat}
    (run : DescriptorsRun o target p stack res turns stack' es)
    (sound : target.Sound parse g buffer stack whole) (inside : p.cursor.slice.Inside whole)
    (modest : ∀ name input ctx r, parse name input ctx = .ok r → r.consumed ≤ input.length) :
    Lawful g buffer (parseFields o parse p) res stack stack' es ∧ turns ≤ p.work := by
  induction run with
  | exhausted ended => exact ⟨⟨(parseFields_of_exhausted ended).symm, rfl, by simp⟩, Nat.zero_le _⟩
  | empty go ended => exact ⟨⟨(parseFields_of_empty go ended).symm, rfl, by simp⟩, Nat.zero_le _⟩
  | type go first kind rest ih =>
    obtain ⟨⟨rfl, handed, events⟩, few⟩ := ih sound inside
    refine ⟨⟨(parseFields_of_type go first kind).symm, handed, events⟩, ?_⟩
    simp only [Progress.work, first, List.length_cons] at few ⊢
    omega
  | next go first kind =>
    refine ⟨⟨(parseFields_of_next go first kind).symm, rfl, by simp⟩, ?_⟩
    simp only [Progress.work, first, List.length_cons]
    omega
  | @field p stack item queue f q stack' es res turns stack'' es' go first kind run rest ih =>
    obtain ⟨ok, rfl, events⟩ := run.sound sound inside go modest
    have same : q.cursor.slice = p.cursor.slice := (parseField_eq_ok.mp ok.symm).slice_eq
    obtain ⟨⟨rfl, rfl, events'⟩, few⟩ := ih sound (same ▸ inside)
    have shrinks := parseField_work_le ok.symm go
    refine ⟨⟨(parseFields_of_turn go first kind ok.symm).symm, rfl,
      List.forall_mem_append.mpr ⟨events, events'⟩⟩, ?_⟩
    simp only [Progress.work, first, List.length_cons] at few shrinks ⊢
    omega
  | dropped go first kind run again rest ih =>
    obtain ⟨failed, rfl, events⟩ := run.sound sound inside go modest
    obtain ⟨⟨rfl, rfl, events'⟩, few⟩ := ih sound inside
    refine ⟨⟨(parseFields_of_dropped go first kind failed.symm again).symm, rfl,
      List.forall_mem_append.mpr ⟨events, events'⟩⟩, ?_⟩
    simp only [Progress.work, first, List.length_cons] at few ⊢
    omega
  | failed go first kind run own =>
    obtain ⟨failed, rfl, events⟩ := run.sound sound inside go modest
    have once := ne_true_of_eq_false own
    refine ⟨⟨(parseFields_of_failed go first kind failed.symm once).symm, rfl, events⟩, ?_⟩
    simp only [Progress.work, first, List.length_cons]
    omega

/-- The runs of structures of the grammar compute what `parse` does. -/
def StructureRuns.Sound (enter : StructureRuns) (parse : StructureParser) (g : Grammar)
    (buffer : Slice) (stack : Active) (whole : Slice) : Prop :=
  ∀ ⦃s input ctx res stack' es⦄, s ∈ g.structures → input.Inside whole →
    enter s input ctx stack res stack' es →
    Lawful g buffer (parse s input ctx) res stack stack' es

variable {enter : StructureRuns} {parseOne : StructureParser}

theorem AlternativesRun.sound {input : Slice} {ctx : StreamContext} {ss : List Structure}
    {found : Option Resolved} (run : AlternativesRun enter input ctx ss stack found stack' es)
    (sound : enter.Sound parseOne g buffer stack whole) (inside : input.Inside whole)
    (known : ∀ s ∈ ss, s ∈ g.structures) :
    found = firstFit parseOne input ctx ss ∧ stack' = stack ∧ ∀ e ∈ es, e.Bounded g buffer := by
  induction run with
  | none => exact ⟨rfl, rfl, by simp⟩
  | fits run =>
    obtain ⟨ok, handed, events⟩ := sound (known _ List.mem_cons_self) inside run
    refine ⟨?_, handed, events⟩
    rw [firstFit, ← ok]
  | rejected run rest ih =>
    obtain ⟨failed, rfl, events⟩ := sound (known _ List.mem_cons_self) inside run
    obtain ⟨rfl, rfl, events'⟩ := ih sound fun s hs => known s (List.mem_cons_of_mem _ hs)
    refine ⟨?_, rfl, List.forall_mem_append.mpr ⟨events, events'⟩⟩
    rw [firstFit, ← failed]

theorem TypeRun.sound (sound : enter.Sound parseOne g buffer stack whole) {name : String}
    {input : Slice} {ctx : StreamContext} {res : Attempt Resolved} (inside : input.Inside whole)
    (run : TypeRun g enter name input ctx stack res stack' es) :
    Lawful g buffer (resolveTypeBy g parseOne name input ctx) res stack stack' es := by
  have known : ∀ s ∈ g.structuresOfType name, s ∈ g.structures := fun s hs =>
    (List.mem_filter.mp hs).1
  cases run with
  | resolved run =>
    obtain ⟨found, handed, events⟩ := run.sound sound inside known
    refine ⟨?_, handed, List.forall_mem_append.mpr ⟨events, List.forall_mem_singleton.mpr handed⟩⟩
    rw [resolveTypeBy, ← found]
  | unresolved run =>
    obtain ⟨found, handed, events⟩ := run.sound sound inside known
    refine ⟨?_, handed, List.forall_mem_append.mpr ⟨events, List.forall_mem_singleton.mpr handed⟩⟩
    rw [resolveTypeBy, ← found]

theorem NameRun.sound (sound : enter.Sound parseOne g buffer stack whole) :
    TargetRuns.Sound (NameRun g enter) (parseTargetBy g parseOne) g buffer stack whole := by
  intro name input ctx res stack' es inside run
  cases run with
  | known found run =>
    obtain ⟨rfl, handed, events⟩ := sound (List.mem_of_find?_eq_some found) inside run
    refine ⟨?_, handed, events⟩
    rw [parseTargetBy, found]
  | unknown missing run =>
    obtain ⟨rfl, handed, events⟩ := run.sound sound inside
    refine ⟨?_, handed, events⟩
    rw [parseTargetBy, missing]

end Sound

/-! ### There are runs -/

/-- What `parse` computes of names on slices inside `whole` is computed by a run. -/
def TargetRuns.Total (target : TargetRuns) (parse : TargetParser) (stack : Active)
    (whole : Slice) : Prop :=
  ∀ ⦃name input ctx⦄, input.Inside whole →
    ∃ es, target name input ctx stack (parse name input ctx) stack es

/-- What `parse` computes of structures of the grammar is computed by a run. -/
def StructureRuns.Total (enter : StructureRuns) (parse : StructureParser) (g : Grammar)
    (stack : Active) (whole : Slice) : Prop :=
  ∀ ⦃s input⦄, s ∈ g.structures → input.Inside whole → ∀ ctx,
    ∃ es, enter s input ctx stack (parse s input ctx) stack es

section Total

variable {g : Grammar} {o : Options} {whole : Slice} {target : TargetRuns} {parse : TargetParser}
  {stack : Active}

theorem TargetRuns.Total.chain (total : target.Total parse stack whole) (name : String)
    {input : Slice} (ctx : StreamContext) (inside : input.Inside whole) :
    ∃ taken es,
      ChainRun target name input ctx stack (chain parse name input ctx) taken stack es := by
  fun_induction WireGrammar.chain parse name input ctx with
  | case1 name input ctx failure failed =>
    obtain ⟨es, run⟩ := total inside
    rw [failed] at run
    exact ⟨_, _, .failed run⟩
  | case2 name input ctx r ok stop =>
    obtain ⟨es, run⟩ := total inside
    rw [ok] at run
    exact ⟨_, _, .last run stop⟩
  | case3 name input ctx r ok next go ih =>
    obtain ⟨es, run⟩ := total inside
    rw [ok] at run
    have few := (Resolved.lt_of_continuation? go).2
    obtain ⟨taken, es', rest⟩ := ih (inside.drop (Nat.le_of_lt few))
    exact ⟨_, _, .more run go rest⟩

theorem TargetRuns.Total.chains (total : target.Total parse stack whole)
    (modest : ∀ name input ctx r, parse name input ctx = .ok r → r.consumed ≤ input.length)
    (repetition : Repetition) (name : String) {input : Slice} (ctx : StreamContext)
    (inside : input.Inside whole) :
    ∃ taken es, ListRun target name repetition input ctx stack
      (chains parse repetition name input ctx) taken stack es := by
  fun_induction WireGrammar.chains parse repetition name input ctx with
  | case1 repetition input ctx ended => exact ⟨_, _, .done ended⟩
  | case2 repetition input ctx go failure failed =>
    obtain ⟨taken, es, run⟩ := total.chain name ctx inside
    rw [failed] at run
    exact ⟨_, _, .failed go run⟩
  | case3 repetition input ctx go c ok forward ih =>
    obtain ⟨taken, es, run⟩ := total.chain name ctx inside
    rw [ok] at run
    obtain ⟨taken', es', rest⟩ := ih ((rest_inside modest ok).trans inside)
    exact ⟨_, _, .more go run forward rest⟩
  | case4 repetition input ctx go c ok still =>
    obtain ⟨taken, es, run⟩ := total.chain name ctx inside
    rw [ok] at run
    exact ⟨_, _, .stuck go run still⟩

theorem TargetRuns.Total.field (total : target.Total parse stack whole)
    (modest : ∀ name input ctx r, parse name input ctx = .ok r → r.consumed ≤ input.length)
    (f : FieldDescriptor) {p : Progress} (inside : p.cursor.slice.Inside whole)
    (left : p.cursor.isExhausted = false) :
    ∃ es, FieldRun o target f p stack (parseField o parse f p) stack es := by
  by_cases here : (p.memory.effective f).isPresent p.fields = false ∨
      (p.memory.effective f).parse = none
  · exact ⟨_, .own here parse⟩
  · obtain ⟨present, given⟩ := not_or.mp here
    replace present := by simpa using present
    obtain ⟨name, delegated⟩ := Option.ne_none_iff_exists'.mp given
    cases viewed : (p.memory.effective f).view p.cursor with
    | error cause =>
      rw [parseField_of_unviewed present delegated viewed]
      exact ⟨_, .unviewed present delegated viewed⟩
    | ok view =>
      have there := (FieldAttributes.view_inside viewed left).trans inside
      obtain ⟨taken, es, run⟩ := total.chains modest _ name p.context there
      rw [parseField_of_viewed present delegated viewed]
      exact ⟨_, .target present delegated viewed run⟩

theorem TargetRuns.Total.descriptors (total : target.Total parse stack whole)
    (modest : ∀ name input ctx r, parse name input ctx = .ok r → r.consumed ≤ input.length)
    {p : Progress} (inside : p.cursor.slice.Inside whole) :
    ∃ turns es, DescriptorsRun o target p stack (parseFields o parse p) turns stack es := by
  fun_induction parseFields o parse p with
  | case1 p ended => exact ⟨_, _, .exhausted ended⟩
  | case2 p go ended => exact ⟨_, _, .empty (by simpa using go) ended⟩
  | case3 p go item queue first name kind ih =>
    obtain ⟨turns, es, rest⟩ := ih inside
    exact ⟨_, _, .type (by simpa using go) first kind rest⟩
  | case4 p go item queue first name kind =>
    exact ⟨_, _, .next (by simpa using go) first kind⟩
  | case5 p go item queue first f kind q ok ih =>
    replace go : p.cursor.isExhausted = false := by simpa using go
    have here : ({ p with queue } : Progress).cursor.slice.Inside whole := inside
    obtain ⟨es, run⟩ := total.field (o := o) modest f here go
    rw [ok] at run
    obtain ⟨turns, es', rest⟩ := ih ((parseField_eq_ok.mp ok).slice_eq ▸ inside)
    exact ⟨_, _, .field go first kind run rest⟩
  | case6 p go item queue first f kind failure failed again ih =>
    replace go : p.cursor.isExhausted = false := by simpa using go
    have here : ({ p with queue } : Progress).cursor.slice.Inside whole := inside
    obtain ⟨es, run⟩ := total.field (o := o) modest f here go
    rw [failed] at run
    obtain ⟨turns, es', rest⟩ := ih inside
    exact ⟨_, _, .dropped go first kind run again rest⟩
  | case7 p go item queue first f kind failure failed own =>
    replace go : p.cursor.isExhausted = false := by simpa using go
    have here : ({ p with queue } : Progress).cursor.slice.Inside whole := inside
    obtain ⟨es, run⟩ := total.field (o := o) modest f here go
    rw [failed] at run
    exact ⟨_, _, .failed go first kind run (by simpa using own)⟩

variable {enter : StructureRuns} {parseOne : StructureParser}

theorem StructureRuns.Total.alternatives (total : enter.Total parseOne g stack whole)
    {input : Slice} (ctx : StreamContext) (inside : input.Inside whole) {ss : List Structure}
    (known : ∀ s ∈ ss, s ∈ g.structures) :
    ∃ es, AlternativesRun enter input ctx ss stack (firstFit parseOne input ctx ss) stack es := by
  induction ss with
  | nil => exact ⟨_, .none⟩
  | cons s ss ih =>
    obtain ⟨es, run⟩ := total (known s List.mem_cons_self) inside ctx
    rw [firstFit]
    cases result : parseOne s input ctx with
    | ok out =>
      rw [result] at run
      exact ⟨_, .fits run⟩
    | error failure =>
      rw [result] at run
      obtain ⟨es', rest⟩ := ih fun t ht => known t (List.mem_cons_of_mem _ ht)
      exact ⟨_, .rejected run rest⟩

theorem StructureRuns.Total.type (total : enter.Total parseOne g stack whole) (name : String)
    {input : Slice} (ctx : StreamContext) (inside : input.Inside whole) :
    ∃ es, TypeRun g enter name input ctx stack (resolveTypeBy g parseOne name input ctx) stack
      es := by
  obtain ⟨es, run⟩ := total.alternatives ctx inside fun s (hs : s ∈ g.structuresOfType name) =>
    (List.mem_filter.mp hs).1
  rw [resolveTypeBy]
  cases found : firstFit parseOne input ctx (g.structuresOfType name) with
  | some r =>
    rw [found] at run
    exact ⟨_, .resolved run⟩
  | none =>
    rw [found] at run
    exact ⟨_, .unresolved run⟩

theorem StructureRuns.Total.name (total : enter.Total parseOne g stack whole) :
    TargetRuns.Total (NameRun g enter) (parseTargetBy g parseOne) stack whole := by
  intro name input ctx inside
  rw [parseTargetBy]
  cases found : g.getStructure? name with
  | some s =>
    obtain ⟨es, run⟩ := total (List.mem_of_find?_eq_some found) inside ctx
    exact ⟨_, .known found run⟩
  | none =>
    obtain ⟨es, run⟩ := total.type name ctx inside
    exact ⟨_, .unknown found run⟩

end Total

end WireGrammar
