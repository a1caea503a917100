import Mathlib.Data.List.Induction
import WireGrammar.Proofs.Attribute.Occurrence
import WireGrammar.Proofs.Packet.Selection

/-!
# Contexts only grow

A stream context is changed by saving what is pending into it, and by nothing else.  So over any
number of packets, decoded or not, by whatever grammars, what it has for a name stays or is
replaced, but never goes away, and all names in it are targets of triggers that some grammar has.

* `AttributeTable.Grows`: a table has all that another one has, maybe with other values;
* `Extends`: what decoding does to the context;
* `session_grows`: the contexts of whole sessions.
-/

namespace WireGrammar

/-! ### Tables that grow -/

namespace AttributeTable

/-- Every name in the table has at least one attribute. -/
def Solid (t : AttributeTable) : Prop :=
  ∀ name a, t.get? name = some a → ∃ kind, (a.get? kind).isSome = true

/-- The second table has all names and attributes of the first one, maybe with other values. -/
def Grows (t t' : AttributeTable) : Prop :=
  ∀ name a, t.get? name = some a → ∃ a', t'.get? name = some a' ∧
    ∀ kind, (a.get? kind).isSome = true → (a'.get? kind).isSome = true

variable {t t' t'' upper : AttributeTable}

theorem Solid.empty : Solid .empty := by
  intro name a held
  cases held

theorem Grows.refl (t : AttributeTable) : t.Grows t := fun _ a held => ⟨a, held, fun _ set => set⟩

theorem Grows.trans (h : t.Grows t') (h' : t'.Grows t'') : t.Grows t'' := by
  intro name a held
  obtain ⟨b, held', more⟩ := h name a held
  obtain ⟨c, held'', more'⟩ := h' name b held'
  exact ⟨c, held'', fun kind set => more' kind (more kind set)⟩

theorem Solid.override (h : t.Solid) (target : String) (v : AttributeValue) :
    (t.override target v).Solid := by
  intro name a held
  rw [get?_override] at held
  split at held
  · cases held
    refine ⟨v.kind, ?_⟩
    rw [FieldAttributes.get?_set, if_pos rfl, Option.isSome_some]
  · exact h name a held

/-- Merged attributes are those of either record. -/
theorem isSome_get?_merge {a b : FieldAttributes} {kind : AttributeKind} :
    ((a.merge b).get? kind).isSome = ((b.get? kind).isSome || (a.get? kind).isSome) := by
  rw [FieldAttributes.get?_merge]
  cases b.get? kind <;> rfl

theorem Grows.merge (t upper : AttributeTable) : t.Grows (t.merge upper) := by
  intro name a held
  rw [get?_merge, held]
  cases upper.get? name with
  | none => exact ⟨a, rfl, fun _ set => set⟩
  | some b =>
    refine ⟨_, rfl, fun kind set => ?_⟩
    rw [Option.getD_some, isSome_get?_merge, set, Bool.or_true]

theorem Solid.merge (h : t.Solid) (h' : upper.Solid) : (t.merge upper).Solid := by
  intro name a held
  rw [get?_merge] at held
  cases given : upper.get? name with
  | none =>
    rw [given] at held
    exact h name a held
  | some b =>
    rw [given] at held
    cases held
    obtain ⟨kind, set⟩ := h' name b given
    refine ⟨kind, ?_⟩
    rw [isSome_get?_merge, set, Bool.true_or]

/-- A table in which every name has an attribute is empty if no attribute is given. -/
theorem Solid.eq_empty (h : t.Solid) (none : ∀ name kind, (Memory.given t name).get? kind = none) :
    t = .empty := by
  refine Table.ext_get? fun name => ?_
  cases held : t.get? name with
  | none => rfl
  | some a =>
    obtain ⟨kind, set⟩ := h name a held
    have given := none name kind
    rw [Memory.given, held, Option.getD_some] at given
    rw [given] at set
    cases set

end AttributeTable

/-! ### Decoding -/

/-- What decoding does to the context: it grows, and gives no name without an attribute. -/
structure Extends (ctx after : StreamContext) : Prop where
  grows : ctx.Grows after
  solid : ctx.Solid → after.Solid

theorem Extends.refl (ctx : StreamContext) : Extends ctx ctx := ⟨.refl ctx, id⟩

theorem Extends.trans {ctx ctx' ctx'' : StreamContext} (h : Extends ctx ctx')
    (h' : Extends ctx' ctx'') : Extends ctx ctx'' :=
  ⟨h.grows.trans h'.grows, h'.solid ∘ h.solid⟩

/-- The memory of a structure, of which the context was `ctx` at its start. -/
structure Memory.ExtendedFrom (ctx : StreamContext) (m : Memory) : Prop where
  pending : m.overrides.Solid
  context : Extends ctx m.context

/-- Pending attributes are added one at a time, and saving only adds to the context. -/
theorem Memory.ExtendedFrom.change {ctx : StreamContext} {m m' : Memory} {raw : Value}
    {triggers : List Trigger} (h : m.ExtendedFrom ctx) (changed : m.Change raw triggers m') :
    m'.ExtendedFrom ctx := by
  cases changed with
  | set => exact ⟨h.pending.override _ _, h.context⟩
  | lookup => exact ⟨h.pending.override _ _, h.context⟩
  | save => exact ⟨h.pending, h.context.trans ⟨.merge _ _, fun solid => solid.merge h.pending⟩⟩

theorem Row.extends {input rest : Slice} {ctx ctx' : StreamContext} {ss : List DecodedStructure}
    (row : Row (fun _ ctx r => Extends ctx r.context) input ctx ss rest ctx') : Extends ctx ctx' := by
  induction row with
  | nil input ctx => exact .refl ctx
  | cons head tail ih => exact head.trans ih

/-- To have extended the context is an invariant of decoding. -/
theorem decodingInvariant_extends (g : Grammar) (o : Options) (entry : StreamContext) :
    DecodingInvariant g o entry (fun _ _ ctx _ _ m => m.ExtendedFrom ctx)
      (fun _ ctx r => Extends ctx r.context) where
  start _ := ⟨.empty, .refl _⟩
  scalar _ _ _ _ h turn := fireAll_invariant _ (fun _ _ h changed => h.change changed) h turn.fired
  target _ _ _ _ h _ row := ⟨h.pending, h.context.trans row.extends⟩
  finish _ h _ := h.context

/-- A packet that is decoded extends the context, by what can come about. -/
theorem extends_of_parseTopLevel {g : Grammar} {o : Options} {packet : List UInt8}
    {ctx after : StreamContext} {tree : ParseTree}
    (h : parseTopLevel g o packet ctx = (.ok tree, after)) :
    Extends ctx after ∧ SourcedContext g ctx after := by
  obtain ⟨rest, -, known, row⟩ := (decodingInvariant_extends g o ctx).keeps_of_parseTopLevel h
  exact ⟨row.extends, known⟩

/-! ### Sessions -/

/-- The decoding of one packet of a stream, by a set of grammars. -/
structure Call where
  grammars : GrammarSet
  options : Options
  packet : List UInt8

namespace Call

/-- What the call comes to from a context, and the context it leaves. -/
def outcome (c : Call) (ctx : StreamContext) : Except DissectError Dissection × StreamContext :=
  dissect c.grammars c.options c.packet ctx

/-- The trigger occurs in one of the grammars. -/
def Has (c : Call) (t : Trigger) : Prop := ∃ entry ∈ c.grammars.entries, entry.2.Has t

/-- A call leaves the context as it is, or extends it as a packet decoded by one of its grammars
does. -/
theorem outcome_cases (c : Call) (ctx : StreamContext) :
    (c.outcome ctx).2 = ctx ∨ ∃ entry ∈ c.grammars.entries,
      Extends ctx (c.outcome ctx).2 ∧ SourcedContext entry.2 ctx (c.outcome ctx).2 := by
  cases result : c.outcome ctx with
  | mk outcome after =>
    cases outcome with
    | error e => exact .inl (context_of_dissect_eq_error result)
    | ok d =>
      obtain ⟨entry, mem, decoded⟩ := dissect_eq_ok result
      exact .inr ⟨entry, mem, extends_of_parseTopLevel decoded⟩

theorem extends_outcome (c : Call) (ctx : StreamContext) : Extends ctx (c.outcome ctx).2 := by
  rcases c.outcome_cases ctx with same | ⟨entry, -, extended, -⟩
  · rw [same]
    exact .refl ctx
  · exact extended

end Call

/-- The context that calls leave, one after the other, of a stream of which nothing is known at its
start. -/
def session (calls : List Call) : StreamContext :=
  calls.foldl (fun ctx c => (c.outcome ctx).2) .empty

theorem session_concat (calls : List Call) (c : Call) :
    session (calls ++ [c]) = (c.outcome (session calls)).2 := by
  rw [session, List.foldl_append]
  rfl

/-- What each call keeps, sessions keep. -/
theorem session_invariant {P : StreamContext → Prop} {calls : List Call} (empty : P .empty)
    (keeps : ∀ c ∈ calls, ∀ ctx, P ctx → P (c.outcome ctx).2) : P (session calls) := by
  induction calls using List.reverseRecOn with
  | nil => exact empty
  | append_singleton calls c ih =>
    rw [session_concat]
    refine keeps c (List.mem_append_right _ (List.mem_singleton_self c)) _ (ih fun d mem => ?_)
    exact keeps d (List.mem_append_left _ mem)

theorem solid_session (calls : List Call) : (session calls).Solid :=
  session_invariant .empty fun c _ ctx => (c.extends_outcome ctx).solid

/-- The triggers of the grammars account for all that a session leaves. -/
theorem knownFrom_session (calls : List Call) :
    AttributeTable.KnownFrom (fun t => ∃ c ∈ calls, c.Has t) (session calls) := by
  refine session_invariant (.empty _) fun c mem ctx known => ?_
  rcases c.outcome_cases ctx with same | ⟨entry, own, -, sourced⟩
  · rw [same]
    exact known
  · exact sourced.knownFrom (fun t has => ⟨c, mem, entry, own, has⟩) known

/-- Where no grammar has a trigger that saves, nothing is ever kept. -/
theorem session_eq_empty {calls : List Call} (unsaved : ∀ c ∈ calls, ¬c.Has .saveToContext) :
    session calls = .empty := by
  refine session_invariant (P := (· = .empty)) rfl fun c mem ctx none => ?_
  subst none
  rcases c.outcome_cases .empty with same | ⟨entry, own, extended, sourced⟩
  · exact same
  · refine (extended.solid .empty).eq_empty fun name kind => ?_
    cases given : (Memory.given (c.outcome .empty).2 name).get? kind with
    | none => rfl
    | some v =>
      have declared : ∀ t, entry.2.Has t → c.Has t := fun t has => ⟨entry, own, has⟩
      obtain ⟨kind', before⟩ :=
        sourced.given_of_unsaved declared (.empty c.Has) (unsaved c mem) given
      cases kind' <;> cases before

/-- Over a whole session, every name in the context is the target of a trigger of some grammar and
has at least one attribute.  A further call leaves all names and attributes in place, if it adds or
replaces others, and leaves everything as it was if it fails.  Where no grammar has a trigger that
saves, the context stays empty. -/
theorem session_grows (calls : List Call) :
    (∀ name a, (session calls).get? name = some a →
      (∃ c ∈ calls, ∃ rules, c.Has (.onField name rules)) ∧
        ∃ kind, (a.get? kind).isSome = true) ∧
    (∀ c : Call, (session calls).Grows (session (calls ++ [c])) ∧
      ∀ e after, c.outcome (session calls) = (.error e, after) →
        session (calls ++ [c]) = session calls) ∧
    ((∀ c ∈ calls, ¬c.Has .saveToContext) → session calls = .empty) := by
  refine ⟨fun name a held => ?_, fun c => ⟨?_, fun e after failed => ?_⟩, session_eq_empty⟩
  · obtain ⟨kind, set⟩ := solid_session calls name a held
    obtain ⟨v, given⟩ := Option.isSome_iff_exists.mp set
    have given' : (Memory.given (session calls) name).get? kind = some v := by
      rw [Memory.given, held, Option.getD_some, given]
    obtain ⟨rules, c, mem, has⟩ := (knownFrom_session calls).target given'
    exact ⟨⟨c, mem, rules, has⟩, kind, set⟩
  · rw [session_concat]
    exact (c.extends_outcome _).grows
  · rw [session_concat, failed]
    exact context_of_dissect_eq_error failed

/-- A size whose triggers, which save how long the load is, are found in a table. -/
def instructed : Grammar where
  roots := ["Message"]
  structures := [⟨"Message", [
    .field ⟨"kind", {
      length := some (.bits 8)
      triggers := some [.onField "size" [.lookup .triggers [
        (.int 1, .triggers [.onField "load" [.set .length], .saveToContext])]]] }, false⟩,
    .field ⟨"size", { length := some (.bits 8) }, false⟩,
    .field ⟨"load", { length := some .rest }, false⟩]⟩]

/-- Two packets of the kind in the table, with one of another kind between them. -/
def instructions : List Call :=
  [[1, 2, 7, 8], [3, 3], [1, 1, 9]].map fun packet => ⟨⟨[("instructed", instructed)]⟩, {}, packet⟩

theorem session_grows_instructed :
    (session instructions).entries.map (fun row => (row.1, row.2.length)) =
      [("load", some (.bits 8)), ("size", none)] ∧
    (∃ c ∈ instructions, ∃ rules, c.Has (.onField "load" rules)) ∧
    ∃ c, (∃ e after, c.outcome (session instructions) = (.error e, after)) ∧
      (session instructions).Grows (session (instructions ++ [c])) ∧
      session (instructions ++ [c]) = session instructions := by
  have saved : (session instructions).entries.map (fun row => (row.1, row.2.length)) =
      [("load", some (.bits 8)), ("size", none)] := by
    decide +kernel
  obtain ⟨known, further, -⟩ := session_grows instructions
  have load : ((session instructions).get? "load").isSome = true := by decide +kernel
  obtain ⟨a, held⟩ := Option.isSome_iff_exists.mp load
  -- A packet that ends in front of the size.
  let c : Call := ⟨⟨[("instructed", instructed)]⟩, {}, [1]⟩
  have refused : (c.outcome (session instructions)).1.toOption.isNone = true := by decide +kernel
  obtain ⟨grows, unchanged⟩ := further c
  refine ⟨saved, (known "load" a held).1, c, ?_⟩
  cases result : c.outcome (session instructions) with
  | mk outcome after =>
    cases outcome with
    | ok d => rw [result] at refused; cases refused
    | error e => exact ⟨⟨e, after, rfl⟩, grows, unchanged e after result⟩

end WireGrammar
