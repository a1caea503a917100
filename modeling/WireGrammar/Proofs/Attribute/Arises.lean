import WireGrammar.Proofs.Attribute.Every
import WireGrammar.Proofs.Decoding.Turn
import WireGrammar.Proofs.Decoding.Scalar

/-!
# Which attributes can come about

The attributes of a field are those of its declaration, those that its context has for its name, and
those that triggers of the structure around it have left.  Triggers take them from scalars or from
tables, and may save them into the context.

* `Arises`: the attributes that this can lead to, wherever they are held;
* `Memory.Sourced.effective`: no field is decoded with any other attribute;
* `Arises.every`: a test that the attributes at hand pass, and those that scalars set, is passed by
  all that can come about.
-/

namespace WireGrammar

/-- Where an attribute is held. -/
inductive Holder where
  /-- By the context, for the fields of this name. -/
  | context (field : String)
  /-- Pending within a structure, for the fields of this name. -/
  | pending (s : Structure) (field : String)
  /-- By a field of a structure. -/
  | field (s : Structure) (f : FieldDescriptor)

/-- The attributes that can come about, from a context, wherever they are held. -/
inductive Arises (g : Grammar) (ctx : StreamContext) : Holder → AttributeValue → Prop where
  | kept {field kind v} (h : (Memory.given ctx field).get? kind = some v) :
      Arises g ctx (.context field) v
  | declared {s f kind v} (mem : s ∈ g.structures) (own : .field f ∈ s.descriptors)
      (h : f.attributes.get? kind = some v) : Arises g ctx (.field s f) v
  | fromContext {s f v} (mem : s ∈ g.structures) (own : .field f ∈ s.descriptors)
      (h : Arises g ctx (.context f.name) v) : Arises g ctx (.field s f) v
  | fromPending {s f v} (mem : s ∈ g.structures) (own : .field f ∈ s.descriptors)
      (h : Arises g ctx (.pending s f.name) v) : Arises g ctx (.field s f) v
  /-- A scalar that sets an attribute is no text, as it is read from the packet. -/
  | set {s f ts target rules kind raw v} (h : Arises g ctx (.field s f) (.triggers ts))
      (trigger : .onField target rules ∈ ts) (rule : .set kind ∈ rules)
      (read : raw.text? = none) (value : AttributeValue.ofValue? kind raw = some v) :
      Arises g ctx (.pending s target) v
  | lookup {s f ts target rules kind table row} (h : Arises g ctx (.field s f) (.triggers ts))
      (trigger : .onField target rules ∈ ts) (rule : .lookup kind table ∈ rules)
      (mem : row ∈ table) : Arises g ctx (.pending s target) row.2
  | saved {s f ts field v} (h : Arises g ctx (.field s f) (.triggers ts))
      (trigger : .saveToContext ∈ ts) (pending : Arises g ctx (.pending s field) v) :
      Arises g ctx (.context field) v

/-- A scalar sets the attribute that it is asked for, which is no list of triggers. -/
theorem AttributeValue.kind_of_ofValue? {kind : AttributeKind} {raw : Value} {v : AttributeValue}
    (h : ofValue? kind raw = some v) : v.kind = kind ∧ kind ≠ .triggers := by
  cases kind with
  | length =>
    obtain ⟨n, -, set⟩ := Option.bind_eq_some_iff.mp h
    split at set
    · cases set
      exact ⟨rfl, by decide⟩
    · cases set
  | values | byteLength | parse | format =>
    obtain ⟨x, -, rfl⟩ := Option.map_eq_some_iff.mp h
    exact ⟨rfl, by decide⟩
  | conditions | triggers => cases h

/-- A test that the attributes at hand pass, and those that scalars set. -/
theorem Arises.every {p : AttributeValue → Bool} {g : Grammar} {ctx : StreamContext}
    (declared : g.every p = true) (kept : ctx.every p = true)
    (set : ∀ kind raw v, raw.text? = none → AttributeValue.ofValue? kind raw = some v →
      p v = true)
    {holder : Holder} {v : AttributeValue} (h : Arises g ctx holder v) : v.every p = true := by
  induction h with
  | kept h => exact FieldAttributes.every_iff.mp (AttributeTable.every_given kept _) _ _ h
  | declared mem own h =>
    exact FieldAttributes.every_iff.mp (Grammar.every_of_field declared mem own) _ _ h
  | fromContext mem own h ih => exact ih
  | fromPending mem own h ih => exact ih
  | set h trigger rule read value ih =>
    obtain ⟨same, other⟩ := AttributeValue.kind_of_ofValue? value
    rw [AttributeValue.every_eq_self (same ▸ other)]
    exact set _ _ _ read value
  | lookup h trigger rule mem ih => exact AttributeValue.every_of_row ih trigger rule mem
  | saved h trigger pending ih ih' => exact ih'

/-! ### What tables give -/

theorem FieldAttributes.of_get?_merge {a upper : FieldAttributes} {kind : AttributeKind}
    {v : AttributeValue} (h : (a.merge upper).get? kind = some v) :
    upper.get? kind = some v ∨ a.get? kind = some v := by
  rw [get?_merge] at h
  cases given : upper.get? kind with
  | none => rw [given] at h; exact .inr h
  | some w => rw [given] at h; exact .inl h

namespace Memory

theorem given_override (t : AttributeTable) (target field : String) (v : AttributeValue) :
    given (t.override target v) field =
      if field = target then (given t target).set v else given t field := by
  rw [given, AttributeTable.get?_override]
  split <;> rfl

theorem given_merge (t upper : AttributeTable) (field : String) :
    given (t.merge upper) field = (given t field).merge (given upper field) := by
  rw [given, AttributeTable.get?_merge]
  cases h : upper.get? field with
  | none => rw [given, given, h]; rfl
  | some a => rw [given, given, h]; rfl

end Memory

/-- The context holds nothing but what can come about. -/
def SourcedContext (g : Grammar) (entry ctx : StreamContext) : Prop :=
  ∀ ⦃field kind v⦄, (Memory.given ctx field).get? kind = some v →
    Arises g entry (.context field) v

theorem SourcedContext.refl (g : Grammar) (ctx : StreamContext) : SourcedContext g ctx ctx :=
  fun _ _ _ h => .kept h

/-- If the attributes at hand pass a test, and those that scalars set, so do those that are kept. -/
theorem SourcedContext.every {p : AttributeValue → Bool} {g : Grammar} {entry ctx : StreamContext}
    (h : SourcedContext g entry ctx) (declared : g.every p = true) (kept : entry.every p = true)
    (set : ∀ kind raw v, raw.text? = none → AttributeValue.ofValue? kind raw = some v →
      p v = true) : ctx.every p = true := by
  refine AttributeTable.every_iff.mpr fun field => FieldAttributes.every_iff.mpr ?_
  intro kind v given
  exact (h given).every declared kept set

/-- What can come about in a part of a grammar, from a context that has come about in the whole of
it, can come about in the whole of it. -/
theorem Arises.lift {g g' : Grammar} {entry ctx : StreamContext}
    (part : ∀ s ∈ g.structures, s ∈ g'.structures) (known : SourcedContext g' entry ctx)
    {holder : Holder} {v : AttributeValue} (h : Arises g ctx holder v) :
    Arises g' entry holder v := by
  induction h with
  | kept h => exact known h
  | declared mem own h => exact .declared (part _ mem) own h
  | fromContext mem own _ ih => exact .fromContext (part _ mem) own ih
  | fromPending mem own _ ih => exact .fromPending (part _ mem) own ih
  | set _ trigger rule read value ih => exact .set ih trigger rule read value
  | lookup _ trigger rule mem ih => exact .lookup ih trigger rule mem
  | saved _ trigger _ ih ih' => exact .saved ih trigger ih'

theorem SourcedContext.lift {g g' : Grammar} {entry ctx ctx' : StreamContext}
    (part : ∀ s ∈ g.structures, s ∈ g'.structures) (known : SourcedContext g' entry ctx)
    (h : SourcedContext g ctx ctx') : SourcedContext g' entry ctx' :=
  fun _ _ _ given => (h given).lift part known

/-- The memory of a structure holds nothing but what can come about. -/
structure Memory.Sourced (g : Grammar) (entry : StreamContext) (s : Structure) (m : Memory) :
    Prop where
  pending : ∀ ⦃field kind v⦄, (given m.overrides field).get? kind = some v →
    Arises g entry (.pending s field) v
  context : SourcedContext g entry m.context

/-! ### Triggers -/

/-- What each step keeps, all of them keep. -/
theorem foldlM_invariant {α β : Type} (P : β → Prop) {step : β → α → Attempt β} {as : List α}
    (keeps : ∀ a ∈ as, ∀ b b', P b → step b a = .ok b' → P b') {b b' : β} (h : P b)
    (run : as.foldlM step b = .ok b') : P b' := by
  induction as generalizing b with
  | nil => cases run; exact h
  | cons a as ih =>
    rw [List.foldlM_cons] at run
    obtain ⟨c, first, rest⟩ := bind_eq_ok.mp run
    exact ih (fun a ha => keeps a (List.mem_cons_of_mem _ ha))
      (keeps a List.mem_cons_self b c h first) rest

/-- The changes of a memory that firing triggers on a scalar is made of. -/
inductive Memory.Change (raw : Value) (triggers : List Trigger) (m : Memory) : Memory → Prop where
  | set {target rules kind v} (trigger : .onField target rules ∈ triggers)
      (rule : .set kind ∈ rules) (value : AttributeValue.ofValue? kind raw = some v) :
      Change raw triggers m { m with overrides := m.overrides.override target v }
  | lookup {target rules kind table row} (trigger : .onField target rules ∈ triggers)
      (rule : .lookup kind table ∈ rules) (mem : row ∈ table) :
      Change raw triggers m { m with overrides := m.overrides.override target row.2 }
  | save (trigger : .saveToContext ∈ triggers) :
      Change raw triggers m { m with context := m.context.merge m.overrides }

/-- A rule changes one attribute of its target, or nothing. -/
theorem TriggerRule.fire_eq_ok {o : Options} {field target : String} {raw : Value}
    {triggers : List Trigger} {rules : List TriggerRule} {rule : TriggerRule} {m m' : Memory}
    (trigger : .onField target rules ∈ triggers) (mem : rule ∈ rules)
    (h : rule.fire o field raw target m = .ok m') : m' = m ∨ m.Change raw triggers m' := by
  cases rule with
  | set kind =>
    rw [TriggerRule.fire] at h
    split at h
    · cases h
      exact .inl rfl
    · split at h
      · next value =>
        cases h
        exact .inr (.set trigger mem value)
      · cases h
  | lookup kind table =>
    rw [TriggerRule.fire] at h
    split at h
    · next found =>
      cases h
      obtain ⟨row, hit, rfl⟩ := Option.map_eq_some_iff.mp found
      exact .inr (.lookup trigger mem (List.mem_of_find?_eq_some hit))
    · cases h

/-- What each change keeps, the triggers of a field keep. -/
theorem fireAll_invariant {o : Options} {field : String} {raw : Value} {triggers : List Trigger}
    (P : Memory → Prop) (change : ∀ m m', P m → m.Change raw triggers m' → P m') {m m' : Memory}
    (h : P m) (fired : fireAll o field raw triggers m = .ok m') : P m' := by
  refine foldlM_invariant P (fun trigger mem m m' h step => ?_) h fired
  cases trigger with
  | saveToContext =>
    cases step
    exact change m _ h (.save mem)
  | onField target rules =>
    refine foldlM_invariant P (fun rule own m m' h step => ?_) h step
    rcases TriggerRule.fire_eq_ok mem own step with rfl | changed
    · exact h
    · exact change m m' h changed

namespace Memory.Sourced

variable {g : Grammar} {o : Options} {entry : StreamContext} {s : Structure} {m m' : Memory}
  {f : FieldDescriptor}

theorem start {ctx : StreamContext} (h : SourcedContext g entry ctx) (s : Structure) :
    Sourced g entry s ⟨.empty, ctx⟩ where
  pending := by
    intro field kind v given
    cases kind <;> cases given
  context := h

/-- A field is decoded with attributes that can come about. -/
theorem effective (h : m.Sourced g entry s) (mem : s ∈ g.structures)
    (own : .field f ∈ s.descriptors) {kind : AttributeKind} {v : AttributeValue}
    (hv : (m.effective f).get? kind = some v) : Arises g entry (.field s f) v := by
  unfold Memory.effective at hv
  rcases FieldAttributes.of_get?_merge hv with pending | lower
  · exact .fromPending mem own (h.pending pending)
  · rcases FieldAttributes.of_get?_merge lower with kept | declared
    · exact .fromContext mem own (h.context kept)
    · exact .declared mem own declared

/-- An attribute that can come about may be pending. -/
theorem override (h : m.Sourced g entry s) {target : String} {v : AttributeValue}
    (new : Arises g entry (.pending s target) v) :
    Sourced g entry s { m with overrides := m.overrides.override target v } where
  pending := by
    intro field kind w given
    rw [given_override] at given
    split at given
    · next same =>
      subst same
      rw [FieldAttributes.get?_set] at given
      split at given
      · cases given
        exact new
      · exact h.pending given
    · exact h.pending given
  context := h.context

/-- The triggers of a field change the memory to what can come about. -/
theorem change {ts : List Trigger} {raw : Value} (arises : Arises g entry (.field s f) (.triggers ts))
    (read : raw.text? = none) (h : m.Sourced g entry s) (changed : m.Change raw ts m') :
    m'.Sourced g entry s := by
  cases changed with
  | set trigger rule value => exact h.override (.set arises trigger rule read value)
  | lookup trigger rule mem => exact h.override (.lookup arises trigger rule mem)
  | save trigger =>
    refine ⟨h.pending, fun field kind v given => ?_⟩
    rw [given_merge] at given
    rcases FieldAttributes.of_get?_merge given with pending | kept
    · exact .saved arises trigger (h.pending pending)
    · exact h.context kept

/-- Firing the triggers of a field leads to nothing but what can come about. -/
theorem fireAll {raw : Value} (mem : s ∈ g.structures) (own : .field f ∈ s.descriptors)
    (read : raw.text? = none) (h : m.Sourced g entry s)
    (fired : WireGrammar.fireAll o f.name raw ((m.effective f).triggers.getD []) m = .ok m') :
    m'.Sourced g entry s := by
  cases given : (m.effective f).triggers with
  | none =>
    rw [given] at fired
    cases fired
    exact h
  | some ts =>
    have effective : (m.effective f).get? .triggers = some (.triggers ts) := by
      rw [FieldAttributes.get?, given]
      rfl
    have arises := h.effective mem own effective
    rw [given] at fired
    exact fireAll_invariant _ (fun m m' h changed => h.change arises read changed) h fired

end Memory.Sourced

/-! ### Formats -/

def AttributeValue.notFormat (v : AttributeValue) : Bool := v.kind != .format

/-- No format stands anywhere: not in a declaration, not in a table, not in the context. -/
def FormatFree (g : Grammar) (ctx : StreamContext) : Prop :=
  g.every (·.notFormat) = true ∧ ctx.every (·.notFormat) = true

instance (g : Grammar) (ctx : StreamContext) : Decidable (FormatFree g ctx) := by
  unfold FormatFree
  infer_instance

/-- Only text sets a format. -/
theorem AttributeValue.notFormat_of_ofValue? {kind : AttributeKind} {raw : Value}
    {v : AttributeValue} (read : raw.text? = none) (h : ofValue? kind raw = some v) :
    v.notFormat = true := by
  obtain ⟨same, -⟩ := kind_of_ofValue? h
  refine bne_iff_ne.mpr fun format => ?_
  rw [← same, format, ofValue?, read] at h
  cases h

/-- Without formats, scalars are shown as they are. -/
theorem Memory.Sourced.shown_eq {g : Grammar} {entry : StreamContext} (free : FormatFree g entry)
    {s : Structure} {f : FieldDescriptor} {m : Memory} (h : m.Sourced g entry s)
    (mem : s ∈ g.structures) (own : .field f ∈ s.descriptors) (raw : Value) :
    (m.effective f).shown raw = raw := by
  unfold FieldAttributes.shown
  split
  · next format given =>
    have effective : (m.effective f).get? .format = some (.format format) := by
      rw [FieldAttributes.get?, given]
      rfl
    have passes := (h.effective mem own effective).every free.1 free.2
      fun _ _ _ read set => AttributeValue.notFormat_of_ofValue? read set
    cases passes
  · rfl

end WireGrammar
