import Mathlib.Data.Prod.Lex
import WireGrammar.Proofs.Tiling

/-!
# Which grammar decodes a packet

The roots of the grammars of a set are tried one after the other, all of them from the context as it
was before the packet.  So what an attempt comes to does not depend on those before it, and the
first one that takes the packet to its last byte is the one that counts.

* `PlaceTakes`: the attempt of the root at a place takes the packet;
* `Refusal`: why an attempt does not;
* `dissect_selects`: the first place in lexicographic order decides, and without one the last root
  of the last grammar says why.
-/

namespace WireGrammar

variable {g : Grammar} {o : Options} {packet : List UInt8} {ctx : StreamContext}

/-! ### Attempts -/

/-- The root takes the packet to its last byte, as the chain `c`. -/
def RootTakes (g : Grammar) (o : Options) (packet : List UInt8) (ctx : StreamContext)
    (root : String) (c : Chain) : Prop :=
  attemptRoot g o packet root ctx = .ok c ∧ c.rest.offset = packet.length

/-- Why the attempt of a root does not take the packet: it fails, or it leaves bytes behind. -/
inductive Refusal (packet : List UInt8) (root : String) : Attempt Chain → ParseError → Prop where
  | failed (failure : Failure) : Refusal packet root (.error failure) failure.error
  | trailing (c : Chain) (short : c.rest.offset ≠ packet.length) :
    Refusal packet root (.ok c) (.trailingBytes root c.rest.offset packet.length)

theorem Refusal.unique {root : String} {attempt : Attempt Chain} {e e' : ParseError}
    (h : Refusal packet root attempt e) (h' : Refusal packet root attempt e') : e = e' := by
  cases h <;> cases h' <;> rfl

/-- Why a set does not decode a packet that none of its roots takes: it is empty, or the last root
of its last grammar is refused. -/
inductive SetRefusal (gs : GrammarSet) (o : Options) (packet : List UInt8) (ctx : StreamContext) :
    DissectError → Prop where
  | empty (none : gs.entries = []) : SetRefusal gs o packet ctx .noGrammars
  | last {id : String} {g : Grammar} {root : String} {cause : ParseError}
    (grammar : gs.entries.getLast? = some (id, g)) (root_ : g.roots.getLast? = some root)
    (why : Refusal packet root (attemptRoot g o packet root ctx) cause) :
    SetRefusal gs o packet ctx (.exhausted gs.size id cause)

theorem SetRefusal.unique {gs : GrammarSet} {e e' : DissectError}
    (h : SetRefusal gs o packet ctx e) (h' : SetRefusal gs o packet ctx e') : e = e' := by
  cases h with
  | empty none =>
    cases h' with
    | empty => rfl
    | last grammar' => rw [none] at grammar'; cases grammar'
  | last grammar root why =>
    cases h' with
    | empty none => rw [none] at grammar; cases grammar
    | last grammar' root' why' =>
      cases grammar.symm.trans grammar'
      cases root.symm.trans root'
      rw [why.unique why']

/-- The root at a place, which is the index of its grammar and its index among the roots of that
grammar, takes the packet as the chain `c`. -/
def PlaceTakes (entries : List (String × Grammar)) (o : Options) (packet : List UInt8)
    (ctx : StreamContext) (place : Nat × Nat) (id : String) (c : Chain) : Prop :=
  ∃ g root, entries[place.1]? = some (id, g) ∧ g.roots[place.2]? = some root ∧
    RootTakes g o packet ctx root c

theorem parseRoot_of_takes {root : String} {c : Chain} (h : RootTakes g o packet ctx root c) :
    parseRoot g o packet root ctx = .ok (⟨c.structures⟩, c.context) := by
  obtain ⟨ok, all⟩ := h
  rw [parseRoot, ok]
  exact if_pos all

theorem parseRoot_of_refused {root : String} (h : ∀ c, ¬RootTakes g o packet ctx root c) :
    ∃ failure, parseRoot g o packet root ctx = .error failure ∧
      Refusal packet root (attemptRoot g o packet root ctx) failure.error := by
  unfold parseRoot
  cases attempt : attemptRoot g o packet root ctx with
  | error failure => exact ⟨failure, rfl, .failed failure⟩
  | ok c =>
    have short : c.rest.offset ≠ packet.length := fun all => h c ⟨attempt, all⟩
    exact ⟨_, if_neg short, .trailing c short⟩

/-- The structures of a root that takes the packet lie one behind the other from its first byte to
its last. -/
theorem RootTakes.contiguous {root : String} {c : Chain} (h : RootTakes g o packet ctx root c) :
    Contiguous 0 c.structures packet.length := by
  obtain ⟨ok, all⟩ := h
  rw [attemptRoot_eq] at ok
  have gapless := (tiledRow_of_chain ok).contiguous.1
  rwa [all] at gapless

/-! ### Roots in order -/

/-- Either the first root that takes the packet decides, or the last root says why none does. -/
theorem firstRoot_cases (g : Grammar) (o : Options) (packet : List UInt8) (ctx : StreamContext)
    (last : ParseError) (roots : List String) :
    (∃ (j : Nat) (root : String) (c : Chain), roots[j]? = some root ∧ RootTakes g o packet ctx root c ∧
      (∀ i < j, ∀ other, roots[i]? = some other → ∀ c', ¬RootTakes g o packet ctx other c') ∧
      firstRoot g o packet ctx last roots = (.ok ⟨c.structures⟩, c.context)) ∨
    ((∀ root ∈ roots, ∀ c, ¬RootTakes g o packet ctx root c) ∧
      ∃ cause, firstRoot g o packet ctx last roots = (.error cause, ctx) ∧
        (roots = [] ∧ cause = last ∨ ∃ root, roots.getLast? = some root ∧
          Refusal packet root (attemptRoot g o packet root ctx) cause)) := by
  induction roots generalizing last with
  | nil =>
    right
    refine ⟨?_, last, rfl, .inl ⟨rfl, rfl⟩⟩
    intro root mem
    cases mem
  | cons root roots ih =>
    by_cases takes : ∃ c, RootTakes g o packet ctx root c
    · obtain ⟨c, takes⟩ := takes
      left
      refine ⟨0, root, c, rfl, takes, ?_, ?_⟩
      · intro i before
        omega
      · rw [firstRoot, parseRoot_of_takes takes]
    · have refused : ∀ c, ¬RootTakes g o packet ctx root c := not_exists.mp takes
      obtain ⟨failure, failed, why⟩ := parseRoot_of_refused refused
      have next : firstRoot g o packet ctx last (root :: roots) =
          firstRoot g o packet ctx failure.error roots := by
        rw [firstRoot, failed]
      rw [next]
      rcases ih failure.error with ⟨j, other, c, at_, takes, first, eq⟩ | ⟨none, cause, eq, last⟩
      · left
        refine ⟨j + 1, other, c, at_, takes, ?_, eq⟩
        intro i before r there
        cases i with
        | zero =>
          cases there
          exact refused
        | succ i => exact first i (by omega) r there
      · right
        refine ⟨List.forall_mem_cons.mpr ⟨refused, none⟩, cause, eq, .inr ?_⟩
        rcases last with ⟨rfl, rfl⟩ | ⟨other, at_, why'⟩
        · exact ⟨root, rfl, why⟩
        · refine ⟨other, ?_, why'⟩
          rw [List.getLast?_cons, at_]
          rfl

/-- A grammar of which no root takes the packet leaves the context as it was. -/
theorem context_of_parseTopLevel_eq_error {e : ParseError} {after : StreamContext}
    (h : parseTopLevel g o packet ctx = (.error e, after)) : after = ctx := by
  rcases firstRoot_cases g o packet ctx noRoot g.roots with
    ⟨j, root, c, -, -, -, eq⟩ | ⟨-, cause, eq, -⟩
  · rw [parseTopLevel, eq] at h
    cases h
  · rw [parseTopLevel, eq] at h
    cases h
    rfl

/-! ### Grammars in order -/

/-- No place before this one takes the packet. -/
def NoneBefore (entries : List (String × Grammar)) (o : Options) (packet : List UInt8)
    (ctx : StreamContext) (place : Nat × Nat) : Prop :=
  ∀ earlier, toLex earlier < toLex place → ∀ id c, ¬PlaceTakes entries o packet ctx earlier id c

/-- Either the first place that takes the packet decides, or the last root of the last grammar says
why none does. -/
theorem firstGrammar_cases (o : Options) (packet : List UInt8) (ctx : StreamContext) (tried : Nat)
    (last : DissectError) (entries : List (String × Grammar)) :
    (∃ place id c, PlaceTakes entries o packet ctx place id c ∧
      NoneBefore entries o packet ctx place ∧
      firstGrammar o packet ctx tried last entries = (.ok ⟨id, ⟨c.structures⟩⟩, c.context)) ∨
    ((∀ place id c, ¬PlaceTakes entries o packet ctx place id c) ∧
      ∃ e, firstGrammar o packet ctx tried last entries = (.error e, ctx) ∧
        ((∀ entry ∈ entries, entry.2.roots ≠ []) → entries = [] ∧ e = last ∨
          ∃ id g root cause, entries.getLast? = some (id, g) ∧ g.roots.getLast? = some root ∧
            Refusal packet root (attemptRoot g o packet root ctx) cause ∧
            e = .exhausted (tried + entries.length) id cause)) := by
  induction entries generalizing tried last with
  | nil =>
    right
    refine ⟨?_, last, rfl, fun _ => .inl ⟨rfl, rfl⟩⟩
    rintro place id c ⟨g, root, there, -⟩
    cases there
  | cons entry entries ih =>
    obtain ⟨id, g⟩ := entry
    rcases firstRoot_cases g o packet ctx noRoot g.roots with
      ⟨j, root, c, at_, takes, first, eq⟩ | ⟨none, cause, eq, why⟩
    · left
      refine ⟨(0, j), id, c, ⟨g, root, rfl, at_, takes⟩, ?_, ?_⟩
      · rintro ⟨i, k⟩ before id' c' ⟨g', root', there, at', takes'⟩
        rcases Prod.Lex.toLex_lt_toLex.mp before with earlier | ⟨rfl, earlier⟩
        · exact absurd earlier (Nat.not_lt_zero i)
        · cases there
          exact first k earlier root' at' c' takes'
      · rw [firstGrammar, parseTopLevel, eq]
    · -- Nothing of this grammar takes the packet, and the context is as it was.
      have refused : ∀ k id' c', ¬PlaceTakes ((id, g) :: entries) o packet ctx (0, k) id' c' := by
        rintro k id' c' ⟨g', root', there, at', takes'⟩
        cases there
        exact none root' (List.mem_of_getElem? at') c' takes'
      have next : firstGrammar o packet ctx tried last ((id, g) :: entries) =
          firstGrammar o packet ctx (tried + 1) (.exhausted (tried + 1) id cause) entries := by
        rw [firstGrammar, parseTopLevel, eq]
      rw [next]
      rcases ih (tried + 1) (.exhausted (tried + 1) id cause) with
        ⟨⟨i, j⟩, id', c, takes, first, eq'⟩ | ⟨none', e, eq', last'⟩
      · left
        refine ⟨(i + 1, j), id', c, takes, ?_, eq'⟩
        rintro ⟨i', k⟩ before id'' c' takes'
        cases i' with
        | zero => exact refused k id'' c' takes'
        | succ i' =>
          refine first (i', k) ?_ id'' c' takes'
          rcases Prod.Lex.toLex_lt_toLex.mp before with earlier | ⟨same, earlier⟩
          · exact Prod.Lex.toLex_lt_toLex.mpr (.inl (Nat.lt_of_succ_lt_succ earlier))
          · exact Prod.Lex.toLex_lt_toLex.mpr (.inr ⟨Nat.succ.inj same, earlier⟩)
      · right
        refine ⟨?_, e, eq', fun rooted => .inr ?_⟩
        · rintro ⟨i, k⟩ id' c takes
          cases i with
          | zero => exact refused k id' c takes
          | succ i => exact none' (i, k) id' c takes
        · obtain ⟨own, others⟩ := List.forall_mem_cons.mp rooted
          rcases last' others with ⟨rfl, rfl⟩ | ⟨id', g', root, cause', at_, root_, why', rfl⟩
          · obtain ⟨empty, -⟩ | ⟨root, root_, why⟩ := why
            · exact absurd empty own
            · exact ⟨id, g, root, cause, rfl, root_, why, rfl⟩
          · refine ⟨id', g', root, cause', ?_, root_, why', ?_⟩
            · rw [List.getLast?_cons, at_]
              rfl
            · rw [List.length_cons, Nat.add_right_comm, Nat.add_assoc]

/-- There is only one first place, and it takes the packet in one way. -/
theorem PlaceTakes.unique {entries : List (String × Grammar)} {place place' : Nat × Nat}
    {id id' : String} {c c' : Chain} (h : PlaceTakes entries o packet ctx place id c)
    (first : NoneBefore entries o packet ctx place)
    (h' : PlaceTakes entries o packet ctx place' id' c')
    (first' : NoneBefore entries o packet ctx place') : id = id' ∧ c = c' := by
  have same : place = place' := by
    rcases lt_trichotomy (toLex place) (toLex place') with before | eq | behind
    · exact absurd h (first' place before id c)
    · exact eq
    · exact absurd h' (first place' behind id' c')
  subst same
  obtain ⟨g, root, there, at_, ok, -⟩ := h
  obtain ⟨g', root', there', at', ok', -⟩ := h'
  cases there.symm.trans there'
  cases at_.symm.trans at'
  cases ok.symm.trans ok'
  exact ⟨rfl, rfl⟩

/-- A packet that no grammar decodes leaves the context as it was. -/
theorem context_of_dissect_eq_error {gs : GrammarSet} {e : DissectError} {after : StreamContext}
    (h : dissect gs o packet ctx = (.error e, after)) : after = ctx := by
  rw [dissect] at h
  rcases firstGrammar_cases o packet ctx 0 .noGrammars gs.entries with
    ⟨place, id, c, -, -, eq⟩ | ⟨-, e', eq, -⟩
  · rw [eq] at h
    cases h
  · rw [eq] at h
    cases h
    rfl

/-- The grammar that decodes a packet comes after grammars that do not fit and leave the context as
it was. -/
theorem firstGrammar_eq_ok {tried : Nat} {last : DissectError} {entries : List (String × Grammar)}
    {d : Dissection} {after : StreamContext}
    (h : firstGrammar o packet ctx tried last entries = (.ok d, after)) :
    ∃ front g behind, entries = front ++ (d.grammar, g) :: behind ∧
      (∀ entry ∈ front, ∃ cause, parseTopLevel entry.2 o packet ctx = (.error cause, ctx)) ∧
      parseTopLevel g o packet ctx = (.ok d.tree, after) := by
  induction entries generalizing tried last with
  | nil => cases h
  | cons entry entries ih =>
    rw [firstGrammar] at h
    cases result : parseTopLevel entry.2 o packet ctx with
    | mk outcome left =>
      rw [result] at h
      cases outcome with
      | ok tree =>
        cases h
        exact ⟨[], entry.2, entries, rfl, List.forall_mem_nil _, result⟩
      | error cause =>
        obtain rfl := context_of_parseTopLevel_eq_error result
        obtain ⟨front, g, behind, rfl, refused, ok⟩ := ih h
        exact ⟨entry :: front, g, behind, rfl, List.forall_mem_cons.mpr ⟨⟨cause, result⟩, refused⟩,
          ok⟩

/-- A packet that is decoded is decoded by one of the grammars, from the context as it was. -/
theorem dissect_eq_ok {gs : GrammarSet} {d : Dissection} {after : StreamContext}
    (h : dissect gs o packet ctx = (.ok d, after)) :
    ∃ entry ∈ gs.entries, parseTopLevel entry.2 o packet ctx = (.ok d.tree, after) := by
  obtain ⟨front, g, behind, split, -, ok⟩ := firstGrammar_eq_ok h
  exact ⟨(d.grammar, g), split ▸ List.mem_append_cons_self, ok⟩

/-- A packet is decoded just if some root of some grammar takes it to its last byte, starting from
the context as it was before the packet.  The first one that does, by its grammar and then by its
place among the roots, gives the tree, the identifier and the context, and the structures of the
tree lie one behind the other over the whole packet.  Otherwise the context stays as it was, and
unless the set is empty the failure counts its grammars and tells why the last root of the last of
them does not take the packet. -/
theorem dissect_selects {gs : GrammarSet} (valid : ∀ entry ∈ gs.entries, entry.2.WellFormed)
    (o : Options) (packet : List UInt8) (ctx : StreamContext) :
    (∀ d after, dissect gs o packet ctx = (.ok d, after) ↔
      ∃ place id c, PlaceTakes gs.entries o packet ctx place id c ∧
        NoneBefore gs.entries o packet ctx place ∧ d = ⟨id, ⟨c.structures⟩⟩ ∧
        after = c.context) ∧
    (∀ d after, dissect gs o packet ctx = (.ok d, after) →
      Contiguous 0 d.tree.structures packet.length) ∧
    (∀ e after, dissect gs o packet ctx = (.error e, after) ↔
      (∀ place id c, ¬PlaceTakes gs.entries o packet ctx place id c) ∧ after = ctx ∧
        SetRefusal gs o packet ctx e) := by
  have rooted : ∀ entry ∈ gs.entries, entry.2.roots ≠ [] := by
    intro entry mem
    exact (valid entry mem).rooted
  rcases firstGrammar_cases o packet ctx 0 .noGrammars gs.entries with
    ⟨place, id, c, takes, first, eq⟩ | ⟨none, e, eq, why⟩
  · rw [dissect, eq]
    refine ⟨fun d after => ⟨?_, ?_⟩, fun d after ok => ?_, fun e after => ⟨?_, ?_⟩⟩
    · intro ok
      cases ok
      exact ⟨place, id, c, takes, first, rfl, rfl⟩
    · rintro ⟨place', id', c', takes', first', rfl, rfl⟩
      obtain ⟨rfl, rfl⟩ := takes.unique first takes' first'
      rfl
    · cases ok
      obtain ⟨g, root, -, -, taken⟩ := takes
      exact taken.contiguous
    · intro failed
      cases failed
    · rintro ⟨none, -⟩
      exact absurd takes (none place id c)
  · have refusal : SetRefusal gs o packet ctx e := by
      rcases why rooted with ⟨empty, rfl⟩ | ⟨id, g, root, cause, grammar, root_, refused, rfl⟩
      · exact .empty empty
      · rw [Nat.zero_add]
        exact .last grammar root_ refused
    rw [dissect, eq]
    refine ⟨fun d after => ⟨?_, ?_⟩, fun d after ok => ?_, fun e' after => ⟨?_, ?_⟩⟩
    · intro ok
      cases ok
    · rintro ⟨place, id, c, takes, -⟩
      exact absurd takes (none place id c)
    · cases ok
    · intro failed
      cases failed
      exact ⟨none, rfl, refusal⟩
    · rintro ⟨-, rfl, refusal'⟩
      rw [refusal.unique refusal']

/-- Of the newer grammar, one root fails after it has saved a length, and the other leaves bytes
behind. -/
def contested : GrammarSet where
  entries := [
    ("newer", {
      roots := ["Marked", "Short"]
      structures := [
        ⟨"Marked", [
          .field ⟨"size", {
            length := some (.bits 8)
            triggers := some [.onField "pair" [.set .length], .saveToContext] }, false⟩,
          .field ⟨"mark", {
            length := some (.bits 8), values := some (.single (.int 0)) }, false⟩]⟩,
        ⟨"Short", [.field ⟨"only", { length := some (.bits 8) }, false⟩]⟩] }),
    ("older", {
      roots := ["Pair"]
      structures := [⟨"Pair", [.field ⟨"pair", { length := some (.bits 16) }, false⟩]⟩] })]

theorem dissect_selects_contested :
    (∀ entry ∈ contested.entries, entry.2.WellFormed) ∧
    (∃ d after, dissect contested {} [1, 9] .empty = (.ok d, after) ∧ d.grammar = "older" ∧
      (∃ place id c, PlaceTakes contested.entries {} [1, 9] .empty place id c ∧
        NoneBefore contested.entries {} [1, 9] .empty place ∧ d = ⟨id, ⟨c.structures⟩⟩ ∧
        after = c.context) ∧
      Contiguous 0 d.tree.structures 2) ∧
    (∃ e, dissect contested {} [1, 9, 9] .empty = (.error e, .empty) ∧
      (∀ place id c, ¬PlaceTakes contested.entries {} [1, 9, 9] .empty place id c) ∧
      SetRefusal contested {} [1, 9, 9] .empty e) := by
  have valid : ∀ entry ∈ contested.entries, entry.2.WellFormed := by
    intro entry mem
    rcases List.mem_cons.mp mem with rfl | mem
    · exact ⟨by decide, by decide, by decide⟩
    · obtain rfl := List.mem_singleton.mp mem
      exact ⟨by decide, by decide, by decide⟩
  have chosen : (dissect contested {} [1, 9] .empty).1.toOption.map (·.grammar) =
      some "older" := by
    decide +kernel
  have failed : (dissect contested {} [1, 9, 9] .empty).1.toOption.isNone = true := by
    decide +kernel
  obtain ⟨d, decoded, chosen⟩ := Option.map_eq_some_iff.mp chosen
  have ok := eq_ok_of_toOption decoded
  obtain ⟨taken, whole, -⟩ := dissect_selects valid {} [1, 9] .empty
  refine ⟨valid, ⟨d, _, ok, chosen, (taken d _).mp ok, whole d _ ok⟩, ?_⟩
  obtain ⟨-, -, refused⟩ := dissect_selects valid {} [1, 9, 9] .empty
  cases result : dissect contested {} [1, 9, 9] .empty with
  | mk outcome after =>
    cases outcome with
    | ok d => rw [result] at failed; cases failed
    | error e =>
      obtain ⟨none, rfl, why⟩ := (refused e after).mp result
      exact ⟨e, rfl, none, why⟩

end WireGrammar
