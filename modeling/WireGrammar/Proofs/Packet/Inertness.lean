import WireGrammar.Proofs.Grammar.Insertion
import WireGrammar.Proofs.Packet.Selection

/-!
# Structures without an effect

A grammar may hold structures that nothing refers to, for instance those of a draft that is being
written.  Names are resolved while a packet is decoded, and the attributes that name a target may
come from tables and from the context; still, such a structure has no effect on any packet, whatever
it declares and wherever it stands.

* `parseRoot_of_inserted`: a root is decoded as if the structure were not there;
* `firstGrammar_of_inserted`: so is a packet by a set in which one grammar has it;
* `parseTopLevel_of_inserted`: outcomes and contexts are the same.
-/

namespace WireGrammar

variable {g g' : Grammar} {o : Options} {x : Structure} {ctx : StreamContext}

/-- A root that does not lead to `x` is decoded as if `x` were not there. -/
theorem parseRoot_of_inserted (free : Unreferenced g ctx x) (ins : g.Inserted x g')
    {packet : List UInt8} {root : String} (other : x.answers root = false) :
    parseRoot g' o packet root ctx = parseRoot g o packet root ctx := by
  have agree : Agree (fun name _ later => x.answers name = false ∧ SourcedContext g ctx later)
      (parseTarget g o) (parseTarget g' o) :=
    agree_of_inserted free ins (fun ok => ⟨_, _, ok⟩)
      fun mem known => enterOutermost_of_inserted free ins mem known
  rw [parseRoot, parseRoot, attemptRoot_eq, attemptRoot_eq, agree.chain ⟨other, .refl g ctx⟩]

theorem firstRoot_of_inserted (free : Unreferenced g ctx x) (ins : g.Inserted x g')
    {packet : List UInt8} {roots : List String}
    (others : ∀ root ∈ roots, x.answers root = false) (last : ParseError) :
    firstRoot g' o packet ctx last roots = firstRoot g o packet ctx last roots := by
  induction roots generalizing last with
  | nil => rfl
  | cons root roots ih =>
    obtain ⟨other, rest⟩ := List.forall_mem_cons.mp others
    rw [firstRoot, firstRoot, parseRoot_of_inserted free ins other]
    cases parseRoot g o packet root ctx with
    | ok taken => rfl
    | error failure => exact ih rest failure.error

/-- Grammars in front of the one that has `x` either take the packet or leave the context alone, so
its turn comes in the same context. -/
theorem firstGrammar_of_inserted {packet : List UInt8}
    (same : parseTopLevel g' o packet ctx = parseTopLevel g o packet ctx)
    (before after : List (String × Grammar)) (id : String) (tried : Nat) (last : DissectError) :
    firstGrammar o packet ctx tried last (before ++ (id, g') :: after) =
      firstGrammar o packet ctx tried last (before ++ (id, g) :: after) := by
  induction before generalizing tried last with
  | nil => rw [List.nil_append, List.nil_append, firstGrammar, firstGrammar, same]
  | cons entry before ih =>
    rw [List.cons_append, List.cons_append, firstGrammar, firstGrammar]
    cases result : parseTopLevel entry.2 o packet ctx with
    | mk outcome left =>
      cases outcome with
      | ok tree => rfl
      | error cause =>
        obtain rfl := context_of_parseTopLevel_eq_error result
        exact ih _ _

/-- A structure that no root, target or follower leads to, in the grammar, in its tables or in the
context, by its name or by the type that it is an alternative of, has no effect wherever it is put
among the structures: packets have the same outcome and leave the same context, by the grammar alone
and by any set that the grammar is one of. -/
theorem parseTopLevel_of_inserted (free : Unreferenced g ctx x)
    (unrooted : ∀ root ∈ g.roots, x.answers root = false) (ins : g.Inserted x g')
    (rooted : g'.roots = g.roots) (o : Options) (packet : List UInt8) :
    parseTopLevel g' o packet ctx = parseTopLevel g o packet ctx ∧
      ∀ before after id, dissect ⟨before ++ (id, g') :: after⟩ o packet ctx =
        dissect ⟨before ++ (id, g) :: after⟩ o packet ctx := by
  have same : parseTopLevel g' o packet ctx = parseTopLevel g o packet ctx := by
    rw [parseTopLevel, parseTopLevel, rooted]
    exact firstRoot_of_inserted free ins unrooted noRoot
  refine ⟨same, fun before after id => ?_⟩
  exact firstGrammar_of_inserted same before after id 0 .noGrammars

/-- A body that a table makes one of two structures, and a trailer that the context makes another
than the declared one. -/
def redirected : Grammar where
  roots := ["Message"]
  structures := [
    ⟨"Message", [
      .field ⟨"kind", {
        length := some (.bits 8)
        triggers := some [.onField "body" [.lookup .parse [
          (.int 1, .parse "Short"), (.int 2, .parse "Block")]]] }, false⟩,
      .field ⟨"body", { parse := some "Short" }, false⟩,
      .field ⟨"trailer", { parse := some "Short" }, false⟩]⟩,
    ⟨"Short", [.field ⟨"value", { length := some (.bits 8) }, false⟩]⟩,
    ⟨"Long", [.type "Block", .field ⟨"value", { length := some (.bits 16) }, false⟩]⟩]

/-- A structure in which a message would follow, of a type that no name stands for. -/
def drafted : Structure where
  name := "Draft"
  descriptors := [
    .type "Proposal", .field ⟨"value", { length := some (.bits 8) }, false⟩, .next "Message"]

/-- What makes the trailer a block. -/
def redirecting : StreamContext := AttributeTable.override .empty "trailer" (.parse "Block")

theorem parseTopLevel_of_inserted_drafted :
    ∃ g', Unreferenced redirected redirecting drafted ∧
      (∀ root ∈ redirected.roots, drafted.answers root = false) ∧
      redirected.Inserted drafted g' ∧ g'.roots = redirected.roots ∧
      (∃ tree after, parseTopLevel redirected {} [2, 7, 8, 9, 10] redirecting = (.ok tree, after) ∧
        tree.parts.map (·.name) = ["Message", "Long", "Long"] ∧
        parseTopLevel g' {} [2, 7, 8, 9, 10] redirecting = (.ok tree, after)) ∧
      dissect ⟨[("draft", g'), ("final", redirected)]⟩ {} [1, 7] redirecting =
        dissect ⟨[("draft", redirected), ("final", redirected)]⟩ {} [1, 7] redirecting := by
  let g' : Grammar := ⟨redirected.roots, drafted :: redirected.structures⟩
  have free : Unreferenced redirected redirecting drafted := ⟨by decide, by decide, by decide⟩
  have unrooted : ∀ root ∈ redirected.roots, drafted.answers root = false := by decide
  have ins : redirected.Inserted drafted g' := ⟨[], redirected.structures, rfl, rfl⟩
  have names : (parseTopLevel redirected {} [2, 7, 8, 9, 10] redirecting).1.toOption.map
      (fun tree => tree.parts.map (·.name)) = some ["Message", "Long", "Long"] := by
    decide +kernel
  obtain ⟨tree, decoded, names⟩ := Option.map_eq_some_iff.mp names
  have ok := eq_ok_of_toOption decoded
  obtain ⟨same, -⟩ :=
    parseTopLevel_of_inserted free unrooted ins rfl {} [2, 7, 8, 9, 10]
  obtain ⟨-, sets⟩ := parseTopLevel_of_inserted free unrooted ins rfl {} [1, 7]
  exact ⟨g', free, unrooted, ins, rfl, ⟨tree, _, ok, names, same.trans ok⟩,
    sets [] [("final", redirected)] "draft"⟩

end WireGrammar
