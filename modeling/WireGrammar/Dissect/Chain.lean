import WireGrammar.Dissect.Error
import WireGrammar.Tree.Basic

/-!
# Chains and lists of structures

A structure may name the one that follows it; a chain goes on as long as one is named, the last one
took at least a byte, and bytes are left.  A list is a row of chains that all start with the same
name.  Both are built over any way of decoding a single structure, and come to an end because each
further step has fewer bytes to work on.
-/

namespace WireGrammar

/-- A structure decoded at the front of a slice, the number of bytes it took, the name of the
structure that follows, and the context it leaves. -/
structure Resolved where
  decoded : DecodedStructure
  consumed : Nat
  next : Option String
  context : StreamContext

/-- A way of decoding a structure, or an alternative of a type, by its name. -/
abbrev TargetParser := String → Slice → StreamContext → Attempt Resolved

/-- Structures decoded one after the other, what is left behind them, and the context they
leave. -/
structure Chain where
  structures : List DecodedStructure
  rest : Slice
  context : StreamContext

/-- The chain with structures put before it. -/
def Chain.after (c : Chain) (structures : List DecodedStructure) : Chain :=
  { c with structures := structures ++ c.structures }

/-- The structure that a chain goes on with, if it does. -/
def Resolved.continuation? (r : Resolved) (rest : Slice) : Option String :=
  if r.consumed = 0 ∨ rest.bytes = [] then none else r.next

theorem Resolved.length_drop_lt {r : Resolved} {input : Slice} {next : String}
    (h : r.continuation? (input.drop r.consumed) = some next) :
    (input.drop r.consumed).length < input.length := by
  unfold continuation? at h
  split at h
  · simp at h
  · next go =>
    simp only [Slice.drop, not_or, List.drop_eq_nil_iff, Nat.not_le] at go
    rw [Slice.length_drop]
    unfold Slice.length
    omega

/-- The chain that starts with the structure `name`. -/
def chain (parse : TargetParser) (name : String) (input : Slice) (ctx : StreamContext) :
    Attempt Chain :=
  match parse name input ctx with
  | .error failure => .error failure
  | .ok r =>
    match _h : r.continuation? (input.drop r.consumed) with
    | none => .ok ⟨[r.decoded], input.drop r.consumed, r.context⟩
    | some next =>
      (chain parse next (input.drop r.consumed) r.context).map (·.after [r.decoded])
termination_by input.length
decreasing_by exact Resolved.length_drop_lt _h

/-- How often a list repeats. -/
inductive Repetition where
  | times (n : Nat)
  | untilExhausted
  deriving DecidableEq, Repr

namespace Repetition

/-- No repetition is left. -/
def isDone : Repetition → Bool
  | .times n => n == 0
  | .untilExhausted => false

/-- The repetitions left after one more. -/
def pred : Repetition → Repetition
  | .times n => .times (n - 1)
  | .untilExhausted => .untilExhausted

end Repetition

/-- Chains that start with the structure `name`, as often as asked for, until no bytes are left or
one of them took none. -/
def chains (parse : TargetParser) (repetition : Repetition) (name : String) (input : Slice)
    (ctx : StreamContext) : Attempt Chain :=
  if repetition.isDone || input.bytes.isEmpty then .ok ⟨[], input, ctx⟩
  else
    match chain parse name input ctx with
    | .error failure => .error failure
    | .ok c =>
      if c.rest.length < input.length then
        (chains parse repetition.pred name c.rest c.context).map (·.after c.structures)
      else .ok c
termination_by input.length

end WireGrammar
