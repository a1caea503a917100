import WireGrammar.Packet.Dissection

/-!
# Runs

A run goes through the decoding step by step.  It has no bound on its depth: a structure that is
entered is put on the stack of those being decoded, and whoever decodes it hands the stack back,
with or without success.  Runs are inductive, so to have a run is to come to an end.  What a run
does on its way shows in its events: the stacks, and how often each of its loops went round.

* `ChainRun`, `ListRun`: the loops over the structures of a chain, and over the chains of a list;
* `DescriptorsRun`: the loop over the descriptors of a structure;
* `StructureRun`, `NameRun`: entering structures, by themselves and by name;
* `RootsRun`, `GrammarsRun`: the loops over the roots of a grammar and over grammars.
-/

namespace WireGrammar

/-- What shows of a run. -/
inductive Event where
  /-- A structure was entered; the stack has it on top. -/
  | entered (stack : Active)
  /-- The decoding of a structure or of a type is over, or was refused: the stacks before and
  after. -/
  | left (before after : Active)
  /-- Of a structure with so many descriptors, on so many bytes, so many took a turn. -/
  | turns (descriptors bytes turns : Nat)
  /-- A chain is over: the bytes that each turn took. -/
  | chain (taken : List Nat)
  /-- A list is over: the bytes that each turn took. -/
  | list (taken : List Nat)

/-- The runs of a computation, from a stack: the outcome, the stack left, and the events. -/
abbrev Runs (α : Type) := Active → Attempt α → Active → List Event → Prop

/-- The runs of structures by name. -/
abbrev TargetRuns := String → Slice → StreamContext → Runs Resolved

/-- The runs of given structures. -/
abbrev StructureRuns := Structure → Slice → StreamContext → Runs StructureOutcome

/-! ### Chains and lists -/

/-- A chain that starts with a name, and the bytes that its turns take. -/
inductive ChainRun (target : TargetRuns) : String → Slice → StreamContext → Active →
    Attempt Chain → List Nat → Active → List Event → Prop where
  | failed {name input ctx stack failure stack' es}
      (run : target name input ctx stack (.error failure) stack' es) :
      ChainRun target name input ctx stack (.error failure) [0] stack' es
  | last {name input ctx stack r stack' es} (run : target name input ctx stack (.ok r) stack' es)
      (stop : r.continuation? (input.drop r.consumed) = none) :
      ChainRun target name input ctx stack (.ok ⟨[r.decoded], input.drop r.consumed, r.context⟩)
        [r.consumed] stack' es
  | more {name input ctx stack r stack' es next res taken stack'' es'}
      (run : target name input ctx stack (.ok r) stack' es)
      (go : r.continuation? (input.drop r.consumed) = some next)
      (rest : ChainRun target next (input.drop r.consumed) r.context stack' res taken stack'' es') :
      ChainRun target name input ctx stack (res.map (·.after [r.decoded])) (r.consumed :: taken)
        stack'' (es ++ es')

/-- A list of chains that start with a name, and the bytes that its turns take. -/
inductive ListRun (target : TargetRuns) (name : String) : Repetition → Slice → StreamContext →
    Active → Attempt Chain → List Nat → Active → List Event → Prop where
  | done {repetition input ctx stack} (ended : repetition.isDone || input.bytes.isEmpty) :
      ListRun target name repetition input ctx stack (.ok ⟨[], input, ctx⟩) [] stack []
  | failed {repetition input ctx stack failure taken stack' es}
      (go : ¬(repetition.isDone || input.bytes.isEmpty))
      (run : ChainRun target name input ctx stack (.error failure) taken stack' es) :
      ListRun target name repetition input ctx stack (.error failure) [0] stack'
        (es ++ [.chain taken])
  | stuck {repetition input ctx stack c taken stack' es}
      (go : ¬(repetition.isDone || input.bytes.isEmpty))
      (run : ChainRun target name input ctx stack (.ok c) taken stack' es)
      (still : ¬c.rest.length < input.length) :
      ListRun target name repetition input ctx stack (.ok c) [input.length - c.rest.length] stack'
        (es ++ [.chain taken])
  | more {repetition input ctx stack c taken stack' es res taken' stack'' es'}
      (go : ¬(repetition.isDone || input.bytes.isEmpty))
      (run : ChainRun target name input ctx stack (.ok c) taken stack' es)
      (forward : c.rest.length < input.length)
      (rest : ListRun target name repetition.pred c.rest c.context stack' res taken' stack'' es') :
      ListRun target name repetition input ctx stack (res.map (·.after c.structures))
        ((input.length - c.rest.length) :: taken') stack'' (es ++ [.chain taken] ++ es')

/-! ### Descriptors -/

/-- The turn of a field.  One that no target stands for is the same whatever decodes targets. -/
inductive FieldRun (o : Options) (target : TargetRuns) (f : FieldDescriptor) (p : Progress) :
    Runs Progress where
  | own {stack} (here : (p.memory.effective f).isPresent p.fields = false ∨
        (p.memory.effective f).parse = none) (parse : TargetParser) :
      FieldRun o target f p stack (parseField o parse f p) stack []
  | unviewed {stack name cause} (present : (p.memory.effective f).isPresent p.fields = true)
      (delegated : (p.memory.effective f).parse = some name)
      (refused : (p.memory.effective f).view p.cursor = .error cause) :
      FieldRun o target f p stack (p.fail (.unreadable f.name cause)) stack []
  | target {stack name view res taken stack' es}
      (present : (p.memory.effective f).isPresent p.fields = true)
      (delegated : (p.memory.effective f).parse = some name)
      (viewed : (p.memory.effective f).view p.cursor = .ok view)
      (run : ListRun target name ((p.memory.effective f).repetition (p.memory.dynamicLength f))
        view p.context stack res taken stack' es) :
      FieldRun o target f p stack
        (res.map fun c => (p.afterChain f.name view c).requeueIf f p.cursor
          (0 < (p.afterChain f.name view c).cursor.remainingBytes))
        stack' (es ++ [.list taken])

/-- The loop over the pending descriptors, and how many turns they take. -/
inductive DescriptorsRun (o : Options) (target : TargetRuns) : Progress → Active →
    Attempt Finish → Nat → Active → List Event → Prop where
  | exhausted {p stack} (ended : p.cursor.isExhausted) :
      DescriptorsRun o target p stack (.ok ⟨p, none⟩) 0 stack []
  | empty {p stack} (go : p.cursor.isExhausted = false) (ended : p.queue = []) :
      DescriptorsRun o target p stack (.ok ⟨p, none⟩) 0 stack []
  | type {p stack item queue name res turns stack' es} (go : p.cursor.isExhausted = false)
      (first : p.queue = item :: queue) (kind : item.descriptor = .type name)
      (rest : DescriptorsRun o target { p with queue } stack res turns stack' es) :
      DescriptorsRun o target p stack res (turns + 1) stack' es
  | next {p stack item queue name} (go : p.cursor.isExhausted = false)
      (first : p.queue = item :: queue) (kind : item.descriptor = .next name) :
      DescriptorsRun o target p stack (.ok ⟨{ p with queue }, some name⟩) 1 stack []
  | field {p stack item queue f q stack' es res turns stack'' es'}
      (go : p.cursor.isExhausted = false) (first : p.queue = item :: queue)
      (kind : item.descriptor = .field f)
      (run : FieldRun o target f { p with queue } stack (.ok q) stack' es)
      (rest : DescriptorsRun o target q stack' res turns stack'' es') :
      DescriptorsRun o target p stack res (turns + 1) stack'' (es ++ es')
  | dropped {p stack item queue f failure stack' es res turns stack'' es'}
      (go : p.cursor.isExhausted = false) (first : p.queue = item :: queue)
      (kind : item.descriptor = .field f)
      (run : FieldRun o target f { p with queue } stack (.error failure) stack' es)
      (again : item.again = true)
      (rest : DescriptorsRun o target { p with queue } stack' res turns stack'' es') :
      DescriptorsRun o target p stack res (turns + 1) stack'' (es ++ es')
  | failed {p stack item queue f failure stack' es} (go : p.cursor.isExhausted = false)
      (first : p.queue = item :: queue) (kind : item.descriptor = .field f)
      (run : FieldRun o target f { p with queue } stack (.error failure) stack' es)
      (own : item.again = false) :
      DescriptorsRun o target p stack (.error failure) 1 stack' es

/-! ### Structures -/

/-- A structure is refused if the stack has it at the same offset, and decoded with it on top
otherwise. -/
inductive StructureRun (o : Options) (target : TargetRuns) : StructureRuns where
  | refused {s input ctx stack} (there : (s.name, input.offset) ∈ stack) :
      StructureRun o target s input ctx stack
        (.error ⟨.recursiveStructure s.name input.offset, ctx⟩) stack [.left stack stack]
  | entered {s input ctx stack res turns stack' es} (fresh : (s.name, input.offset) ∉ stack)
      (run : DescriptorsRun o target (.start s input ctx) ((s.name, input.offset) :: stack) res turns
        stack' es) :
      StructureRun o target s input ctx stack (res.bind (·.outcome s)) stack'.tail
        (.entered ((s.name, input.offset) :: stack) :: es ++
          [.turns s.descriptors.length input.length turns, .left stack stack'.tail])

/-- Structures are tried in order until one fits. -/
inductive AlternativesRun (enter : StructureRuns) (input : Slice) (ctx : StreamContext) :
    List Structure → Active → Option Resolved → Active → List Event → Prop where
  | none {stack} : AlternativesRun enter input ctx [] stack none stack []
  | fits {s ss stack out stack' es} (run : enter s input ctx stack (.ok out) stack' es) :
      AlternativesRun enter input ctx (s :: ss) stack (some (out.resolved s input)) stack' es
  | rejected {s ss stack failure stack' es found stack'' es'}
      (run : enter s input ctx stack (.error failure) stack' es)
      (rest : AlternativesRun enter input ctx ss stack' found stack'' es') :
      AlternativesRun enter input ctx (s :: ss) stack found stack'' (es ++ es')

/-- The alternatives of a type. -/
inductive TypeRun (g : Grammar) (enter : StructureRuns) : TargetRuns where
  | resolved {name input ctx stack r stack' es}
      (run : AlternativesRun enter input ctx (g.structuresOfType name) stack (some r) stack' es) :
      TypeRun g enter name input ctx stack (.ok r) stack' (es ++ [.left stack stack'])
  | unresolved {name input ctx stack stack' es}
      (run : AlternativesRun enter input ctx (g.structuresOfType name) stack none stack' es) :
      TypeRun g enter name input ctx stack
        (.error ⟨.noMatchingStructure name input.offset input.bytes.head?, ctx⟩) stack'
        (es ++ [.left stack stack'])

/-- A name stands for the structure of that name, or else for a type. -/
inductive NameRun (g : Grammar) (enter : StructureRuns) : TargetRuns where
  | known {name input ctx s stack res stack' es} (found : g.getStructure? name = some s)
      (run : enter s input ctx stack res stack' es) :
      NameRun g enter name input ctx stack (res.map (·.resolved s input)) stack' es
  | unknown {name input ctx stack res stack' es} (missing : g.getStructure? name = none)
      (run : TypeRun g enter name input ctx stack res stack' es) :
      NameRun g enter name input ctx stack res stack' es

/-- The runs of structures in which at most `depth` of them call each other. -/
def structureRuns (g : Grammar) (o : Options) : (depth : Nat) → StructureRuns
  | 0 => fun _ _ _ _ _ _ _ => False
  | depth + 1 => StructureRun o (NameRun g (structureRuns g o depth))

/-! ### Entry points -/

/-- The runs of a call from outside, which starts with an empty stack of its own. -/
def Outermost {α : Type} (runs : Nat → Runs α) (res : Attempt α) (es : List Event) : Prop :=
  ∃ depth stack, runs depth [] res stack es

/-- The runs of a structure by its name. -/
inductive StructureCall (g : Grammar) (o : Options) (name : String) (input : Slice)
    (ctx : StreamContext) : Attempt StructureOutcome → List Event → Prop where
  | known {s res es} (found : g.getStructure? name = some s)
      (run : Outermost (fun depth => structureRuns g o depth s input ctx) res es) :
      StructureCall g o name input ctx res es
  | unknown (missing : g.getStructure? name = none) :
      StructureCall g o name input ctx (.error ⟨.unknownStructure name, ctx⟩) []

/-- The runs of a type. -/
def TypeCall (g : Grammar) (o : Options) (name : String) (input : Slice) (ctx : StreamContext) :
    Attempt Resolved → List Event → Prop :=
  Outermost fun depth => TypeRun g (structureRuns g o depth) name input ctx

/-- The runs of a name. -/
def NameCall (g : Grammar) (o : Options) (name : String) (input : Slice) (ctx : StreamContext) :
    Attempt Resolved → List Event → Prop :=
  Outermost fun depth => NameRun g (structureRuns g o depth) name input ctx

/-- The runs of names as calls from outside, which leave the stack of the caller alone. -/
def nameCalls (g : Grammar) (o : Options) : TargetRuns := fun name input ctx stack res stack' es =>
  stack' = stack ∧ NameCall g o name input ctx res es

/-- The runs of a root: a chain of calls from outside. -/
inductive RootRun (g : Grammar) (o : Options) (packet : List UInt8) (root : String)
    (ctx : StreamContext) : Attempt (ParseTree × StreamContext) → List Event → Prop where
  | ended {res taken stack es}
      (run : ChainRun (nameCalls g o) root ⟨0, packet⟩ ctx [] res taken stack es) :
      RootRun g o packet root ctx (res.bind (·.whole packet root)) (es ++ [.chain taken])

/-- Roots are tried in order until one takes the whole packet. -/
inductive RootsRun (g : Grammar) (o : Options) (packet : List UInt8) (ctx : StreamContext) :
    ParseError → List String → Except ParseError ParseTree × StreamContext → List Event → Prop where
  | none {last} : RootsRun g o packet ctx last [] (.error last, ctx) []
  | fits {last root roots tree after es} (run : RootRun g o packet root ctx (.ok (tree, after)) es) :
      RootsRun g o packet ctx last (root :: roots) (.ok tree, after) es
  | rejected {last root roots failure es res es'}
      (run : RootRun g o packet root ctx (.error failure) es)
      (rest : RootsRun g o packet ctx failure.error roots res es') :
      RootsRun g o packet ctx last (root :: roots) res (es ++ es')

/-- Grammars are tried in order until one fits; each event comes with the grammar it is of. -/
inductive GrammarsRun (o : Options) (packet : List UInt8) : StreamContext → Nat → DissectError →
    List (String × Grammar) → Except DissectError Dissection × StreamContext →
    List (Grammar × Event) → Prop where
  | none {ctx tried last} : GrammarsRun o packet ctx tried last [] (.error last, ctx) []
  | fits {ctx tried last id g entries tree after es}
      (run : RootsRun g o packet ctx noRoot g.roots (.ok tree, after) es) :
      GrammarsRun o packet ctx tried last ((id, g) :: entries) (.ok ⟨id, tree⟩, after)
        (es.map (Prod.mk g))
  | rejected {ctx tried last id g entries cause after es res es'}
      (run : RootsRun g o packet ctx noRoot g.roots (.error cause, after) es)
      (rest : GrammarsRun o packet after (tried + 1) (.exhausted (tried + 1) id cause) entries res
        es') :
      GrammarsRun o packet ctx tried last ((id, g) :: entries) res (es.map (Prod.mk g) ++ es')

end WireGrammar
