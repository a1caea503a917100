import WireGrammar.Dissect.Resolve

/-!
# Decoding whole packets

A root and the structures that follow it have to take every byte of the packet.  The roots of a
grammar are tried in order, and so are the grammars of a set, each from the context as it was before
the packet; only the one that fits changes the context.
-/

namespace WireGrammar

/-! ### Roots -/

/-- The chain of the given structures, of which the last one ends at the byte `offset` of a
packet. -/
def Chain.upTo (packet : List UInt8) (structures : List DecodedStructure) (offset : Nat)
    (ctx : StreamContext) : Chain :=
  ⟨structures, ⟨offset, packet.drop offset⟩, ctx⟩

/-- The structures of a root and of those that follow it, from the byte `offset` of the packet on
and behind the structures so far.  The first of them is tried even where no bytes are left. -/
def rootChain (parse : TargetParser) (packet : List UInt8) (name : String)
    (structures : List DecodedStructure) (offset : Nat) (ctx : StreamContext) : Attempt Chain :=
  if _ended : !structures.isEmpty && packet.length ≤ offset then
    .ok (.upTo packet structures offset ctx)
  else
    match parse name ⟨offset, packet.drop offset⟩ ctx with
    | .error failure => .error failure
    | .ok r =>
      if _stuck : r.consumed = 0 then
        .ok (.upTo packet (structures ++ [r.decoded]) (offset + r.consumed) r.context)
      else
        match r.next with
        | none => .ok (.upTo packet (structures ++ [r.decoded]) (offset + r.consumed) r.context)
        | some next =>
          rootChain parse packet next (structures ++ [r.decoded]) (offset + r.consumed) r.context
termination_by (if structures.isEmpty then 1 else 0) + (packet.length - offset)
decreasing_by
  cases structures with
  | nil =>
    simp only [List.nil_append, List.isEmpty_nil, List.isEmpty_cons, if_true, Bool.false_eq_true,
      if_false]
    omega
  | cons first others =>
    simp only [List.isEmpty_cons, Bool.not_false, Bool.true_and, decide_eq_true_eq] at _ended
    simp only [List.cons_append, List.isEmpty_cons, Bool.false_eq_true, if_false]
    omega

/-- The chain of a root as a decoded packet, if it takes the packet to its last byte. -/
def Chain.whole (packet : List UInt8) (root : String) (c : Chain) :
    Attempt (ParseTree × StreamContext) :=
  if c.rest.offset = packet.length then .ok (⟨c.structures⟩, c.context)
  else .error ⟨.trailingBytes root c.rest.offset packet.length, c.context⟩

/-- The chain of a root, from the first byte of the packet on. -/
def attemptRoot (g : Grammar) (o : Options) (packet : List UInt8) (root : String)
    (ctx : StreamContext) : Attempt Chain :=
  rootChain (parseTarget g o) packet root [] 0 ctx

/-- Decodes a packet by one root, to its last byte. -/
def parseRoot (g : Grammar) (o : Options) (packet : List UInt8) (root : String)
    (ctx : StreamContext) : Attempt (ParseTree × StreamContext) :=
  (attemptRoot g o packet root ctx).bind (·.whole packet root)

/-- The failure of a grammar without roots. -/
def noRoot : ParseError := .unknownStructure "<no root>"

/-- Tries roots in order; `last` is the failure of the root before them. -/
def firstRoot (g : Grammar) (o : Options) (packet : List UInt8) (ctx : StreamContext)
    (last : ParseError) : List String → Except ParseError ParseTree × StreamContext
  | [] => (.error last, ctx)
  | root :: roots =>
    match parseRoot g o packet root ctx with
    | .ok (tree, after) => (.ok tree, after)
    | .error failure => firstRoot g o packet ctx failure.error roots

/-- Decodes a packet by the first root of a grammar that fits.  The result comes with the context
for the next packet, which has changed only if a root fits. -/
def parseTopLevel (g : Grammar) (o : Options) (packet : List UInt8) (ctx : StreamContext) :
    Except ParseError ParseTree × StreamContext :=
  firstRoot g o packet ctx noRoot g.roots

/-! ### Sets of grammars -/

/-- Grammars with their identifiers, in the order they are tried in. -/
structure GrammarSet where
  entries : List (String × Grammar)
  deriving Inhabited

namespace GrammarSet

/-- The first grammar with the given identifier. -/
def get? (gs : GrammarSet) (id : String) : Option Grammar :=
  (gs.entries.find? (·.1 == id)).map Prod.snd

/-- The identifiers, in the order the grammars are tried in. -/
def ids (gs : GrammarSet) : List String := gs.entries.map Prod.fst

/-- The number of grammars. -/
def size (gs : GrammarSet) : Nat := gs.entries.length

/-- The set has no grammars. -/
def isEmpty (gs : GrammarSet) : Bool := gs.entries.isEmpty

end GrammarSet

/-- A decoded packet and the identifier of the grammar that fits it. -/
structure Dissection where
  grammar : String
  tree : ParseTree
  deriving Inhabited

/-- Why no grammar fits a packet. -/
inductive DissectError where
  | noGrammars
  /-- All grammars fail, the last one for the given cause. -/
  | exhausted (tried : Nat) (lastGrammar : String) (cause : ParseError)

/-- The wording of a failure to decode a packet. -/
def DissectError.message : DissectError → String
  | .noGrammars => "no grammar available"
  | .exhausted tried lastGrammar cause =>
    "all " ++ Text.decimal tried ++ " grammars failed, last `" ++ lastGrammar ++ "`: " ++
      cause.message

/-- The cause of the last failure, if a grammar was tried. -/
def DissectError.cause? : DissectError → Option ParseError
  | .noGrammars => none
  | .exhausted _ _ cause => some cause

/-- Tries grammars in order; `last` is the failure of the set so far, of `tried` grammars. -/
def firstGrammar (o : Options) (packet : List UInt8) (ctx : StreamContext) (tried : Nat)
    (last : DissectError) :
    List (String × Grammar) → Except DissectError Dissection × StreamContext
  | [] => (.error last, ctx)
  | (id, g) :: entries =>
    match parseTopLevel g o packet ctx with
    | (.ok tree, after) => (.ok ⟨id, tree⟩, after)
    | (.error cause, after) =>
      firstGrammar o packet after (tried + 1) (.exhausted (tried + 1) id cause) entries

/-- Decodes a packet by the first grammar of a set that fits.  The result comes with the context
for the next packet of the direction. -/
def dissect (gs : GrammarSet) (o : Options) (packet : List UInt8) (ctx : StreamContext) :
    Except DissectError Dissection × StreamContext :=
  firstGrammar o packet ctx 0 .noGrammars gs.entries

end WireGrammar
