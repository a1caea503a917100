import WireGrammar.Yaml.Scalar
import WireGrammar.Yaml.Token.Scan

/-!
# From tokens to a document

The tokens of an open collection are gathered until the token that closes it; then they are sorted
into items or entries, and the collection is one part of the collection around it.
-/

namespace WireGrammar.Yaml

/-! ### Parts of a collection -/

/-- A part of an open collection: a value, or a mark between values. -/
inductive Part where
  | node (n : Node)
  /-- The tag of the sequence without brackets that follows. -/
  | tag (name : String)
  | entry
  | comma
  /-- A closing bracket that a key mark has swallowed. -/
  | bracket
  | key
  | value
  deriving Inhabited

/-- The items of a block sequence: a dash each, and a value that may be missing. -/
def blockItems : List Part → Except SyntaxError (List Node)
  | [] => .ok []
  | .entry :: .node n :: parts => (blockItems parts).map (n :: ·)
  | .entry :: parts => (blockItems parts).map (.null :: ·)
  | _ => .error .unexpectedToken

/-- Puts an item in front of the sequence that a list of parts starts with. -/
def joinRun (n : Node) : List Part × List Node → List Part × List Node
  | (parts, run) => (parts, n :: run)

/-- The parts of a block mapping, its sequences without brackets of their own made values, and
the items of such a sequence that the parts start with. -/
def gatherRuns : List Part → List Part × List Node
  | [] => ([], [])
  | .entry :: .node n :: parts => joinRun n (gatherRuns parts)
  | .entry :: parts => joinRun .null (gatherRuns parts)
  | .tag name :: parts =>
    match gatherRuns parts with
    | (rest, run) => (.node (.tagged name (.sequence run)) :: rest, [])
  | part :: parts =>
    match gatherRuns parts with
    | (rest, []) => (part :: rest, [])
    | (rest, run) => (part :: .node (.sequence run) :: rest, [])

/-- What has been read of the current entry of a mapping. -/
inductive EntryState where
  | start
  | keyMark
  | key (k : Node)
  | valueMark (k : Node)

/-- The entries of a block mapping, where keys and values may be missing. -/
def blockEntries : EntryState → List Part → Except SyntaxError (List (Node × Node))
  | .start, [] => .ok []
  | .start, .key :: parts => blockEntries .keyMark parts
  | .keyMark, [] => .ok [(.null, .null)]
  | .keyMark, .node k :: parts => blockEntries (.key k) parts
  | .keyMark, .value :: parts => blockEntries (.valueMark .null) parts
  | .keyMark, .key :: parts => (blockEntries .keyMark parts).map ((.null, .null) :: ·)
  | .key k, [] => .ok [(k, .null)]
  | .key k, .value :: parts => blockEntries (.valueMark k) parts
  | .key k, .key :: parts => (blockEntries .keyMark parts).map ((k, .null) :: ·)
  | .valueMark k, [] => .ok [(k, .null)]
  | .valueMark k, .node v :: parts => (blockEntries .start parts).map ((k, v) :: ·)
  | .valueMark k, .key :: parts => (blockEntries .keyMark parts).map ((k, .null) :: ·)
  | _, _ => .error .unexpectedToken

/-- An entry of a flow collection. -/
inductive FlowEntry where
  | single (n : Node)
  | pair (key value : Node)

/-- What has been read of the current entry of a flow collection. -/
inductive FlowState where
  | start
  | keyMark
  | key (k : Node)
  | valueMark (k : Node)
  /-- Only a comma may follow. -/
  | done

/-- The entries of a flow collection; a comma may follow the last one.  In a sequence, a key mark
that no key follows swallows the mark behind it, be it the bracket that would close the sequence. -/
def flowEntries (inSequence : Bool) : FlowState → List Part → Except SyntaxError (List FlowEntry)
  | .start, [] => .ok []
  | .start, .key :: parts => flowEntries inSequence .keyMark parts
  | .start, .node n :: parts => (flowEntries inSequence .done parts).map (.single n :: ·)
  | .keyMark, [] => if inSequence then .error .unexpectedToken else .ok [.pair .null .null]
  | .keyMark, .node k :: parts => flowEntries inSequence (.key k) parts
  | .keyMark, .value :: parts =>
    flowEntries inSequence (if inSequence then .key .null else .valueMark .null) parts
  | .keyMark, .comma :: parts =>
    if inSequence then flowEntries inSequence (.key .null) parts
    else (flowEntries inSequence .start parts).map (.pair .null .null :: ·)
  | .keyMark, .bracket :: parts =>
    if inSequence then flowEntries inSequence (.key .null) parts else .error .unexpectedToken
  | .key k, [] => .ok [.pair k .null]
  | .key k, .value :: parts => flowEntries inSequence (.valueMark k) parts
  | .key k, .comma :: parts => (flowEntries inSequence .start parts).map (.pair k .null :: ·)
  | .valueMark k, [] => .ok [.pair k .null]
  | .valueMark k, .node v :: parts => (flowEntries inSequence .done parts).map (.pair k v :: ·)
  | .valueMark k, .comma :: parts => (flowEntries inSequence .start parts).map (.pair k .null :: ·)
  | .done, [] => .ok []
  | .done, .comma :: parts => flowEntries inSequence .start parts
  | _, _ => .error .unexpectedToken

/-! ### Collections -/

/-- No two entries have the same key. -/
def distinctKeys : List (Node × Node) → Bool
  | [] => true
  | (key, _) :: entries => !(entries.any fun e => Node.same key e.1) && distinctKeys entries

/-- The mapping with the given entries. -/
def mappingOf (entries : List (Node × Node)) : Except SyntaxError Node :=
  if distinctKeys entries then .ok (.mapping entries) else .error .duplicateKey

/-- The kinds of collections. -/
inductive CollectionKind where
  | blockSequence
  | blockMapping
  | flowSequence
  | flowMapping
  deriving DecidableEq

/-- The collection stands between brackets or braces. -/
def CollectionKind.isFlow : CollectionKind → Bool
  | .blockSequence | .blockMapping => false
  | .flowSequence | .flowMapping => true

/-- An entry of a flow sequence; a pair is a mapping of its own. -/
def FlowEntry.item : FlowEntry → Node
  | .single n => n
  | .pair key value => .mapping [(key, value)]

/-- An entry of a flow mapping; a single value is a key. -/
def FlowEntry.entry : FlowEntry → Node × Node
  | .single n => (n, .null)
  | .pair key value => (key, value)

/-- The collection that a list of parts makes up. -/
def CollectionKind.assemble (parts : List Part) : CollectionKind → Except SyntaxError Node
  | .blockSequence => (blockItems parts).map .sequence
  | .blockMapping =>
    match gatherRuns parts with
    | (parts, []) => (blockEntries .start parts).bind mappingOf
    | (_, _ :: _) => .error .unexpectedToken
  | .flowSequence => (flowEntries true .start parts).map fun es => .sequence (es.map (·.item))
  | .flowMapping => (flowEntries false .start parts).bind fun es => mappingOf (es.map (·.entry))

/-- The value with a tag, if there is one. -/
def Node.withTag (tag : Option String) (n : Node) : Node := tag.elim n (.tagged · n)

/-- An open collection, its tag, and its parts so far, the last one first. -/
structure OpenCollection where
  kind : CollectionKind
  tag : Option String
  parts : List Part := []

/-- The collection around all others, which holds the value of the document, and those open
within it, the innermost first. -/
structure Outline where
  root : List Part := []
  stack : List OpenCollection := []
  /-- The tag of the value to come. -/
  tag : Option String := none

namespace Outline

/-- Adds a part to the innermost open collection. -/
def add (o : Outline) (part : Part) : Outline :=
  match o.stack with
  | [] => { o with root := part :: o.root }
  | top :: stack => { o with stack := { top with parts := part :: top.parts } :: stack }

/-- Adds a value with its tag to the innermost open collection. -/
def addNode (o : Outline) (n : Node) : Outline :=
  { o with tag := none }.add (.node (n.withTag o.tag))

/-- Where no value follows a tag, there is none but null behind it. -/
def settle (o : Outline) : Outline := if o.tag.isSome then o.addNode .null else o

/-- The innermost collection is a flow collection. -/
def inFlow (o : Outline) : Bool := o.stack.head?.any (·.kind.isFlow)

/-- The innermost collection is a flow sequence that ends in a key mark so far. -/
def endsInKeyMark (o : Outline) : Bool :=
  match o.stack with
  | ⟨.flowSequence, _, .key :: _⟩ :: _ => true
  | _ => false

/-- A dash would be the first one of a sequence without brackets: the innermost collection is a
block mapping and does not end in a dash so far. -/
def startsRun (o : Outline) : Bool :=
  match o.stack with
  | ⟨.blockMapping, _, .entry :: _⟩ :: _ => false
  | ⟨.blockMapping, _, _⟩ :: _ => true
  | _ => false

/-- Adds the dash before an item; a tag belongs to the sequence without brackets that it starts. -/
def addEntry (o : Outline) : Outline :=
  match o.tag with
  | some name =>
    if o.startsRun then ({ o with tag := none }.add (.tag name)).add .entry else o.settle.add .entry
  | none => o.add .entry

/-- Opens a collection inside the innermost one; a flow collection holds no block collections. -/
def openCollection (o : Outline) (kind : CollectionKind) : Except SyntaxError Outline :=
  if o.inFlow && !kind.isFlow then .error .unexpectedToken
  else .ok { o with stack := { kind, tag := o.tag } :: o.stack, tag := none }

/-- Closes the innermost collection, which has to be of one of the given kinds. -/
def close (o : Outline) (kinds : List CollectionKind) : Except SyntaxError Outline :=
  match o.stack with
  | [] => .error .unexpectedToken
  | top :: stack =>
    if kinds.contains top.kind then
      (top.kind.assemble top.parts.reverse).map fun n =>
        { o with stack }.add (.node (n.withTag top.tag))
    else .error .unexpectedToken

/-- The outline after one more token. -/
def push (o : Outline) : Token → Except SyntaxError Outline
  | .scalar s false => .ok (o.addNode (.text s))
  | .scalar s true =>
    match Node.ofPlain? s with
    | some n => .ok (o.addNode n)
    | none => .error .integerTooLarge
  | .tag name => .ok { o.settle with tag := some name }
  | .blockEntry => .ok o.addEntry
  | .flowEntry => .ok (o.settle.add .comma)
  | .key => .ok (o.settle.add .key)
  | .value => .ok (o.settle.add .value)
  | .blockSequenceStart => o.openCollection .blockSequence
  | .blockMappingStart => o.openCollection .blockMapping
  | .flowSequenceStart => o.openCollection .flowSequence
  | .flowMappingStart => o.openCollection .flowMapping
  | .blockEnd => o.settle.close [.blockSequence, .blockMapping]
  | .flowSequenceEnd =>
    if o.settle.endsInKeyMark then .ok (o.settle.add .bracket) else o.settle.close [.flowSequence]
  | .flowMappingEnd => o.settle.close [.flowMapping]
  | .documentStart => .error .unexpectedToken
  | .documentEnd => .error .unexpectedToken

end Outline

/-! ### Documents -/

/-- The limit on how deep collections may be nested. -/
def depthLimit : Nat := 128

/-- The value that the tokens of one document make up; null if there are none. -/
def Node.ofTokens (tokens : List Token) : Except SyntaxError Node := do
  let o := (← tokens.foldlM Outline.push {}).settle
  if !o.stack.isEmpty then throw .unclosedCollection
  match o.root with
  | [] => return .null
  | [.node n] => if n.depth ≤ depthLimit then return n else throw .tooDeep
  | _ => throw .unexpectedToken

/-- A way to read the value of a document off a text. -/
abbrev Reader : Type := String → Except SyntaxError Node

/-- The value of a text that holds a single document, between the lines that may separate it. -/
def Node.read (text : String) : Except SyntaxError Node := do
  let tokens ← Token.scan text
  let body := match tokens with
    | .documentStart :: rest => rest
    | tokens => tokens
  let separates := fun t => t == Token.documentStart || t == Token.documentEnd
  let content := body.takeWhile (!separates ·)
  let trailer := body.dropWhile (!separates ·)
  if !trailer.all (· == .documentEnd) then throw .secondDocument
  if tokens.head? == some .documentEnd then throw .unexpectedToken
  Node.ofTokens content

end WireGrammar.Yaml
