import WireGrammar.Grammar.Basic
import WireGrammar.Grammar.Error

/-!
# Grammars as YAML documents

A document is a mapping from names to structures, next to the list of roots under `top`; a structure
is a list of mappings with a single entry each.  Everything is checked in the order of the document,
lookup tables included; repeated names and unknown roots are found at its end.

A tag counts where the kind of a value decides what it means: for literals, tests, actions, the
mapping of a field and the word for repetition.  Elsewhere the value behind the tag is all that
counts.  How the value of a document is read off a text is left to a reader.
-/

namespace WireGrammar

open Yaml (Node)

/-! ### Literals and tests -/

namespace Literal

/-- The literal that a scalar stands for. -/
def ofNode : Node → Except AttributeFault Literal
  | .number (.int i) =>
    if Word.FitsSigned 64 i then .ok (.int i) else .error (.literalOutOfRange (.int i))
  | .number n => .error (.literalOutOfRange n)
  | .text s => .ok (.str s)
  | .bool b => .ok (.bool b)
  | n => .error (.invalidLiteral n)

end Literal

/-- The comparison that a key names. -/
def CompareOp.ofNode (key : Node) : Except AttributeFault CompareOp :=
  match key.text?.bind CompareOp.ofName? with
  | some op => .ok op
  | none => .error (.unknownOperator key)

/-- Comparisons, from the entries of a mapping. -/
def comparisons (entries : List (Node × Node)) :
    Except AttributeFault (List (CompareOp × Literal)) :=
  entries.mapM fun e => do
    let op ← CompareOp.ofNode e.1
    let literal ← Literal.ofNode e.2
    return (op, literal)

/-- What a field accepts: a literal, a list of them, or comparisons. -/
def ValueSpec.ofNode : Node → Except AttributeFault ValueSpec
  | .sequence items => (items.mapM Literal.ofNode).map .oneOf
  | .mapping entries => (comparisons entries).map .ops
  | n => (Literal.ofNode n).map .single

/-- Conditions on one field. -/
def Condition.ofEntry (e : Node × Node) : Except AttributeFault (List Condition) := do
  match e.1.text? with
  | none => throw (.conditionFieldNotText e.1)
  | some field =>
    match e.2.mapping? with
    | none => throw (.conditionWithoutTest field)
    | some tests => return (← comparisons tests).map fun t => ⟨field, t.1, t.2⟩

/-- Conditions, from a mapping of fields to comparisons. -/
def Condition.ofNode (n : Node) : Except AttributeFault (List Condition) :=
  match n.mapping? with
  | none => .error (.conditionNotMapping n)
  | some entries => (entries.mapM Condition.ofEntry).map List.flatten

/-! ### Attributes -/

/-- The natural number that a value is. -/
def natOfNode? (n : Node) : Option Nat :=
  n.int?.bind fun i => if 0 ≤ i then some i.toNat else none

/-- A length: a number of bits, or one of the words for the other lengths. -/
def Length.ofNode (n : Node) : Except AttributeFault Length :=
  match natOfNode? n, n.text? with
  | some n, _ => .ok (.bits n)
  | none, some "varint" => .ok .varint
  | none, some "pn" => .ok .packetNumber
  | none, some "*" => .ok .rest
  | none, _ => .error (.invalidLength n)

namespace AttributeValue

/-- The value of an attribute other than a list of triggers. -/
def ofPlainNode (kind : AttributeKind) (n : Node) : Except AttributeFault AttributeValue :=
  match kind with
  | .length => (Length.ofNode n).map .length
  | .values => (ValueSpec.ofNode n).map .values
  | .parse =>
    match n.text? with
    | some target => .ok (.parse target)
    | none => .error .parseNotName
  | .conditions =>
    match n.sequence? with
    | some items => (items.mapM Condition.ofNode).map fun cs => .conditions cs.flatten
    | none => .error .conditionsNotList
  | .triggers => .error .triggersNotList
  | .byteLength =>
    match natOfNode? n with
    | some bytes => .ok (.byteLength bytes)
    | none => .error .byteLengthNotNumber
  | .format =>
    match n.text? with
    | none => .error .formatNotName
    | some name =>
      match Format.ofName? name with
      | some f => .ok (.format f)
      | none => .error (.unknownFormat name)

end AttributeValue

/-- The word for the trigger that keeps the pending changes. -/
def saveToContextWord : String := "save_to_context"

mutual

/-- The value of an attribute. -/
def AttributeValue.ofNode (kind : AttributeKind) : Node → Except AttributeFault AttributeValue
  | .sequence items =>
    match kind with
    | .triggers => (Trigger.ofItems items).map .triggers
    | kind => AttributeValue.ofPlainNode kind (.sequence items)
  | .tagged tag n =>
    match kind with
    | .triggers => AttributeValue.ofNode .triggers n
    | kind => AttributeValue.ofPlainNode kind (.tagged tag n)
  | n => AttributeValue.ofPlainNode kind n

/-- Triggers, from the items of a list. -/
def Trigger.ofItems : List Node → Except AttributeFault (List Trigger)
  | [] => .ok []
  | item :: items => do
    let ts ← Trigger.ofItem item item
    let more ← Trigger.ofItems items
    return ts ++ more

/-- Triggers, from an item that is a mapping; messages show it with its tags. -/
def Trigger.ofItem (shown : Node) : Node → Except AttributeFault (List Trigger)
  | .tagged _ n => Trigger.ofItem shown n
  | .mapping entries => Trigger.ofEntries entries
  | _ => .error (.triggerNotMapping shown)

/-- Triggers, from the entries of a mapping. -/
def Trigger.ofEntries : List (Node × Node) → Except AttributeFault (List Trigger)
  | [] => .ok []
  | (target, actions) :: entries => do
    let t ← match target.text? with
      | none => throw (.triggerTargetNotText target)
      | some name =>
        if name = saveToContextWord then pure .saveToContext else Trigger.ofActions name actions
    let more ← Trigger.ofEntries entries
    return t :: more

/-- A trigger on the field `name`, from a mapping of attributes to actions. -/
def Trigger.ofActions (name : String) : Node → Except AttributeFault Trigger
  | .tagged _ n => Trigger.ofActions name n
  | .mapping rules => (TriggerRule.ofEntries rules).map (.onField name)
  | _ => .error (.triggerWithoutRules name)

/-- Rules of a trigger, from the entries of a mapping of attributes to actions. -/
def TriggerRule.ofEntries : List (Node × Node) → Except AttributeFault (List TriggerRule)
  | [] => .ok []
  | (key, action) :: entries => do
    let rule ← match AttributeKind.ofName? (key.text?.getD "") with
      | none => throw (.triggerUnknownAttribute key)
      | some kind =>
        match action with
        | .text "set" => pure (.set kind)
        | .mapping table => (TriggerRule.tableOfEntries kind table).map (.lookup kind)
        | other => throw (.invalidAction other)
    let more ← TriggerRule.ofEntries entries
    return rule :: more

/-- The table of a rule, from the entries of a mapping of literals to values. -/
def TriggerRule.tableOfEntries (kind : AttributeKind) :
    List (Node × Node) → Except AttributeFault (List (Literal × AttributeValue))
  | [] => .ok []
  | (key, value) :: entries => do
    let literal ← Literal.ofNode key
    let v ← AttributeValue.ofNode kind value
    let more ← TriggerRule.tableOfEntries kind entries
    return (literal, v) :: more

end

/-! ### Fields -/

/-- The word that makes a field a repeated one. -/
def repeatedWord : String := "repeated"

/-- Whether a field is repeated; the word alone says that it is. -/
def repeatedOfNode : Node → Except AttributeFault Bool
  | .bool b => .ok b
  | .null => .ok true
  | n => .error (.repeatedNotBool n)

/-- The field after one more entry of its mapping. -/
def FieldDescriptor.addEntry (f : FieldDescriptor) (e : Node × Node) :
    Except AttributeFault FieldDescriptor :=
  match e.1.text? with
  | none => .error (.nameNotText e.1)
  | some name =>
    if name = repeatedWord then
      (repeatedOfNode e.2).map fun b => { f with repeated := b }
    else
      match AttributeKind.ofName? name with
      | none => .error (.unknownAttribute name)
      | some kind =>
        (AttributeValue.ofNode kind e.2).map fun v => { f with attributes := f.attributes.set v }

/-- The field with the given name and attributes; a missing value gives none. -/
def FieldDescriptor.ofNode (name : String) : Node → Except AttributeFault FieldDescriptor
  | .null => .ok ⟨name, .empty, false⟩
  | .mapping entries => entries.foldlM addEntry ⟨name, .empty, false⟩
  | n => .error (.notMapping n)

/-! ### Structures -/

/-- The name of a descriptor: a text, or an integer of at most 64 bits by its decimal numeral. -/
def nameOfKey? (key : Node) : Option String :=
  match key.untagged with
  | .text s => some s
  | .number (.int i) => if Word.FitsSigned 64 i then some (Text.decimalInt i) else none
  | _ => none

/-- The single entry of a mapping that has one entry. -/
def singleEntry? (item : Node) : Option (Node × Node) :=
  match item.mapping? with
  | some [entry] => some entry
  | _ => none

/-- One item of the structure `owner`. -/
def Descriptor.ofNode (owner : String) (item : Node) : Except GrammarError Descriptor := do
  match singleEntry? item with
  | none => throw (.malformed owner (.notSingleEntry item) none)
  | some (key, arguments) =>
    match nameOfKey? key with
    | none => throw (.malformed owner (.keyNotName key) none)
    | some "type" =>
      match arguments.text? with
      | some name => return .type name
      | none => throw (.malformed owner .typeNotName none)
    | some "next" =>
      match arguments.text? with
      | some name => return .next name
      | none => throw (.malformed owner .nextNotName none)
    | some name =>
      match FieldDescriptor.ofNode name arguments with
      | .ok f => return .field f
      | .error fault => throw (.badAttribute owner name fault)

/-- The structure with the given name. -/
def Structure.ofNode (name : String) (body : Node) : Except GrammarError Structure :=
  match body.sequence? with
  | none => .error (.malformed name .notList none)
  | some items => (items.mapM (Descriptor.ofNode name)).map fun ds => ⟨name, ds⟩

/-! ### Grammars -/

namespace Grammar

/-- The key that the roots stand under. -/
def rootsKey : String := "top"

/-- The grammar with the given roots and structures, if names are distinct and there are roots,
each of which is a structure. -/
def ofParts (roots : List String) (structures : List Structure) : Except GrammarError Grammar :=
  let names := structures.map (·.name)
  match firstRepeated? [] names with
  | some name => .error (.duplicateStructure name)
  | none =>
    if roots.isEmpty then .error .missingRoots
    else
      match roots.find? fun root => !names.contains root with
      | some root => .error (.unknownRoot root)
      | none => .ok ⟨roots, structures⟩

/-- The name of a root. -/
def rootOfNode (item : Node) : Except GrammarError String :=
  match item.text? with
  | some name => .ok name
  | none => .error (.malformed rootsKey (.rootNotText item) none)

/-- The names of the roots. -/
def rootsOfNode (body : Node) : Except GrammarError (List String) :=
  match body.sequence? with
  | none => .error .missingRoots
  | some items => items.mapM rootOfNode

/-- What a document has given so far: the roots, and the structures with the last one first. -/
structure Parts where
  roots : Option (List String) := none
  structures : List Structure := []

/-- The parts after one more entry of the document. -/
def Parts.addEntry (parts : Parts) (entry : Node × Node) : Except GrammarError Parts :=
  match entry.1.text? with
  | none => .error (.malformed entry.1.display .nameNotText none)
  | some name =>
    if name = rootsKey then
      (rootsOfNode entry.2).map fun roots => { parts with roots := some roots }
    else
      (Structure.ofNode name entry.2).map fun s =>
        { parts with structures := s :: parts.structures }

/-- The grammar that a document describes. -/
def ofNode (document : Node) : Except GrammarError Grammar := do
  match document.mapping? with
  | none => throw (.malformed "<document>" .notMapping none)
  | some entries =>
    let parts ← entries.foldlM Parts.addEntry {}
    match parts.roots with
    | none => throw .missingRoots
    | some roots => ofParts roots parts.structures.reverse

/-- The grammar that a text describes, if the reader finds the value of a document in it. -/
def parseWith (read : Yaml.Reader) (text : String) : Except GrammarError Grammar :=
  match read text with
  | .error cause => .error (.yaml cause)
  | .ok document => ofNode document

/-- The grammar that a text describes. -/
def parse (text : String) : Except GrammarError Grammar := parseWith Node.read text

end Grammar

end WireGrammar
