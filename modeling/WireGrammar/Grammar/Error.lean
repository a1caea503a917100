import WireGrammar.Files.Error
import WireGrammar.Grammar.Attribute
import WireGrammar.Yaml.Document

/-!
# Faults of a grammar

Why a document is no grammar.  Faults of single attributes, faults of structures and faults of the
grammar as a whole are kept apart, since they are reported with different places.
-/

namespace WireGrammar

open Yaml (Node)

/-- What is wrong with an attribute of a field. -/
inductive AttributeFault where
  | notMapping (found : Node)
  | nameNotText (key : Node)
  | repeatedNotBool (found : Node)
  | unknownAttribute (name : String)
  | invalidLength (found : Node)
  | parseNotName
  | byteLengthNotNumber
  | formatNotName
  | unknownFormat (name : String)
  | literalOutOfRange (number : Yaml.Number)
  | invalidLiteral (found : Node)
  | unknownOperator (key : Node)
  | conditionsNotList
  | conditionNotMapping (found : Node)
  | conditionFieldNotText (key : Node)
  | conditionWithoutTest (field : String)
  | triggersNotList
  | triggerNotMapping (found : Node)
  | triggerTargetNotText (key : Node)
  | triggerWithoutRules (target : String)
  | triggerUnknownAttribute (key : Node)
  | invalidAction (found : Node)
  deriving Inhabited

/-- The wording of a fault of an attribute. -/
def AttributeFault.message : AttributeFault → String
  | .notMapping found => "attributes must be a mapping, got " ++ found.display
  | .nameNotText key => "attribute name " ++ key.display
  | .repeatedNotBool found => "`repeated` must be a boolean, got " ++ found.display
  | .unknownAttribute name => "unknown attribute `" ++ name ++ "`"
  | .invalidLength found => "invalid length " ++ found.display
  | .parseNotName => "`parse` must name a structure or type"
  | .byteLengthNotNumber => "`byte_length` must be a non-negative integer"
  | .formatNotName => "`format` must be a name"
  | .unknownFormat name => "unknown format `" ++ name ++ "`"
  | .literalOutOfRange number => "literal " ++ number.display ++ " out of range"
  | .invalidLiteral found => "invalid literal " ++ found.display
  | .unknownOperator key => "unknown operator " ++ key.display
  | .conditionsNotList => "`conditions` must be a list"
  | .conditionNotMapping found => "condition " ++ found.display ++ " is not a mapping"
  | .conditionFieldNotText key => "condition field " ++ key.display
  | .conditionWithoutTest field => "condition on `" ++ field ++ "` needs eq/neq"
  | .triggersNotList => "`triggers` must be a list"
  | .triggerNotMapping found => "trigger " ++ found.display ++ " is not a mapping"
  | .triggerTargetNotText key => "trigger target " ++ key.display
  | .triggerWithoutRules target => "trigger on `" ++ target ++ "` needs attribute: action"
  | .triggerUnknownAttribute key => "trigger sets unknown attribute " ++ key.display
  | .invalidAction found => "invalid trigger action " ++ found.display

/-- What is wrong with a structure, or with the document around the structures. -/
inductive StructureFault where
  | notMapping
  | nameNotText
  | rootNotText (found : Node)
  | notList
  | notSingleEntry (item : Node)
  | keyNotName (key : Node)
  | typeNotName
  | nextNotName
  deriving Inhabited

/-- The wording of a fault of a structure. -/
def StructureFault.message : StructureFault → String
  | .notMapping => "top level must be a mapping"
  | .nameNotText => "structure names must be strings"
  | .rootNotText found => "root name " ++ found.display ++ " is not a string"
  | .notList => "expected a list of field descriptors"
  | .notSingleEntry item => "descriptor " ++ item.display ++ " is not a single-entry mapping"
  | .keyNotName key => "descriptor key " ++ key.display ++ " is not a name"
  | .typeNotName => "`type` must name an abstract type"
  | .nextNotName => "`next` must name a structure"

/-- Why a grammar cannot be loaded. -/
inductive GrammarError where
  | io (cause : FileError)
  | yaml (cause : Yaml.SyntaxError)
  | missingRoots
  | unknownRoot (name : String)
  | duplicateStructure (name : String)
  /-- A fault of a structure, in the file at the given path if it was found in a directory. -/
  | malformed (owner : String) (fault : StructureFault) (path : Option String)
  | badAttribute (owner field : String) (fault : AttributeFault)
  deriving Inhabited

namespace GrammarError

/-- The wording of a failure to load a grammar. -/
def message : GrammarError → String
  | .io cause => "IO: " ++ cause.message
  | .yaml cause => "YAML: " ++ cause.message
  | .missingRoots => "grammar has no `top` list of root structures"
  | .unknownRoot name => "root `" ++ name ++ "` is not a structure of the grammar"
  | .duplicateStructure name => "duplicate structure name: " ++ name
  | .malformed owner fault path =>
    "structure `" ++ owner ++ "`: " ++ fault.message ++ path.elim "" fun p => " (" ++ p ++ ")"
  | .badAttribute owner field fault =>
    "structure `" ++ owner ++ "`, field `" ++ field ++ "`: " ++ fault.message

/-- The failure, found in the file at `path`. -/
def inFile (path : String) : GrammarError → GrammarError
  | .malformed owner fault _ => .malformed owner fault (some path)
  | e => e

end GrammarError

end WireGrammar
