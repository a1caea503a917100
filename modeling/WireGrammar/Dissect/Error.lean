import WireGrammar.Context
import WireGrammar.Cursor.Read

/-!
# Failed attempts

Why a structure does not fit the bytes it is tried on, and what an attempt leaves behind.  No such
failure is final: it sends the dissection to the next alternative, so an attempt that fails hands
back the context as it stood at that moment.
-/

namespace WireGrammar

/-- What a scalar was expected to be. -/
inductive Expectation where
  /-- A test that the declaration of the field makes. -/
  | test (accepted : ValueSpec)
  /-- A key of the table by which `target` is given an attribute. -/
  | tableKey (kind : AttributeKind) (target : String)
  deriving Repr

/-- The wording of an expectation. -/
def Expectation.message : Expectation → String
  | .test accepted => accepted.display
  | .tableKey kind target =>
    "a key of the `" ++ kind.name ++ "` trigger table for `" ++ target ++ "`"

/-- Why an attempt fails. -/
inductive ParseError where
  /-- The bytes of a field cannot be read. -/
  | unreadable (field : String) (cause : ReadError)
  | valueMismatch (field : String) (value : Value) (expected : Expectation)
  /-- No alternative of an abstract type fits. -/
  | noMatchingStructure (typeName : String) (offset : Nat) (firstByte : Option UInt8)
  /-- The bytes end before a field that has to be there. -/
  | incompleteStructure (owner field : String)
  /-- The structure is already being decoded at this offset. -/
  | recursiveStructure (name : String) (offset : Nat)
  /-- A trigger gives an attribute that the scalar is no value for. -/
  | invalidTrigger (field : String) (kind : AttributeKind) (value : Value)
  /-- A root fits, but not to the end of the packet. -/
  | trailingBytes (root : String) (consumed total : Nat)
  | unknownStructure (name : String)
  deriving Repr

/-- A number of at most two bits in binary. -/
def twoBits (n : Nat) : String :=
  let digits := Nat.toDigits 2 n
  "0b" ++ String.ofList (List.replicate (2 - digits.length) '0' ++ digits)

/-- The first byte left, if there is one, as messages show it. -/
def firstByteText : Option UInt8 → String
  | none => "None"
  | some b => "Some(" ++ Text.decimal b.toNat ++ ")"

/-- The wording of a failed read of a field. -/
def ReadError.message (field : String) : ReadError → String
  | .insufficientBytes offset needed available =>
    s!"field `{field}` needs {needed} bytes at offset {offset}, only {available} left"
  | .unknownEncodingPattern offset pattern =>
    let bits := twoBits pattern
    s!"unknown encoding pattern {bits} for field `{field}` at offset {offset}"
  | .unaligned offset bit =>
    s!"field `{field}` cannot start mid-byte (bit {bit} of offset {offset})"
  | .unsupportedWidth offset bits =>
    s!"field `{field}` at offset {offset}: {bits}-bit width " ++
      "is neither whole bytes nor at most 64 bits"

/-- The wording of a failure. -/
def ParseError.message : ParseError → String
  | .unreadable field cause => cause.message field
  | .valueMismatch field value expected =>
    "value " ++ value.display ++ " for field `" ++ field ++ "` not acceptable (" ++
      expected.message ++ ")"
  | .noMatchingStructure typeName offset firstByte =>
    let first := firstByteText firstByte
    s!"no structure of type `{typeName}` parses at offset {offset} (first byte {first})"
  | .incompleteStructure owner field =>
    s!"structure `{owner}` ended before required field `{field}`"
  | .recursiveStructure name offset =>
    s!"structure `{name}` re-entered at offset {offset} without consuming input"
  | .invalidTrigger field kind value =>
    "trigger from `" ++ field ++ "` cannot set `" ++ kind.name ++ "` to " ++ value.display
  | .trailingBytes root consumed total => s!"root `{root}` consumed {consumed} of {total} bytes"
  | .unknownStructure name => s!"unknown structure `{name}`"

/-- A failed attempt: why it failed, and the context it leaves behind. -/
structure Failure where
  error : ParseError
  context : StreamContext

/-- The outcome of an attempt. -/
abbrev Attempt (α : Type) := Except Failure α

end WireGrammar
