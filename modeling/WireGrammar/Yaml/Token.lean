/-!
# Tokens of a document

The tokens of a YAML document.  Indentation is part of the tokens: every block collection is opened
and closed by a token of its own, and every mapping key is announced by one.

Anchors and aliases, scalars in blocks and directives are left out, and so are all tags but local
ones without escapes: a text with any of them is refused.
-/

namespace WireGrammar.Yaml

/-- Why a text is no document. -/
inductive SyntaxError where
  | forbiddenCharacter
  | unexpectedCharacter
  | unclosedQuote
  | badEscape
  | documentMarkInQuote
  | tabIndent
  | colonInFlow
  | badTag
  /-- A line that had to be a mapping key has no colon. -/
  | missingColon
  | misplacedEntry
  | misplacedKey
  | misplacedValue
  | unexpectedToken
  | unclosedCollection
  | integerTooLarge
  | duplicateKey
  | tooDeep
  | secondDocument
  deriving DecidableEq, Repr, Inhabited

/-- The wording of a refusal. -/
def SyntaxError.message : SyntaxError → String
  | .forbiddenCharacter => "control characters are not allowed"
  | .unexpectedCharacter => "found character that cannot start any token"
  | .unclosedQuote => "found unexpected end of stream in a quoted scalar"
  | .badEscape => "found unknown escape character"
  | .documentMarkInQuote => "found unexpected document indicator"
  | .tabIndent => "found a tab character that violates indentation"
  | .colonInFlow => "found unexpected ':'"
  | .badTag => "did not find expected tag"
  | .missingColon => "could not find expected ':'"
  | .misplacedEntry => "block sequence entries are not allowed in this context"
  | .misplacedKey => "mapping keys are not allowed in this context"
  | .misplacedValue => "mapping values are not allowed in this context"
  | .unexpectedToken => "did not find expected node content"
  | .unclosedCollection => "did not find the end of a collection"
  | .integerTooLarge => "integer out of range"
  | .duplicateKey => "duplicate entry in a mapping"
  | .tooDeep => "recursion limit exceeded"
  | .secondDocument => "deserializing from YAML containing more than one document is not supported"

/-- The tokens; a scalar tells whether it is written without quotes. -/
inductive Token where
  | documentStart
  | documentEnd
  | blockSequenceStart
  | blockMappingStart
  | blockEnd
  | flowSequenceStart
  | flowSequenceEnd
  | flowMappingStart
  | flowMappingEnd
  /-- The dash before an item of a block sequence. -/
  | blockEntry
  /-- The comma of a flow collection. -/
  | flowEntry
  | key
  | value
  /-- A tag before a value, without its exclamation mark. -/
  | tag (name : String)
  | scalar (text : String) (plain : Bool)
  deriving DecidableEq, Repr, Inhabited

/-! ### Characters and places -/

/-- A blank within a line. -/
def isSpace (c : Char) : Bool := c == ' ' || c == '\t'

/-- The end of a line. -/
def isBreak (c : Char) : Bool := c == '\n' || c == '\u2028' || c == '\u2029'

/-- The text goes on with a blank or the end of a line, or ends. -/
def atBlank : List Char → Bool
  | [] => true
  | c :: _ => isSpace c || isBreak c

/-- The text goes on with a line that separates documents. -/
def atDocumentMark : List Char → Bool
  | '-' :: '-' :: '-' :: rest => atBlank rest
  | '.' :: '.' :: '.' :: rest => atBlank rest
  | _ => false

/-- A place in the text: its line, the characters before it in the line, and the bytes before it
in the text. -/
structure Place where
  line : Nat
  column : Nat
  offset : Nat
  deriving DecidableEq, Repr, Inhabited

/-- The place behind a character. -/
def Place.after (p : Place) (c : Char) : Place :=
  if isBreak c then ⟨p.line + 1, 0, p.offset + c.utf8Size⟩
  else ⟨p.line, p.column + 1, p.offset + c.utf8Size⟩

/-- The place `n` characters further on in the line, each of them a single byte. -/
def Place.skip (p : Place) (n : Nat) : Place := ⟨p.line, p.column + n, p.offset + n⟩

/-- What is left of the text, and the place where it starts. -/
structure Source where
  rest : List Char
  place : Place
  deriving Inhabited

/-- The characters of a text, each line end a line feed where it was a carriage return, the two
together, or a next-line character. -/
def unifyBreaks : List Char → List Char
  | '\r' :: '\n' :: cs => '\n' :: unifyBreaks cs
  | '\r' :: cs => '\n' :: unifyBreaks cs
  | c :: cs => (if c = '\u0085' then '\n' else c) :: unifyBreaks cs
  | [] => []

/-- Characters that a document may hold. -/
def isAllowed (c : Char) : Bool :=
  let n := c.toNat
  n == 0x09 || n == 0x0a || n == 0x0d || (0x20 ≤ n && n ≤ 0x7e) || n == 0x85 ||
    (0xa0 ≤ n && n ≤ 0xd7ff) || (0xe000 ≤ n && n ≤ 0xfffd) || 0x10000 ≤ n

end WireGrammar.Yaml
