import WireGrammar.Yaml.Token.Scalar

/-!
# From text to tokens

Block collections are opened when an entry or a key stands further right than the innermost open
one, and closed when a line starts further left.  Whether a scalar or a flow collection is a key
only shows at the colon behind it, so the place where its key token would stand is kept until that
colon comes or its line ends.
-/

namespace WireGrammar.Yaml

/-! ### The state between two tokens -/

/-- A scalar or flow collection that may turn out to be a key. -/
structure KeyCandidate where
  /-- It starts a line of a block mapping, so nothing but a key may stand there. -/
  required : Bool
  /-- The number of tokens before it. -/
  tokensBefore : Nat
  place : Place
  deriving Inhabited

/-- The text still to be read, the tokens already found, and what they leave open. -/
structure Scanner where
  source : Source
  /-- The tokens so far, the last one first. -/
  tokens : List Token := []
  /-- A key, an entry or a complex key may start here. -/
  keyAllowed : Bool := true
  /-- The columns of the open block collections, the innermost first. -/
  columns : List Nat := []
  candidate : Option KeyCandidate := none
  /-- The candidates around each open flow collection, the innermost first. -/
  outer : List (Option KeyCandidate) := []
  deriving Inhabited

namespace Scanner

/-- A flow collection is open. -/
def inFlow (s : Scanner) : Bool := !s.outer.isEmpty

/-- The scanner after one more token. -/
def emit (s : Scanner) (t : Token) : Scanner := { s with tokens := t :: s.tokens }

/-- The scanner with tokens put in behind the first `count` ones. -/
def insertAfter (s : Scanner) (count : Nat) (ts : List Token) : Scanner :=
  let later := s.tokens.length - count
  { s with tokens := s.tokens.take later ++ ts.reverse ++ s.tokens.drop later }

/-- The scanner at another place of the text. -/
def moveTo (s : Scanner) (source : Source) : Scanner := { s with source }

/-- The scanner behind the next `n` characters of the line. -/
def skip (s : Scanner) (n : Nat) : Scanner :=
  s.moveTo ⟨s.source.rest.drop n, s.source.place.skip n⟩

/-! ### Candidates for keys -/

/-- A candidate is lost when its line has ended or it is longer than 1024 bytes. -/
def isStale (p : Place) (k : KeyCandidate) : Bool :=
  k.place.line < p.line || k.place.offset + 1024 < p.offset

/-- What remains of a candidate at a place. -/
def refresh (p : Place) : Option KeyCandidate → Except SyntaxError (Option KeyCandidate)
  | none => .ok none
  | some k =>
    if isStale p k then (if k.required then .error .missingColon else .ok none)
    else .ok (some k)

/-- Drops the lost candidates. -/
def refreshAll (s : Scanner) : Except SyntaxError Scanner := do
  let candidate ← refresh s.source.place s.candidate
  let outer ← s.outer.mapM (refresh s.source.place)
  return { s with candidate, outer }

/-- Gives up the candidate; one that had to be a key cannot be given up. -/
def dropCandidate (s : Scanner) : Except SyntaxError Scanner :=
  match s.candidate with
  | some k => if k.required then .error .missingColon else .ok { s with candidate := none }
  | none => .ok s

/-- Keeps the next token as a candidate where a key may stand. -/
def keepCandidate (s : Scanner) : Except SyntaxError Scanner := do
  if s.keyAllowed then
    let s ← s.dropCandidate
    let required := !s.inFlow && s.columns.head? == some s.source.place.column
    return { s with candidate := some ⟨required, s.tokens.length, s.source.place⟩ }
  else return s

/-! ### Open block collections -/

/-- Closes the block collections whose entries stand further right than `column`. -/
def closeBeyond (column : Nat) (s : Scanner) : List Nat → Scanner
  | [] => { s with columns := [] }
  | c :: cs =>
    if column < c then closeBeyond column (s.emit .blockEnd) cs else { s with columns := c :: cs }

/-- Closes every block collection. -/
def closeAll (s : Scanner) : Scanner :=
  { s with tokens := s.columns.map (fun _ => Token.blockEnd) ++ s.tokens, columns := [] }

/-- An entry at `column` is further right than the innermost block collection. -/
def opensBlock (s : Scanner) (column : Nat) : Bool :=
  !s.inFlow && s.columns.head?.all (· < column)

/-- Opens a block collection at `column` if its entry stands further right than those around. -/
def openBlock (s : Scanner) (column : Nat) (t : Token) : Scanner :=
  if s.opensBlock column then { s.emit t with columns := column :: s.columns } else s

/-! ### Single tokens -/

/-- A line that separates documents. -/
def documentMark (s : Scanner) (t : Token) : Except SyntaxError Scanner := do
  let s ← s.closeAll.dropCandidate
  return ({ s with keyAllowed := false }.emit t).skip 3

/-- The bracket that opens a flow collection, which may itself be a key. -/
def flowStart (s : Scanner) (t : Token) : Except SyntaxError Scanner := do
  let s ← s.keepCandidate
  let s := { s with outer := s.candidate :: s.outer, candidate := none, keyAllowed := true }
  return (s.emit t).skip 1

/-- The bracket that closes a flow collection; the candidate around it counts again. -/
def flowEnd (s : Scanner) (t : Token) : Except SyntaxError Scanner := do
  let s ← s.dropCandidate
  let s := { s with
    candidate := s.outer.head?.getD none
    outer := s.outer.tail
    keyAllowed := false }
  return (s.emit t).skip 1

/-- The comma between the entries of a flow collection. -/
def flowEntry (s : Scanner) : Except SyntaxError Scanner := do
  let s ← s.dropCandidate
  return ({ s with keyAllowed := true }.emit .flowEntry).skip 1

/-- The dash before an entry of a block sequence. -/
def blockEntry (s : Scanner) : Except SyntaxError Scanner := do
  if !s.inFlow && !s.keyAllowed then throw .misplacedEntry
  let s ← (s.openBlock s.source.place.column .blockSequenceStart).dropCandidate
  return ({ s with keyAllowed := true }.emit .blockEntry).skip 1

/-- A key announced by a question mark. -/
def complexKey (s : Scanner) : Except SyntaxError Scanner := do
  if !s.inFlow && !s.keyAllowed then throw .misplacedKey
  let s ← (s.openBlock s.source.place.column .blockMappingStart).dropCandidate
  return ({ s with keyAllowed := !s.inFlow }.emit .key).skip 1

/-- The colon before a value: it turns the candidate, if there is one, into a key. -/
def value (s : Scanner) : Except SyntaxError Scanner := do
  match s.candidate with
  | some k =>
    let s :=
      if s.opensBlock k.place.column then
        { s.insertAfter k.tokensBefore [.blockMappingStart, .key] with
          columns := k.place.column :: s.columns }
      else s.insertAfter k.tokensBefore [.key]
    return ({ s with candidate := none, keyAllowed := false }.emit .value).skip 1
  | none =>
    if !s.inFlow && !s.keyAllowed then throw .misplacedValue
    let s := s.openBlock s.source.place.column .blockMappingStart
    return ({ s with keyAllowed := !s.inFlow }.emit .value).skip 1

/-- A scalar between quotes, which may be a key. -/
def quotedScalar (s : Scanner) (double : Bool) : Except SyntaxError Scanner := do
  let s ← s.keepCandidate
  let inside := s.source.place.skip 1
  let cs := s.source.rest.drop 1
  let scanned ←
    if double then scanDoubleQuoted .outside [] {} inside cs else scanSingleQuoted [] {} inside cs
  let s := { s with keyAllowed := false }.emit (.scalar (String.ofList scanned.text) false)
  return s.moveTo scanned.source

/-- A scalar without quotes, which may be a key; one that ends a line lets a key start. -/
def plainScalar (s : Scanner) : Except SyntaxError Scanner := do
  let s ← s.keepCandidate
  let margin := s.columns.head?.elim 0 (· + 1)
  let scanned ← scanPlain s.inFlow margin [] {} s.source.place s.source.rest
  let s := { s with keyAllowed := scanned.broken }.emit (.scalar (String.ofList scanned.text) true)
  return s.moveTo scanned.source

/-- Characters of the handle of a tag. -/
def isHandleChar (c : Char) : Bool := c.isAlphanum || c == '-' || c == '_'

/-- Characters of a tag. -/
def isTagChar (c : Char) : Bool := isHandleChar c || ";/?:@&=+$.!~*\x27()".toList.contains c

/-- The name of a local tag behind its exclamation mark.  A second exclamation mark behind a handle
would make another tag of it. -/
def tagName? (inFlow : Bool) (cs : List Char) : Option (List Char) :=
  let name := cs.takeWhile isTagChar
  let rest := cs.dropWhile isTagChar
  let ends := atBlank rest || (inFlow && rest.head? == some ',')
  if name.isEmpty || (cs.dropWhile isHandleChar).head? == some '!' || !ends then none
  else some name

/-- A tag, which may be the start of a key. -/
def tag (s : Scanner) : Except SyntaxError Scanner := do
  let s ← s.keepCandidate
  match tagName? s.inFlow (s.source.rest.drop 1) with
  | none => throw .badTag
  | some name =>
    return ({ s with keyAllowed := false }.emit (.tag (String.ofList name))).skip (name.length + 1)

/-! ### Between tokens -/

/-- Skips blanks, comments, line ends and a byte order mark at the start of a line, where it stands
for one column; a line end of the block style lets a key start.  Where a key may start, a tab is no
blank. -/
def skipBlanks (inFlow keyAllowed inComment : Bool) (place : Place) :
    List Char → Source × Bool
  | [] => (⟨[], place⟩, keyAllowed)
  | c :: cs =>
    if isBreak c then skipBlanks inFlow (keyAllowed || !inFlow) false (place.after c) cs
    else if inComment then skipBlanks inFlow keyAllowed true (place.after c) cs
    else if c == ' ' || (c == '\t' && (inFlow || !keyAllowed)) ||
        (c == '\ufeff' && place.column == 0) then
      skipBlanks inFlow keyAllowed false (place.after c) cs
    else if c == '#' then skipBlanks inFlow keyAllowed true (place.after c) cs
    else (⟨c :: cs, place⟩, keyAllowed)

/-- Characters that start no plain scalar. -/
def isIndicator (c : Char) : Bool := "-?:,[]\x7b\x7d#&*!|>\x27\"%@\x60".toList.contains c

/-- A plain scalar may start here. -/
def startsPlain (inFlow : Bool) : List Char → Bool
  | [] => false
  | c :: cs =>
    (!isSpace c && !isBreak c && !isIndicator c) ||
      (c == '-' && !cs.head?.any isSpace) ||
      (!inFlow && (c == '?' || c == ':') && !atBlank cs)

/-- The next token, which starts at the next character. -/
def token (s : Scanner) : Except SyntaxError Scanner :=
  let cs := s.source.rest
  match cs with
  | [] => .ok s
  | c :: rest =>
    if s.source.place.column = 0 && atDocumentMark cs then
      s.documentMark (if c = '-' then .documentStart else .documentEnd)
    else if c = '[' then s.flowStart .flowSequenceStart
    else if c = '\x7b' then s.flowStart .flowMappingStart
    else if c = ']' then s.flowEnd .flowSequenceEnd
    else if c = '\x7d' then s.flowEnd .flowMappingEnd
    else if c = ',' then s.flowEntry
    else if c = '-' && atBlank rest then s.blockEntry
    else if c = '?' && (s.inFlow || atBlank rest) then s.complexKey
    else if c = ':' && (s.inFlow || atBlank rest) then s.value
    else if c = '!' then s.tag
    else if c = '\x27' then s.quotedScalar false
    else if c = '"' then s.quotedScalar true
    else if startsPlain s.inFlow cs then s.plainScalar
    else .error .unexpectedCharacter

/-- The scanner at the start of the next token: blanks are skipped, lost candidates dropped, and
block collections left of it closed. -/
def toNextToken (s : Scanner) : Except SyntaxError Scanner := do
  let (source, keyAllowed) :=
    skipBlanks s.inFlow s.keyAllowed false s.source.place s.source.rest
  let s ← { s with source, keyAllowed }.refreshAll
  return if s.inFlow then s else closeBeyond source.place.column s s.columns

/-- All tokens, the last one first.  A token that took no character would come again for ever and
is refused. -/
def run (s : Scanner) : Except SyntaxError (List Token) :=
  match s.toNextToken with
  | .error e => .error e
  | .ok start =>
    if start.source.rest.isEmpty then
      start.closeAll.dropCandidate.map (·.tokens)
    else
      match start.token with
      | .error e => .error e
      | .ok next =>
        if next.source.rest.length < s.source.rest.length then run next
        else .error .unexpectedCharacter
termination_by s.source.rest.length

end Scanner

/-- The tokens of a text. -/
def Token.scan (text : String) : Except SyntaxError (List Token) :=
  let cs := text.toList
  if cs.all isAllowed then
    (Scanner.run { source := ⟨unifyBreaks cs, ⟨0, 0, 0⟩⟩ }).map List.reverse
  else .error .forbiddenCharacter

end WireGrammar.Yaml
