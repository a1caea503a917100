import WireGrammar.Json.Basic
import WireGrammar.Text.Numeral

/-!
# Tokens of JSON

A JSON text consists of strings, numbers, three words and six marks, with blanks in between.  An
escaped surrogate pair is one character; half of a pair on its own leaves a string well formed, but
the string then denotes no text.
-/

namespace WireGrammar

/-- Why a text is no JSON text of the expected form. -/
inductive JsonError where
  | unexpectedEnd
  | unexpectedCharacter
  | controlInString
  | badEscape
  | badNumber
  | unexpectedToken
  | trailingCharacters
  /-- A value is not of the kind that its place asks for. -/
  | wrongKind
  | duplicateMember (name : String)
  | missingMember (name : String)
  deriving DecidableEq, Repr, Inhabited

/-- The wording of a refusal. -/
def JsonError.message : JsonError → String
  | .unexpectedEnd => "EOF while parsing a value"
  | .unexpectedCharacter => "expected value"
  | .controlInString => "control character (\\u0000-\\u001F) found while parsing a string"
  | .badEscape => "invalid escape"
  | .badNumber => "invalid number"
  | .unexpectedToken => "expected `,` or the end of a collection"
  | .trailingCharacters => "trailing characters"
  | .wrongKind => "invalid type"
  | .duplicateMember name => "duplicate field `" ++ name ++ "`"
  | .missingMember name => "missing field `" ++ name ++ "`"

namespace Json

/-- The marks, and the values that need no closing mark. -/
inductive Token where
  | arrayStart
  | arrayEnd
  | objectStart
  | objectEnd
  | colon
  | comma
  /-- A value that is neither an array nor an object. -/
  | scalar (value : Json)

/-! ### Strings -/

/-- Where a string stands with respect to escapes. -/
inductive EscapeState where
  | outside
  | afterBackslash
  /-- This many hexadecimal digits are still to come; those before them denote `value`. -/
  | digits (left value : Nat)

/-- What a string denotes so far. -/
structure StringState where
  /-- The characters, the last one first. -/
  chars : List Char := []
  /-- The first half of a surrogate pair, if the second has to come next. -/
  half : Option Nat := none
  /-- A half of a pair has stood alone. -/
  broken : Bool := false

namespace StringState

/-- A half of a pair that is still waiting stands alone. -/
def settle (s : StringState) : StringState :=
  { s with half := none, broken := s.broken || s.half.isSome }

/-- The string after a character that stands for itself. -/
def push (s : StringState) (c : Char) : StringState :=
  let s := s.settle
  { s with chars := c :: s.chars }

/-- The string after an escaped code unit: a character, or a half of a pair. -/
def pushUnit (s : StringState) (n : Nat) : StringState :=
  if 0xd800 ≤ n ∧ n < 0xdc00 then { s.settle with half := some n }
  else if 0xdc00 ≤ n ∧ n < 0xe000 then
    match s.half with
    | some high =>
      { s with
        half := none
        chars := Char.ofNat (0x10000 + (high - 0xd800) * 0x400 + (n - 0xdc00)) :: s.chars }
    | none => { s with broken := true }
  else s.push (Char.ofNat n)

/-- The text that the whole string denotes. -/
def text? (s : StringState) : Option String :=
  let s := s.settle
  if s.broken then none else some (String.ofList s.chars.reverse)

end StringState

/-- The character that a letter behind a backslash stands for. -/
def simpleEscape? : Char → Option Char
  | '"' => some '"'
  | '\\' => some '\\'
  | '/' => some '/'
  | 'b' => some '\x08'
  | 'f' => some '\x0c'
  | 'n' => some '\n'
  | 'r' => some '\r'
  | 't' => some '\t'
  | _ => none

/-- The rest of a string, up to its closing quote. -/
def scanString (escape : EscapeState) (s : StringState) :
    List Char → Except JsonError (Option String × List Char)
  | [] => .error .unexpectedEnd
  | c :: cs =>
    match escape with
    | .outside =>
      if c = '"' then .ok (s.text?, cs)
      else if c = '\\' then scanString .afterBackslash s cs
      else if c.toNat < 0x20 then .error .controlInString
      else scanString .outside (s.push c) cs
    | .afterBackslash =>
      if c = 'u' then scanString (.digits 4 0) s cs
      else
        match simpleEscape? c with
        | some e => scanString .outside (s.push e) cs
        | none => .error .badEscape
    | .digits left value =>
      match Text.digitIn? 16 c with
      | none => .error .badEscape
      | some d =>
        if 1 < left then scanString (.digits (left - 1) (16 * value + d)) s cs
        else scanString .outside (s.pushUnit (16 * value + d)) cs

/-! ### Numbers -/

/-- At least one digit. -/
def scanDigits (cs : List Char) : Except JsonError (List Char × List Char) :=
  let (digits, rest) := cs.span Char.isDigit
  if digits.isEmpty then .error .badNumber else .ok (digits, rest)

/-- The whole part of a number: a zero, or digits that do not start with one. -/
def scanWhole (cs : List Char) : Except JsonError (List Char × List Char) := do
  let (digits, rest) ← scanDigits cs
  if digits.head? == some '0' && digits.length != 1 then throw .badNumber
  return (digits, rest)

/-- The fraction of a number, if it has one. -/
def scanFraction : List Char → Except JsonError (List Char × List Char)
  | '.' :: cs => do
    let (digits, rest) ← scanDigits cs
    return ('.' :: digits, rest)
  | cs => .ok ([], cs)

/-- The exponent of a number, if it has one. -/
def scanExponent : List Char → Except JsonError (List Char × List Char)
  | c :: cs =>
    if c = 'e' ∨ c = 'E' then do
      let (sign, cs) := match cs with
        | '+' :: cs => (['+'], cs)
        | '-' :: cs => (['-'], cs)
        | cs => ([], cs)
      let (digits, rest) ← scanDigits cs
      return (c :: sign ++ digits, rest)
    else .ok ([], c :: cs)
  | [] => .ok ([], [])

/-- A number. -/
def scanNumber (cs : List Char) : Except JsonError (JsonNumber × List Char) := do
  let (sign, cs) := match cs with
    | '-' :: cs => (['-'], cs)
    | cs => ([], cs)
  let (whole, cs) ← scanWhole cs
  let (fraction, cs) ← scanFraction cs
  let (exponent, cs) ← scanExponent cs
  if sign.isEmpty && fraction.isEmpty && exponent.isEmpty then
    match Text.digits? 10 whole with
    | some n => return (.natural n, cs)
    | none => throw .badNumber
  else return (.written (String.ofList (sign ++ whole ++ fraction ++ exponent)), cs)

/-! ### Tokens -/

/-- The character may stand between tokens. -/
def isSpace (c : Char) : Bool := c == ' ' || c == '\n' || c == '\r' || c == '\t'

/-- The token that starts with the character `c`, and what is left behind it. -/
def scanToken (c : Char) (cs : List Char) : Except JsonError (Token × List Char) :=
  match c, cs with
  | '[', cs => .ok (.arrayStart, cs)
  | ']', cs => .ok (.arrayEnd, cs)
  | '\x7b', cs => .ok (.objectStart, cs)
  | '\x7d', cs => .ok (.objectEnd, cs)
  | ':', cs => .ok (.colon, cs)
  | ',', cs => .ok (.comma, cs)
  | 't', 'r' :: 'u' :: 'e' :: cs => .ok (.scalar (.bool true), cs)
  | 'f', 'a' :: 'l' :: 's' :: 'e' :: cs => .ok (.scalar (.bool false), cs)
  | 'n', 'u' :: 'l' :: 'l' :: cs => .ok (.scalar .null, cs)
  | '"', cs => do
    let (s, rest) ← scanString .outside {} cs
    return (.scalar (.text s), rest)
  | c, cs =>
    if c = '-' || c.isDigit then do
      let (n, rest) ← scanNumber (c :: cs)
      return (.scalar (.number n), rest)
    else .error .unexpectedCharacter

/-- The tokens of a text, the last one first, behind those in `tokens`.  A token that took no
character would come again for ever and is refused. -/
def scanTokens (tokens : List Token) (text : List Char) : Except JsonError (List Token) :=
  match text with
  | [] => .ok tokens
  | c :: cs =>
    if isSpace c then scanTokens tokens cs
    else
      match scanToken c cs with
      | .error e => .error e
      | .ok (t, rest) =>
        if rest.length < (c :: cs).length then scanTokens (t :: tokens) rest
        else .error .unexpectedCharacter
termination_by text.length
decreasing_by
  · exact Nat.lt_succ_self cs.length
  · assumption

end Json

end WireGrammar
