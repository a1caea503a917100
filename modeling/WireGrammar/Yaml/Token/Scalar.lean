import WireGrammar.Text.Numeral
import WireGrammar.Yaml.Token

/-!
# Spellings of a scalar

The three spellings of a scalar.  Inside each of them a run of blanks stands for itself, and a run
with line ends in it is folded: one line end becomes a space, and of several the first is dropped.
-/

namespace WireGrammar.Yaml

/-! ### Gaps -/

/-- The blanks and line ends since the last other character of a scalar. -/
structure Gap where
  /-- The blanks before the first line end. -/
  blanks : List Char := []
  /-- There was a line end. -/
  broken : Bool := false
  /-- The first line end, unless it was escaped. -/
  lead : List Char := []
  /-- The other line ends. -/
  more : List Char := []
  deriving Inhabited

namespace Gap

/-- The gap after one more blank or line end. -/
def push (g : Gap) (c : Char) : Gap :=
  if isBreak c then
    if g.broken then { g with more := g.more ++ [c] } else { broken := true, lead := [c] }
  else if g.broken then g
  else { g with blanks := g.blanks ++ [c] }

/-- The gap that an escaped line end opens. -/
def escapedBreak : Gap := { broken := true }

/-- The text that a gap stands for. -/
def text (g : Gap) : List Char :=
  if !g.broken then g.blanks
  else if g.lead == ['\n'] then (if g.more.isEmpty then [' '] else g.more)
  else g.lead ++ g.more

/-- Nothing stands in the gap. -/
def isEmpty (g : Gap) : Bool := !g.broken && g.blanks.isEmpty

end Gap

/-! ### Quoted scalars -/

/-- A scalar and what is left behind it. -/
structure Scanned where
  text : List Char
  source : Source

/-- The rest of a scalar between single quotes, where a quote is written twice. -/
def scanSingleQuoted (text : List Char) (gap : Gap) (place : Place) :
    List Char → Except SyntaxError Scanned
  | [] => .error .unclosedQuote
  | '\x27' :: '\x27' :: cs =>
    scanSingleQuoted (text ++ gap.text ++ ['\x27']) {} (place.skip 2) cs
  | c :: cs =>
    if c = '\x27' then .ok ⟨text ++ gap.text, cs, place.after c⟩
    else if isSpace c || isBreak c then
      scanSingleQuoted text (gap.push c) (place.after c) cs
    else if place.column = 0 && atDocumentMark (c :: cs) then .error .documentMarkInQuote
    else scanSingleQuoted (text ++ gap.text ++ [c]) {} (place.after c) cs

/-- Where a scalar between double quotes stands with respect to escapes. -/
inductive EscapeState where
  | outside
  | afterBackslash
  /-- This many hexadecimal digits are still to come; those before them denote `value`. -/
  | digits (left value : Nat)

/-- The character that a letter behind a backslash stands for. -/
def simpleEscape? : Char → Option Char
  | '0' => some '\x00'
  | 'a' => some '\x07'
  | 'b' => some '\x08'
  | 't' => some '\t'
  | '\t' => some '\t'
  | 'n' => some '\n'
  | 'v' => some '\x0b'
  | 'f' => some '\x0c'
  | 'r' => some '\r'
  | 'e' => some '\x1b'
  | ' ' => some ' '
  | '"' => some '"'
  | '/' => some '/'
  | '\\' => some '\\'
  | 'N' => some '\u0085'
  | '_' => some '\u00a0'
  | 'L' => some '\u2028'
  | 'P' => some '\u2029'
  | _ => none

/-- The number of hexadecimal digits that a letter behind a backslash announces. -/
def escapeDigits? : Char → Option Nat
  | 'x' => some 2
  | 'u' => some 4
  | 'U' => some 8
  | _ => none

/-- The character with a code point, if there is one. -/
def charOfCode? (n : Nat) : Option Char :=
  if h : n.isValidChar then some (Char.ofNatAux n h) else none

/-- The rest of a scalar between double quotes. -/
def scanDoubleQuoted (state : EscapeState) (text : List Char) (gap : Gap) (place : Place) :
    List Char → Except SyntaxError Scanned
  | [] => .error .unclosedQuote
  | c :: cs =>
    match state with
    | .outside =>
      if c = '"' then .ok ⟨text ++ gap.text, cs, place.after c⟩
      else if isSpace c || isBreak c then
        scanDoubleQuoted .outside text (gap.push c) (place.after c) cs
      else if place.column = 0 && atDocumentMark (c :: cs) then .error .documentMarkInQuote
      else if c = '\\' then
        scanDoubleQuoted .afterBackslash (text ++ gap.text) {} (place.after c) cs
      else scanDoubleQuoted .outside (text ++ gap.text ++ [c]) {} (place.after c) cs
    | .afterBackslash =>
      if isBreak c then scanDoubleQuoted .outside text .escapedBreak (place.after c) cs
      else
        match escapeDigits? c, simpleEscape? c with
        | some n, _ => scanDoubleQuoted (.digits n 0) text {} (place.after c) cs
        | none, some e => scanDoubleQuoted .outside (text ++ [e]) {} (place.after c) cs
        | none, none => .error .badEscape
    | .digits left value =>
      match Text.digitIn? 16 c with
      | none => .error .badEscape
      | some d =>
        let code := 16 * value + d
        if 1 < left then scanDoubleQuoted (.digits (left - 1) code) text {} (place.after c) cs
        else
          match charOfCode? code with
          | some e => scanDoubleQuoted .outside (text ++ [e]) {} (place.after c) cs
          | none => .error .badEscape

/-! ### Plain scalars -/

/-- Characters that end a plain scalar in a flow collection. -/
def isFlowIndicator (c : Char) : Bool :=
  c == ',' || c == '[' || c == ']' || c == '\x7b' || c == '\x7d'

/-- A plain scalar ends before this point of the text. -/
def endsPlain (inFlow : Bool) : List Char → Bool
  | [] => true
  | c :: cs => (c == ':' && atBlank cs) || (inFlow && isFlowIndicator c)

/-- In a flow collection, a colon stands before an indicator without a blank between them. -/
def isColonInFlow (inFlow : Bool) : List Char → Bool
  | ':' :: c :: _ => inFlow && (isFlowIndicator c || c == '?')
  | _ => false

/-- A plain scalar, what is left behind it and the gap after it, and whether that gap reached
into another line. -/
structure ScannedPlain where
  text : List Char
  source : Source
  broken : Bool

/-- The rest of a plain scalar, whose later lines start at the column `margin` or beyond unless
it stands in a flow collection. -/
def scanPlain (inFlow : Bool) (margin : Nat) (text : List Char) (gap : Gap) (place : Place) :
    List Char → Except SyntaxError ScannedPlain
  | [] => .ok ⟨text, ⟨[], place⟩, gap.broken⟩
  | c :: cs =>
    if isSpace c || isBreak c then
      if gap.broken && c == '\t' && place.column < margin then .error .tabIndent
      else scanPlain inFlow margin text (gap.push c) (place.after c) cs
    else
      let outside := !gap.isEmpty &&
        ((!inFlow && place.column < margin) || c == '#' ||
          (place.column == 0 && atDocumentMark (c :: cs)))
      if outside then .ok ⟨text, ⟨c :: cs, place⟩, gap.broken⟩
      else if isColonInFlow inFlow (c :: cs) then .error .colonInFlow
      else if endsPlain inFlow (c :: cs) then .ok ⟨text, ⟨c :: cs, place⟩, gap.broken⟩
      else scanPlain inFlow margin (text ++ gap.text ++ [c]) {} (place.after c) cs

end WireGrammar.Yaml
