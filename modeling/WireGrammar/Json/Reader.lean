import WireGrammar.Json.Token

/-!
# Reading JSON

The reader takes the tokens of a text to its value.  It keeps the open arrays and objects and what
may come next; it takes one token at a time, so nesting has no limit.
-/

namespace WireGrammar.Json

/-- An open array or object, its last part first. -/
inductive Frame where
  | array (items : List Json)
  /-- An object and the key whose value comes next. -/
  | object (members : List (Option String × Json)) (key : Option String)

/-- What may come next. -/
inductive Expected where
  | value
  | valueOrEnd
  | key
  | keyOrEnd
  | colon
  | commaOrEnd
  /-- The text is complete. -/
  | nothing (result : Json)

/-- The open collections, the innermost first, and what may come next. -/
structure Reader where
  stack : List Frame := []
  expected : Expected := .value

namespace Reader

/-- The reader after a complete value. -/
def complete (stack : List Frame) (value : Json) : Reader :=
  match stack with
  | [] => ⟨[], .nothing value⟩
  | .array items :: rest => ⟨.array (value :: items) :: rest, .commaOrEnd⟩
  | .object members key :: rest => ⟨.object ((key, value) :: members) none :: rest, .commaOrEnd⟩

/-- The reader after a token that starts a value. -/
def startValue (stack : List Frame) : Token → Except JsonError Reader
  | .scalar value => .ok (complete stack value)
  | .arrayStart => .ok ⟨.array [] :: stack, .valueOrEnd⟩
  | .objectStart => .ok ⟨.object [] none :: stack, .keyOrEnd⟩
  | _ => .error .unexpectedToken

/-- The reader after a token that closes the innermost array or object. -/
def closeFrame (stack : List Frame) (t : Token) : Except JsonError Reader :=
  match t, stack with
  | .arrayEnd, .array items :: rest => .ok (complete rest (.array items.reverse))
  | .objectEnd, .object members _ :: rest => .ok (complete rest (.object members.reverse))
  | _, _ => .error .unexpectedToken

/-- The reader after the key of a member. -/
def startMember (stack : List Frame) (t : Token) : Except JsonError Reader :=
  match t, stack with
  | .scalar (.text key), .object members _ :: rest => .ok ⟨.object members key :: rest, .colon⟩
  | _, _ => .error .unexpectedToken

/-- The reader after one more token. -/
def push (r : Reader) (t : Token) : Except JsonError Reader :=
  match r.expected, t with
  | .value, t => startValue r.stack t
  | .valueOrEnd, .arrayEnd => closeFrame r.stack .arrayEnd
  | .valueOrEnd, t => startValue r.stack t
  | .key, t => startMember r.stack t
  | .keyOrEnd, .objectEnd => closeFrame r.stack .objectEnd
  | .keyOrEnd, t => startMember r.stack t
  | .colon, .colon => .ok { r with expected := .value }
  | .colon, _ => .error .unexpectedToken
  | .commaOrEnd, .comma =>
    match r.stack with
    | .array _ :: _ => .ok { r with expected := .value }
    | .object .. :: _ => .ok { r with expected := .key }
    | [] => .error .unexpectedToken
  | .commaOrEnd, t => closeFrame r.stack t
  | .nothing _, _ => .error .trailingCharacters

end Reader

/-- The value of a text. -/
def read (text : String) : Except JsonError Json := do
  let tokens ← scanTokens [] text.toList
  let r ← tokens.reverse.foldlM Reader.push {}
  match r.expected with
  | .nothing value => return value
  | _ => throw .unexpectedEnd

end WireGrammar.Json
