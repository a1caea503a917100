import WireGrammar.Bytes.Base64
import WireGrammar.Json.Reader
import WireGrammar.Text.Blank

/-!
# Recorded traces

A trace holds the packets that a test scenario exchanged with a host, in the order of their
arrival.  It is read from a JSON object, whose members may also be given by position, in an array;
members of other names are ignored.
-/

namespace WireGrammar

/-- A recorded packet. -/
structure TracePacket where
  direction : String
  timestamp : Nat
  /-- The bytes of the packet in base 64. -/
  data : String
  deriving Repr, Inhabited

/-- A recorded trace. -/
structure Trace where
  host : String
  scenario : String
  /-- The packets; missing if none was ever sent. -/
  stream : Option (List TracePacket)
  deriving Repr, Inhabited

/-- The packets of a trace. -/
def Trace.packets (t : Trace) : List TracePacket := t.stream.getD []

/-- The bytes of a packet; blanks around their base 64 do not count. -/
def TracePacket.bytes (decode : Bytes.Base64.Decoder) (p : TracePacket) :
    Except Bytes.Base64.Error (List UInt8) :=
  decode (String.ofList (Text.trim p.data.toList)).toUTF8.toList

/-! ### Reading -/

namespace Json

/-- The text that a value is. -/
def asText : Json → Except JsonError String
  | .text (some s) => .ok s
  | _ => .error .wrongKind

/-- The number below `2 ^ 64` that a value is. -/
def asNumber : Json → Except JsonError Nat
  | .number (.natural n) => if n < Word.size 64 then .ok n else .error .wrongKind
  | _ => .error .wrongKind

/-- The members of an object with the given names, in the order of the names, each of which
occurs at most once; or the items of an array, by position. -/
def fields (names : List String) : Json → Except JsonError (List (Option Json))
  | .object members =>
    if members.any (·.1.isNone) then .error .wrongKind
    else
      names.mapM fun name =>
        match members.filter (·.1 == some name) with
        | [] => .ok none
        | [m] => .ok (some m.2)
        | _ => .error (.duplicateMember name)
  | .array items =>
    if names.length < items.length then .error .trailingCharacters
    else .ok (items.map some ++ List.replicate (names.length - items.length) none)
  | _ => .error .wrongKind

/-- A member that has to be there. -/
def required (name : String) : Option Json → Except JsonError Json
  | some value => .ok value
  | none => .error (.missingMember name)

end Json

/-- The packet that a value describes. -/
def TracePacket.ofJson (j : Json) : Except JsonError TracePacket := do
  match ← j.fields ["direction", "timestamp", "data"] with
  | [direction, timestamp, data] =>
    let direction ← (← Json.required "direction" direction).asText
    let timestamp ← timestamp.elim (pure 0) Json.asNumber
    let data ← (← Json.required "data" data).asText
    return ⟨direction, timestamp, data⟩
  | _ => throw .wrongKind

/-- The packets that a value describes. -/
def Trace.streamOfJson : Json → Except JsonError (Option (List TracePacket))
  | .null => .ok none
  | .array items => (items.mapM TracePacket.ofJson).map some
  | _ => .error .wrongKind

/-- The trace that a value describes. -/
def Trace.ofJson (j : Json) : Except JsonError Trace := do
  match ← j.fields ["host", "scenario", "stream"] with
  | [host, scenario, stream] =>
    let host ← host.elim (pure "") Json.asText
    let scenario ← scenario.elim (pure "") Json.asText
    let stream ← stream.elim (pure none) Trace.streamOfJson
    return ⟨host, scenario, stream⟩
  | _ => throw .wrongKind

/-- The trace that a text describes. -/
def Trace.parse (text : String) : Except JsonError Trace := do
  Trace.ofJson (← Json.read text)

end WireGrammar
