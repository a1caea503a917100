import WireGrammar.Packet.Dissection
import WireGrammar.Packet.Kind
import WireGrammar.Trace.Basic
import WireGrammar.Tree.Json

/-!
# Decoding a trace

The packets of a trace are decoded in order.  Each direction has its own context, so a packet sees
what earlier packets of its direction have saved.  A packet that cannot be decoded is reported and
leaves no mark on those behind it.  How bytes are read off base 64 is a parameter, up to
`Trace.dissect`.
-/

namespace WireGrammar

/-- Choices for decoding a trace. -/
structure TraceOptions where
  /-- At most this many packets are decoded, or all of them. -/
  packetLimit : Option Nat := some 100
  dissector : Options := {}
  deriving Repr, Inhabited

/-- Why a packet of a trace is not decoded. -/
inductive PacketFailure where
  /-- The bytes of the packet at this index are no base 64. -/
  | base64 (index : Nat) (cause : Bytes.Base64.Error)
  | undecoded (cause : DissectError)

/-- The wording of a failure. -/
def PacketFailure.message : PacketFailure → String
  | .base64 index cause =>
    "packet " ++ Text.decimal index ++ ": invalid base64 payload: " ++ cause.message
  | .undecoded cause => cause.message

/-- A packet of a trace after decoding. -/
structure DissectedPacket where
  direction : String
  timestamp : Nat
  /-- The number of bytes, zero if they are unknown. -/
  length : Nat
  outcome : Except PacketFailure Dissection
  kind : PacketKind
  number : Option Nat

/-- A packet with the outcome of decoding its bytes. -/
def TracePacket.report (p : TracePacket) (length : Nat)
    (outcome : Except PacketFailure Dissection) : DissectedPacket where
  direction := p.direction
  timestamp := p.timestamp
  length := length
  outcome := outcome
  kind := match outcome with
    | .ok d => d.tree.kind
    | .error _ => .undecoded
  number := match outcome with
    | .ok d => d.tree.packetNumber? d.tree.kind
    | .error _ => none

/-- Decodes the packet at an index of a trace, with the contexts for the packets behind it. -/
def TracePacket.dissect (decode : Bytes.Base64.Decoder) (gs : GrammarSet) (o : Options)
    (contexts : DirectionContexts) (index : Nat) (p : TracePacket) :
    DissectedPacket × DirectionContexts :=
  match p.bytes decode with
  | .error cause => (p.report 0 (.error (.base64 index cause)), contexts)
  | .ok bytes =>
    match WireGrammar.dissect gs o bytes (contexts.forDirection p.direction) with
    | (.ok d, ctx) => (p.report bytes.length (.ok d), contexts.update p.direction ctx)
    | (.error cause, ctx) =>
      (p.report bytes.length (.error (.undecoded cause)), contexts.update p.direction ctx)

/-- Decodes packets in order, the first of them at the given index. -/
def dissectPackets (decode : Bytes.Base64.Decoder) (gs : GrammarSet) (o : Options)
    (contexts : DirectionContexts) (index : Nat) : List TracePacket → List DissectedPacket
  | [] => []
  | p :: ps =>
    match p.dissect decode gs o contexts index with
    | (report, contexts) => report :: dissectPackets decode gs o contexts (index + 1) ps

/-- Decodes the packets of a trace, as many as the limit allows. -/
def Trace.dissectWith (decode : Bytes.Base64.Decoder) (t : Trace) (gs : GrammarSet)
    (options : TraceOptions) : List DissectedPacket :=
  let packets := match options.packetLimit with
    | some limit => t.packets.take limit
    | none => t.packets
  dissectPackets decode gs options.dissector .empty 0 packets

/-- The same, by the standard base 64. -/
def Trace.dissect (t : Trace) (gs : GrammarSet) (options : TraceOptions) : List DissectedPacket :=
  t.dissectWith Bytes.Base64.decode gs options

/-! ### Reports -/

/-- A decoded packet as JSON. -/
def Dissection.toJson (d : Dissection) : Json :=
  .ofMembers [("grammar", .str d.grammar), ("tree", d.tree.toJson)]

/-- An outcome as JSON. -/
def outcomeToJson : Except PacketFailure Dissection → Json
  | .ok d =>
    .ofMembers [("status", .str "decoded"), ("grammar", .str d.grammar), ("tree", d.tree.toJson)]
  | .error cause => .ofMembers [("status", .str "failed"), ("error", .str cause.message)]

/-- The kind of a packet as JSON. -/
def PacketKind.toJson (k : PacketKind) : Json := .str k.display

/-- A packet of a trace as JSON. -/
def DissectedPacket.toJson (p : DissectedPacket) : Json :=
  .ofMembers [("direction", .str p.direction), ("timestamp", .nat p.timestamp),
    ("length", .nat p.length), ("outcome", outcomeToJson p.outcome), ("kind", p.kind.toJson),
    ("number", p.number.elim .null .nat)]

end WireGrammar
