import WireGrammar.Tree.Basic

/-!
# Kind and number of a packet

What kind of packet a tree is, and its number.  Both are told from the names and numbers of its
fields: the form and the type of the header decide the kind.
-/

namespace WireGrammar

/-- The kinds of packets. -/
inductive PacketKind where
  | initial
  | retry
  | handshake
  | zeroRtt
  | oneRtt
  | versionNegotiation
  | undecoded
  deriving DecidableEq, Repr, Inhabited

/-- The name of a kind. -/
def PacketKind.display : PacketKind → String
  | .initial => "Initial"
  | .retry => "Retry"
  | .handshake => "Handshake"
  | .zeroRtt => "0-RTT Protected"
  | .oneRtt => "1-RTT Protected Payload"
  | .versionNegotiation => "Version Negotiation"
  | .undecoded => "Undecoded"

/-- The kind that a type of a long header stands for. -/
def PacketKind.ofLongType? : Nat → Option PacketKind
  | 0x7f => some .initial
  | 0x7e => some .retry
  | 0x7d => some .handshake
  | 0x7c => some .zeroRtt
  | _ => none

/-- The kind that a single field of the root decides, if it does. -/
def PacketKind.ofField? (f : DecodedField) : Option PacketKind :=
  match f.value? with
  | none => none
  | some v =>
    if f.name = "Header Form" then (if v.number? = some 0 then some .oneRtt else none)
    else if f.name = "Long Packet Type" then v.number?.bind PacketKind.ofLongType?
    else none

/-- The kind of a packet: the first field of its root that decides one does so, and a packet
without such a field negotiates versions. -/
def ParseTree.kind (t : ParseTree) : PacketKind :=
  match t.root? with
  | none => .undecoded
  | some root => (root.fields.findSome? PacketKind.ofField?).getD .versionNegotiation

/-- The number of a packet of the given kind: zero if it negotiates versions, and otherwise that
of the first field called so. -/
def ParseTree.packetNumber? (t : ParseTree) : PacketKind → Option Nat
  | .versionNegotiation => some 0
  | .undecoded => none
  | _ => (t.find? "Packet Number").bind Value.number?

end WireGrammar
