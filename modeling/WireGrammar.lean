import WireGrammar.Main
import WireGrammar.Proofs.Tiling
import WireGrammar.Proofs.Replay
import WireGrammar.Proofs.Termination
import WireGrammar.Proofs.Encoding.Packet
import WireGrammar.Proofs.Packet.Selection
import WireGrammar.Proofs.Trace.Direction
import WireGrammar.Proofs.Structure.Unrolling
import WireGrammar.Proofs.Decoding.Agreement
import WireGrammar.Proofs.Grammar.Insertion
import WireGrammar.Proofs.Decoding.Failure
import WireGrammar.Proofs.Packet.Wrapping
import WireGrammar.Proofs.Grammar.Formatting
import WireGrammar.Proofs.Structure.Position
import WireGrammar.Proofs.Attribute.Loading
import WireGrammar.Proofs.Grammar.Loading
import WireGrammar.Proofs.Machine.Safety
import WireGrammar.Proofs.Packet.Inertness
import WireGrammar.Proofs.Attribute.Occurrence
import WireGrammar.Proofs.Context.Growth
import WireGrammar.Proofs.Packet.Diagnosis
import WireGrammar.Proofs.Structure.Conformance
import WireGrammar.Proofs.Structure.Account
import WireGrammar.Proofs.Structure.Completeness
import WireGrammar.Proofs.Structure.Announcement
import WireGrammar.Proofs.Structure.Echo
import WireGrammar.Proofs.Structure.Pruning
import WireGrammar.Proofs.Structure.Counting
import WireGrammar.Proofs.Grammar.Cut
import WireGrammar.Proofs.Attribute.Layering
import WireGrammar.Proofs.Structure.Choice
import WireGrammar.Proofs.Structure.Listing
import WireGrammar.Proofs.Structure.Repetition
import WireGrammar.Proofs.Decoding.Entry
import WireGrammar.Proofs.Structure.Nesting
import WireGrammar.Proofs.Structure.Delimiting
import WireGrammar.Proofs.Decoding.Bits
import WireGrammar.Proofs.Structure.Faithful
import WireGrammar.Proofs.Attribute.Locality
import WireGrammar.Proofs.Packet.VersionOrder
import WireGrammar.Proofs.Packet.Priority
import WireGrammar.Proofs.Trace.Classification
import WireGrammar.Proofs.Machine.BitStream
import WireGrammar.Proofs.Machine.Block
import WireGrammar.Proofs.Machine.Window
import WireGrammar.Proofs.Encoding.Prefixed
import WireGrammar.Proofs.Value.Spelling
