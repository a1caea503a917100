import WireGrammar.Json.Printer
import WireGrammar.Tree.Basic

/-!
# Decoded packets as JSON

Numbers of any size stay numbers, and byte strings become hexadecimal text.
-/

namespace WireGrammar

/-- A scalar as JSON. -/
def Value.toJson : Value → Json
  | .uint n => .nat n
  | .wide n => .nat n
  | .bytes bs => .str (Bytes.toHex bs)
  | .text s => .str s

mutual

/-- A field as JSON. -/
def DecodedField.toJson : DecodedField → Json
  | .scalar name value start stop =>
    .ofMembers [("name", .str name), ("node", value.toJson), ("start", .nat start),
      ("end", .nat stop)]
  | .nested name inner start stop =>
    .ofMembers [("name", .str name), ("node", inner.toJson), ("start", .nat start),
      ("end", .nat stop)]

/-- A structure as JSON. -/
def DecodedStructure.toJson : DecodedStructure → Json
  | ⟨name, fields, start, stop⟩ =>
    .ofMembers [("name", .str name), ("fields", .array (fieldsToJson fields)),
      ("start", .nat start), ("end", .nat stop)]

/-- Fields as JSON. -/
def fieldsToJson : List DecodedField → List Json
  | [] => []
  | f :: fs => f.toJson :: fieldsToJson fs

end

/-- A decoded packet as JSON. -/
def ParseTree.toJson (t : ParseTree) : Json :=
  .ofMembers [("structures", .array (t.structures.map (·.toJson)))]

end WireGrammar
