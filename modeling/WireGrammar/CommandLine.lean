import WireGrammar.Packet.Catalog
import WireGrammar.Trace.Dissect

/-!
# The command line

The program decodes every packet of a recorded trace by the grammars of a directory, and prints the
report as JSON.  The arguments are understood first, then the grammars are loaded, then the trace is
read; the first failure ends the run.
-/

namespace WireGrammar.CommandLine

/-- A failure of the run: what was being done, and the causes behind it, the nearest first. -/
structure Failure where
  action : String
  causes : List String := []

/-- What a run prints, and its exit code. -/
structure Output where
  exit : UInt8
  stdout : String
  stderr : String

/-! ### Failures -/

/-- A text behind a label, its further lines indented by blanks of the given number. -/
def hanging (label : String) (indent : Nat) (text : String) : String :=
  label ++ ("\n" ++ String.ofList (List.replicate indent ' ')).intercalate (text.splitOn "\n")

/-- A number with blanks in front, up to five places. -/
def numberLabel (n : Nat) : String :=
  let digits := Text.decimal n
  String.ofList (List.replicate (5 - digits.length) ' ') ++ digits ++ ": "

/-- Causes from the number `n` on. -/
def numbered (n : Nat) : List String → List String
  | [] => []
  | cause :: causes => hanging (numberLabel n) 7 cause :: numbered (n + 1) causes

/-- The wording of a failure; a single cause has no number. -/
def Failure.message (f : Failure) : String :=
  let causes := match f.causes with
    | [] => []
    | [cause] => [hanging "    " 4 cause]
    | causes => numbered 0 causes
  let explained := if causes.isEmpty then [] else "\n\nCaused by:" :: causes
  "Error: " ++ f.action ++ "\n".intercalate explained ++ "\n"

/-- A failure to load grammars and its causes. -/
def grammarCauses (e : GrammarError) : List String :=
  match e with
  | .io cause => [e.message, cause.message]
  | .yaml cause => [e.message, cause.message]
  | _ => [e.message]

/-! ### Arguments -/

/-- What the arguments ask for. -/
structure Command where
  grammars : String
  trace : String
  options : TraceOptions

/-- The reminder of how the program is called. -/
def usage : String :=
  "usage: dissect_trace [--grammars DIR] [--limit N] [--all] [--prune-zero] TRACE.json"

/-- Takes the first use of an option together with its value out of the arguments. -/
def takeValue (name : String) : List String → Except Failure (Option String × List String)
  | [] => .ok (none, [])
  | arg :: args =>
    if arg = name then
      match args with
      | value :: rest => .ok (some value, rest)
      | [] => .error { action := name ++ " needs a value" }
    else (takeValue name args).map fun r => (r.1, arg :: r.2)

/-- Takes the first use of a flag out of the arguments. -/
def takeFlag (name : String) (args : List String) : Bool × List String :=
  (args.contains name, args.erase name)

/-- Why a text denotes no limit. -/
inductive LimitFault where
  | empty
  | notDigit
  /-- A number of `2 ^ 64` or more. -/
  | tooLarge
  deriving DecidableEq, Repr

/-- The wording of a fault. -/
def LimitFault.message : LimitFault → String
  | .empty => "cannot parse integer from empty string"
  | .notDigit => "invalid digit found in string"
  | .tooLarge => "number too large to fit in target type"

/-- The number below `2 ^ 64` that digits denote after digits that denote `high`.  Of several
faults the first one counts, so a number that has become too large need not end in digits. -/
def limitFrom (high : Nat) : List Char → Except LimitFault Nat
  | [] => .ok high
  | c :: cs =>
    match Text.digitIn? 10 c with
    | none => .error .notDigit
    | some d =>
      if 10 * high + d < Word.size 64 then limitFrom (10 * high + d) cs else .error .tooLarge

/-- The number that a text denotes as a limit: decimal digits behind an optional plus sign. -/
def parseLimit (text : String) : Except LimitFault Nat :=
  match text.toList with
  | [] => .error .empty
  | ['+'] => .error .notDigit
  | '+' :: cs => limitFrom 0 cs
  | cs => limitFrom 0 cs

/-- The limit that the value of the option `--limit` stands for. -/
def readLimit : Option String → Except Failure (Option Nat)
  | none => .ok none
  | some text =>
    match parseLimit text with
    | .ok n => .ok (some n)
    | .error fault => .error ⟨"invalid --limit " ++ Text.quoted text, [fault.message]⟩

/-- The options of a trace; asking for all packets overrides a limit. -/
def traceOptions (all : Bool) (limit : Option Nat) (pruneZero : Bool) : TraceOptions :=
  let default : TraceOptions := {}
  { packetLimit := if all then none else (limit <|> default.packetLimit)
    dissector := { pruneZero } }

/-- What the arguments ask for. -/
def parseArguments (args : List String) : Except Failure Command := do
  let (grammars, args) ← takeValue "--grammars" args
  let (limitText, args) ← takeValue "--limit" args
  let limit ← readLimit limitText
  let (all, args) := takeFlag "--all" args
  let (pruneZero, args) := takeFlag "--prune-zero" args
  match args with
  | [trace] => return ⟨grammars.getD "grammars", trace, traceOptions all limit pruneZero⟩
  | _ => throw { action := usage }

/-! ### Running -/

/-- The report of a run. -/
def report (t : Trace) (gs : GrammarSet) (packets : List DissectedPacket) : Json :=
  .ofMembers [("host", .str t.host), ("scenario", .str t.scenario),
    ("grammars", .array (gs.ids.map .str)), ("packets", .array (packets.map (·.toJson)))]

/-- The grammars in the listing of their directory. -/
def loadGrammars (directory : String) (listing : Except FileError (List DirectoryEntry)) :
    Except Failure GrammarSet :=
  match GrammarSet.loadDirectory directory listing with
  | .error e => .error ⟨"loading grammars from " ++ directory, grammarCauses e⟩
  | .ok gs =>
    if gs.isEmpty then .error { action := "no *.yaml grammar in " ++ directory } else .ok gs

/-- The trace in the text of its file. -/
def loadTrace (path : String) (text : Except FileError String) : Except Failure Trace :=
  match text with
  | .error cause => .error ⟨"reading " ++ path, ["IO: " ++ cause.message, cause.message]⟩
  | .ok text =>
    match Trace.parse text with
    | .error cause => .error ⟨"reading " ++ path, ["JSON: " ++ cause.message, cause.message]⟩
    | .ok t => .ok t

/-- The report that a command asks for, given what its directory and its file hold. -/
def Command.run (c : Command) (listing : Except FileError (List DirectoryEntry))
    (text : Except FileError String) : Except Failure Json := do
  let gs ← loadGrammars c.grammars listing
  let t ← loadTrace c.trace text
  return report t gs (t.dissect gs c.options)

/-- What a run prints. -/
def Output.ofResult : Except Failure Json → Output
  | .ok j => ⟨0, j.pretty 0 ++ "\n", ""⟩
  | .error f => ⟨1, "", f.message⟩

/-- The whole run, on files in memory. -/
def runOn (files : FileTree) (args : List String) : Output :=
  .ofResult do
    let c ← parseArguments args
    c.run (files.list c.grammars) (files.readText c.trace)

end WireGrammar.CommandLine
