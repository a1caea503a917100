import WireGrammar.Files.Tree
import WireGrammar.Grammar.Document
import WireGrammar.Packet.Dissection
import WireGrammar.Packet.Version

/-!
# Catalogs of grammars

A directory holds one grammar a version, in files whose names end in `yaml` or `yml`; the name
without that ending is the identifier.  Newer versions are tried first.  What the files say is read
by a reader of documents.
-/

namespace WireGrammar

/-! ### Names of files -/

/-- A file name split at its last full stop, which does not count at the front of the name. -/
def splitExtension (name : String) : String × Option String :=
  let cs := name.toList
  let tail := cs.reverse.takeWhile (· != '.')
  let stem := (cs.reverse.drop (tail.length + 1)).reverse
  if stem.isEmpty then (name, none)
  else (String.ofList stem, some (String.ofList tail.reverse))

/-- The identifier of the grammar in a file, if the name of the file is one of a grammar. -/
def grammarId? (name : String) : Option String :=
  match splitExtension name with
  | (stem, some "yaml") => some stem
  | (stem, some "yml") => some stem
  | _ => none

/-- The path of an item of a directory. -/
def joinPath (directory name : String) : String :=
  if directory.isEmpty then name
  else if directory.toList.getLast? == some '/' then directory ++ name
  else directory ++ "/" ++ name

/-! ### Loading -/

/-- The grammar in a text that was read from a file, if the reader finds a document in it. -/
def Grammar.loadWith (read : Yaml.Reader) (text : Except FileError String) :
    Except GrammarError Grammar :=
  match text with
  | .error cause => .error (.io cause)
  | .ok text => Grammar.parseWith read text

/-- The grammar in a text that was read from a file. -/
def Grammar.load (text : Except FileError String) : Except GrammarError Grammar :=
  Grammar.loadWith Yaml.Node.read text

namespace GrammarSet

/-- The identifier and the grammar of an item of the directory `directory`, if it is a regular
file with the name of a grammar. -/
def loadEntry (read : Yaml.Reader) (directory : String) (entry : DirectoryEntry) :
    Except GrammarError (Option (String × Grammar)) :=
  match entry.text?, entry.name? with
  | some text, some name =>
    match grammarId? name with
    | some id =>
      match Grammar.loadWith read text with
      | .ok g => .ok (some (id, g))
      | .error e => .error (e.inFile (joinPath directory name))
    | none => .ok none
  | _, _ => .ok none

/-- The first identifier is not older than the second. -/
def newestFirst (a b : String × Grammar) : Bool := Version.order b.1 a.1 != .gt

/-- The grammars of a directory, the newest version first, if the reader finds documents in its
files. -/
def loadDirectoryWith (read : Yaml.Reader) (directory : String)
    (listing : Except FileError (List DirectoryEntry)) : Except GrammarError GrammarSet :=
  match listing with
  | .error cause => .error (.io cause)
  | .ok entries =>
    match entries.mapM (loadEntry read directory) with
    | .error e => .error e
    | .ok loaded => .ok ⟨(loaded.filterMap id).mergeSort newestFirst⟩

/-- The grammars of a directory, the newest version first. -/
def loadDirectory (directory : String) (listing : Except FileError (List DirectoryEntry)) :
    Except GrammarError GrammarSet :=
  loadDirectoryWith Yaml.Node.read directory listing

end GrammarSet

end WireGrammar
