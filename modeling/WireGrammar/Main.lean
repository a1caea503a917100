import WireGrammar.CommandLine

/-!
# The program

The program reads the directory and the file that its arguments name, and prints what the command
line makes of them.
-/

namespace WireGrammar.CommandLine

/-- The failure that an error of the system stands for. -/
def fileError : IO.Error → FileError
  | .noFileOrDirectory .. => .notFound
  | .inappropriateType .. => .notDirectory
  | e => .other (toString e)

/-- The text of a file. -/
def readText (path : String) : IO (Except FileError String) := do
  try
    let bytes ← IO.FS.readBinFile path
    return textOfBytes bytes.toList
  catch e => return .error (fileError e)

/-- What kind of file stands at a path, behind all links; nothing if that cannot be told. -/
def fileType? (entry : IO.FS.DirEntry) : IO (Option IO.FS.FileType) := do
  try
    let metadata ← entry.path.metadata
    return some metadata.type
  catch _ => return none

/-- An item of a directory, with its text if it is a regular file. -/
def readEntry (entry : IO.FS.DirEntry) : IO DirectoryEntry := do
  match ← fileType? entry with
  | some .file => return ⟨some entry.fileName, some (← readText entry.path.toString)⟩
  | _ => return ⟨some entry.fileName, none⟩

/-- The items of a directory. -/
def readDirectory (path : String) : IO (Except FileError (List DirectoryEntry)) := do
  try
    let here ← IO.currentDir
    let entries ← (here / path).readDir
    return .ok (← entries.toList.mapM readEntry)
  catch e => return .error (fileError e)

/-- The whole run, on the files of the system. -/
def run (args : List String) : IO Output := do
  match parseArguments args with
  | .error f => return .ofResult (.error f)
  | .ok c => return .ofResult (c.run (← readDirectory c.grammars) (← readText c.trace))

end WireGrammar.CommandLine

def main (args : List String) : IO UInt32 := do
  let output ← WireGrammar.CommandLine.run args
  IO.print output.stdout
  IO.eprint output.stderr
  return output.exit.toUInt32
