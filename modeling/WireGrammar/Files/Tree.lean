import WireGrammar.Files.Error

/-!
# Files in memory

Files and directories held in memory, found by paths from the top directory.  A path is a row of
names between slashes; `.` and empty names stay where they are, `..` goes back.  The empty path, and
one with a slash in front, lead nowhere.
-/

namespace WireGrammar

/-- The bytes of a file as text. -/
def textOfBytes (bytes : List UInt8) : Except FileError String :=
  match String.fromUTF8? ⟨bytes.toArray⟩ with
  | some text => .ok text
  | none => .error .notText

/-- An item of a directory listing: its name if that is text, and its own text if it is a regular
file. -/
structure DirectoryEntry where
  name? : Option String
  text? : Option (Except FileError String)

/-- A file, or a directory with the items it holds. -/
inductive FileTree where
  | file (bytes : List UInt8)
  | directory (items : List (String × FileTree))

namespace FileTree

/-- The directory that holds nothing. -/
def emptyDirectory : FileTree := .directory []

/-- The item of a directory with the given name. -/
def child? (items : List (String × FileTree)) (name : String) : Option FileTree :=
  (items.find? (·.1 == name)).map Prod.snd

/-- The items of a directory after the one with the given name was replaced, or added at the end. -/
def setChild (name : String) (node : FileTree) :
    List (String × FileTree) → List (String × FileTree)
  | [] => [(name, node)]
  | item :: items =>
    if item.1 = name then (name, node) :: items else item :: setChild name node items

/-- The tree after `node` was put at a path of names; directories on the way are made. -/
def put (node : FileTree) : List String → FileTree → FileTree
  | [], _ => node
  | name :: names, tree =>
    let items := match tree with
      | .directory items => items
      | .file _ => []
    .directory (setChild name (put node names ((child? items name).getD emptyDirectory)) items)

/-- The directory at a path; one that is there already stays as it is. -/
def putDirectory (names : List String) (tree : FileTree) : FileTree :=
  match names with
  | [] => tree
  | name :: names =>
    let items := match tree with
      | .directory items => items
      | .file _ => []
    .directory (setChild name (putDirectory names ((child? items name).getD emptyDirectory)) items)

/-- The names of a path. -/
def names (path : String) : List String := path.splitOn "/"

/-- The place reached from `tree`, whose parents are `parents`, along names. -/
def walk (parents : List FileTree) (tree : FileTree) : List String → Except FileError FileTree
  | [] => .ok tree
  | name :: rest =>
    match tree with
    | .file _ => .error .notDirectory
    | .directory items =>
      if name = "" ∨ name = "." then walk parents tree rest
      else if name = ".." then
        match parents with
        | parent :: parents => walk parents parent rest
        | [] => walk [] tree rest
      else
        match child? items name with
        | some node => walk (tree :: parents) node rest
        | none => .error .notFound

/-- What stands at a path. -/
def at? (tree : FileTree) (path : String) : Except FileError FileTree :=
  match path.toList.head? with
  | none => .error .notFound
  | some '/' => .error .notFound
  | some _ => walk [] tree (names path)

/-- The text of the file at a path. -/
def readText (tree : FileTree) (path : String) : Except FileError String := do
  match ← tree.at? path with
  | .file bytes => textOfBytes bytes
  | .directory _ => throw .isDirectory

/-- An item of a directory as a listing shows it. -/
def listed : String × FileTree → DirectoryEntry
  | (name, .file bytes) => ⟨some name, some (textOfBytes bytes)⟩
  | (name, .directory _) => ⟨some name, none⟩

/-- The listing of the directory at a path. -/
def list (tree : FileTree) (path : String) : Except FileError (List DirectoryEntry) := do
  match ← tree.at? path with
  | .directory items => return items.map listed
  | .file _ => throw .notDirectory

end FileTree

end WireGrammar
