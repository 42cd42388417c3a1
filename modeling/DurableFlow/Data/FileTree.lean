/-
A directory tree held in memory.

A path is a list of names. A file is replaced by writing a neighbour and renaming
it, so a reader sees the old text or the new one and never half of either. Every
such write is numbered, and the tree knows which of them the device refuses: a
refused write changes nothing. A device that refuses all writes from some number
on holds what a process that stopped at that moment would leave behind.

A file has a number of its own. Who opened it for appending goes on writing to the
file of that number, also when another one stands at its path by now.
-/
import DurableFlow.Data.Table

set_option autoImplicit false

namespace DurableFlow

/-- The names that lead from the root of a tree to a file or a directory. -/
abbrev Path := List String

namespace Path

/-- The path that a text with slashes stands for. -/
def ofText (text : String) : Path := (text.splitOn "/").filter fun name => !name.isEmpty

def text (path : Path) : String := String.intercalate "/" path

/-- The directories above a path, from the outermost on. -/
def ancestors : Path → List Path
  | [] => []
  | [_] => []
  | name :: rest => [name] :: (ancestors rest).map (name :: ·)

/-- The neighbour of a file into which its next text is written. -/
def neighbour : Path → Path
  | [] => [".tmp"]
  | [name] => [name ++ ".tmp"]
  | name :: rest => name :: neighbour rest

end Path

/-- What a path can be. -/
inductive FileEntry where
  | file (number : Nat) (text : String)
  | directory

/-- A directory tree and the device it lives on. -/
structure FileTree where
  entries : Table Path FileEntry := []
  /-- The number of the next file that is made. -/
  nextFile : Nat := 0
  /-- How many writes were attempted. -/
  writes : Nat := 0
  /-- Whether the device refuses the write of this number. -/
  refuses : Nat → Bool := fun _ => false

instance : Inhabited FileTree := ⟨{}⟩

/-- Why a file operation failed. -/
inductive FileError where
  | notFound
  | other (detail : String)

namespace FileTree

def isFile (tree : FileTree) (path : Path) : Bool :=
  match Table.find? path tree.entries with
  | some (.file ..) => true
  | _ => false

def isDirectory (tree : FileTree) (path : Path) : Bool :=
  match Table.find? path tree.entries with
  | some .directory => true
  | _ => path.isEmpty

/-- Whether a path names a file or a directory. -/
def isPresent (tree : FileTree) (path : Path) : Bool :=
  Table.contains path tree.entries || path.isEmpty

/-- Whether something above a path is a file. -/
def isBlocked (tree : FileTree) (path : Path) : Bool :=
  path.ancestors.any tree.isFile

/-- The text of a file. -/
def read (tree : FileTree) (path : Path) : Except FileError String :=
  match Table.find? path tree.entries with
  | some (.file _ text) => .ok text
  | some .directory => .error (.other "is a directory")
  | none => .error (if tree.isBlocked path then .other "not a directory" else .notFound)

/-- Makes directories, leaving those that exist. -/
def addDirectories (tree : FileTree) (paths : List Path) : FileTree :=
  { tree with
    entries := paths.foldl (fun entries path =>
      if Table.contains path entries then entries else Table.insert path .directory entries)
      tree.entries }

/-- Makes a directory and all above it. -/
def makeDirectory (tree : FileTree) (path : Path) : Except FileError FileTree :=
  if tree.isFile path || tree.isBlocked path then .error (.other "not a directory")
  else .ok (tree.addDirectories (path.ancestors ++ [path]))

/-- Puts a text at a path, into the file that is there or into a new one, making the directories
above it. -/
def put (tree : FileTree) (path : Path) (text : String) : Except FileError FileTree :=
  if tree.isBlocked path then .error (.other "not a directory")
  else
    match Table.find? path tree.entries with
    | some (.file number _) =>
      .ok { tree with entries := Table.insert path (.file number text) tree.entries }
    | some .directory => .error (.other "is a directory")
    | none =>
      if path.isEmpty then .error (.other "is a directory")
      else
        let tree := tree.addDirectories path.ancestors
        .ok { tree with
          entries := Table.insert path (.file tree.nextFile text) tree.entries
          nextFile := tree.nextFile + 1 }

/-- Moves a file to a path where no directory is. -/
def rename (tree : FileTree) (source target : Path) : Except FileError FileTree :=
  match Table.find? source tree.entries with
  | none => .error .notFound
  | some entry =>
    if tree.isDirectory target then .error (.other "is a directory")
    else .ok { tree with entries := Table.insert target entry (Table.erase source tree.entries) }

/-- Replaces a file as a whole. On a device that does not refuse, only what stands in the way
makes it fail; a directory at the path leaves the neighbour behind. -/
def replace (tree : FileTree) (path : Path) (text : String) :
    Except FileError Unit × FileTree :=
  let counted := { tree with writes := tree.writes + 1 }
  -- a write that is refused counts as well
  if tree.refuses tree.writes then (.error (.other "write refused"), counted)
  else
    match counted.put path.neighbour text with
    | .error e => (.error e, counted)
    | .ok written =>
      match written.rename path.neighbour path with
      | .error e => (.error e, written)
      | .ok renamed => (.ok (), renamed)

/-! ## Paths as texts -/

/-- Follows names from a directory. Each name is looked up in a directory that is there, so
nothing lies behind a file. -/
def walk (tree : FileTree) : Path → List String → Option Path
  | place, [] => some place
  | place, name :: rest =>
    if !tree.isDirectory place then none
    else if name = "." then tree.walk place rest
    else if name = ".." then tree.walk place.dropLast rest
    else tree.walk (place ++ [name]) rest

/-- Where a text leads from a directory. A slash at its end asks for a directory. -/
def locate? (tree : FileTree) (directory : Path) (text : String) : Option Path :=
  tree.walk (if text.startsWith "/" then [] else directory)
    (Path.ofText text ++ if text.endsWith "/" then ["."] else [])

/-- Makes the directories on the way to a file: the tree with them, and where the file is. -/
def makeWay (tree : FileTree) : Path → List String → Except FileError (FileTree × Path)
  | place, [] => .ok (tree, place)
  | place, [name] => .ok (tree, place ++ [name])
  | place, name :: rest => do
    let place := if name = "." then place else if name = ".." then place.dropLast
      else place ++ [name]
    (← tree.makeDirectory place).makeWay place rest

/-- Puts a contents where a text leads. What can only be a directory takes none. -/
def putAt (tree : FileTree) (text contents : String) : Except FileError FileTree := do
  let names := Path.ofText text
  if text.endsWith "/" || [".", ".."].contains (names.getLast?.getD ".") then
    throw (.other "is a directory")
  let (tree, place) ← tree.makeWay [] names
  tree.put place contents

/-! ## Open files -/

/-- The number of the file at a path. -/
def number? (tree : FileTree) (path : Path) : Option Nat :=
  match Table.find? path tree.entries with
  | some (.file number _) => some number
  | _ => none

/-- Opens a file for appending, making it if nothing is there. -/
def openFile (tree : FileTree) (path : Path) : Except FileError (Nat × FileTree) :=
  match tree.number? path with
  | some number => .ok (number, tree)
  -- a file that is made gets the next number
  | none => (tree.put path "").map fun made => (tree.nextFile, made)

/-- Appends to an open file, which is at the path or nowhere any more. -/
def append (tree : FileTree) (number : Nat) (path : Path) (text : String) : FileTree :=
  match Table.find? path tree.entries with
  | some (.file n old) =>
    if n = number then
      { tree with entries := Table.insert path (.file n (old ++ text)) tree.entries }
    else tree
  | _ => tree

/-- Removes a file, or a directory with all in it. -/
def remove (tree : FileTree) (path : Path) : FileTree :=
  { tree with
    entries := tree.entries.filter fun entry => !path.isPrefixOf entry.1 }

/-- The paths of all files, in order. -/
def files (tree : FileTree) : List Path :=
  tree.entries.filterMap fun entry =>
    match entry.2 with
    | .file .. => some entry.1
    | .directory => none

/-- The names of what is directly inside a directory. -/
def list (tree : FileTree) (path : Path) : Except FileError (List String) :=
  if tree.isDirectory path then
    .ok <| tree.entries.filterMap fun entry =>
      if entry.1.dropLast == path then entry.1.getLast? else none
  else .error .notFound

end FileTree

end DurableFlow
