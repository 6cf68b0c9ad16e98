import JsxPresence.Path

namespace JsxPresence

inductive Node where
  | file (content : Bytes)
  | directory
deriving DecidableEq

/-- A place below the root, by the names that lead to it. -/
abbrev Place := List Bytes

/-- Regular files and directories below a root, and a working directory. There are no links, so
leaving a directory by `..` undoes entering it. -/
structure FileSystem where
  /-- The working directory, as an absolute path. -/
  cwd : Bytes
  /-- Every file and directory but the root. -/
  nodes : List (Place × Node)
deriving DecidableEq

namespace FileSystem

def nodeAt (fs : FileSystem) (place : Place) : Option Node :=
  if place.isEmpty then some .directory else fs.nodes.lookup place

/-- Follows names from a place. Only directories can be entered or left. -/
def follow (fs : FileSystem) (place : Place) : List Bytes → Option Place
  | [] => some place
  | name :: rest =>
    if fs.nodeAt place ≠ some .directory then none
    else if name.isEmpty || name = Path.dot then fs.follow place rest
    else if name = Path.dotDot then fs.follow place.dropLast rest
    else if (fs.nodeAt (place ++ [name])).isSome then fs.follow (place ++ [name]) rest
    else none

/-- The names that a path text asks for; a zero byte ends the text. -/
def namesOf (fs : FileSystem) (path : Bytes) : List Bytes :=
  Path.names (Path.join fs.cwd (path.takeWhile (· ≠ 0)))

def isEmptyText (path : Bytes) : Bool := path.headD 0 = 0

def find? (fs : FileSystem) (path : Bytes) : Option Node := do
  guard (!isEmptyText path)
  let place ← fs.follow [] (fs.namesOf path)
  fs.nodeAt place

def isFile (fs : FileSystem) (path : Bytes) : Bool :=
  match fs.find? path with
  | some (.file _) => true
  | _ => false

def isDirectory (fs : FileSystem) (path : Bytes) : Bool := fs.find? path = some .directory

/-- The content of a file; a directory reads as the empty text. -/
def read? (fs : FileSystem) (path : Bytes) : Option Bytes :=
  (fs.find? path).map fun
    | .file content => content
    | .directory => []

/-- Where a file of this path is or would be: its directory exists, and it is no directory
itself. -/
def place? (fs : FileSystem) (path : Bytes) : Option Place := do
  guard (!isEmptyText path)
  let names := fs.namesOf path
  let name ← names.getLast?
  guard (!(name.isEmpty || name = Path.dot || name = Path.dotDot))
  let directory ← fs.follow [] names.dropLast
  guard (fs.nodeAt directory = some .directory)
  guard (fs.nodeAt (directory ++ [name]) ≠ some .directory)
  return directory ++ [name]

/-- Puts a node at a place, in the stead of what was there. -/
def put (fs : FileSystem) (place : Place) (node : Node) : FileSystem :=
  { fs with nodes := (place, node) :: fs.nodes.filter (fun e => e.1 ≠ place) }

def contentAt (fs : FileSystem) (place : Place) : Bytes :=
  match fs.nodeAt place with
  | some (.file content) => content
  | _ => []

/-- Writes a file anew, if it can be opened. -/
def write? (fs : FileSystem) (path content : Bytes) : Option FileSystem :=
  (fs.place? path).map fun place => fs.put place (.file content)

/-- Writes at the end of a file, if it can be opened; a missing file is made. -/
def append? (fs : FileSystem) (path content : Bytes) : Option FileSystem :=
  (fs.place? path).map fun place => fs.put place (.file (fs.contentAt place ++ content))

/-- Makes the directories along the names after a place, as far as they are missing. -/
def makeDirectories (fs : FileSystem) (place : Place) : List Bytes → FileSystem
  | [] => fs
  | name :: rest =>
    let inner := place ++ [name]
    let fs := if (fs.nodeAt inner).isSome then fs else fs.put inner .directory
    fs.makeDirectories inner rest

/-- The names of the normal form of a path. -/
def normalNames (fs : FileSystem) (path : Bytes) : List Bytes :=
  (Path.names (Path.normalize fs.cwd path)).filter (!·.isEmpty)

/-- Puts a file with all the directories it needs. -/
def install (fs : FileSystem) (path content : Bytes) : FileSystem :=
  let names := fs.normalNames path
  (fs.makeDirectories [] names.dropLast).put names (.file content)

def installDirectory (fs : FileSystem) (path : Bytes) : FileSystem :=
  fs.makeDirectories [] (fs.normalNames path)

/-- Takes away a file, or a directory with all that is in it. -/
def remove (fs : FileSystem) (path : Bytes) : FileSystem :=
  let names := fs.normalNames path
  { fs with nodes := fs.nodes.filter (fun e => !names.isPrefixOf e.1) }

/-- Only the working directory. -/
def bare (cwd : Bytes) : FileSystem := installDirectory ⟨cwd, []⟩ cwd

end FileSystem

end JsxPresence
