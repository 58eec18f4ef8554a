import ApiClient.FileSystem.Fault

/-!
# Files and folders

A store of files and folders, and the few operations on it that a run needs. A place is given by
the names from the top down; a path is turned into a place by walking it, and every folder on the
way must be there.
-/

namespace ApiClient

/-- A file with its bytes, or a folder. -/
inductive FileNode where
  | file (bytes : List UInt8)
  | folder
  deriving DecidableEq

/-- A place: the names from the top down. -/
abbrev Place := List String

/-- Files and folders by place. The top itself is a folder that is not listed. -/
structure FileSystem where
  nodes : List (Place × FileNode)
  /-- The place where paths without a root begin. -/
  workingFolder : Place

namespace FileSystem

/-- A file system in which the working folder is empty. -/
def empty : FileSystem := ⟨[(["work"], .folder)], ["work"]⟩

/-- What lies at a place. -/
def node? (files : FileSystem) (place : Place) : Option FileNode :=
  if place.isEmpty then some .folder else files.nodes.lookup place

/-- Lays something at a place, over what lay there. -/
def put (files : FileSystem) (place : Place) (node : FileNode) : FileSystem :=
  { files with nodes := (place, node) :: files.nodes.filter (·.1 != place) }

/-- Takes away everything at a place and below it. -/
def erase (files : FileSystem) (place : Place) : FileSystem :=
  { files with nodes := files.nodes.filter fun (other, _) => !place.isPrefixOf other }

/-- Walks names from a place; what lies at the end need not exist. -/
def walk (files : FileSystem) (place : Place) : List String → Except FileFault Place
  | [] => .ok place
  | name :: rest =>
    match files.node? place with
    | none => .error .notFound
    | some (.file _) => .error .notAFolder
    | some .folder =>
      if name = ".." then walk files place.dropLast rest
      else if FilePath.nameLimit < name.utf8ByteSize then .error .nameTooLong
      else walk files (place ++ [name]) rest

/-- The place of a path. -/
def locate (files : FileSystem) (path : FilePath) : Except FileFault Place :=
  if path.hasNul then .error .nul
  else if FilePath.isTooLong path.text then .error .nameTooLong
  else files.walk (if path.root.isEmpty then files.workingFolder else []) path.names

/-! ## Operations -/

/-- The bytes of a file. -/
def read (files : FileSystem) (path : FilePath) : Except FileFault (List UInt8) := do
  match files.node? (← files.locate path) with
  | some (.file bytes) => return bytes
  | some .folder => throw .isAFolder
  | none => throw .notFound

/-- Whether a path leads to a folder. -/
def isFolder (files : FileSystem) (path : FilePath) : Bool :=
  match files.locate path with
  | .ok place => files.node? place == some .folder
  | .error _ => false

/-- Makes one folder in a folder that is there. -/
def makeFolder (files : FileSystem) (path : FilePath) : Except FileFault FileSystem := do
  let place ← files.locate path
  if (files.node? place).isSome then throw .exists
  return files.put place .folder

/-- What trying to change files comes to: the files as they are then, and what went wrong. -/
abbrev Attempt := FileSystem × Option FileFault

/-- An attempt at making one folder, where a folder that is already there will do. -/
def makeFolderIfMissing (files : FileSystem) (path : FilePath) : Attempt :=
  match files.makeFolder path with
  | .ok made => (made, none)
  | .error fault =>
    if fault = .exists ∧ files.isFolder path then (files, none) else (files, some fault)

/-- Makes the folder of a root and `count` of the names, with the folders on the way. -/
def makeFoldersUpTo (files : FileSystem) (path : FilePath) (count : Nat) : Attempt :=
  let target : FilePath := { path with names := path.names.take count }
  match files.makeFolderIfMissing target, count with
  | (_, some .notFound), count + 1 =>
    match files.makeFoldersUpTo path count with
    | (files, none) => files.makeFolderIfMissing target
    | failed => failed
  | attempt, _ => attempt

/-- Makes a folder, with the folders on the way, unless it is there. -/
def makeFolders (files : FileSystem) (path : FilePath) : Attempt :=
  files.makeFoldersUpTo path path.names.length

/-- Writes a file into a folder that is there. -/
def writeFile (files : FileSystem) (path : FilePath) (bytes : List UInt8) :
    Except FileFault FileSystem := do
  let place ← files.locate path
  if files.node? place == some .folder then throw .isAFolder
  return files.put place (.file bytes)

/-- Writes a file, over one that is there, and makes the folders on the way. -/
def write (files : FileSystem) (path : FilePath) (bytes : List UInt8) : Attempt :=
  match files.makeFolders path.parent with
  | (files, none) =>
    match files.writeFile path bytes with
    | .ok written => (written, none)
    | .error fault => (files, some fault)
  | failed => failed

/-- Takes a folder away with all that is in it; anything else stays as it is. The path is used as
the text that it is: one that is too long leads nowhere, however short the path it denotes. -/
def clear (files : FileSystem) (text : String) : FileSystem :=
  if FilePath.isTooLong text then files
  else
    match files.locate (FilePath.ofString text) with
    | .ok place => if files.node? place == some .folder then files.erase place else files
    | .error _ => files

/-- Takes a file or a folder away. -/
def remove (files : FileSystem) (path : FilePath) : FileSystem :=
  match files.locate path with
  | .ok place => files.erase place
  | .error _ => files

end FileSystem

end ApiClient
