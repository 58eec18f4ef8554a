import ApiClient.FileSystem.Basic

/-!
# What has changed

The difference between two states of a file system, below the working folder.
-/

namespace ApiClient.FileSystem

/-- The names of a place below the working folder, if it lies there. -/
def relative? (files : FileSystem) (place : Place) : Option (List String) :=
  if files.workingFolder.isPrefixOf place && place != files.workingFolder then
    some (place.drop files.workingFolder.length)
  else none

/-- A place as text, with a slash after a folder. -/
def placeText (names : List String) (node : FileNode) : String :=
  "/".intercalate names ++ (if node == .folder then "/" else "")

/-- What a run has changed below the working folder. -/
structure Changes where
  /-- Files that are new or have other bytes than before. -/
  written : List (String × List UInt8)
  /-- Folders that are new. -/
  folders : List String
  /-- What is gone: files, and folders with a slash after them. -/
  removed : List String

/-- Texts in order of their code points. -/
def sorted (texts : List String) : List String :=
  texts.mergeSort fun left right => decide (left ≤ right)

/-- What differs between two states. -/
def changes (before after : FileSystem) : Changes where
  written := after.nodes.filterMap fun (place, node) =>
    match node, after.relative? place with
    | .file bytes, some names =>
      if before.node? place == some (.file bytes) then none
      else some ("/".intercalate names, bytes)
    | _, _ => none
  folders := sorted (after.nodes.filterMap fun (place, node) =>
    match after.relative? place with
    | some names =>
      if node == .folder && before.node? place != some .folder then some (placeText names node)
      else none
    | none => none)
  removed := sorted (before.nodes.filterMap fun (place, node) =>
    match before.relative? place with
    | some names =>
      -- a file in the place of a folder leaves the folder gone, and the other way round
      let stays : Bool :=
        match after.node? place with
        | some other => (node == .folder) == (other == .folder)
        | none => false
      if stays then none else some (placeText names node)
    | none => none)

end ApiClient.FileSystem
