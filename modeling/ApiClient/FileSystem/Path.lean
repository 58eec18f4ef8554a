/-!
# Paths

A path is a root, which is empty for one that starts in the working folder, and the names to go
through from there. Empty names and single dots say nothing and are dropped when a path is read;
double dots stay, since what they mean depends on the folders.
-/

namespace ApiClient

/-- A path to a file or a folder. -/
structure FilePath where
  root : String
  names : List String
  deriving DecidableEq

namespace FilePath

/-- The root that a text begins with: two slashes are a root of their
own, three or more are one. -/
def rootOf (text : List Char) : String :=
  match (text.takeWhile (· == '/')).length with
  | 0 => ""
  | 2 => "//"
  | _ => "/"

/-- The path that a text denotes. -/
def ofString (text : String) : FilePath where
  root := rootOf text.toList
  names := ((text.toList.splitOn '/').map String.ofList).filter fun name =>
    !name.isEmpty && name != "."

/-- A path as text. -/
def text (path : FilePath) : String :=
  if path.root.isEmpty && path.names.isEmpty then "."
  else path.root ++ "/".intercalate path.names

/-- The path that goes on through further names. -/
def below (path : FilePath) (names : List String) : FilePath :=
  { path with names := path.names ++ names }

/-- The text of a path with one more name at its end. A slash is put between them unless the text
ends in one or is empty. -/
def extend (text name : String) : String :=
  if text.toList.getLast?.all (· == '/') then text ++ name else text ++ "/" ++ name

/-- The path without its last name. -/
def parent (path : FilePath) : FilePath :=
  { path with names := path.names.dropLast }

/-- The most bytes that one name can have. -/
def nameLimit : Nat := 255

/-- The number of bytes at which a path is too long. -/
def lengthLimit : Nat := 4096

/-- Whether a path leads nowhere when it is used as this text. -/
def isTooLong (text : String) : Bool := lengthLimit ≤ text.utf8ByteSize

/-- Whether a path holds the character that no path can hold. -/
def hasNul (path : FilePath) : Bool :=
  path.names.any fun name => name.toList.contains '\x00'

end FilePath

end ApiClient
