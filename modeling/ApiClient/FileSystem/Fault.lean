import ApiClient.FileSystem.Path
import ApiClient.Json.Shown

/-!
# Faults of file operations
-/

namespace ApiClient

/-- Why a file operation fails. -/
inductive FileFault where
  | notFound
  | exists
  | notAFolder
  | isAFolder
  | nameTooLong
  /-- The path holds a NUL character. -/
  | nul
  deriving DecidableEq

/-- How the fault is reported for a path. -/
def FileFault.message (fault : FileFault) (path : FilePath) : String :=
  let words :=
    match fault with
    | .notFound => "[Errno 2] No such file or directory"
    | .exists => "[Errno 17] File exists"
    | .notAFolder => "[Errno 20] Not a directory"
    | .isAFolder => "[Errno 21] Is a directory"
    | .nameTooLong => "[Errno 36] File name too long"
    | .nul => "embedded null byte"
  words ++ ": " ++ Json.quoteShown path.text

end ApiClient
