import ApiClient.Client.Files
import ApiClient.FileSystem.Fault

/-!
# Plans

What a run does to files is planned before anything is done: the folders are renewed, and then the
files are written. A source that is no document makes a plan without steps.
-/

namespace ApiClient

/-- A step that a run takes on files. -/
inductive Action where
  /-- Takes a folder away with all that is in it. Its path is used as the text that it is. -/
  | clear (text : String)
  /-- Makes a folder, with the folders on the way. -/
  | makeFolder (path : FilePath)
  | write (path : FilePath) (text : String)

/-- What a run breaks off with. -/
inductive Failure where
  | misuse (misuse : Misuse)
  | file (fault : FileFault)
  /-- A whole number in the source has more digits than are read. -/
  | numberTooLong

/-- How a run that breaks off is explained to the user. -/
def Failure.message : Failure → String
  | .misuse _ => "the document holds a value of the wrong kind"
  | .file _ => "a file cannot be used under the name given"
  | .numberTooLong => "the document holds a whole number that is too long"

/-- What a run will do: steps on files and, once all are taken, lines for the user. -/
structure Plan where
  actions : List Action
  outcome : Except Failure (List Line)

namespace Plan

/-- The steps that renew the folders of a client. -/
def renewals (destination : String) : List Action :=
  let folders := Layout.folders.map fun folder => FilePath.extend destination folder
  folders.map .clear ++ folders.map fun folder => .makeFolder (FilePath.ofString folder)

/-- The steps that write the files of a client. -/
def writes (destination : FilePath) (files : List ClientFile) : List Action :=
  files.map fun file => .write (destination.below file.path) file.text

/-- The lines at the end of a run: what was made, or which parameter is malformed. -/
def report (options : Options) : Except Fault Client.Summary → Except Failure (List Line)
  | .ok summary =>
    .ok [⟨"Generated " ++ toString summary.definitions ++ " definitions and " ++
      toString summary.controllers ++ " controllers in " ++ options.destination, some .green⟩]
  | .error (.malformed malformation) =>
    .ok (problem ("Error while generating from " ++ options.source) malformation.message)
  | .error (.misuse misuse) => .error (.misuse misuse)

/-- The plan for a document. -/
def ofDocument (options : Options) (document : Json) : Plan :=
  let writing := Client.write options document
  ⟨renewals options.destination ++
      writes (FilePath.ofString options.destination) writing.files,
    report options writing.outcome⟩

/-- The plan when the source cannot be read. -/
def unreadable (options : Options) (reason : String) : Plan :=
  let headline :=
    "JSON scheme file '" ++ options.source ++ "' does not exist or cannot be read"
  ⟨[], .ok (problem headline reason)⟩

/-- The plan when the source can be read but is no document. -/
def unusable (options : Options) (reason : String) : Plan :=
  let headline := options.source ++
    " is either not a valid JSON scheme or contains non-printable characters"
  ⟨[], .ok (problem headline reason)⟩

/-- The plan when a run breaks off before it takes a step. -/
def abandoned (failure : Failure) : Plan := ⟨[], .error failure⟩

/-- The plan for what a source holds. A source that no path can name, or with a number that is too
long, is not reported: the run breaks off. -/
def ofSource (options : Options) (bytes : Except FileFault (List UInt8)) : Plan :=
  match bytes with
  | .error .nul => abandoned (.file .nul)
  | .error fault => unreadable options (fault.message (FilePath.ofString options.source))
  | .ok bytes =>
    match Document.ofBytes bytes with
    | .ok document => ofDocument options document
    | .error (.notUtf8 fault) => unreadable options fault.message
    | .error (.numberTooLong _) => abandoned .numberTooLong
    | .error fault => unusable options fault.message

end Plan

end ApiClient
