import ApiClient.Document.Placeholder
import ApiClient.Json.Access
import ApiClient.Json.Reader
import ApiClient.Text.Blank
import ApiClient.Text.Utf8

/-!
# Loading a document

From the bytes of a file to the object that describes an interface: decode, unify the line ends,
take out placeholders, read the JSON, and settle the base path.
-/

namespace ApiClient.Document

/-- Why bytes are no document. -/
inductive LoadFault where
  | notUtf8 (fault : Text.Utf8Fault)
  | notJson (fault : Json.ReadFault)
  /-- A whole number in the text has more digits than are read. -/
  | numberTooLong (fault : Json.ReadFault)
  | notAnObject

/-- The fault of a text that cannot be read. -/
def LoadFault.ofReading (fault : Json.ReadFault) : LoadFault :=
  if fault.complaint = .tooManyDigits then .numberTooLong fault else .notJson fault

/-- How the fault is reported. -/
def LoadFault.message : LoadFault → String
  | notUtf8 fault => fault.message
  | notJson fault => fault.message
  | numberTooLong fault => fault.message
  | notAnObject => "top-level JSON value is not an object"

/-- The base path that a value gives: a text without slashes at its end, or nothing. -/
def basePath : Json → String
  | .string path => String.ofList ((path.toList.reverse.dropWhile (· == '/')).reverse)
  | _ => ""

/-- The document that a text denotes. -/
def ofText (text : List Char) : Except LoadFault Json := do
  match ← (Json.read (withoutPlaceholders text)).mapError .ofReading with
  | .object members =>
    let base := basePath ((Json.lookup? "basePath" members).getD .null)
    return .object (Json.put "basePath" (.string base) members)
  | _ => throw .notAnObject

/-- The document that the bytes of a file hold. -/
def ofBytes (bytes : List UInt8) : Except LoadFault Json := do
  let text ← (Text.decodeUtf8 bytes).mapError .notUtf8
  ofText (Text.unifyNewlines text)

/-! ## Sections -/

/-- A section of a document; an empty object if it is blank or missing. -/
def sectionOf (document : Json) (key : String) : Except Misuse Json :=
  return ((← document.member? key).getD .null).orElse (.object [])

/-- The paths of a document. -/
def paths (document : Json) : Except Misuse Json := sectionOf document "paths"

/-- The definitions of a document. -/
def definitions (document : Json) : Except Misuse Json := sectionOf document "definitions"

end ApiClient.Document
