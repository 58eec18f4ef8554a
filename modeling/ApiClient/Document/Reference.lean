import ApiClient.Json.Access

/-!
# References into a document

A reference such as `#/parameters/limit` names the members to follow from the top of the document.
-/

namespace ApiClient.Document

/-- The names of the members that a reference follows. -/
def path (reference : String) : List String :=
  let body := reference.toList.dropWhile fun c => c == '#' || c == '/'
  (body.splitOn '/').map String.ofList

/-- Follows members from a value. -/
def follow (value : Json) : List String → Except Misuse Json
  | [] => .ok value
  | name :: rest => do follow (← value.member name) rest

/-- The value that a reference names. -/
def find (document : Json) (reference : String) : Except Misuse Json :=
  follow document (path reference)

end ApiClient.Document
