import ApiClient.Json.Access
import ApiClient.TypeScript.Comment

/-!
# Headers

What every generated file begins with: a mark for the linter and, unless it is to be left out, a
comment with the title, the version and the address of the interface.
-/

namespace ApiClient.Document

/-- The mark for the linter. -/
def linterMark : String := "/* tslint:disable */\n"

/-- A member as prose; nothing if it is missing. -/
def shownMember (value : Json) (key : String) : Except Misuse String :=
  return ((← value.member? key).getD (.string "")).shown

/-- The header of a document's files. -/
def header (document : Json) (omitVersion : Bool) : Except Misuse String := do
  if omitVersion then return linterMark
  let info := ((← document.member? "info").getD .null).orElse (.object [])
  let title ← shownMember info "title"
  let version ← shownMember info "version"
  let host ← shownMember document "host"
  let base ← shownMember document "basePath"
  return linterMark ++
    TypeScript.Comment.ofValues [.string title, .string version, .string (host ++ base)]

end ApiClient.Document
