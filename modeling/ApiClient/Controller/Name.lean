import ApiClient.Json.Access
import ApiClient.Text.Casing
import ApiClient.Url

/-!
# Names of controllers

An operation belongs to the controller of its first tag; without a usable tag, to that of the first
path segment that yields a name and is not a placeholder.
-/

namespace ApiClient.Controller

/-- The name of the controllers that no tag and no segment names. -/
def defaultName : String := "Api"

/-- The name that a path gives. -/
def nameOfUrl (url : String) : String :=
  let candidates := ((Url.segments url).filter (·.head? != some '{')).map
    fun segment => Text.pascalCase (String.ofList segment)
  (candidates.find? (!·.isEmpty)).getD defaultName

/-- The controller of an operation with these tags at this path. -/
def nameOf (tags : Json) (url : String) : Except Misuse String := do
  if tags.isBlank then return nameOfUrl url
  match ← tags.first with
  | .string tag =>
    let name := Text.pascalCase tag
    return if name.isEmpty then nameOfUrl url else name
  | _ => throw .notAName

end ApiClient.Controller
