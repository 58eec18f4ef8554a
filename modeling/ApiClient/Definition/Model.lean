import ApiClient.Client.Layout
import ApiClient.Definition.Basic
import ApiClient.Fault
import ApiClient.TypeScript.Import

/-!
# The model

One file for each definition, and one that exports them all. Of the definitions whose keys give the
same type name only the first counts, and a key that gives none is passed over.
-/

namespace ApiClient.Definition

/-- The text of the file of a declaration. -/
def fileText (declaration : String) : String :=
  (if TypeScript.usesModel declaration then TypeScript.importModel ("../" ++ Layout.model) ++ "\n"
    else "") ++ declaration ++ "\n"

/-- The definitions that count, under their type names; `seen` holds the names already used. -/
def named (seen : List String) : List (String × Json) → List (String × Json)
  | [] => []
  | (key, schema) :: rest =>
    let name := TypeScript.typeName key
    if name.isEmpty || seen.contains name then named seen rest
    else (name, schema) :: named (name :: seen) rest

/-- Writes the file of one definition. -/
def write (header : String) (definition : String × Json) : Writing Fault Unit := do
  let (name, schema) := definition
  let text ← (declaration name (schema.orElse (.object [])) : Except Misuse String)
  Writing.write (Layout.definitionFile header name (fileText text))

/-- The line that exports the file of a type. -/
def exportLine (name : String) : String :=
  "export * from './" ++ Layout.definitions ++ "/" ++ name ++ "';\n"

/-- The text of the file that exports the types with the given names. -/
def modelText (names : List String) : String :=
  String.join ((names.mergeSort fun left right => decide (left ≤ right)).map exportLine)

/-- Writes the files of all definitions, and answers their type names. -/
def writeModel (header : String) (definitions : Json) : Writing Fault (List String) := do
  let members ← ((definitions.orElse (.object [])).members : Except Misuse _)
  let definitions := named [] members
  Writing.forEach (write header) definitions
  let names := Json.names definitions
  Writing.write (Layout.modelFile header (modelText names))
  return names

end ApiClient.Definition
