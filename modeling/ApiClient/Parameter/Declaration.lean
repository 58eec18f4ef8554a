import ApiClient.Document.Reference
import ApiClient.Fault
import ApiClient.Parameter.Basic

/-!
# Declarations of parameters

A declaration is an object of the document, given in place or by a reference. It must have a name
and a known location; everything else about it is optional.
-/

namespace ApiClient.Parameter

/-- The members of a declaration that do not describe its type. -/
def envelope : List String := ["name", "in", "required", "description", "schema"]

/-- The location that a value names, if it is a declarable one. -/
def location? : Json → Option Location
  | .string name => Location.declarable.find? (·.name == name)
  | _ => none

/-- A value that was given: not null. -/
def given : Option Json → Option Json
  | some .null => none
  | value => value

/-- The parameter that a declaration gives in place. -/
def ofDeclaration (declaration : Json) : Except Fault Parameter := do
  let name ← declaration.member? "name"
  let location := (← declaration.member? "in").getD .null
  let required ← declaration.member? "required"
  let description ← declaration.member? "description"
  let schema ← declaration.member? "schema"
  let members ← declaration.members
  match name with
  | some (.string name) =>
    if name.isEmpty then throw (.malformed (.unnamed declaration))
    match location? location with
    | some known =>
      return { name
               location := known
               required := !(required.getD .null).isBlank
               description := (description.getD .null).orElse (.string "")
               keywords := .object (members.filter fun (key, _) => !envelope.contains key)
               schema := given schema }
    | none => throw (.malformed (.unknownLocation name location))
  | _ => throw (.malformed (.unnamed declaration))

/-- The declaration that a reference in place of one leads to. -/
def dereference (document declaration : Json) : Except Fault Json := do
  match ← declaration.member "$ref" with
  | .string reference =>
    match Document.find document reference with
    | .ok target => return target
    | .error _ => throw (.malformed (.unresolvable reference))
  | _ => throw (.misuse .notAReference)

/-- The parameter that a declaration gives, in place or by reference. -/
def ofDeclaration? (document declaration : Json) : Except Fault Parameter := do
  if ← declaration.mentions "$ref" then
    ofDeclaration (← dereference document declaration)
  else ofDeclaration declaration

/-- The parameters that an operation declares, or nothing if it has no list of them at all. -/
def ofDeclarations (document declarations : Json) : Except Fault (Option (List Parameter)) := do
  match declarations with
  | .null => return none
  | declarations =>
    let listed ← declarations.parts
    return some (← listed.mapM (ofDeclaration? document))

end ApiClient.Parameter
