import ApiClient.Schema.Resolve
import ApiClient.Text.Indentation
import ApiClient.TypeScript.Comment

/-!
# Definitions

A named schema and its declaration: an enumeration, an alias, or an interface. The references of an
`allOf` become parents of the interface, and its other parts add their members.
-/

namespace ApiClient.Definition

open TypeScript (TypeExpr Member)

/-- A member of an interface, with the comment that describes it. -/
structure Entry where
  comment : String
  member : Member TypeExpr

/-- The member as it stands in the interface. -/
def Entry.text (entry : Entry) : String :=
  entry.comment ++ TypeExpr.memberText entry.member ++ ";"

/-- The comment for what a schema says about itself. -/
def describe (schema : Json) : String :=
  match schema with
  | .object members =>
      TypeScript.Comment.ofValues [(Json.lookup? "description" members).getD .null]
  | _ => ""

/-- The members that the `properties` of a schema become. -/
def entriesOf (schema : Json) : Except Misuse (List Entry) := do
  let required ← Schema.requiredNames (← schema.member? "required")
  let properties := ((← schema.member? "properties").getD .null).orElse (.object [])
  (← properties.members).mapM fun (name, property) => do
    let type ← Schema.resolve property
    return ⟨describe property, ⟨name, !required.contains name, type⟩⟩

/-- The parents and members of an interface. -/
structure Body where
  parents : List TypeExpr
  entries : List Entry

/-- What one part of an `allOf` adds: a parent, or members. -/
def Body.addPart (body : Body) (part : Json) : Except Misuse Body := do
  if ← part.mentions "$ref" then
    let parent ← Schema.reference (← part.member "$ref")
    return { body with parents := body.parents ++ [parent] }
  else return { body with entries := body.entries ++ (← entriesOf part) }

/-- The parents and members that a schema gives. -/
def body (schema : Json) : Except Misuse Body := do
  let own ← entriesOf schema
  let listed ← match ← schema.member? "allOf" with
    | none => pure []
    | some parts => parts.parts
  listed.foldlM Body.addPart ⟨[], own⟩

/-- The declaration of an interface. -/
def Body.declaration (name : String) (body : Body) : String :=
  let parents :=
    if body.parents.isEmpty then ""
    else " extends " ++ ", ".intercalate (TypeExpr.texts body.parents)
  let opening := "export interface " ++ name ++ parents ++ " \x7b"
  if body.entries.isEmpty then opening ++ "\x7d"
  else opening ++ "\n" ++ Text.indentAll (body.entries.map (·.text)) 1 ++ "\n\x7d"

/-- The declaration of a name for a type. -/
def typeAlias (name : String) (schema : Json) : Except Misuse String :=
  return "export type " ++ name ++ " = " ++ (← Schema.resolve schema).text ++ ";"

/-- Whether a schema is a map: it says what its values are and names no members. -/
def isMap (schema : Json) : Except Misuse Bool := do
  match ← schema.member? "additionalProperties" with
  | some (.object _) => return !(← schema.mentions "properties")
  | _ => return false

/-- Whether a schema is declared as an interface. -/
def isInterface (schema : Json) : Except Misuse Bool := do
  let type := (← schema.member? "type").getD (.string "object")
  return type.isText "object" || (← schema.mentions "properties") || (← schema.mentions "allOf")

/-- The declaration of a schema, without its comment. -/
def declarationOf (name : String) (schema : Json) : Except Misuse String := do
  if ← schema.mentions "enum" then
    TypeScript.Enumeration.declare name (← schema.member "enum")
  else if ← isMap schema then typeAlias name schema
  else if ← isInterface schema then return (← body schema).declaration name
  else typeAlias name schema

/-- The declaration of a schema under a name, with its comment. -/
def declaration (name : String) (schema : Json) : Except Misuse String := do
  let declared ← declarationOf name schema
  let description ← schema.member? "description"
  return TypeScript.Comment.ofValues [description.getD .null] ++ declared

end ApiClient.Definition
