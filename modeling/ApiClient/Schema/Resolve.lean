import ApiClient.Json.Access
import ApiClient.TypeScript.TypeExpr
import ApiClient.TypeScript.TypeName

/-!
# The type of a schema

A schema fragment denotes a type. The first of these that it has decides: a reference, a list of
schemas to combine, a list of values, a basic `type`, items, members. A fragment with none of them
denotes any value.

A schema may be any JSON value, so each reading can meet a value that it cannot use; the misuse
reported is that of the first such reading.
-/

namespace ApiClient.Schema

open Json (lookup? sizeOf_lt_of_lookup?)
open TypeScript (TypeExpr Member)

/-- The text after the last slash. -/
def afterLastSlash (text : String) : String :=
  String.ofList ((text.toList.splitOn '/').getLastD [])

/-- The model type that a reference points to. -/
def referenceName (reference : Json) : Except Misuse String :=
  match reference with
  | .string path => .ok (TypeScript.typeName (afterLastSlash path))
  | _ => .error .notAReference

/-- The type of a reference. -/
def reference (value : Json) : Except Misuse TypeExpr :=
  return .model (← referenceName value)

/-- The basic types by the names they have in a schema. -/
def basicType? : String → Option TypeExpr
  | "string" => some .string
  | "integer" => some .number
  | "number" => some .number
  | "boolean" => some .boolean
  | "file" => some .file
  | _ => none

/-- Whether a value can be told apart from others by equality: lists and objects cannot. -/
def isKey : Json → Bool
  | .array _ | .object _ => false
  | _ => true

/-- The names of the members that must be present; texts among the listed values. -/
def requiredNames (listed : Option Json) : Except Misuse (List String) := do
  let values ← match listed with
    | none => pure []
    | some value => value.parts
  if values.all isKey then return values.filterMap Json.text? else throw .notAKey

/-- The type of a schema that is not an object: any if it is blank, and a misuse otherwise. -/
def resolveOther (schema : Json) : Except Misuse TypeExpr := do
  if schema.isBlank then return .any
  -- a text or a list may mention a keyword, but has no members to read
  if ← schema.mentions "$ref" then throw .notIndexable
  if ← schema.mentions "allOf" then throw .notIndexable
  if ← schema.mentions "enum" then throw .notIndexable
  throw .notAnObject

theorem sizeOf_items_lt_of_lookup? {key : String} {items : List Json}
    {members : List (String × Json)} (h : lookup? key members = some (.array items)) :
    sizeOf items < sizeOf members := by
  have := sizeOf_lt_of_lookup? h
  simp only [Json.array.sizeOf_spec] at this
  omega

theorem sizeOf_properties_lt_of_lookup? {key : String} {properties : List (String × Json)}
    {members : List (String × Json)} (h : lookup? key members = some (.object properties)) :
    sizeOf properties < sizeOf members := by
  have := sizeOf_lt_of_lookup? h
  simp only [Json.object.sizeOf_spec] at this
  omega

mutual

/-- The type that a schema denotes. -/
def resolve (schema : Json) : Except Misuse TypeExpr :=
  match schema with
  | .object members =>
    match lookup? "$ref" members with
    | some path => reference path
    | none =>
    match h : lookup? "allOf" members with
    | some (.array schemas) =>
      have := sizeOf_items_lt_of_lookup? h
      (resolveAll schemas).map .intersectionOf
    | some listed => do
      let types ← (← listed.parts).mapM resolveOther
      return .intersectionOf types
    | none =>
    match lookup? "enum" members with
    | some values => values.parts.map .unionOf
    | none =>
    match lookup? "type" members with
    | some (.array _) | some (.object _) => .error .notAKey
    | some (.string "array") =>
      match h : lookup? "items" members with
      | some items =>
        have := sizeOf_lt_of_lookup? h
        (resolve items).map .array
      | none => .ok (.array .any)
    | some (.string name) =>
      match basicType? name with
      | some type => .ok type
      | none => resolveMembers (name == "object") members
    | _ => resolveMembers false members
  | schema => resolveOther schema
termination_by (sizeOf schema, 0)

/-- The types of several schemas. -/
def resolveAll (schemas : List Json) : Except Misuse (List TypeExpr) :=
  match schemas with
  | [] => .ok []
  | schema :: rest => do
    let type ← resolve schema
    return type :: (← resolveAll rest)
termination_by (sizeOf schemas, 0)

/-- The type of a schema without a basic type: a map, an object, or any value. -/
def resolveMembers (isObject : Bool) (members : List (String × Json)) : Except Misuse TypeExpr :=
  if isObject || (lookup? "properties" members).isSome then
    match h : lookup? "additionalProperties" members with
    | some (.object additional) =>
      have : 1 + sizeOf additional < sizeOf members := by
        simpa only [Json.object.sizeOf_spec] using sizeOf_lt_of_lookup? h
      (resolve (.object additional)).map .map
    | _ =>
      if (lookup? "properties" members).isSome then resolveRecord members else .ok .object
  else .ok .any
termination_by (sizeOf members, 1)

/-- The object type with the `properties` of a schema. -/
def resolveRecord (members : List (String × Json)) : Except Misuse TypeExpr := do
  let required ← requiredNames (lookup? "required" members)
  match h : lookup? "properties" members with
  | some (.object properties) =>
    have := sizeOf_properties_lt_of_lookup? h
    return .record (← resolveProperties required properties)
  | some _ => throw .notAnObject
  | none => return .record []
termination_by (sizeOf members, 0)

/-- The members that some properties become; one is optional unless it is required by name. -/
def resolveProperties (required : List String) (properties : List (String × Json)) :
    Except Misuse (List (Member TypeExpr)) :=
  match properties with
  | [] => .ok []
  | (name, schema) :: rest => do
    let type ← resolve schema
    return ⟨name, !required.contains name, type⟩ :: (← resolveProperties required rest)
termination_by (sizeOf properties, 0)

end

/-- The object type of a schema's own `properties`, whatever else the schema has. -/
def recordOf (schema : Json) : Except Misuse TypeExpr := do
  resolveRecord (← schema.members)

end ApiClient.Schema
