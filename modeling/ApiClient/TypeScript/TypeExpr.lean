import ApiClient.TypeScript.Literal

/-!
# Type expressions

The TypeScript types that a schema can denote, and how they are printed. Printing puts the item of
an array type in parentheses as soon as its text has a space, so a postfix `[]` never binds to the
last part of a union.
-/

namespace ApiClient.TypeScript

/-- A member of an object type. -/
structure Member (Ty : Type) where
  name : String
  optional : Bool
  type : Ty

/-- A type. -/
inductive TypeExpr where
  | any
  | string
  | number
  | boolean
  | file
  | object
  /-- A type of the model, by its name. -/
  | model (name : String)
  /-- One of some literals. -/
  | union (values : List Json)
  | array (item : TypeExpr)
  /-- An object with any keys. -/
  | map (value : TypeExpr)
  /-- An object with the given members. -/
  | record (members : List (Member TypeExpr))
  | intersection (parts : List TypeExpr)

/-- The name under which a file imports the model. -/
def modelNamespace : String := "__model"

namespace TypeExpr

/-- The item of an array type, grouped if its text has a space. -/
def grouped (text : String) : String :=
  if text.toList.contains ' ' then "(" ++ text ++ ")" else text

/-- The mark between the key and the type of a member. -/
def optionalMark (optional : Bool) : String := if optional then "?" else ""

mutual

/-- A type as it is printed, on one line. -/
def text : TypeExpr → String
  | any => "any"
  | string => "string"
  | number => "number"
  | boolean => "boolean"
  | file => "File"
  | object => "object"
  | model name => modelNamespace ++ "." ++ name
  | union values => literalUnion values
  | array item => grouped item.text ++ "[]"
  | map value => "\x7b[key: string]: " ++ value.text ++ "\x7d"
  | record members => "\x7b" ++ "; ".intercalate (memberTexts members) ++ "\x7d"
  | intersection parts => " & ".intercalate (texts parts)
termination_by structural type => type

/-- Several types as they are printed. -/
def texts : List TypeExpr → List String
  | [] => []
  | type :: rest => text type :: texts rest
termination_by structural types => types

/-- The members of an object type as they are printed. -/
def memberTexts : List (Member TypeExpr) → List String
  | [] => []
  | member :: rest => memberText member :: memberTexts rest
termination_by structural members => members

/-- One member of an object type as it is printed. -/
def memberText : Member TypeExpr → String
  | ⟨name, optional, type⟩ => propertyKey name ++ optionalMark optional ++ ": " ++ type.text
termination_by structural member => member

end

theorem texts_eq_map (types : List TypeExpr) : texts types = types.map text := by
  induction types with
  | nil => rfl
  | cons type rest ih => rw [texts, ih, List.map_cons]

theorem memberTexts_eq_map (members : List (Member TypeExpr)) :
    memberTexts members = members.map memberText := by
  induction members with
  | nil => rfl
  | cons member rest ih => rw [memberTexts, ih, List.map_cons]

/-- The intersection of some types; `any` adds nothing to it, and of one type it is that type. -/
def intersectionOf (types : List TypeExpr) : TypeExpr :=
  let parts := types.filter fun
    | any => false
    | _ => true
  match parts with
  | [] => any
  | [part] => part
  | parts => intersection parts

/-- One of some values; any value at all if none is listed. -/
def unionOf (values : List Json) : TypeExpr :=
  if values.isEmpty then any else union values

end TypeExpr

/-- Whether a text refers to the model. -/
def usesModel (text : String) : Bool :=
  Text.contains text (modelNamespace ++ ".")

end ApiClient.TypeScript
