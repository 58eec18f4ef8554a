import ApiClient.Json.Access
import ApiClient.Json.Render
import ApiClient.Json.Shown
import ApiClient.TypeScript.Identifier

/-!
# Literals and enumerations

A value written as a TypeScript literal, and the declaration of a closed set of values: an `enum`
if they are texts, a union of literals otherwise.
-/

namespace ApiClient.TypeScript

/-- What a character becomes inside a quoted literal. -/
def escapeLiteral (c : Char) : List Char :=
  if c = '\\' ∨ c = '\'' then ['\\', c] else [c]

/-- A text as a quoted literal. -/
def textLiteral (text : String) : String :=
  singleQuoted (String.ofList (text.toList.flatMap escapeLiteral))

/-- A value as a literal; what is not a text is written as in JSON. -/
def literal : Json → String
  | .string text => textLiteral text
  | value => value.render

/-- A union of literals. -/
def literalUnion (values : List Json) : String :=
  " | ".intercalate (values.map literal)

namespace Enumeration

/-- The name of the member for a value, quoted unless it is an identifier. -/
def memberName (value : Json) : String :=
  if isPropertyName value.shown then value.shown else textLiteral value.shown

/-- The line of one member. -/
def memberLine (value : Json) : String :=
  "  " ++ memberName value ++ " = " ++ literal value ++ ","

/-- Whether all values are texts. -/
def allTexts (values : List Json) : Bool :=
  values.all fun value => value.text?.isSome

/-- The declaration of the values as the type `name`. -/
def declaration (name : String) (values : List Json) : String :=
  if allTexts values then
    "export enum " ++ name ++ " \x7b\n" ++ "\n".intercalate (values.map memberLine) ++ "\n\x7d"
  else "export type " ++ name ++ " = " ++ literalUnion values ++ ";"

/-- The declaration of the values that a document lists. -/
def declare (name : String) (values : Json) : Except Misuse String :=
  return declaration name (← values.parts)

end Enumeration

end ApiClient.TypeScript
