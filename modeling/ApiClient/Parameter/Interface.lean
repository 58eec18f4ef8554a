import ApiClient.Parameter.Basic
import ApiClient.Text.Indentation
import ApiClient.TypeScript.Comment
import ApiClient.TypeScript.Scalar

/-!
# Parameter interfaces

The parameters of one method, declared together as an interface. A parameter of a scalar type with
a plain name could also be passed on its own.
-/

namespace ApiClient.Parameter

open TypeScript (TypeExpr)

/-- A parameter with its type. -/
structure Field where
  parameter : Parameter
  type : TypeExpr

namespace Field

/-- The mark of a parameter that may be left out. -/
def mark (field : Field) : String := TypeExpr.optionalMark (!field.parameter.required)

/-- The member of the interface, under the comment that describes it. -/
def text (field : Field) : String :=
  TypeScript.Comment.ofValues [field.parameter.description] ++
    TypeScript.propertyKey field.parameter.name ++ field.mark ++ ": " ++ field.type.text ++ ";"

/-- Whether a parameter can be passed on its own. -/
def isPositional (field : Field) : Bool :=
  TypeScript.isScalar field.type.text && TypeScript.isVariableName field.parameter.name

/-- The parameter as an argument of its own. -/
def argument (field : Field) : String :=
  field.parameter.name ++ field.mark ++ ": " ++ field.type.text

end Field

/-- Resolves the types of some parameters. -/
def fields (parameters : List Parameter) : Except Misuse (List Field) :=
  parameters.mapM fun parameter => return ⟨parameter, ← parameter.type⟩

/-- The declared parameters of a method. -/
structure Interface where
  name : String
  fields : List Field

namespace Interface

/-- Whether there is nothing to declare. -/
def isEmpty (declared : Interface) : Bool := declared.fields.isEmpty

/-- The declaration; empty if there is nothing to declare. -/
def text (declared : Interface) : String :=
  if declared.isEmpty then ""
  else "export interface " ++ declared.name ++ " \x7b\n" ++
    Text.indentAll (declared.fields.map (·.text)) 1 ++ "\n\x7d"

/-- Whether the type of some parameter refers to the model. -/
def usesModel (declared : Interface) : Bool :=
  declared.fields.any fun field => TypeScript.usesModel field.type.text

/-- The parameters that can be passed on their own, as arguments. -/
def arguments (declared : Interface) : List String :=
  (declared.fields.filter (·.isPositional)).map (·.argument)

end Interface

end ApiClient.Parameter
