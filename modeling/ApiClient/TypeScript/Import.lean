import ApiClient.TypeScript.TypeExpr

/-!
# Import lines

The two ways in which a file takes names from another: some by name, or the whole model under its
namespace.
-/

namespace ApiClient.TypeScript

/-- A line that imports some names. -/
def importNames (names : List String) (source : String) : String :=
  "import \x7b" ++ ", ".intercalate names ++ "\x7d from '" ++ source ++ "';\n"

/-- A line that imports the model. -/
def importModel (source : String) : String :=
  "import * as " ++ modelNamespace ++ " from '" ++ source ++ "';\n"

end ApiClient.TypeScript
