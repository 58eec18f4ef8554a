import ApiClient.Json.Access
import ApiClient.Json.Shown

/-!
# Why no client can be made

Two kinds of fault. A parameter can be malformed, which is reported to the user in words. Any other
part of a document can hold a value of the wrong kind; that misuse ends the run as it is.
-/

namespace ApiClient

/-- A parameter that cannot be understood. -/
inductive Malformation where
  /-- A reference that leads nowhere. -/
  | unresolvable (reference : String)
  /-- A declaration without a name. -/
  | unnamed (declaration : Json)
  /-- A location that is none of the known ones. -/
  | unknownLocation (name : String) (location : Json)

/-- How a malformed parameter is reported. -/
def Malformation.message : Malformation → String
  | unresolvable reference => "unresolvable parameter reference " ++ reference
  | unnamed declaration => "parameter without a name: " ++ declaration.quoted
  | unknownLocation name location =>
    "parameter " ++ Json.quoteShown name ++ " has unknown location " ++ location.quoted

/-- Why a document cannot be turned into a client. -/
inductive Fault where
  | misuse (misuse : Misuse)
  | malformed (malformation : Malformation)

instance : MonadLift (Except Misuse) (Except Fault) where
  monadLift result := result.mapError .misuse

end ApiClient
