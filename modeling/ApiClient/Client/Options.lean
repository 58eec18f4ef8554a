/-!
# Options of a run

What a user asks of a run, and the lines that a run shows in return.
-/

namespace ApiClient

/-- What a run is asked to do. -/
structure Options where
  source : String
  destination : String
  store : Bool
  unwrap : Bool
  /-- The path at which the documentation of the interface is served. -/
  docPath : String
  omitVersion : Bool

/-- What a run does unless asked otherwise. -/
def Options.standard : Options :=
  ⟨"conf/api/api-docs.json", "src/api", true, false, "/swagger", false⟩

/-- The colours of the terminal: red for what ends a run, green for success. -/
inductive Colour where
  | red
  | green
  deriving DecidableEq

/-- A line for the user. -/
structure Line where
  text : String
  colour : Option Colour
  deriving DecidableEq

/-- The lines that report a problem. -/
def problem (headline detail : String) : List Line :=
  [⟨headline, some .red⟩, ⟨detail, none⟩]

end ApiClient
