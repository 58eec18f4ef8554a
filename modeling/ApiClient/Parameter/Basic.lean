import ApiClient.Schema.Resolve

/-!
# Parameters

What an operation is given: each parameter has a name and a location, the part of the request in
which it travels. Its type comes from its schema or from the keywords of its declaration.
-/

namespace ApiClient

/-- The part of a request in which a parameter travels. -/
inductive Location where
  | path
  | query
  | header
  | body
  | formData
  /-- A location that only a configuration knows. -/
  | other (name : String)
  deriving DecidableEq

namespace Location

/-- The locations that a document can declare. -/
def declarable : List Location := [path, query, header, body, formData]

/-- The name of a location. -/
def name : Location → String
  | path => "path"
  | query => "query"
  | header => "header"
  | body => "body"
  | formData => "formData"
  | other name => name

/-- The location of a name. -/
def ofName (name : String) : Location :=
  (declarable.find? (·.name == name)).getD (other name)

theorem ofName_name {location : Location} (h : location ∈ declarable) :
    ofName location.name = location := by
  simp only [declarable, List.mem_cons, List.not_mem_nil, or_false] at h
  rcases h with rfl | rfl | rfl | rfl | rfl <;> rfl

end Location

/-- A parameter of an operation. -/
structure Parameter where
  name : String
  location : Location
  required : Bool
  /-- What the document says about it, or a blank value. -/
  description : Json
  /-- The keywords of the declaration that describe its type. -/
  keywords : Json
  /-- The schema of the declaration, which takes precedence over the keywords. -/
  schema : Option Json

namespace Parameter

/-- The type of a parameter. -/
def type (parameter : Parameter) : Except Misuse TypeScript.TypeExpr :=
  Schema.resolve (parameter.schema.getD parameter.keywords)

/-- The names of some parameters, each once, in order of first appearance. -/
def distinctNames (parameters : List Parameter) : List String :=
  (parameters.map (·.name)).eraseDups

/-! ## By location -/

/-- Adds a parameter to the group of its location; the first of a location opens its group. -/
def addToGroup (parameter : Parameter) :
    List (Location × List Parameter) → List (Location × List Parameter)
  | [] => [(parameter.location, [parameter])]
  | (location, group) :: rest =>
    if location = parameter.location then (location, group ++ [parameter]) :: rest
    else (location, group) :: addToGroup parameter rest

/-- The parameters at the allowed locations. -/
def retained (allowed : List Location) (parameters : List Parameter) : List Parameter :=
  parameters.filter fun parameter => allowed.contains parameter.location

/-- The parameters at the allowed locations, grouped by location. -/
def groups (allowed : List Location) (parameters : List Parameter) :
    List (Location × List Parameter) :=
  (retained allowed parameters).foldl (fun groups parameter => addToGroup parameter groups) []

/-- The group of a location, if it has one. -/
def group? (location : Location) (groups : List (Location × List Parameter)) :
    Option (List Parameter) :=
  groups.lookup location

end Parameter

end ApiClient
