import ApiClient.Parameter.Basic
import ApiClient.Text.Indentation
import ApiClient.TypeScript.Identifier

/-!
# Requests

How a method hands its parameters to the HTTP client. Statements gather the parameters of each
location in a variable, and the arguments of the call name those variables. Path parameters need
neither, since the URL reads them itself.
-/

namespace ApiClient.Method

/-! ## Statements -/

/-- The members of an object literal that copies parameters. -/
def objectMembers (names : List String) : List String :=
  names.map fun name =>
    TypeScript.propertyKey name ++ ": " ++ TypeScript.propertyAccess "params" name ++ ","

/-- An object literal that copies parameters. -/
def objectLiteral (names : List String) : String :=
  "\x7b\n" ++ Text.indentAll (objectMembers names) 1 ++ "\n\x7d"

/-- Statements that gather the parameters of one location, given by name. -/
inductive Statement where
  | query (names : List String)
  | header (names : List String)
  | body (names : List String)
  /-- A location without rules of its own. -/
  | plain (location : Location) (names : List String)
  deriving DecidableEq

namespace Statement

/-- Fills the query with the parameters that have a value. -/
def queryFilter : String :=
  "let queryParams = new HttpParams();\n" ++
  "Object.entries(queryParamBase).forEach(([key, value]: [string, any]) => \x7b\n" ++
  "  if (value !== undefined) \x7b\n" ++
  "    if (typeof value === 'string') queryParams = queryParams.set(key, value);\n" ++
  "    else queryParams = queryParams.set(key, JSON.stringify(value));\n" ++
  "  \x7d\n" ++
  "\x7d);"

/-- Copies the body parameters that have a value. -/
def bodyFilter : String :=
  "const bodyParamsWithoutUndefined: any = \x7b\x7d;\n" ++
  "Object.entries(bodyParams).forEach(([key, value]: [string, any]) => \x7b\n" ++
  "  if (value !== undefined) bodyParamsWithoutUndefined[key] = value;\n" ++
  "\x7d);"

/-- The variable that gathers a location without rules of its own. -/
def plainVariable (location : Location) : String := location.name ++ "Params"

/-- The statements as text. -/
def text : Statement → String
  | query names =>
    "const queryParamBase = " ++ objectLiteral names ++ ";\n\n" ++ queryFilter
  | header names => "const headerParams = new HttpHeaders(" ++ objectLiteral names ++ ");"
  | body names => "const bodyParams = " ++ objectLiteral names ++ ";\n" ++ bodyFilter
  | plain location names =>
    "const " ++ plainVariable location ++ " = " ++ objectLiteral names ++ ";"

/-- The names of the parameters that the statements read. -/
def reads : Statement → List String
  | query names | header names | body names | plain _ names => names

/-- The statements for the group of a location, if it needs any. A body with a schema is passed on
as it is. -/
def ofGroup (location : Location) (group : List Parameter) : Except Misuse (Option Statement) :=
  let names := Parameter.distinctNames group
  match location with
  | .path => .ok none
  | .query => .ok (some (query names))
  | .header => .ok (some (header names))
  | .body =>
    match group with
    | [] => .error .missingItem
    | parameter :: _ => .ok (if parameter.schema.isSome then none else some (body names))
  | location => .ok (some (plain location names))

end Statement

/-! ## Arguments -/

/-- What a call sends as its body. -/
inductive BodyArgument where
  /-- An empty object. -/
  | empty
  /-- The parameter of this name. -/
  | parameter (name : String)
  /-- The body parameters that have a value. -/
  | gathered
  /-- The variable that gathers a location. -/
  | group (location : Location)
  deriving DecidableEq

namespace BodyArgument

/-- The argument as text. -/
def text : BodyArgument → String
  | empty => "\x7b\x7d"
  | parameter name => TypeScript.propertyAccess "params" name
  | gathered => "bodyParamsWithoutUndefined"
  | group location => Statement.plainVariable location

/-- The argument for the group of body parameters: the first one, if it has a schema. -/
def ofBody (group : List Parameter) : Except Misuse BodyArgument :=
  match group with
  | [] => .error .missingItem
  | first :: _ => .ok (if first.schema.isSome then parameter first.name else gathered)

/-- The argument from the first of some locations that has a group. -/
def ofSources (groups : List (Location × List Parameter)) :
    List Location → Except Misuse BodyArgument
  | [] => .ok empty
  | source :: rest =>
    match Parameter.group? source groups with
    | none => ofSources groups rest
    | some parameters => if source = .body then ofBody parameters else .ok (group source)

end BodyArgument

/-- The arguments of a call after its URL. -/
structure Arguments where
  body : Option BodyArgument
  /-- Whether the query is passed. -/
  query : Bool
  /-- Whether the headers are passed. -/
  headers : Bool

namespace Arguments

/-- The locations from which each verb takes its body; a verb that is missing sends none. -/
abbrev BodySources := List (String × List Location)

/-- The verbs that send a body, and where they take it from. -/
def standardSources : BodySources :=
  [("post", [.body, .formData]), ("put", [.body, .formData]), ("patch", [.body, .formData])]

/-- The arguments for the groups of parameters of a method. -/
def ofGroups (groups : List (Location × List Parameter)) (verb : String)
    (sources : BodySources) : Except Misuse Arguments := do
  let body ← (sources.lookup verb).mapM (BodyArgument.ofSources groups)
  return { body
           query := (Parameter.group? .query groups).isSome
           headers := (Parameter.group? .header groups).isSome }

/-- The options that a call passes. -/
def options (arguments : Arguments) : List String :=
  (if arguments.query then ["params: queryParams"] else []) ++
    (if arguments.headers then ["headers: headerParams"] else [])

/-- The arguments as texts. -/
def texts (arguments : Arguments) : List String :=
  (arguments.body.map (·.text)).toList ++
    if arguments.options.isEmpty then []
    else ["\x7b" ++ ", ".intercalate arguments.options ++ "\x7d"]

end Arguments

end ApiClient.Method
