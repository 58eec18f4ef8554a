import ApiClient.Method.Request
import ApiClient.Parameter.Interface
import ApiClient.Response
import ApiClient.Url

/-!
# Methods

One operation at one path, and the method of the client that performs it. Compiling a method keeps
the parameters at the locations its verb allows, declares them, and settles what the call passes;
the texts are printed from that.
-/

namespace ApiClient

/-- An operation, ready to be compiled. -/
structure Method where
  url : String
  name : String
  verb : String
  /-- What the paths of the interface are relative to. -/
  basePath : String
  response : Response
  summary : Json
  description : Json
  /-- Where the operation is documented; empty if nowhere. -/
  docLink : String
  /-- The declared parameters; nothing if there is no list of them. -/
  parameters : Option (List Parameter)

namespace Method

/-- The locations at which each verb takes parameters; a verb that is missing is no operation. -/
abbrev AllowedLocations := List (String × List Location)

/-- Every verb of an operation, with its locations: only some verbs carry a body. -/
def standardLocations : AllowedLocations :=
  let bare : List Location := [.path, .query, .header]
  let full : List Location := [.path, .query, .header, .body, .formData]
  [("get", bare), ("head", bare), ("delete", bare), ("options", bare), ("post", full),
    ("put", full), ("patch", full)]

/-- The interface that declares the parameters of a method. -/
def interfaceName (name : String) : String := Text.upperFirst (name ++ "Params")

/-- A compiled method. -/
structure Code where
  method : Method
  declared : Parameter.Interface
  groups : List (Location × List Parameter)
  statements : List Statement
  arguments : Arguments
  /-- Whether a variant with a plain argument follows the method. -/
  unwrapped : Bool

/-- How methods are compiled. -/
structure Policy where
  allowed : AllowedLocations
  sources : Arguments.BodySources
  /-- Whether a method of one plain parameter gets a variant that takes it on its own. -/
  unwrap : Bool

/-- Compiles a method. -/
def compile (policy : Policy) (method : Method) : Except Misuse Code := do
  let allowed := (policy.allowed.lookup method.verb).getD []
  let retained := Parameter.retained allowed (method.parameters.getD [])
  let groups := Parameter.groups allowed retained
  let declared : Parameter.Interface :=
    ⟨interfaceName method.name, ← Parameter.fields retained⟩
  let statements ← groups.mapM fun (location, group) => Statement.ofGroup location group
  let unwrapped := policy.unwrap && retained.length == 1 && !declared.arguments.isEmpty
  let arguments ← Arguments.ofGroups groups method.verb policy.sources
  return { method, declared, groups, arguments, unwrapped
           statements := statements.filterMap id }

namespace Code

/-- The arguments of the method itself: one object, or nothing. -/
def signature (code : Code) : String :=
  if code.declared.isEmpty then "" else "params: " ++ code.declared.name

/-- The first line of a method. -/
def opening (name signature type : String) : String :=
  name ++ "(" ++ signature ++ "): Observable<" ++ type ++ "> \x7b\n"

/-- The URL as a template literal. -/
def url (code : Code) : String :=
  "`" ++ code.method.basePath ++ Url.interpolate code.method.url ++ "`"

/-- The call that performs the request. -/
def call (code : Code) : String :=
  "return this.http." ++ code.method.verb ++ "<" ++ code.method.response.type ++ ">(" ++
    ", ".intercalate (code.url :: code.arguments.texts) ++ ");"

/-- The comment above a method. -/
def comment (code : Code) : String :=
  TypeScript.Comment.ofValues
    [code.method.summary, code.method.description, .string code.method.docLink]

/-- The statements before the call, with a blank line after each. -/
def statementsText (code : Code) : String :=
  if code.statements.isEmpty then ""
  else Text.indent ("\n\n".intercalate (code.statements.map (·.text))) 1 ++ "\n\n"

/-- The method, after a blank line. -/
def mainText (code : Code) : String :=
  "\n" ++ code.comment ++
    opening code.method.name code.signature code.method.response.type ++
    code.statementsText ++ Text.indent code.call 1 ++ "\n" ++ "\x7d\n"

/-- The variant that takes the parameter on its own and wraps it, after a blank line. -/
def unwrappedText (code : Code) : String :=
  if code.unwrapped then
    let names := code.declared.fields.map (·.parameter.name)
    let wrapped := "\x7b" ++ ", ".intercalate names ++ "\x7d"
    "\n" ++
      opening (code.method.name ++ "_") (", ".intercalate code.declared.arguments)
        code.method.response.type ++
      Text.indent ("return this." ++ code.method.name ++ "(" ++ wrapped ++ ");") 1 ++ "\n" ++
      "\x7d\n"
  else ""

/-- The method and its variant. -/
def text (code : Code) : String := code.mainText ++ code.unwrappedText

/-- The declarations that the method needs beside the class. -/
def declarations (code : Code) : String :=
  let parts := [code.declared.text, code.method.response.declaration.getD ""]
  "\n\n".intercalate (parts.filter (!·.isEmpty))

/-- Whether the type of some parameter refers to the model. -/
def usesModel (code : Code) : Bool := code.declared.usesModel

end Code

end Method

end ApiClient
