import ApiClient.Client.Options
import ApiClient.Controller.Actions
import ApiClient.Definition.Model
import ApiClient.Document.Header
import ApiClient.Document.Load
import ApiClient.Operation.Basic

/-!
# The files of a client

A client is written in order: the shared declarations, the model, and then each controller's
service followed by the actions of its methods. The first fault ends the writing.
-/

namespace ApiClient

/-- What every file of a client is made with. -/
structure Settings where
  header : String
  /-- Whether store actions are written. -/
  store : Bool
  policy : Method.Policy

/-- The policy for verbs and their locations, with or without variants of methods. -/
def standardPolicy (unwrap : Bool) : Method.Policy :=
  ⟨Method.standardLocations, Method.Arguments.standardSources, unwrap⟩

namespace Client

/-- The declarations that all parts share. -/
def commonText : String :=
  "import \x7bAction\x7d from '@ngrx/store';\n" ++
  "\n" ++
  "/** Action carrying a typed payload, used by the generated store actions */\n" ++
  "export interface ActionWithPayload<T> extends Action \x7b\n" ++
  "  payload: T;\n" ++
  "\x7d\n"

/-- Writes the service of one controller, and the actions of its methods. -/
def writeController (settings : Settings) (context : Operation.Context)
    (controller : String × List Operation) : Writing Fault Unit := do
  let (name, operations) := controller
  let methods ← Operation.toMethods context operations
  let compiled ← (methods.mapM (Method.compile settings.policy) : Except Misuse _)
  Writing.write (Controller.file settings.header name compiled)
  if settings.store then
    Writing.writeAll (compiled.map (Controller.Actions.file settings.header name))

/-- Writes the services of some paths, and answers the names of their controllers. -/
def writeControllers (settings : Settings) (context : Operation.Context) (paths : Json) :
    Writing Fault (List String) := do
  let controllers ← (Operation.byController settings.policy.allowed
    (paths.orElse (.object [])) : Except Misuse _)
  Writing.forEach (writeController settings context) controllers
  return controllers.map (·.1)

/-- How many definitions and controllers a client has. -/
structure Summary where
  definitions : Nat
  controllers : Nat

/-- Where the documentation of an interface begins. -/
def docBase (host docPath : String) : String :=
  "http://" ++ host ++ docPath ++ "/swagger-ui.html#!/"

/-- Writes all files of a client. -/
def write (options : Options) (document : Json) : Writing Fault Summary := do
  let header ← (Document.header document options.omitVersion : Except Misuse String)
  Writing.write (Layout.commonFile header commonText)
  let definitions ← (Document.definitions document : Except Misuse Json)
  let types ← Definition.writeModel header definitions
  let host ← (Document.shownMember document "host" : Except Misuse String)
  let paths ← (Document.paths document : Except Misuse Json)
  let base ← (Document.shownMember document "basePath" : Except Misuse String)
  let controllers ← writeControllers
    ⟨header, options.store, standardPolicy options.unwrap⟩
    ⟨document, docBase host options.docPath, base⟩ paths
  return ⟨types.length, controllers.length⟩

end Client

end ApiClient
