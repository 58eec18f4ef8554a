import ApiClient.Controller.Name
import ApiClient.Method.Basic
import ApiClient.Operation.Merge
import ApiClient.Operation.Name
import ApiClient.Parameter.Declaration

/-!
# Operations

The operations of a document: one for each path and verb. They are gathered by controller, in the
order in which the document has them, and described as methods with names of their own.
-/

namespace ApiClient

/-- An operation as the document has it, with the parameters that apply to it. -/
structure Operation where
  url : String
  verb : String
  value : Json
  parameters : Json

namespace Operation

/-! ## By controller -/

/-- Adds an operation to its controller; the first of a controller opens it. -/
def addToController (controller : String) (operation : Operation) :
    List (String × List Operation) → List (String × List Operation)
  | [] => [(controller, [operation])]
  | (name, operations) :: rest =>
    if name = controller then (name, operations ++ [operation]) :: rest
    else (name, operations) :: addToController controller operation rest

/-- The operation of one verb at a path, and its controller. -/
def ofVerb (url : String) (pathItem : Json) (verb : String) (value : Json) :
    Except Misuse (String × Operation) := do
  let tags := (← value.member? "tags").getD .null
  let controller ← Controller.nameOf tags url
  let ofPath := (← pathItem.member? "parameters").getD .null
  let ofOperation := (← value.member? "parameters").getD .null
  return (controller, ⟨url, verb, value, ← mergeDeclarations ofPath ofOperation⟩)

/-- The operations at one path, each with its controller. Members that are no verb are passed
over. -/
def ofPath (allowed : Method.AllowedLocations) (url : String) (pathItem : Json) :
    Except Misuse (List (String × Operation)) := do
  let verbs := (← pathItem.members).filter fun (verb, _) => (allowed.lookup verb).isSome
  verbs.mapM fun (verb, value) => ofVerb url pathItem verb value

/-- All operations of some paths, each with its controller, in order. -/
def ofPaths (allowed : Method.AllowedLocations) (paths : Json) :
    Except Misuse (List (String × Operation)) := do
  let perPath ← (← paths.members).mapM fun (url, pathItem) => ofPath allowed url pathItem
  return perPath.flatten

/-- The operations of some paths, gathered by controller. -/
def byController (allowed : Method.AllowedLocations) (paths : Json) :
    Except Misuse (List (String × List Operation)) := do
  let operations ← ofPaths allowed paths
  return operations.foldl
    (fun controllers (controller, operation) => addToController controller operation controllers)
    []

/-! ## As methods -/

/-- Where operations are documented: the link to one, if it can be addressed. -/
def docLink (base : String) (operation : Json) : Except Misuse String := do
  let tags := (← operation.member? "tags").getD .null
  let id := (← operation.member? "operationId").getD .null
  if base.isEmpty || tags.isBlank || id.isBlank then return ""
  return base ++ (← tags.first).shown ++ "/" ++ id.shown

/-- A member that holds prose, or a blank text. -/
def prose (operation : Json) (key : String) : Except Misuse Json :=
  return ((← operation.member? key).getD .null).orElse (.string "")

/-- What the methods of a document have in common. -/
structure Context where
  /-- The document, into which references point. -/
  document : Json
  /-- What links to the documentation of an operation begin with. -/
  docBase : String
  basePath : String

/-- The method of an operation, under a name of its own. -/
def toMethod (context : Context) (operation : Operation) (name : String) :
    Except Fault Method := do
  let value := operation.value
  let responses := (← value.member? "responses").getD .null
  let response ← Response.ofResponses responses name
  let summary ← prose value "summary"
  let description ← prose value "description"
  let link ← docLink context.docBase value
  let parameters ← Parameter.ofDeclarations context.document operation.parameters
  return { url := operation.url
           name
           verb := operation.verb
           basePath := context.basePath
           response
           summary
           description
           docLink := link
           parameters }

/-- The methods of one controller's operations, with distinct names. -/
def toMethods (context : Context) (operations : List Operation) : Except Fault (List Method) := do
  let names ← operations.mapM fun operation =>
    (nameOf operation.value operation.verb operation.url : Except Misuse String)
  (operations.zip (distinctNames names)).mapM fun (operation, name) =>
    toMethod context operation name

end Operation

end ApiClient
