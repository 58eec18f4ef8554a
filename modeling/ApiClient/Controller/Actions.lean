import ApiClient.Controller.Source

/-!
# Store actions

For each method the actions that a store goes through: start, success and error. The start carries
the parameters if the method takes any, and the success carries the response.
-/

namespace ApiClient.Controller.Actions

open TypeScript (importNames importModel)

/-- The parameter interface that the controller's file exports for a method, if it does. -/
def exportedInterface (code : Method.Code) : Option String :=
  let name := Method.interfaceName code.method.name
  if Text.contains code.declarations ("export interface " ++ name ++ " ") then some name else none

/-- The types that the actions of a method take from the controller's file. -/
def controllerImports (code : Method.Code) : List String :=
  (exportedInterface code).toList ++
    if code.method.response.declaration.isSome then [code.method.response.type] else []

/-- The imports of a method's actions. -/
def imports (controller : String) (code : Method.Code) : String :=
  importNames ["HttpErrorResponse"] "@angular/common/http" ++
    importNames ["Action"] "@ngrx/store" ++ "\n" ++
    importNames ["ActionWithPayload"] ("../../" ++ Layout.common ++ "/utils") ++
    (if TypeScript.usesModel code.method.response.type then importModel ("../../" ++ Layout.model)
      else "") ++
    (if (controllerImports code).isEmpty then ""
      else importNames (controllerImports code)
        ("../../" ++ Layout.controllers ++ "/" ++ controller))

/-- What identifies one kind of action in a store. -/
def tag (controller method kind : String) : String :=
  "[" ++ controller ++ " " ++ method ++ "] " ++ kind

/-- The kinds of action, by key and word. -/
def kinds : List (String × String) :=
  [("START", "Start"), ("SUCCESS", "Success"), ("ERROR", "Error")]

/-- The enumeration of a method's action kinds. -/
def kindsText (controller method : String) : String :=
  let line (kind : String × String) : String :=
    "  " ++ kind.1 ++ " = '" ++ tag controller method kind.2 ++ "',\n"
  "export enum Actions \x7b\n" ++ String.join (kinds.map line) ++ "\x7d\n"

/-- The class of one kind of action, with the type of what it carries. -/
def classText (kind : String × String) (payload : Option String) : String :=
  let parent :=
    match payload with
    | some type => "ActionWithPayload<" ++ type ++ ">"
    | none => "Action"
  let argument :=
    match payload with
    | some type => "  constructor(public payload: " ++ type ++ ") \x7b\x7d\n"
    | none => ""
  "export class " ++ kind.2 ++ " implements " ++ parent ++ " \x7b\n" ++
    "  readonly type = Actions." ++ kind.1 ++ ";\n" ++ argument ++ "\x7d\n"

/-- The text of a method's actions. -/
def text (controller : String) (code : Method.Code) : String :=
  let method := code.method.name
  imports controller code ++ "\n" ++
    kindsText controller method ++ "\n" ++
    classText ("START", "Start") (exportedInterface code) ++ "\n" ++
    classText ("SUCCESS", "Success") (some code.method.response.type) ++ "\n" ++
    classText ("ERROR", "Error") (some "HttpErrorResponse") ++ "\n" ++
    "export type " ++ Text.upperFirst method ++ "Action = Start | Success | Error;\n"

/-- The file of a method's actions. -/
def file (header controller : String) (code : Method.Code) : ClientFile :=
  Layout.actionsFile header controller code.method.name (text controller code)

end ApiClient.Controller.Actions
