import ApiClient.Client.Layout
import ApiClient.Method.Basic
import ApiClient.TypeScript.Import

/-!
# Services

The file of one controller: a service class with a method for each operation, the interfaces that
the methods need, and imports for just what they use.
-/

namespace ApiClient.Controller

open TypeScript (importNames importModel)

/-- The names imported from the HTTP module: headers and query only where some method passes
them. -/
def httpImports (methods : List Method.Code) : List String :=
  let groups (location : Location) : Bool :=
    methods.any fun code => (Parameter.group? location code.groups).isSome
  ["HttpClient"] ++ (if groups .header then ["HttpHeaders"] else []) ++
    (if groups .query then ["HttpParams"] else [])

/-- Whether some parameter or response has a type that refers to the model. -/
def usesModel (methods : List Method.Code) : Bool :=
  methods.any fun code => code.usesModel || TypeScript.usesModel code.method.response.type

/-- The imports of a service. -/
def imports (methods : List Method.Code) : String :=
  importNames (httpImports methods) "@angular/common/http" ++
    importNames ["Injectable"] "@angular/core" ++
    importNames ["Observable"] "rxjs" ++
    (if usesModel methods then "\n" ++ importModel ("../" ++ Layout.model) else "")

/-- The interfaces of a service, each after a blank line. -/
def interfaces (methods : List Method.Code) : String :=
  let declared := (methods.map (·.declarations)).filter (!·.isEmpty)
  String.join (declared.map fun text => "\n" ++ text ++ "\n")

/-- A text without the line feeds at its end. -/
def dropFinalNewlines (text : String) : String :=
  String.ofList ((text.toList.reverse.dropWhile (· == '\n')).reverse)

/-- The methods of a service. -/
def methodsText (methods : List Method.Code) : String :=
  dropFinalNewlines (String.join (methods.map (·.text)))

/-- The text of a service. -/
def text (name : String) (methods : List Method.Code) : String :=
  imports methods ++ interfaces methods ++ "\n" ++
    "@Injectable()\n" ++
    "export class " ++ name ++ "Service \x7b\n" ++
    "  constructor(private http: HttpClient) \x7b\x7d\n" ++
    Text.indent (methodsText methods) 1 ++ "\n" ++
    "\x7d\n"

/-- The file of a service. -/
def file (header name : String) (methods : List Method.Code) : ClientFile :=
  Layout.controllerFile header name (text name methods)

end ApiClient.Controller
