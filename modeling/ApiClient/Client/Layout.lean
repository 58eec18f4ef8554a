import ApiClient.Client.Writing

/-!
# Layout of a client

The folders and files that a client consists of. Every file begins with the header of its run.
-/

namespace ApiClient.Layout

/-- The folder of what all parts share. -/
def common : String := "common"

/-- The folder of the model's types. -/
def definitions : String := "defs"

/-- The folder of the services. -/
def controllers : String := "controllers"

/-- The folder of the store actions. -/
def store : String := "store"

/-- The file that gathers the model, without its extension. -/
def model : String := "model"

/-- The folders of a client, in the order in which they are renewed. -/
def folders : List String := [common, definitions, controllers, store]

/-- The extension of every file. -/
def extension : String := ".ts"

/-- The file of shared declarations. -/
def commonFile (header text : String) : ClientFile :=
  ⟨[common, "utils" ++ extension], header ++ text⟩

/-- The file of a model type. -/
def definitionFile (header name text : String) : ClientFile :=
  ⟨[definitions, name ++ extension], header ++ text⟩

/-- The file that gathers the model. -/
def modelFile (header text : String) : ClientFile :=
  ⟨[model ++ extension], header ++ text⟩

/-- The file of a controller. -/
def controllerFile (header controller text : String) : ClientFile :=
  ⟨[controllers, controller ++ extension], header ++ text⟩

/-- The file of a method's actions. -/
def actionsFile (header controller method text : String) : ClientFile :=
  ⟨[store, controller, method ++ ".actions" ++ extension], header ++ text⟩

end ApiClient.Layout
