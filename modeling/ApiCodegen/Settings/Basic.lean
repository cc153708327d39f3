/-!
# Settings

* `Target`: the two kinds of generated code.
* `Settings`: all that a run can be told, with a default for everything.
-/

namespace ApiCodegen

/-- A kind of generated code: the server's or the client's. -/
inductive Target where
  | python
  | typeScript
  deriving DecidableEq

/-- The name of a target in messages. -/
def Target.label : Target → String
  | .python => "Python"
  | .typeScript => "TypeScript"

/-- What happens to a reference to an undeclared component. -/
inductive ReferencePolicy where
  | strict
  | lenient
  deriving DecidableEq

/-- What happens when two operations of a group derive different prefixes. -/
inductive TieBreak where
  | firstSeen
  | reject
  deriving DecidableEq

/-- What happens to an operation without a service function. -/
inductive BindingPolicy where
  | lenient
  | strict
  deriving DecidableEq

/-- A service function for an operation. -/
structure Binding where
  operationId : String
  modulePath : String
  function : String
  deriving DecidableEq

/-- Where the server files go, and the module name of the models. -/
structure ServerOptions where
  modelsPath : String := "app/generated/generated_models.py"
  routesPath : String := "app/generated/generated_router.py"
  modelsModule : String := "app.generated.generated_models"
  deriving DecidableEq

/-- Where the client files go, and what the client starts from. -/
structure ClientOptions where
  typesPath : String := "generated/api-types.ts"
  clientPath : String := "generated/api-client.ts"
  typesImport : String := "./api-types"
  baseUrlEnv : String := "NEXT_PUBLIC_API_URL"
  defaultBaseUrl : String := "http://localhost:8000"
  deriving DecidableEq

/-- The settings of a run. -/
structure Settings where
  apiPrefix : String := "/api/v1"
  references : ReferencePolicy := .strict
  tieBreak : TieBreak := .firstSeen
  bindingPolicy : BindingPolicy := .lenient
  targets : List Target := [.python, .typeScript]
  outDir : String := "."
  server : ServerOptions := {}
  client : ClientOptions := {}
  /-- The service functions, or none for the built-in ones. -/
  bindings : Option (List Binding) := none
  format : Bool := true
  deriving DecidableEq

end ApiCodegen
