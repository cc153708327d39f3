import ApiCodegen.Client.Transport
import ApiCodegen.Client.Types
import ApiCodegen.Plan.Route

/-!
# The client file

Every operation has an endpoint, which is its path template, and a method that sends a request
to it.

* `Endpoint`, `Method`, `ClientFile`: what the file declares.
* `ClientFile.ofPlan`: the file of a route plan.
* `ClientFile.render`: its text.
-/

namespace ApiCodegen

/-- Whether a type is made of dates with times, by arrays and null only. -/
def Schema.usesDateTime : Schema → Bool
  | .primitive .string format => format = some "date-time"
  | .array items => items.usesDateTime
  | .nullable inner => inner.usesDateTime
  | _ => false

end ApiCodegen

namespace ApiCodegen.Client

/-- The path template of an operation, under a name. -/
structure Endpoint where
  name : String
  path : String

/-- A parameter for a token of the path. -/
structure TokenParam where
  name : String
  token : String

/-- The method of an operation. -/
structure Method where
  name : String
  endpoint : String
  verb : Verb
  params : List TokenParam
  /-- The parameter that takes the request. -/
  request : Option (String × TypeExpr)
  response : TypeExpr
  /-- What is said about the method: the summary, else the description. -/
  remark : Option String

/-- What the client file declares, in order. -/
structure ClientFile where
  imports : List String
  options : ClientOptions
  endpoints : List Endpoint
  methods : List Method

namespace Method

/-- The names of the token parameters and, last, of the request. -/
def paramNames (tokens : List String) : List String :=
  Name.assign [] (tokens.map Name.client ++ ["request"])

/-- The name of the parameter that takes the request. -/
def requestName (tokens : List String) : String := (paramNames tokens).getLastD "request"

/-- The method of a route, with its name and the name of its endpoint. -/
def ofRoute (route : Route) (names : String × String) : Method where
  name := names.1
  endpoint := names.2
  verb := route.verb
  params := List.zipWith TokenParam.mk (paramNames route.pathParams) route.pathParams
  request := route.request.map fun r => (requestName route.pathParams, .ofBody r)
  response := .ofBody route.response
  remark := route.summary <|> route.description

/-- The text of all parameters. -/
def parameters (m : Method) : String :=
  String.intercalate ", " (m.params.map (fun p => p.name ++ ": string") ++
    (m.request.map fun (name, type) => name ++ ": " ++ type.render).toList)

/-- What stands for a token of the path. -/
def substitution (p : TokenParam) : String :=
  if p.name = p.token then p.name else propertyKey p.token ++ ": " ++ p.name

/-- The path of the request. -/
def pathText (m : Method) : String :=
  let endpoint := "API_ENDPOINTS." ++ m.endpoint
  match m.params with
  | [] => endpoint
  | params =>
    "buildPath(" ++ endpoint ++ ", \x7b " ++ String.intercalate ", " (params.map substitution) ++
      " \x7d)"

/-- The arguments of the request. -/
def arguments (m : Method) : String :=
  String.intercalate ", "
    ([m.pathText, Text.quote m.verb.upper] ++ (m.request.map fun (name, _) => name).toList)

/-- The lines of a method. -/
def lines (m : Method) : List String :=
  let response := m.response.render
  comment m.remark {} ++ [
    m.name ++ ": (" ++ m.parameters ++ "): Promise<" ++ response ++ "> =>",
    "  createApiClient(defaultBaseUrl).request<" ++ response ++ ">(" ++ m.arguments ++ "),"]

end Method

namespace ClientFile

/-- The imported names: those that the routes refer to and, where they use it, that of dates with
times. -/
def importsOf (routes : List Route) : List String :=
  let schemas := routes.flatMap Route.schemas
  let names := referencedNames schemas
  if schemas.any Schema.usesDateTime then
    (names ++ [dateTimeName]).mergeSort fun a b => decide (a ≤ b)
  else names

/-- The client file of a plan. -/
def ofPlan (options : ClientOptions) (plan : RoutePlan) : ClientFile :=
  let ids := plan.routes.map Route.operationId
  let constants := Name.assign [] (ids.map Name.upperSnake)
  let names := Name.assign [] (ids.map fun id => Name.client (Name.camel id))
  { imports := importsOf plan.routes
    options := options
    endpoints := List.zipWith Endpoint.mk constants (plan.routes.map Route.path)
    methods := List.zipWith Method.ofRoute plan.routes (names.zip constants) }

/-- The line that imports types. -/
def importLines (file : ClientFile) : List String :=
  match file.imports with
  | [] => []
  | imports => ["", "import type \x7b " ++ String.intercalate ", " imports ++ " \x7d from " ++
      Text.quote file.options.typesImport ++ ";"]

/-- The lines of the file. -/
def lines (file : ClientFile) : List String :=
  header ++ file.importLines ++ [""] ++
  block "export const API_ENDPOINTS = "
    (file.endpoints.map fun e => e.name ++ ": " ++ Text.quote e.path ++ ",") " as const;" ++ [""] ++
  transport ++ ["",
    "const defaultBaseUrl: string =",
    "  (typeof process !== \"undefined\" && process.env." ++ file.options.baseUrlEnv ++ ") || " ++
      Text.quote file.options.defaultBaseUrl ++ ";",
    ""] ++
  block "export const apiMethods = " (file.methods.flatMap Method.lines) ";"

/-- The text of the file. -/
def render (file : ClientFile) : String := Text.ofLines file.lines

end ClientFile

end ApiCodegen.Client
