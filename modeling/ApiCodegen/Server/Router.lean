import ApiCodegen.Plan.Route
import ApiCodegen.Server.Models

/-!
# The router file of the server

Every operation has a handler on the router of its group, on the aggregate router or on the
legacy router. The groups are included in the aggregate router; the legacy router stands alone.

* `GroupRouter`, `ServiceImport`, `Handler`, `RouterFile`: what the file declares.
* `RouterFile.ofPlan`: the file of a route plan. All names of the file are distinct.
* `RouterFile.render`: its text.
-/

namespace ApiCodegen.Server

/-- The variable of the aggregate router. -/
def aggregateVariable : String := "api_router"

/-- The variable of the legacy router. -/
def legacyVariable : String := "legacy_router"

/-- The names that the file imports or defines beside groups, handlers and services. -/
def fixedNames : List String := [
  "datetime", "Any", "Literal", "Optional", "APIRouter", "HTTPException", "Path",
  aggregateVariable, legacyVariable]

/-- The router of a group. -/
structure GroupRouter where
  name : String
  group : Group

/-- An imported service function. -/
structure ServiceImport where
  modulePath : String
  function : String
  /-- The name of the function in this file. -/
  localName : String

/-- A path parameter of a handler. -/
structure PathParam where
  name : String
  /-- The token of the path that the parameter stands for. -/
  token : String

/-- The call of a service function. -/
structure Call where
  function : String
  argument : Option String

/-- The handler of an operation. -/
structure Handler where
  name : String
  router : String
  verb : Verb
  path : String
  summary : Option String
  params : List PathParam
  /-- The parameter that takes the request. -/
  request : Option (String × TypeExpr)
  response : TypeExpr
  description : Option String
  call : Option Call

/-- What the router file declares, in order. -/
structure RouterFile where
  modelsModule : String
  models : List String
  services : List ServiceImport
  groups : List GroupRouter
  /-- The tags of the legacy router, if there is one. -/
  legacyTags : Option (List String)
  apiPrefix : String
  handlers : List Handler

namespace ServiceImport

/-- The name that a service function asks for. -/
def base (taken : List String) (function : String) : String :=
  if function ∈ taken then function ++ "_impl" else function

/-- The imports of some service functions, in order. Each module and function is imported once;
`known` are the imports that were met already. -/
def ofBindings (taken : List String) (known : List ServiceImport) :
    List Binding → List ServiceImport
  | [] => known
  | b :: more =>
    if known.any fun s => s.modulePath = b.modulePath && s.function = b.function then
      ofBindings taken known more
    else
      let name := Name.fresh taken (base taken b.function)
      ofBindings (name :: taken) (known ++ [⟨b.modulePath, b.function, name⟩]) more

/-- The line of an import. -/
def line (s : ServiceImport) : String :=
  let imported := "from " ++ s.modulePath ++ " import " ++ s.function
  if s.function = s.localName then imported else imported ++ " as " ++ s.localName

end ServiceImport

/-- The tags of a router, as an argument. -/
def tagsArgument (tags : List String) : String :=
  "tags=[" ++ String.intercalate ", " (tags.map Text.quote) ++ "]"

/-- The line that defines a router. -/
def routerLine (name : String) (arguments : List String) : String :=
  name ++ " = APIRouter(" ++ String.intercalate ", " arguments ++ ")"

/-- The line of a group's router. -/
def GroupRouter.line (r : GroupRouter) : String :=
  routerLine r.name
    ((if r.group.base.isEmpty then [] else ["prefix=" ++ Text.quote r.group.base]) ++
      [tagsArgument r.group.tags])

namespace Handler

/-- The variable of the router that a slot stands for. -/
def routerOf (groups : List GroupRouter) : Slot → String
  | .legacy => legacyVariable
  | .aggregate => aggregateVariable
  | .group tag =>
    match groups.find? fun r => r.group.name = groupName tag with
    | some r => r.name
    | none => aggregateVariable

/-- The names of the path parameters and, last, of the request. -/
def paramNames (tokens : List String) : List String :=
  Name.assign [] (tokens.map Name.server ++ ["request"])

/-- The name of the parameter that takes the request. -/
def requestName (tokens : List String) : String := (paramNames tokens).getLastD "request"

/-- The call of a route's service function. -/
def callOf (services : List ServiceImport) (route : Route) : Option Call :=
  match route.body with
  | .stub => none
  | .delegate b pass =>
    (services.find? fun s => s.modulePath = b.modulePath && s.function = b.function).map fun s =>
      ⟨s.localName, if pass && route.request.isSome then some (requestName route.pathParams)
        else none⟩

/-- The handler of a route, with its name. -/
def ofRoute (groups : List GroupRouter) (services : List ServiceImport) (route : Route)
    (name : String) : Handler where
  name := name
  router := routerOf groups route.slot
  verb := route.verb
  path := route.relativePath
  summary := route.summary
  params := List.zipWith PathParam.mk (paramNames route.pathParams) route.pathParams
  request := route.request.map fun r => (requestName route.pathParams, .ofBody r)
  response := .ofBody route.response
  description := route.description
  call := callOf services route

/-- The text of a path parameter. -/
def paramText (p : PathParam) : String :=
  if p.name = p.token then p.name ++ ": str"
  else p.name ++ ": str = Path(alias=" ++ Text.quote p.token ++ ")"

/-- The text of all parameters. -/
def parameters (h : Handler) : String :=
  String.intercalate ", " (h.params.map paramText ++
    (h.request.map fun (name, type) => name ++ ": " ++ type.render).toList)

/-- The line that registers a handler. -/
def decorator (h : Handler) : String :=
  let summary := match h.summary with
    | some s => ", summary=" ++ Text.quote (Text.trimmed s)
    | none => ""
  "@" ++ h.router ++ "." ++ h.verb.lower ++ "(" ++ Text.quote h.path ++ summary ++ ")"

/-- What a handler does. A failure of the service becomes a response. -/
def bodyLines (h : Handler) : List String :=
  match h.call with
  | none => ["    raise HTTPException(status_code=501, detail=\"Not implemented\")"]
  | some call => [
      "    try:",
      "        return await " ++ call.function ++ "(" ++ call.argument.getD "" ++ ")",
      "    except HTTPException:",
      "        raise",
      "    except Exception as exc:",
      "        raise HTTPException(status_code=500, detail=str(exc)) from exc"]

/-- The lines of a handler. -/
def lines (h : Handler) : List String :=
  h.decorator ::
    ("async def " ++ h.name ++ "(" ++ h.parameters ++ ") -> " ++ h.response.render ++ ":") ::
    ((h.description.map (docstring "    ")).getD [] ++ h.bodyLines)

end Handler

namespace RouterFile

/-- The names that are taken before groups are named. -/
def takenNames (declarations : List Declaration) : List String :=
  fixedNames ++ declarations.map Declaration.name

/-- The router file of a plan, beside some declarations. -/
def ofPlan (options : ServerOptions) (apiPrefix : String) (declarations : List Declaration)
    (plan : RoutePlan) : RouterFile :=
  let taken := takenNames declarations
  let routerNames := Name.assign taken (plan.activeGroups.map fun g => Name.sanitize g.name)
  let groups := List.zipWith GroupRouter.mk routerNames plan.activeGroups
  let names := Name.assign (routerNames ++ taken)
    (plan.routes.map fun r => Name.server r.operationId)
  let services := ServiceImport.ofBindings (names ++ routerNames ++ taken) []
    (plan.routes.filterMap Route.service?)
  { modelsModule := options.modelsModule
    models := referencedNames (plan.routes.flatMap Route.schemas)
    services := services
    groups := groups
    legacyTags := if plan.hasLegacyRoutes then some plan.topology.legacy.tags else none
    apiPrefix := apiPrefix
    handlers := List.zipWith (Handler.ofRoute groups services) plan.routes names }

/-- The lines that import models. -/
def modelImport (file : RouterFile) : List String :=
  match file.models with
  | [] => []
  | models =>
    ["", "from " ++ file.modelsModule ++ " import ("] ++ models.map (fun m => "    " ++ m ++ ",") ++
      [")"]

/-- The lines that define routers. -/
def routerLines (file : RouterFile) : List String :=
  file.groups.map GroupRouter.line ++
  (file.legacyTags.map fun tags => routerLine legacyVariable [tagsArgument tags]).toList ++
  [routerLine aggregateVariable ["prefix=" ++ Text.quote file.apiPrefix]]

/-- The lines of the file. -/
def lines (file : RouterFile) : List String :=
  header "FastAPI routers generated from the OpenAPI schema." ++
  ["from fastapi import APIRouter, HTTPException, Path"] ++
  file.modelImport ++
  file.services.map ServiceImport.line ++
  [""] ++ file.routerLines ++
  file.handlers.flatMap (fun h => ModelsFile.apart h.lines) ++
  ModelsFile.apart (file.groups.map fun r =>
    aggregateVariable ++ ".include_router(" ++ r.name ++ ")")

/-- The text of the file. -/
def render (file : RouterFile) : String := Text.ofLines file.lines

end RouterFile

end ApiCodegen.Server
