import ApiCodegen.Name.Case
import ApiCodegen.Name.Fresh
import ApiCodegen.Plan.Binding
import ApiCodegen.Plan.Topology

/-!
# Routes

What is decided about an operation before any code is written, shared by all targets.

* `Document.operationIds`: distinct identifiers of the operations, in order.
* `pathTokens`: the parameter names of a path template.
* `RoutePlan.build`: the routes of a document.
-/

namespace ApiCodegen

/-- The identifier that an operation asks for: its own, or one of its verb and path. -/
def Operation.baseId (op : Operation) : String :=
  match op.operationId with
  | some id => Name.sanitize id
  | none => Name.operation op.verb.lower op.path

namespace Document

/-- The identifiers that the operations ask for. -/
def baseIds (doc : Document) : List String := doc.operations.map Operation.baseId

/-- The identifiers of the operations: each what it asks for, or the first number of it that is
free. -/
def operationIds (doc : Document) : List String := Name.assign [] doc.baseIds

/-- The remarks on identifiers that got a number. -/
def idWarnings (doc : Document) : List Warning :=
  ((doc.baseIds.zip doc.operationIds).filter fun (base, id) => base != id).map fun (base, id) =>
    .duplicateIdentifier base id

end Document

/-- The names between braces, from left to right. `inside` is the name being read, latest
character first. A brace that is not closed ends the names. -/
def tokensFrom (inside : Option (List Char)) : List Char → List (List Char)
  | [] => []
  | c :: rest =>
    match inside with
    | none => if c = '\x7b' then tokensFrom (some []) rest else tokensFrom none rest
    | some name =>
      if c = '\x7d' then
        if name.isEmpty then tokensFrom none rest else name.reverse :: tokensFrom none rest
      else tokensFrom (some (c :: name)) rest

/-- The parameter names of a path template, from left to right. -/
def pathTokens (path : String) : List String := (tokensFrom none path.toList).map String.ofList

/-- The route of an operation. -/
structure Route where
  operationId : String
  verb : Verb
  path : String
  /-- The path on the router. -/
  relativePath : String
  slot : Slot
  pathParams : List String
  request : Option Schema
  response : Schema
  summary : Option String
  description : Option String
  body : Body

/-- The declared names that schemas refer to, sorted and each once. -/
def referencedNames (schemas : List Schema) : List String :=
  let names := (schemas.flatMap Schema.references).map Name.declaration
  (names.mergeSort fun a b => decide (a ≤ b)).eraseDups

/-- The schemas of a route's request and response. -/
def Route.schemas (route : Route) : List Schema := route.request.toList ++ [route.response]

/-- The service function that a route delegates to. -/
def Route.service? (route : Route) : Option Binding :=
  match route.body with
  | .delegate binding _ => some binding
  | .stub => none

/-- The routes of a document and their layout. -/
structure RoutePlan where
  topology : Topology
  routes : List Route

namespace RoutePlan

/-- The route of an operation with its identifier. -/
def routeOf (topology : Topology) (table : BindingTable) (op : Operation) (id : String) : Route where
  operationId := id
  verb := op.verb
  path := op.path
  relativePath := topology.relativePath op
  slot := topology.placement op.key
  pathParams := pathTokens op.path
  request := op.request
  response := op.response
  summary := op.summary
  description := op.description
  body := table.body id op.request.isSome

/-- The routes of a document, in order. -/
def ofDocument (doc : Document) (topology : Topology) (table : BindingTable) : RoutePlan where
  topology := topology
  routes := List.zipWith (routeOf topology table) doc.operations doc.operationIds

/-- The routes of a document, with remarks on identifiers that got a number. -/
def build (doc : Document) (topology : Topology) (table : BindingTable) : Reported RoutePlan :=
  ⟨doc.idWarnings, .ok (ofDocument doc topology table)⟩

/-- The groups that have members. -/
def activeGroups (plan : RoutePlan) : List Group :=
  plan.topology.groups.filter fun g => !g.members.isEmpty

/-- Whether there is a legacy operation. -/
def hasLegacyRoutes (plan : RoutePlan) : Bool := !plan.topology.legacy.members.isEmpty

end RoutePlan

end ApiCodegen
