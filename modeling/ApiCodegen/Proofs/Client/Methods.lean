import ApiCodegen.Client.Methods
import ApiCodegen.Proofs.Plan.Identifiers

/-!
# The endpoints and the methods of the client file

* `ClientFile.names_endpoints`, `ClientFile.names_methods`: the assigned names, in order.
* `ClientFile.getElem?_endpoints`, `ClientFile.getElem?_methods`: **every endpoint has the path of the
  route in its place, and every method the endpoint in its place.**
-/

namespace ApiCodegen.Client.ClientFile

variable {options : ClientOptions} {plan : RoutePlan} {i : ℕ}

/-- The names of the endpoints, in the order of the routes. -/
def endpointNames (plan : RoutePlan) : List String :=
  Name.assign [] ((plan.routes.map Route.operationId).map Name.upperSnake)

/-- The names of the methods, in the order of the routes. -/
def methodNames (plan : RoutePlan) : List String :=
  Name.assign [] ((plan.routes.map Route.operationId).map fun id => Name.client (Name.camel id))

theorem endpointNames_eq : endpointNames plan =
    Name.assign [] (plan.routes.map fun r => Name.upperSnake r.operationId) := by
  simp only [endpointNames, List.map_map, Function.comp_def]

theorem methodNames_eq : methodNames plan =
    Name.assign [] (plan.routes.map fun r => Name.client (Name.camel r.operationId)) := by
  simp only [methodNames, List.map_map, Function.comp_def]

theorem length_endpointNames : (endpointNames plan).length = plan.routes.length := by
  rw [endpointNames_eq, Name.length_assign, List.length_map]

theorem length_methodNames : (methodNames plan).length = plan.routes.length := by
  rw [methodNames_eq, Name.length_assign, List.length_map]

/-- **Every endpoint has the path of the route in its place.** -/
theorem getElem?_endpoints {e : Endpoint} : (ofPlan options plan).endpoints[i]? = some e ↔
    ∃ name path, (endpointNames plan)[i]? = some name ∧
      (plan.routes.map Route.path)[i]? = some path ∧ ⟨name, path⟩ = e :=
  List.getElem?_zipWith_eq_some

/-- **Every method has the endpoint in its place.** -/
theorem getElem?_methods {m : Method} : (ofPlan options plan).methods[i]? = some m ↔
    ∃ route names, plan.routes[i]? = some route ∧
      ((methodNames plan).zip (endpointNames plan))[i]? = some names ∧
        Method.ofRoute route names = m :=
  List.getElem?_zipWith_eq_some

/-- The endpoints have the assigned names. -/
theorem names_endpoints : (ofPlan options plan).endpoints.map Endpoint.name = endpointNames plan := by
  refine map_zipWith_left (fun _ _ => rfl) ?_
  rw [List.length_map]
  exact length_endpointNames

/-- So do the methods. -/
theorem names_methods : (ofPlan options plan).methods.map Method.name = methodNames plan := by
  have hlength : ((methodNames plan).zip (endpointNames plan)).length = plan.routes.length := by
    rw [List.length_zip, length_methodNames, length_endpointNames, Nat.min_self]
  have hboth : (ofPlan options plan).methods.map (fun m => (m.name, m.endpoint)) =
      (methodNames plan).zip (endpointNames plan) := map_zipWith_right (fun _ _ => rfl) hlength
  have hfst := congrArg (List.map Prod.fst) hboth
  rw [List.map_map, List.map_fst_zip] at hfst
  · exact hfst
  · rw [length_methodNames, length_endpointNames]

end ApiCodegen.Client.ClientFile
