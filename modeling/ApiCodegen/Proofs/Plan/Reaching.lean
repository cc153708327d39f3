import ApiCodegen.Proofs.Plan.Binding
import ApiCodegen.Proofs.Plan.Stability

/-!
# Which operation a binding reaches

A binding names an operation by an identifier. Bindings are looked up by the identifiers that operations
have, and what an operation has need not be what it declares: a declared identifier is made an identifier
of the generated languages, and one that an operation before it has gets a number.

* `RoutePlan.Reaches`: one operation is delegated to a binding, and no other.
* `RoutePlan.reaches_of_operationId`: a binding reaches the operation that has its identifier.
* `RoutePlan.unreached_of_notMem`: a binding whose identifier no operation has reaches none.
* `RoutePlan.binding_reaches_iff`: **when a binding reaches the operation that declares its identifier**, and
  what it reaches otherwise.
* `RoutePlan.binding_misses_weather`: an operation whose binding reaches nothing.
-/

namespace ApiCodegen.RoutePlan

variable {doc : Document} {topology : Topology} {table : BindingTable} {i k : ℕ} {op : Operation}
  {s : String} {b : Binding}

/-- **One operation is delegated to a binding**, and no other. -/
structure Reaches (doc : Document) (topology : Topology) (table : BindingTable) (b : Binding) (k : ℕ) :
    Prop where
  delegates : ∃ owner route, doc.operations[k]? = some owner ∧
    (ofDocument doc topology table).routes[k]? = some route ∧
    route.body = .delegate b owner.request.isSome
  only : ∀ j route pass, (ofDocument doc topology table).routes[j]? = some route →
    route.body = .delegate b pass → j = k

theorem body_eq_delegate {id : String} {hasRequest pass : Bool}
    (h : table.body id hasRequest = .delegate b pass) :
    table.get? id = some b := by
  unfold BindingTable.body at h
  split at h
  · rename_i other hget
    rw [hget, (Body.delegate.inj h).1]
  · cases h

/-- An operation that is delegated to a binding has its identifier. -/
theorem operationId_of_body {j : ℕ} {route : Route} {pass : Bool} (hb : table.get? s = some b)
    (hroute : (ofDocument doc topology table).routes[j]? = some route) (hbody : route.body = .delegate b pass) :
    doc.operationIds[j]? = some s := by
  obtain ⟨other, id, -, hid, rfl⟩ := getElem?_routes.1 hroute
  rw [hid, ← (BindingTable.get?_eq_some_iff.1 (body_eq_delegate hbody)).2,
    (BindingTable.get?_eq_some_iff.1 hb).2]

/-- **A binding reaches the operation that has its identifier.** -/
theorem reaches_of_operationId (hid : doc.operationIds[k]? = some s) (hb : table.get? s = some b) :
    Reaches doc topology table b k where
  delegates := by
    obtain ⟨op, hop⟩ := Document.exists_operation hid
    refine ⟨op, _, hop, getElem?_routes.2 ⟨op, s, hop, hid, rfl⟩, ?_⟩
    rw [routeOf, BindingTable.body, hb]
  only := fun _ _ _ hroute hbody => Document.eq_of_operationId (operationId_of_body hb hroute hbody) hid

/-- It reaches no other. -/
theorem Reaches.operationId (h : Reaches doc topology table b k) (hb : table.get? s = some b) :
    doc.operationIds[k]? = some s := by
  obtain ⟨_, route, -, hroute, hbody⟩ := h.delegates
  exact operationId_of_body hb hroute hbody

/-- **A binding whose identifier no operation has reaches none.** -/
theorem unreached_of_notMem (hb : table.get? s = some b) (h : s ∉ doc.operationIds) :
    ∀ route ∈ (ofDocument doc topology table).routes, ∀ pass, route.body ≠ .delegate b pass := by
  intro route hroute pass hbody
  obtain ⟨j, hj⟩ := List.mem_iff_getElem?.1 hroute
  exact h (List.mem_of_getElem? (operationId_of_body hb hj hbody))

/-- **When a binding reaches the operation that declares its identifier.**

* It does exactly if the declared text is an identifier, and no operation before asks for this identifier
  or is numbered to it.
* If the text is an identifier, the binding reaches this operation or one before it, the one that has the
  identifier.
* If it is none, no operation is delegated to the binding, and the check of the table says that no operation
  matches it. -/
theorem binding_reaches_iff (hop : doc.operations[i]? = some op) (hdeclares : op.operationId = some s)
    (hb : table.get? s = some b) (topology : Topology) :
    (Reaches doc topology table b i ↔ Name.sanitize s = s ∧ ∀ k < i,
      (∀ other, doc.operations[k]? = some other → other.baseId ≠ s) ∧ ¬ doc.IsNumbered k s) ∧
    (Name.sanitize s = s → ∃ k ≤ i, doc.operationIds[k]? = some s ∧ Reaches doc topology table b k) ∧
    (Name.sanitize s ≠ s →
      (∀ route ∈ (ofDocument doc topology table).routes, ∀ pass, route.body ≠ .delegate b pass) ∧
      ∀ policy, .unmatchedBinding s ∈ (table.validate policy doc.operationIds).warnings) := by
  have hbase : op.baseId = Name.sanitize s := by rw [Operation.baseId, hdeclares]
  -- what an operation has is an identifier, which sanitizing keeps
  have hkept (hmem : s ∈ doc.operationIds) : Name.sanitize s = s :=
    Name.sanitize_eq_iff.2 (Document.isIdentifier_of_mem_operationIds hmem)
  have hfirst := Document.operationId_eq_iff hop
  rw [hbase] at hfirst
  refine ⟨⟨fun hreaches => ?_, ?_⟩, fun hident => ?_, fun hident => ?_⟩
  · have hid := hreaches.operationId hb
    have hident := hkept (List.mem_of_getElem? hid)
    rw [hident] at hfirst
    exact ⟨hident, Document.notMem_take_iff.1 (hfirst.1 hid)⟩
  · rintro ⟨hident, hfree⟩
    rw [hident] at hfirst
    exact reaches_of_operationId (hfirst.2 (Document.notMem_take_iff.2 hfree)) hb
  · obtain ⟨k, hk, hid⟩ := Document.exists_operationId_eq hop
    rw [hbase, hident] at hid
    exact ⟨k, hk, hid, reaches_of_operationId hid hb⟩
  · have hnot : s ∉ doc.operationIds := mt hkept hident
    exact ⟨unreached_of_notMem hb hnot, BindingTable.unmatchedBinding_mem_validate hb hnot⟩

/-! ## An operation that is declared by its name -/

/-- An operation without an identifier of its own, and one that declares an identifier. -/
def weatherDocument (declared : String) : Document where
  paths := [⟨"/health", [{ path := "/health", verb := .get }]⟩,
    ⟨"/x", [{ path := "/x", verb := .get, operationId := some declared }]⟩]

/-- A service function for the operation that declares an identifier. -/
def weatherTable (declared : String) : BindingTable := ⟨[⟨declared, "app.weather", "weather"⟩], by simp⟩

/-- The binding of a declared identifier goes to the operation that declares it. -/
theorem binding_reaches_iff_weather : Reaches (weatherDocument "get_weather") (.ofDocument "/api/v1" {})
    (weatherTable "get_weather") ⟨"get_weather", "app.weather", "weather"⟩ 1 := by
  have hop : (weatherDocument "get_weather").operations[1]? =
      some { path := "/x", verb := .get, operationId := some "get_weather" } := rfl
  have hb : (weatherTable "get_weather").get? "get_weather" =
      some ⟨"get_weather", "app.weather", "weather"⟩ := by decide +kernel
  obtain ⟨hreaches, -⟩ := binding_reaches_iff hop rfl hb (.ofDocument "/api/v1" {})
  refine hreaches.2 ⟨by decide +kernel, fun k hk => ?_⟩
  obtain rfl : k = 0 := by omega
  constructor
  · rintro other hother heq
    obtain rfl : ({ path := "/health", verb := .get } : Operation) = other := Option.some.inj hother
    revert heq
    decide +kernel
  · -- the first operation has nothing before it that it could repeat
    rintro ⟨_, _, -, hrepeats, -⟩
    exact absurd hrepeats List.not_mem_nil

/-- One operation alone declares what its binding names, and the binding reaches nothing: it is said to match
no operation, and the operation to have no binding. -/
theorem binding_misses_weather :
    (weatherDocument "get-weather").operations.map Operation.operationId = [none, some "get-weather"] ∧
    (weatherTable "get-weather").get? "get-weather" = some ⟨"get-weather", "app.weather", "weather"⟩ ∧
    (ofDocument (weatherDocument "get-weather") (.ofDocument "/api/v1" {})
      (weatherTable "get-weather")).routes.map Route.body = [.stub, .stub] ∧
    ((weatherTable "get-weather").validate .lenient (weatherDocument "get-weather").operationIds).warnings =
      [.unmatchedBinding "get-weather", .unboundOperation "get_health", .unboundOperation "get_weather"] := by
  refine ⟨rfl, ?_, ?_, ?_⟩ <;> decide +kernel

end ApiCodegen.RoutePlan
