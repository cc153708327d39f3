import ApiCodegen.Plan.Route
import ApiCodegen.Proofs.Name.Fresh
import ApiCodegen.Proofs.Schema.Reference

/-!
# What the routes refer to

* `mem_referencedNames`: **the collected names are the declared names of all references.**
* `Document.exists_operationId`: every operation has an identifier, in its place.
* `RoutePlan.getElem?_routes`: **every route is that of an operation and of its identifier.**
* `RoutePlan.schemas_mem`, `RoutePlan.mem_schemas_iff`: what the routes refer to comes from the operations
  of the document.
* `RoutePlan.services_routes`: the routes delegate to what the identifiers are bound to.
-/

namespace ApiCodegen

theorem exists_of_mem_zipWith {α β γ : Type} {f : α → β → γ} {as : List α} {bs : List β} {x : γ}
    (h : x ∈ List.zipWith f as bs) : ∃ a ∈ as, ∃ b ∈ bs, x = f a b := by
  rw [← List.map_uncurry_zip_eq_zipWith] at h
  obtain ⟨⟨a, b⟩, hab, rfl⟩ := List.mem_map.1 h
  obtain ⟨ha, hb⟩ := List.of_mem_zip hab
  exact ⟨a, ha, b, hb, rfl⟩

/-- The second list can be read off, if the first is as long. -/
theorem map_zipWith_right {α β γ : Type} {f : α → β → γ} {g : γ → β} (h : ∀ a b, g (f a b) = b)
    {as : List α} {bs : List β} (hlength : bs.length = as.length) :
    (List.zipWith f as bs).map g = bs := by
  rw [← List.map_uncurry_zip_eq_zipWith, List.map_map]
  have hsnd : g ∘ Function.uncurry f = Prod.snd := funext fun p => h p.1 p.2
  rw [hsnd]
  exact List.map_snd_zip hlength.le

/-- So can the first, if the second is as long. -/
theorem map_zipWith_left {α β γ : Type} {f : α → β → γ} {g : γ → α} (h : ∀ a b, g (f a b) = a)
    {as : List α} {bs : List β} (hlength : as.length = bs.length) :
    (List.zipWith f as bs).map g = as := by
  rw [List.zipWith_comm]
  exact map_zipWith_right (fun b a => h a b) hlength

/-- **The collected names are the declared names of all references.** -/
theorem mem_referencedNames {schemas : List Schema} {name : String} :
    name ∈ referencedNames schemas ↔ ∃ s ∈ schemas, name ∈ s.references.map Name.declaration := by
  simp only [referencedNames, List.mem_eraseDups, List.mem_mergeSort, List.mem_map,
    List.mem_flatMap]
  constructor
  · rintro ⟨r, ⟨s, hs, hr⟩, rfl⟩
    exact ⟨s, hs, r, hr, rfl⟩
  · rintro ⟨s, hs, r, hr, rfl⟩
    exact ⟨r, ⟨s, hs, hr⟩, rfl⟩

/-- What is made of the schemas of a route is made of its request and of its response. -/
theorem Route.map_schemas {α : Type} (f : Schema → α) (route : Route) :
    route.schemas.map f = (route.request.map f).toList ++ [f route.response] := by
  cases h : route.request <;> simp [Route.schemas, h]

/-- What is made of the request or of the response of a route is made of a schema of the routes. -/
theorem Route.exists_schema_of_mem {α : Type} {f : Schema → α} {routes : List Route} {route : Route} {a : α}
    (hroute : route ∈ routes) (h : a ∈ (route.request.map f).toList ++ [f route.response]) :
    ∃ s ∈ routes.flatMap Route.schemas, a = f s := by
  rw [← Route.map_schemas] at h
  obtain ⟨s, hs, rfl⟩ := List.mem_map.1 h
  exact ⟨s, List.mem_flatMap.2 ⟨route, hroute, hs⟩, rfl⟩

variable {doc : Document} {topology : Topology} {table : BindingTable} {s : Schema}
  {route : Route}

/-- There is one identifier for every operation. -/
theorem Document.length_operationIds (doc : Document) :
    doc.operationIds.length = doc.operations.length := by
  rw [operationIds, Name.length_assign, baseIds, List.length_map]

/-- The identifier of an operation is what it asks for, or that with a number. -/
theorem Document.exists_operationId {i : ℕ} {op : Operation} (h : doc.operations[i]? = some op) :
    ∃ id, doc.operationIds[i]? = some id ∧ Name.IsFreshOf op.baseId id := by
  have hbase : doc.baseIds[i]? = some op.baseId := by rw [baseIds, List.getElem?_map, h, Option.map_some]
  exact Name.exists_getElem?_assign hbase []

theorem Document.exists_operation {i : ℕ} {id : String} (h : doc.operationIds[i]? = some id) :
    ∃ op, doc.operations[i]? = some op := by
  have hlt : i < doc.operations.length := by
    rw [← doc.length_operationIds]
    exact (List.getElem?_eq_some_iff.1 h).1
  exact ⟨_, List.getElem?_eq_getElem hlt⟩

theorem RoutePlan.length_routes (doc : Document) (topology : Topology) (table : BindingTable) :
    (ofDocument doc topology table).routes.length = doc.operations.length := by
  rw [ofDocument, List.length_zipWith, doc.length_operationIds, Nat.min_self]

/-- **Every route is that of the operation and the identifier in its place.** -/
theorem RoutePlan.getElem?_routes {i : Nat} {route : Route} :
    (ofDocument doc topology table).routes[i]? = some route ↔ ∃ op id, doc.operations[i]? = some op ∧
      doc.operationIds[i]? = some id ∧ routeOf topology table op id = route :=
  List.getElem?_zipWith_eq_some

/-- A route is that of an operation and of its identifier. -/
theorem RoutePlan.mem_routes_iff : route ∈ (ofDocument doc topology table).routes ↔
    ∃ (i : ℕ) (op : Operation) (id : String), doc.operations[i]? = some op ∧
      doc.operationIds[i]? = some id ∧ routeOf topology table op id = route := by
  simp only [List.mem_iff_getElem?, getElem?_routes]

/-- The routes have the schemas of the operations. -/
theorem RoutePlan.mem_schemas_iff :
    s ∈ (ofDocument doc topology table).routes.flatMap Route.schemas ↔
      ∃ op ∈ doc.operations, s ∈ op.schemas := by
  simp only [List.mem_flatMap, mem_routes_iff]
  constructor
  · rintro ⟨_, ⟨i, op, id, hop, -, rfl⟩, hs⟩
    exact ⟨op, List.mem_of_getElem? hop, hs⟩
  · rintro ⟨op, hop, hs⟩
    obtain ⟨i, hi⟩ := List.mem_iff_getElem?.1 hop
    obtain ⟨id, hid, -⟩ := Document.exists_operationId hi
    exact ⟨_, ⟨i, op, id, hi, hid, rfl⟩, hs⟩

/-- What the routes are made of comes from the operations. -/
theorem RoutePlan.schemas_mem
    (h : s ∈ (ofDocument doc topology table).routes.flatMap Route.schemas) : s ∈ doc.schemas :=
  List.mem_append_right _ (List.mem_flatMap.2 (mem_schemas_iff.1 h))

/-- The routes have the identifiers of the operations, in order. -/
theorem RoutePlan.operationIds_routes :
    (ofDocument doc topology table).routes.map Route.operationId = doc.operationIds :=
  map_zipWith_right (fun _ _ => rfl) doc.length_operationIds

theorem RoutePlan.service?_routeOf {op : Operation} {id : String} :
    (routeOf topology table op id).service? = table.get? id := by
  rw [Route.service?, routeOf, BindingTable.body]
  cases table.get? id <;> rfl

/-- They delegate to what the identifiers are bound to. -/
theorem RoutePlan.services_routes :
    (ofDocument doc topology table).routes.filterMap Route.service? =
      doc.operationIds.filterMap table.get? := by
  rw [← operationIds_routes, List.filterMap_map]
  refine List.filterMap_congr fun route hroute => ?_
  obtain ⟨i, op, id, -, -, rfl⟩ := mem_routes_iff.1 hroute
  exact service?_routeOf

end ApiCodegen
