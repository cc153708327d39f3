import ApiCodegen.Proofs.Server.Definitions

/-!
# What the names of the router file mean

The file keeps away from the names that it imports, but not from those that the language defines; the
types that it imports have the names they are declared by, and parameters are named beside each other
only. So an operation can ask for a name that the file uses with another meaning.

* `RouterFile.KeepsMeanings`: no name that is used is given to anything else, and no handler hides one.
* `mem_parameterNames_iff`: a parameter has a name that handlers use if a token of the path has.
* `RouterFile.AskedFor`, `RouterFile.builtin_mem_defined_iff`: **a built-in name is given away if an
  operation asks for it**, and no declared type has it.
* `RouterFile.keepsMeanings_iff`: **for which documents names mean what they are used for.**
* `RouterFile.not_keepsMeanings_str`: an operation whose handler takes the name of a type.
-/

namespace ApiCodegen

variable {doc : Document} {topology : Topology} {table : BindingTable} {route : Route}

namespace Server

/-- The names that the file imports from libraries. -/
def libraryNames : List String :=
  ["datetime", "Any", "Literal", "Optional", "APIRouter", "HTTPException", "Path"]

/-- The names that the file uses and the language defines. -/
def builtinNames : List String := ["str", "int", "float", "bool", "dict", "list", "Exception"]

/-- The names that a handler uses when it calls a function, beside that of the function. -/
def bodyNames : List String := ["HTTPException", "Exception", "str"]

/-- The names of the parameters of a handler. -/
def Handler.parameterNames (h : Handler) : List String :=
  h.params.map PathParam.name ++ (h.request.map Prod.fst).toList

/-- A handler that calls a function hides no name that it uses behind a parameter. -/
def Handler.KeepsMeanings (h : Handler) : Prop :=
  ∀ call, h.call = some call → ∀ name ∈ h.parameterNames, name ≠ call.function ∧ name ∉ bodyNames

/-- **Names mean what they are used for**: the file gives none of them to anything else, and no handler
hides one. -/
structure RouterFile.KeepsMeanings (file : RouterFile) : Prop where
  module : ∀ name ∈ file.models ++ file.defined, name ∉ libraryNames ++ builtinNames
  handlers : ∀ h ∈ file.handlers, h.KeepsMeanings

/-! ## Parameters -/

variable {groups : List GroupRouter} {services : List ServiceImport} {name : String}

/-- The names that a handler asks for: those of the tokens of its path, and `request`. -/
def askedNames (tokens : List String) (request : Option Schema) : List String :=
  tokens.map Name.server ++ (request.map fun _ => "request").toList

theorem Handler.parameterNames_ofRoute : (ofRoute groups services route name).parameterNames =
    Name.assign [] (askedNames route.pathParams route.request) := by
  have hparams : (ofRoute groups services route name).params.map PathParam.name =
      Name.ofTokens Name.server route.pathParams := by
    rw [params_ofRoute]
    exact map_zipWith_left (fun _ _ => rfl) (Name.length_ofTokens _ _)
  rw [parameterNames, hparams, askedNames]
  cases hrequest : route.request with
  | none => simp [ofRoute, hrequest, Name.ofTokens]
  | some request =>
    have hname : (ofRoute groups services route name).request.map Prod.fst =
        some (requestName route.pathParams) := by simp [ofRoute, hrequest]
    rw [hname, Option.toList_some, ← paramNames_eq]
    rfl

/-- The names of built-in types and of a handler's body are given to what asks for them. -/
theorem plain_of_mem (h : name ∈ builtinNames ++ bodyNames) :
    '_' ∉ name.toList ∧ Name.server name = name := by
  revert name
  decide +kernel

/-- A parameter has a name that a handler uses exactly if a token of the path has it. -/
theorem mem_parameterNames_iff {tokens : List String} {request : Option Schema}
    (hname : name ∈ bodyNames) : name ∈ Name.assign [] (askedNames tokens request) ↔ name ∈ tokens := by
  obtain ⟨hunderscore, hserver⟩ := plain_of_mem (List.mem_append_right _ hname)
  have hrequest : name ∉ (request.map fun _ => "request").toList := by
    have hother : "request" ∉ bodyNames := by decide
    intro hmem
    cases request with
    | none => exact List.not_mem_nil hmem
    | some request =>
      obtain rfl : name = "request" := List.mem_singleton.1 hmem
      exact hother hname
  have hasked : askedNames tokens request =
      (tokens ++ (request.map fun _ => "request").toList).map Name.server := by
    cases request <;> simp [askedNames, Name.server_request]
  rw [hasked, Name.mem_assign_server_iff hunderscore hserver, List.mem_append]
  simp only [hrequest, or_false, List.not_mem_nil, not_false_eq_true, and_true]

/-- **A handler that delegates keeps the meanings** if no token has a name that it uses, and no parameter
that of the import. -/
theorem Handler.keepsMeanings_ofRoute_iff {b : Binding} {pass : Bool} (hbody : route.body = .delegate b pass)
    (hone : (services.map ServiceImport.service).Nodup) (hs : ∃ s ∈ services, s.Serves b) :
    (ofRoute groups services route name).KeepsMeanings ↔
      (∀ token ∈ route.pathParams, token ∉ bodyNames) ∧
      ∀ s ∈ services, s.Serves b →
        s.localName ∉ Name.assign [] (askedNames route.pathParams route.request) := by
  obtain ⟨own, hown, hserves, hcall⟩ := callOf_delegate hbody hs
  have hfunction : ∃ call, (ofRoute groups services route name).call = some call ∧
      call.function = own.localName := ⟨_, hcall, rfl⟩
  obtain ⟨call, hcall, hfunction⟩ := hfunction
  simp only [KeepsMeanings, hcall, parameterNames_ofRoute, Option.some.injEq, forall_eq', hfunction]
  constructor
  · intro h
    refine ⟨fun token htoken hbodyName => ?_, fun s hs hserves' hmem => ?_⟩
    · exact (h token ((mem_parameterNames_iff hbodyName).2 htoken)).2 hbodyName
    · -- the import of a binding is the one that is called
      obtain rfl := List.inj_on_of_nodup_map hone hs hown (hserves'.trans hserves.symm)
      exact (h s.localName hmem).1 rfl
  · rintro ⟨htokens, hlocal⟩ other hother
    refine ⟨?_, fun hbodyName => ?_⟩
    · rintro rfl
      exact hlocal own hown hserves hother
    · exact htokens other ((mem_parameterNames_iff hbodyName).1 hother) hbodyName

/-! ## The names that the file gives -/

namespace RouterFile

variable {options : ServerOptions} {apiPrefix layoutPrefix : String} {tieBreak : TieBreak}
  {declarations : List Declaration}

/-- An operation asks for a name: for its handler, or for the function that it is bound to. -/
def AskedFor (doc : Document) (table : BindingTable) (name : String) : Prop :=
  name ∈ doc.operationIds ∨ ∃ id ∈ doc.operationIds, ∃ b, table.get? id = some b ∧ b.function = name

theorem handlerNames_ofDocument : handlerNames declarations (RoutePlan.ofDocument doc topology table) =
    Name.assign (routerNames declarations (RoutePlan.ofDocument doc topology table) ++
      takenNames declarations) (doc.operationIds.map Name.server) := by
  have hids : (RoutePlan.ofDocument doc topology table).routes.map Route.operationId =
      doc.operationIds := RoutePlan.operationIds_routes
  rw [handlerNames, ← hids, List.map_map]
  rfl

/-- **The file gives away a built-in name** if an operation asks for it and no declared type has it. -/
theorem builtin_mem_defined_iff
    (h : (Topology.resolve tieBreak layoutPrefix doc).outcome = .ok topology)
    (hname : name ∈ builtinNames) :
    name ∈ (ofPlan options apiPrefix declarations (RoutePlan.ofDocument doc topology table)).defined ↔
      name ∉ declarations.map Declaration.name ∧ AskedFor doc table name := by
  obtain ⟨hunderscore, hserver⟩ := plain_of_mem (List.mem_append_left _ hname)
  have hrouter : name ∉ routerNames declarations (RoutePlan.ofDocument doc topology table) :=
    fun hmem => hunderscore (underscore_mem_routerName h hmem)
  have htaken : name ∈ takenNames declarations ↔ name ∈ declarations.map Declaration.name := by
    have hfixed : ∀ other ∈ builtinNames, other ∉ fixedNames := by decide +kernel
    rw [takenNames, List.mem_append, or_iff_right (hfixed name hname)]
  have hhandler : name ∈ handlerNames declarations (RoutePlan.ofDocument doc topology table) ↔
      name ∈ doc.operationIds ∧ name ∉ declarations.map Declaration.name := by
    rw [handlerNames_ofDocument, Name.mem_assign_server_iff hunderscore hserver, List.mem_append,
      or_iff_right hrouter, htaken]
  constructor
  · intro hmem
    have hfree := not_mem_taken hmem
    rw [htaken] at hfree
    refine ⟨hfree, ?_⟩
    rw [defined_eq, List.mem_append, List.mem_append] at hmem
    rcases hmem with (hmem | hmem) | hlocal
    · exact absurd hmem hrouter
    · exact .inl (hhandler.1 hmem).1
    · obtain ⟨s, hs, rfl⟩ := List.mem_map.1 hlocal
      obtain ⟨b, hb, hserves⟩ := (ServiceImport.exists_binding hs).resolve_left List.not_mem_nil
      have hfunction := (ServiceImport.localName_eq_or hs).resolve_left List.not_mem_nil
      rw [RoutePlan.services_routes] at hb
      obtain ⟨id, hid, hget⟩ := List.mem_filterMap.1 hb
      exact .inr ⟨id, hid, b, hget,
        (congrArg Prod.snd hserves).symm.trans (hfunction.resolve_right hunderscore).symm⟩
  · rintro ⟨hdeclared, hasked⟩
    rw [defined_eq, List.mem_append, List.mem_append]
    rcases hasked with hid | ⟨id, hid, b, hget, rfl⟩
    · exact .inl (.inr (hhandler.2 ⟨hid, hdeclared⟩))
    · have hb : b ∈ (RoutePlan.ofDocument doc topology table).routes.filterMap Route.service? := by
        rw [RoutePlan.services_routes]
        exact List.mem_filterMap.2 ⟨id, hid, hget⟩
      -- if the name is taken, then by a handler
      rcases ServiceImport.function_mem_or (fun _ hs => absurd hs List.not_mem_nil) hb with hmem | hlocal
      · rcases List.mem_append.1 hmem with hmem | hmem
        · exact .inl (List.mem_append.1 hmem).symm
        · exact absurd (htaken.1 hmem) hdeclared
      · exact .inr (List.mem_map.2 hlocal)

/-- No imported type has one of some names exactly if no operation refers to a type that has. -/
theorem forall_models_iff {names : List String} :
    (∀ name ∈ (ofPlan options apiPrefix declarations
      (RoutePlan.ofDocument doc topology table)).models, name ∉ names) ↔
      ∀ op ∈ doc.operations, ∀ s ∈ op.schemas, ∀ r ∈ s.references, Name.declaration r ∉ names := by
  constructor
  · intro hall op hop s hs r hr
    refine hall _ (mem_referencedNames.2 ⟨s, ?_, List.mem_map_of_mem hr⟩)
    exact RoutePlan.mem_schemas_iff.2 ⟨op, hop, hs⟩
  · intro hall name hname
    obtain ⟨s, hs, hname⟩ := mem_referencedNames.1 hname
    obtain ⟨op, hop, hs⟩ := RoutePlan.mem_schemas_iff.1 hs
    obtain ⟨r, hr, rfl⟩ := List.mem_map.1 hname
    exact hall op hop s hs r hr

theorem forall_defined_iff
    (h : (Topology.resolve tieBreak layoutPrefix doc).outcome = .ok topology) :
    (∀ name ∈ (ofPlan options apiPrefix declarations
      (RoutePlan.ofDocument doc topology table)).defined, name ∉ libraryNames ++ builtinNames) ↔
      ∀ name ∈ builtinNames, AskedFor doc table name → name ∈ declarations.map Declaration.name := by
  constructor
  · intro hall name hname hasked
    by_contra hdeclared
    refine hall name ?_ (List.mem_append_right _ hname)
    exact (builtin_mem_defined_iff h hname).2 ⟨hdeclared, hasked⟩
  · intro hall name hmem hname
    rcases List.mem_append.1 hname with hlibrary | hbuiltin
    · -- the names of libraries are taken from the start
      have hfixed : libraryNames ⊆ fixedNames := by decide
      exact not_mem_taken hmem (List.mem_append_left _ (hfixed hlibrary))
    · obtain ⟨hdeclared, hasked⟩ := (builtin_mem_defined_iff h hbuiltin).1 hmem
      exact hdeclared (hall name hbuiltin hasked)

/-- The handler of a bound operation finds its import. -/
theorem keepsMeanings_routeOf {plan : RoutePlan} {op : Operation} {id : String} {b : Binding}
    (hroute : RoutePlan.routeOf topology table op id ∈ plan.routes) (hget : table.get? id = some b) :
    (Handler.ofRoute (ofPlan options apiPrefix declarations plan).groups
      (ofPlan options apiPrefix declarations plan).services
      (RoutePlan.routeOf topology table op id) name).KeepsMeanings ↔
      (∀ token ∈ pathTokens op.path, token ∉ bodyNames) ∧
      ∀ s ∈ (ofPlan options apiPrefix declarations plan).services, s.Serves b →
        s.localName ∉ Name.assign [] (askedNames (pathTokens op.path) op.request) := by
  have hbody : (RoutePlan.routeOf topology table op id).body = .delegate b op.request.isSome := by
    rw [RoutePlan.routeOf, BindingTable.body, hget]
  have hservice : (RoutePlan.routeOf topology table op id).service? = some b := by
    rw [RoutePlan.service?_routeOf, hget]
  exact Handler.keepsMeanings_ofRoute_iff hbody nodup_services (exists_serves_of_route hroute hservice)

theorem forall_handlers_iff :
    (∀ h ∈ (ofPlan options apiPrefix declarations
      (RoutePlan.ofDocument doc topology table)).handlers, h.KeepsMeanings) ↔
      ∀ (i : ℕ) (op : Operation) (id : String) (b : Binding), doc.operations[i]? = some op →
        doc.operationIds[i]? = some id → table.get? id = some b →
          (∀ token ∈ pathTokens op.path, token ∉ bodyNames) ∧
          ∀ s ∈ (ofPlan options apiPrefix declarations
            (RoutePlan.ofDocument doc topology table)).services, s.Serves b →
              s.localName ∉ Name.assign [] (askedNames (pathTokens op.path) op.request) := by
  constructor
  · intro hall i op id b hop hid hget
    have hroute : (RoutePlan.ofDocument doc topology table).routes[i]? =
        some (RoutePlan.routeOf topology table op id) :=
      RoutePlan.getElem?_routes.2 ⟨op, id, hop, hid, rfl⟩
    obtain ⟨name, hname⟩ : ∃ name,
        (handlerNames declarations (RoutePlan.ofDocument doc topology table))[i]? = some name := by
      refine ⟨_, List.getElem?_eq_getElem ?_⟩
      rw [length_handlerNames]
      exact (List.getElem?_eq_some_iff.1 hroute).1
    have hhandler := hall _ (List.mem_of_getElem? (getElem?_handlers.2 ⟨_, name, hroute, hname, rfl⟩))
    exact (keepsMeanings_routeOf (List.mem_of_getElem? hroute) hget).1 hhandler
  · intro hall handler hhandler
    obtain ⟨i, hi⟩ := List.mem_iff_getElem?.1 hhandler
    obtain ⟨_, name, hroute, -, rfl⟩ := getElem?_handlers.1 hi
    obtain ⟨op, id, hop, hid, rfl⟩ := RoutePlan.getElem?_routes.1 hroute
    cases hget : table.get? id with
    | none =>
      -- nothing is called
      have hbody : (RoutePlan.routeOf topology table op id).body = .stub := by
        rw [RoutePlan.routeOf, BindingTable.body, hget]
      intro call hcall
      exact absurd (hcall.symm.trans (Handler.callOf_stub hbody)) (Option.some_ne_none _)
    | some b =>
      exact (keepsMeanings_routeOf (List.mem_of_getElem? hroute) hget).2 (hall i op id b hop hid hget)

/-- **Names mean what they are used for**, in the router file of a document, exactly if

* no operation refers to a type that is declared by a name that the file uses,
* no operation asks for a built-in name, or it is that of a declared type, and
* no path of a delegating operation has a token with a name that its handler uses, and no parameter of it
  has the name of the import that it calls.

Names that are imported from libraries are given to no router, handler or function. -/
theorem keepsMeanings_iff
    (h : (Topology.resolve tieBreak layoutPrefix doc).outcome = .ok topology) (table : BindingTable)
    (options : ServerOptions) (apiPrefix : String) (declarations : List Declaration) :
    let file := ofPlan options apiPrefix declarations (RoutePlan.ofDocument doc topology table)
    file.KeepsMeanings ↔
      (∀ op ∈ doc.operations, ∀ s ∈ op.schemas, ∀ r ∈ s.references,
        Name.declaration r ∉ libraryNames ++ builtinNames) ∧
      (∀ name ∈ builtinNames, AskedFor doc table name → name ∈ declarations.map Declaration.name) ∧
      ∀ (i : ℕ) (op : Operation) (id : String) (b : Binding), doc.operations[i]? = some op →
        doc.operationIds[i]? = some id → table.get? id = some b →
          (∀ token ∈ pathTokens op.path, token ∉ bodyNames) ∧
          ∀ s ∈ file.services, s.Serves b →
            s.localName ∉ Name.assign [] (askedNames (pathTokens op.path) op.request) := by
  intro file
  rw [← forall_models_iff, ← forall_defined_iff h, ← forall_handlers_iff]
  constructor
  · intro hkeeps
    obtain ⟨hmodels, hdefined⟩ := List.forall_mem_append.1 hkeeps.module
    exact ⟨hmodels, hdefined, hkeeps.handlers⟩
  · rintro ⟨hmodels, hdefined, hhandlers⟩
    exact ⟨List.forall_mem_append.2 ⟨hmodels, hdefined⟩, hhandlers⟩

/-! ## A handler named like a built-in type -/

/-- An operation that asks for the name of the type of texts, and one with a parameter of that type. -/
def strDocument (components : List Component) : Document where
  components := components
  paths := [⟨"/api/v1/x", [{ path := "/api/v1/x", verb := .get, operationId := some "str" }]⟩,
    ⟨"/api/v1/y/\x7bid\x7d",
      [{ path := "/api/v1/y/\x7bid\x7d", verb := .get, operationId := some "get_y" }]⟩]

/-- The second operation is bound to a function. -/
def strTable : BindingTable where
  entries := [⟨"get_y", "services", "load"⟩]
  distinct := by decide

/-- The router file of `strDocument`. -/
def strFile (components : List Component) : RouterFile :=
  ofPlan {} "/api/v1" (components.map Declaration.ofComponent)
    (.ofDocument (strDocument components) (.ofDocument "/api/v1" (strDocument components)) strTable)

theorem operationIds_strDocument (components : List Component) :
    (strDocument components).operationIds = ["str", "get_y"] := by
  have hids : (strDocument []).operationIds = ["str", "get_y"] := by decide +kernel
  exact hids

/-- Where a declared type has the name already, the handler gets another one. -/
theorem keepsMeanings_iff_str :
    (Topology.resolve .reject "/api/v1" (strDocument [⟨"str", none, .untyped⟩])).outcome =
      .ok (.ofDocument "/api/v1" (strDocument [⟨"str", none, .untyped⟩])) ∧
    (strFile [⟨"str", none, .untyped⟩]).defined = ["str_1", "get_y", "load"] ∧
    (strFile [⟨"str", none, .untyped⟩]).KeepsMeanings := by
  have h : (Topology.resolve .reject "/api/v1" (strDocument [⟨"str", none, .untyped⟩])).outcome =
      .ok (.ofDocument "/api/v1" (strDocument [⟨"str", none, .untyped⟩])) := by rfl
  refine ⟨h, by decide +kernel, ?_⟩
  refine (keepsMeanings_iff h strTable {} "/api/v1" _).2 ⟨by decide +kernel, ?_, ?_⟩
  · rintro name hname (hid | ⟨id, hid, b, hget, rfl⟩)
    · rw [operationIds_strDocument] at hid
      revert name
      decide
    · rw [operationIds_strDocument] at hid
      fin_cases hid
      · cases hget
      · obtain rfl := Option.some.inj hget
        revert hname
        decide
  · intro i op id b hop hid hget
    rw [operationIds_strDocument] at hid
    rcases i with _ | _ | i
    · obtain rfl := Option.some.inj hid
      cases hget
    · obtain rfl := Option.some.inj hop
      have hlocal : ∀ s ∈ (strFile [⟨"str", none, .untyped⟩]).services, s.localName = "load" := by
        decide +kernel
      refine ⟨by decide +kernel, fun s hs _ => ?_⟩
      rw [hlocal s hs]
      decide +kernel
    · cases hid

/-- A handler takes the name of the type of texts, which the other handler uses for its parameter. -/
theorem not_keepsMeanings_str : (strDocument []).declarations = .ok [] ∧
    (Topology.resolve .reject "/api/v1" (strDocument [])).outcome =
      .ok (.ofDocument "/api/v1" (strDocument [])) ∧
    (strFile []).defined = ["str", "get_y", "load"] ∧ ¬ (strFile []).KeepsMeanings := by
  have hdefined : (strFile []).defined = ["str", "get_y", "load"] := by decide +kernel
  refine ⟨rfl, rfl, hdefined, fun hkeeps => ?_⟩
  refine hkeeps.module "str" (List.mem_append_right _ ?_) (by decide)
  rw [hdefined]
  exact List.mem_cons_self

end RouterFile

end Server

end ApiCodegen
