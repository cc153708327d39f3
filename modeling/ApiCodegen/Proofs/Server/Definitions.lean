import ApiCodegen.Proofs.Name.Legal
import ApiCodegen.Proofs.Plan.Topology
import ApiCodegen.Proofs.Server.Services

/-!
# The router file gives every name once

Groups, handlers and imported functions are named one after the other, and what is named is taken for
all that follow. What comes before them, the names of the file itself and those of the declared types,
is taken from the start.

* `RouterFile.defined`: the names that the file gives.
* `RouterFile.nodup_defined`, `RouterFile.not_mem_taken`: **they are distinct, and none was taken.**
* `RouterFile.legal_routerNames`, `RouterFile.legal_handlerNames`: routers and handlers have legal names,
  whatever the tags and the identifiers of the operations are.
* `RouterFile.defined_once`: **all of this for every layout of a document.**
-/

namespace ApiCodegen.Server.RouterFile

variable {options : ServerOptions} {apiPrefix layoutPrefix name : String} {declarations : List Declaration}
  {plan : RoutePlan} {doc : Document} {tieBreak : TieBreak}

/-- The names that the file gives: to the routers of groups, to handlers and to imported functions. -/
def defined (file : RouterFile) : List String :=
  file.groups.map GroupRouter.name ++ file.handlers.map Handler.name ++
    file.services.map ServiceImport.localName

theorem names_groups : (ofPlan options apiPrefix declarations plan).groups.map GroupRouter.name =
    routerNames declarations plan := by
  refine map_zipWith_left (fun _ _ => rfl) ?_
  rw [Name.length_assign, List.length_map]

/-- Routers and handlers have the assigned names, and the functions those of their imports. -/
theorem defined_eq : (ofPlan options apiPrefix declarations plan).defined =
    routerNames declarations plan ++ handlerNames declarations plan ++
      (ofPlan options apiPrefix declarations plan).services.map ServiceImport.localName := by
  rw [defined, names_groups, names_handlers]

/-! ## Distinct names -/

/-- A router has a name of its own. -/
theorem routerName_not_mem (h : name ∈ routerNames declarations plan) :
    name ∉ takenNames declarations :=
  Name.not_mem_of_mem_assign h

/-- So has a handler, beside the routers. -/
theorem handlerName_not_mem (h : name ∈ handlerNames declarations plan) :
    name ∉ routerNames declarations plan ++ takenNames declarations :=
  Name.not_mem_of_mem_assign h

/-- **The names that the file gives are distinct.** -/
theorem nodup_defined : (ofPlan options apiPrefix declarations plan).defined.Nodup := by
  rw [defined_eq]
  refine List.nodup_append.2 ⟨List.nodup_append.2 ⟨?_, ?_, ?_⟩, nodup_localNames, ?_⟩
  · exact Name.nodup_assign _ _
  · exact Name.nodup_assign _ _
  · rintro router hrouter handler hhandler rfl
    exact handlerName_not_mem hhandler (List.mem_append_left _ hrouter)
  · rintro other hother localName hlocal rfl
    obtain ⟨s, hs, rfl⟩ := List.mem_map.1 hlocal
    -- a function avoids the handlers and the routers alike
    refine localName_not_mem hs (List.mem_append_left _ ?_)
    exact List.mem_append.2 (List.mem_append.1 hother).symm

/-- **None of them was taken**: none is a name of the file itself or of a declared type. -/
theorem not_mem_taken (h : name ∈ (ofPlan options apiPrefix declarations plan).defined) :
    name ∉ takenNames declarations := by
  rw [defined_eq, List.mem_append, List.mem_append] at h
  intro htaken
  rcases h with (hrouter | hhandler) | hlocal
  · exact routerName_not_mem hrouter htaken
  · exact handlerName_not_mem hhandler (List.mem_append_right _ htaken)
  · obtain ⟨s, hs, rfl⟩ := List.mem_map.1 hlocal
    exact localName_not_mem hs (List.mem_append_right _ htaken)

/-! ## Legal names -/

/-- The groups of a layout are named by their tags. -/
theorem exists_groupName
    (h : (Topology.resolve tieBreak layoutPrefix doc).outcome = .ok plan.topology)
    {g : Group} (hg : g ∈ plan.activeGroups) : ∃ tag, g.name = groupName tag := by
  have hgroup := (List.mem_filter.1 hg).1
  rw [Topology.resolve_ok h] at hgroup
  obtain ⟨t, -, rfl⟩ := List.mem_map.1 hgroup
  exact ⟨t.tag, rfl⟩

/-- What is made of the name of a group has an underscore, in place of its hyphen. -/
theorem underscore_mem_sanitize_groupName (tag : String) :
    '_' ∈ (Name.sanitize (groupName tag)).toList := by
  have hhyphen : '-' ∈ (groupName tag).toList := by
    rw [groupName, String.toList_append]
    exact List.mem_append_right _ (by decide)
  exact Name.wordChar_mem_sanitize hhyphen

/-- **The name of a router has an underscore**, with or without a number. -/
theorem underscore_mem_routerName
    (h : (Topology.resolve tieBreak layoutPrefix doc).outcome = .ok plan.topology)
    (hname : name ∈ routerNames declarations plan) : '_' ∈ name.toList := by
  obtain ⟨base, hbase, hfresh⟩ := Name.exists_of_mem_assign hname
  obtain ⟨g, hg, rfl⟩ := List.mem_map.1 hbase
  obtain ⟨tag, htag⟩ := exists_groupName h hg
  rw [htag] at hfresh
  obtain rfl | ⟨n, rfl⟩ := hfresh
  · exact underscore_mem_sanitize_groupName tag
  · rw [Name.toList_numbered]
    exact List.mem_append_left _ (underscore_mem_sanitize_groupName tag)

/-- **Routers have legal names**, whatever the tags are. -/
theorem legal_routerNames
    (h : (Topology.resolve tieBreak layoutPrefix doc).outcome = .ok plan.topology)
    (hname : name ∈ routerNames declarations plan) : Name.Legal Name.serverReserved name := by
  refine ⟨?_, Name.plain_server.not_mem (underscore_mem_routerName h hname) (by decide)⟩
  refine Name.isIdentifier_of_mem_assign (fun base hbase => ?_) hname
  obtain ⟨g, -, rfl⟩ := List.mem_map.1 hbase
  exact Name.isIdentifier_sanitize g.name

/-- **Handlers have legal names**, whatever the identifiers of the operations are. -/
theorem legal_handlerNames (hname : name ∈ handlerNames declarations plan) :
    Name.Legal Name.serverReserved name := by
  refine (Name.family_assign Name.plain_server _ fun base hbase => ?_).legal name hname
  obtain ⟨route, -, rfl⟩ := List.mem_map.1 hbase
  exact Name.legal_server route.operationId

/-- **The router file gives every name once**, for every layout of a document, whatever routes and
declarations stand beside it.

* The names of routers, handlers and imported functions are distinct.
* None of them is a name that the file has otherwise, or that of a declared type.
* Those of routers and handlers are identifiers, and no keywords. -/
theorem defined_once
    (h : (Topology.resolve tieBreak layoutPrefix doc).outcome = .ok plan.topology)
    (options : ServerOptions) (apiPrefix : String) (declarations : List Declaration) :
    let file := ofPlan options apiPrefix declarations plan
    file.defined.Nodup ∧
    (∀ name ∈ file.defined, name ∉ ["datetime", "Any", "Literal", "Optional", "APIRouter",
      "HTTPException", "Path", "api_router", "legacy_router"] ∧
        name ∉ declarations.map Declaration.name) ∧
    ∀ name ∈ file.groups.map GroupRouter.name ++ file.handlers.map Handler.name,
      Name.isIdentifier name.toList ∧ name ∉ Name.serverReserved := by
  intro file
  refine ⟨nodup_defined, fun name hname => ?_, fun name hname => ?_⟩
  · exact not_or.1 fun hmem => not_mem_taken hname (List.mem_append.2 hmem)
  · rw [names_groups, names_handlers] at hname
    rcases List.mem_append.1 hname with hrouter | hhandler
    · exact legal_routerNames h hrouter
    · exact legal_handlerNames hhandler

/-! ## Names that are asked for twice -/

/-- Tags that ask for the names of the other routers, and a type that has the next name of one of
them; an identifier that is a keyword, and another one that is the name of a function. -/
def askedDocument : Document where
  components := [⟨"legacy_router_1", none, .untyped⟩]
  paths := [
    ⟨"/v/x", [{ path := "/v/x", verb := .get, operationId := some "class", tags := ["legacy"] }]⟩,
    ⟨"/v/y", [{ path := "/v/y", verb := .get, operationId := some "run", tags := ["api"] }]⟩]

/-- The function is bound to the operation of its name. -/
def askedTable : BindingTable where
  entries := [⟨"run", "services", "run"⟩]
  distinct := by decide

/-- The routes of `askedDocument`. -/
def askedPlan : RoutePlan :=
  .ofDocument askedDocument (.ofDocument "/v" askedDocument) askedTable

/-- The declarations of `askedDocument`. -/
def askedDeclarations : List Declaration := askedDocument.components.map Declaration.ofComponent

/-- Every name that is taken gets a number or a suffix, and all are distinct and legal. -/
theorem defined_once_asked :
    (Topology.resolve .reject "/v" askedDocument).outcome = .ok askedPlan.topology ∧
    (ofPlan {} "/v" askedDeclarations askedPlan).defined =
      ["legacy_router_2", "api_router_1", "class_", "run", "run_impl"] ∧
    (ofPlan {} "/v" askedDeclarations askedPlan).defined.Nodup ∧
    "legacy_router_2" ∉ askedDeclarations.map Declaration.name ∧ "class_" ∉ Name.serverReserved := by
  have h : (Topology.resolve .reject "/v" askedDocument).outcome = .ok askedPlan.topology := by rfl
  have hdefined : (ofPlan {} "/v" askedDeclarations askedPlan).defined =
      ["legacy_router_2", "api_router_1", "class_", "run", "run_impl"] := by decide +kernel
  obtain ⟨hnodup, hfree, hlegal⟩ := defined_once h {} "/v" askedDeclarations
  refine ⟨h, hdefined, hnodup, (hfree _ ?_).2, (hlegal "class_" ?_).2⟩
  · rw [hdefined]
    exact List.mem_cons_self
  · decide +kernel

end ApiCodegen.Server.RouterFile
