import ApiCodegen.Proofs.Plan.Partition
import ApiCodegen.Proofs.Server.Statement

/-!
# Routers are defined, used and included together

Which groups get a router is decided by their members, and which router a handler gets by the place of
its operation. The two agree on which routers are needed, unless an operation is given twice: then it is
a member of two groups and has its place in one.

* `RouterFile.exists_groupRouter`: **the router of a group is found**, so no handler of a group falls
  back to the aggregate router.
* `RouterFile.Mounts`: what the file has to do with its routers.
* `RouterFile.mounts`: **every file does this**, and the groups that it includes are those that have
  handlers, if and only if every group that an operation asks for has one.
-/

namespace ApiCodegen

variable {apiPrefix tag : String} {doc : Document} {op : Operation} {g : Group}

/-! ## Places of operations -/

namespace Topology

/-- Whether an operation is a legacy operation depends on its path. -/
theorem placement_eq_legacy_iff (hop : op ∈ doc.operations) :
    (ofDocument apiPrefix doc).placement op.key = .legacy ↔ slotOf apiPrefix op = .legacy := by
  obtain ⟨other, -, hkey, hslot⟩ := exists_slotOf_eq_placement apiPrefix hop
  have hpath : other.path = op.path := congrArg OperationKey.path hkey
  rw [← hslot, slotOf_eq_legacy, slotOf_eq_legacy, hpath]

theorem mem_membersOf {slot : Slot} {ops : List Operation} (hop : op ∈ ops)
    (h : slotOf apiPrefix op = slot) : op.key ∈ membersOf apiPrefix slot ops :=
  List.mem_map_of_mem (List.mem_filter.2 ⟨hop, decide_eq_true h⟩)

theorem exists_of_mem_membersOf {slot : Slot} {ops : List Operation} {key : OperationKey}
    (h : key ∈ membersOf apiPrefix slot ops) : ∃ op ∈ ops, slotOf apiPrefix op = slot := by
  obtain ⟨op, hop, -⟩ := List.mem_map.1 h
  obtain ⟨hop, hslot⟩ := List.mem_filter.1 hop
  exact ⟨op, hop, of_decide_eq_true hslot⟩

/-- Groups are named by their tags, and have the operations of their tags for members. -/
theorem of_mem_groups (hg : g ∈ (ofDocument apiPrefix doc).groups) : ∃ tag, g.tags = [tag] ∧
    g.name = groupName tag ∧ g.members = membersOf apiPrefix (.group tag) doc.operations := by
  obtain ⟨t, -, rfl⟩ := List.mem_map.1 hg
  exact ⟨t.tag, rfl, rfl, rfl⟩

/-- The group of an operation has members. -/
theorem members_ne_nil (hg : g ∈ (ofDocument apiPrefix doc).groups) (htags : g.tags = [tag])
    (hop : op ∈ doc.operations) (hslot : slotOf apiPrefix op = .group tag) : g.members ≠ [] := by
  obtain ⟨own, htag, -, hmembers⟩ := of_mem_groups hg
  obtain rfl : own = tag := by simpa [htag] using htags
  rw [hmembers]
  exact List.ne_nil_of_mem (mem_membersOf hop hslot)

end Topology

theorem groupName_injective : Function.Injective groupName := by
  intro tag other heq
  have hchars := congrArg String.toList heq
  simp only [groupName, String.toList_append, List.append_cancel_right_eq] at hchars
  exact String.toList_inj.1 hchars

/-- Whether an operation has its place in a group. -/
def RoutePlan.hasHandler (plan : RoutePlan) (g : Group) : Bool :=
  plan.routes.any fun route => g.tags.any fun tag => route.slot = .group tag

namespace Server

open ApiCodegen.Topology

variable {options : ServerOptions} {routerPrefix : String} {declarations : List Declaration}
  {plan : RoutePlan} {route : Route} {router : String} {tieBreak : TieBreak} {table : BindingTable}
  {topology : ApiCodegen.Topology}

/-! ## The routers of handlers -/

namespace RouterFile

theorem groups_groups : (ofPlan options routerPrefix declarations plan).groups.map GroupRouter.group =
    plan.activeGroups := by
  refine map_zipWith_right (fun _ _ => rfl) ?_
  rw [Name.length_assign, List.length_map]

/-- A handler has the router that its slot stands for. -/
theorem routers_handlers :
    (ofPlan options routerPrefix declarations plan).handlers.map Handler.router =
      plan.routes.map fun route =>
        Handler.routerOf (ofPlan options routerPrefix declarations plan).groups route.slot := by
  have hlength : plan.routes.length ≤ (handlerNames declarations plan).length :=
    length_handlerNames.ge
  have hfst := List.map_fst_zip hlength
  change (List.zipWith _ plan.routes (handlerNames declarations plan)).map Handler.router = _
  rw [← List.map_uncurry_zip_eq_zipWith, List.map_map]
  conv_rhs => rw [← hfst, List.map_map]
  rfl

/-- A route has the place of its operation. -/
theorem exists_operation
    (h : route ∈ (RoutePlan.ofDocument doc (ofDocument apiPrefix doc) table).routes) :
    ∃ op ∈ doc.operations, route.slot = (ofDocument apiPrefix doc).placement op.key := by
  obtain ⟨i, op, id, hop, -, rfl⟩ := RoutePlan.mem_routes_iff.1 h
  exact ⟨op, List.mem_of_getElem? hop, rfl⟩

/-- Every operation has a route. -/
theorem exists_route (apiPrefix : String) (hop : op ∈ doc.operations) (table : BindingTable) :
    ∃ route ∈ (RoutePlan.ofDocument doc (ofDocument apiPrefix doc) table).routes,
      route.slot = (ofDocument apiPrefix doc).placement op.key := by
  obtain ⟨i, hi⟩ := List.mem_iff_getElem?.1 hop
  obtain ⟨id, hid, -⟩ := Document.exists_operationId hi
  exact ⟨_, RoutePlan.mem_routes_iff.2 ⟨i, op, id, hi, hid, rfl⟩, rfl⟩

/-- **The router of a group is found**: an operation with a place in a group has it on a router of the
file. -/
theorem exists_groupRouter (options : ServerOptions) (routerPrefix : String)
    (declarations : List Declaration) (htopology : plan.topology = ofDocument apiPrefix doc)
    (h : (ofDocument apiPrefix doc).placement op.key = .group tag) :
    ∃ r ∈ (ofPlan options routerPrefix declarations plan).groups,
      r.group ∈ plan.topology.groups ∧ r.group.tags = [tag] ∧
        Handler.routerOf (ofPlan options routerPrefix declarations plan).groups (.group tag) =
          r.name := by
  have hne : (ofDocument apiPrefix doc).placement op.key ≠ .legacy := by simp [h]
  obtain ⟨other, hother, -, hslot⟩ := (placement_cases apiPrefix doc op.key).resolve_left hne
  obtain ⟨g, hg⟩ := exists_group hother (hslot.trans h)
  obtain ⟨hgroup, htags, hname⟩ := of_groupOfTag? hg
  have hactive : g ∈ plan.activeGroups := by
    refine List.mem_filter.2 ⟨htopology ▸ hgroup, ?_⟩
    simpa using members_ne_nil hgroup htags hother (hslot.trans h)
  set file := ofPlan options routerPrefix declarations plan
  have hgroups : file.groups.map GroupRouter.group = plan.activeGroups := groups_groups
  -- so the search among the routers does not fail
  rw [← hgroups] at hactive
  obtain ⟨known, hknown, rfl⟩ := List.mem_map.1 hactive
  cases hfind : file.groups.find? fun r => r.group.name = groupName tag with
  | none =>
    have hnot := List.find?_eq_none.1 hfind known hknown
    simp [hname] at hnot
  | some r =>
    have hr : r ∈ file.groups := List.mem_of_find?_eq_some hfind
    have hrname : r.group.name = groupName tag := by simpa using List.find?_some hfind
    have hractive : r.group ∈ plan.activeGroups := by
      rw [← hgroups]
      exact List.mem_map_of_mem hr
    have hrgroup : r.group ∈ plan.topology.groups := (List.mem_filter.1 hractive).1
    obtain ⟨own, hrtags, hrown, -⟩ := of_mem_groups (htopology ▸ hrgroup)
    obtain rfl := groupName_injective (hrown.symm.trans hrname)
    refine ⟨r, hr, hrgroup, hrtags, ?_⟩
    rw [Handler.routerOf, hfind]

end RouterFile

namespace RouterStatement

/-- The router that a handler is registered on. -/
def registered? : RouterStatement → Option String
  | .registers router => some router
  | _ => none

/-- The router that is included. -/
def included? : RouterStatement → Option String
  | .includes router => some router
  | _ => none

end RouterStatement

namespace RouterFile

/-! ## What a file has to do -/

/-- The routers of the handlers, in order. -/
def registered (file : RouterFile) : List String :=
  file.statements.filterMap RouterStatement.registered?

/-- The routers that are included, in order. -/
def included (file : RouterFile) : List String :=
  file.statements.filterMap RouterStatement.included?

/-- A name is defined for a group: with its prefix and its tags. -/
def Routes (file : RouterFile) (g : Group) (router : String) : Prop :=
  (GroupRouter.mk router g).line ∈ file.lines

/-- The router of a route is the one that it is planned for. -/
def Places (file : RouterFile) (plan : RoutePlan) (route : Route) (router : String) : Prop :=
  match route.slot with
  | .legacy => router = legacyVariable
  | .aggregate => router = aggregateVariable
  | .group tag => router ≠ legacyVariable ∧ router ≠ aggregateVariable ∧
      ∃ g ∈ plan.topology.groups, g.tags = [tag] ∧ file.Routes g router

/-- **What a file has to do with its routers.** -/
structure Mounts (file : RouterFile) (plan : RoutePlan) : Prop where
  /-- Where a handler is registered, its router has been defined, once and for all. -/
  defined : ∀ before router after, file.statements = before ++ .registers router :: after →
    before.count (.defines router) = 1 ∧ .defines router ∉ after
  registered : List.Forall₂ (file.Places plan) plan.routes file.registered
  legacy_iff : .defines legacyVariable ∈ file.statements ↔ legacyVariable ∈ file.registered
  /-- The groups that have members are included, in order. -/
  included : List.Forall₂ file.Routes
    (plan.topology.groups.filter fun g => !g.members.isEmpty) file.included
  once : file.included.Nodup
  others : legacyVariable ∉ file.included ∧ aggregateVariable ∉ file.included
  handled : ∀ g ∈ plan.topology.groups, plan.hasHandler g → ∃ router ∈ file.included, file.Routes g router

/-- The groups that have handlers are included in order, and nothing else is. -/
def IncludesHandled (file : RouterFile) (plan : RoutePlan) : Prop :=
  List.Forall₂ file.Routes (plan.topology.groups.filter plan.hasHandler) file.included

/-! ## What the file does -/

variable {file : RouterFile}

/-- The routers of the groups are defined in the file. -/
theorem routes_of_mem {r : GroupRouter} (hr : r ∈ file.groups) : file.Routes r.group r.name := by
  have hline : r.line ∈ file.routerLines :=
    List.mem_append_left _ (List.mem_append_left _ (List.mem_map_of_mem hr))
  unfold Routes lines
  simp only [List.mem_append]
  exact .inl (.inl (.inr hline))

/-- The router of a group is none of those that stand for no group. -/
theorem routerName_ne {router : String} (h : router ∈ routerNames declarations plan) :
    router ≠ legacyVariable ∧ router ≠ aggregateVariable := by
  have htaken := routerName_not_mem h
  constructor
  · rintro rfl
    exact htaken (List.mem_append_left _ (by decide))
  · rintro rfl
    exact htaken (List.mem_append_left _ (by decide))

theorem nodup_routers : (ofPlan options routerPrefix declarations plan).routers.Nodup := by
  have hnames : (routerNames declarations plan).Nodup := Name.nodup_assign _ _
  have hdistinct : legacyVariable ≠ aggregateVariable := by decide
  rw [routers, names_groups]
  cases (ofPlan options routerPrefix declarations plan).legacyTags with
  | none =>
    refine List.nodup_append.2 ⟨by simpa using hnames, List.nodup_singleton _, ?_⟩
    intro router hrouter other hother
    rw [List.mem_singleton.1 hother]
    exact (routerName_ne (by simpa using hrouter)).2
  | some tags =>
    simp only [Option.map_some, Option.toList_some, List.append_assoc]
    refine List.nodup_append.2 ⟨hnames, by simpa using hdistinct, ?_⟩
    intro router hrouter other hother
    obtain rfl | rfl : other = legacyVariable ∨ other = aggregateVariable := by simpa using hother
    · exact (routerName_ne hrouter).1
    · exact (routerName_ne hrouter).2

/-- The legacy router is one of the routers if there is a legacy operation. -/
theorem legacyVariable_mem_routers :
    legacyVariable ∈ (ofPlan options routerPrefix declarations plan).routers ↔
      plan.hasLegacyRoutes = true := by
  have hfree : legacyVariable ∉ routerNames declarations plan := fun hmem => (routerName_ne hmem).1 rfl
  have hdistinct : legacyVariable ≠ aggregateVariable := by decide
  rw [routers, names_groups]
  by_cases hlegacy : plan.hasLegacyRoutes = true
  · simp [ofPlan, hlegacy]
  · simp [ofPlan, hlegacy, hfree, hdistinct]

section Layout

variable (hplan : plan = .ofDocument doc (ofDocument apiPrefix doc) table)

include hplan

theorem hasLegacyRoutes_iff : plan.hasLegacyRoutes = true ↔ ∃ route ∈ plan.routes, route.slot = .legacy := by
  subst hplan
  have hlegacy : (RoutePlan.ofDocument doc (ofDocument apiPrefix doc) table).hasLegacyRoutes = true ↔
      membersOf apiPrefix .legacy doc.operations ≠ [] := by
    simp [RoutePlan.hasLegacyRoutes, RoutePlan.ofDocument, ofDocument]
  rw [hlegacy]
  constructor
  · intro hne
    obtain ⟨key, hkey⟩ := List.exists_mem_of_ne_nil _ hne
    obtain ⟨op, hop, hslot⟩ := exists_of_mem_membersOf hkey
    obtain ⟨route, hroute, hplace⟩ := exists_route apiPrefix hop table
    exact ⟨route, hroute, hplace.trans ((placement_eq_legacy_iff hop).2 hslot)⟩
  · rintro ⟨route, hroute, hslot⟩
    obtain ⟨op, hop, hplace⟩ := exists_operation hroute
    have hown := (placement_eq_legacy_iff hop).1 (hplace.symm.trans hslot)
    exact List.ne_nil_of_mem (mem_membersOf hop hown)

/-- **The router of a route is the one that it is planned for, and it is defined.** -/
theorem places_routerOf (options : ServerOptions) (routerPrefix : String)
    (declarations : List Declaration) (hroute : route ∈ plan.routes) :
    let file := ofPlan options routerPrefix declarations plan
    file.Places plan route (Handler.routerOf file.groups route.slot) ∧
      Handler.routerOf file.groups route.slot ∈ file.routers := by
  intro file
  have hlegacy := hasLegacyRoutes_iff hplan
  cases hslot : route.slot with
  | legacy =>
    have htags : file.legacyTags = some plan.topology.legacy.tags :=
      if_pos (hlegacy.2 ⟨route, hroute, hslot⟩)
    refine ⟨by simp only [Places, hslot]; rfl, ?_⟩
    rw [routers, htags]
    exact List.mem_append_left _ (List.mem_append_right _ List.mem_cons_self)
  | aggregate =>
    refine ⟨by simp only [Places, hslot]; rfl, ?_⟩
    exact List.mem_append_right _ List.mem_cons_self
  | group tag =>
    have htopology : plan.topology = ofDocument apiPrefix doc := by rw [hplan]; rfl
    rw [hplan] at hroute
    obtain ⟨op, hop, hplace⟩ := exists_operation hroute
    obtain ⟨r, hr, hgroup, htags, hrouter⟩ := exists_groupRouter options routerPrefix
      declarations htopology (hplace.symm.trans hslot)
    have hname : r.name ∈ file.groups.map GroupRouter.name := List.mem_map_of_mem hr
    have hfree := routerName_not_mem (names_groups ▸ hname)
    rw [hrouter]
    refine ⟨?_, List.mem_append_left _ (List.mem_append_left _ hname)⟩
    simp only [Places, hslot]
    refine ⟨?_, ?_, r.group, hgroup, htags, routes_of_mem hr⟩
    · intro heq
      exact hfree (List.mem_append_left _ (heq ▸ by decide))
    · intro heq
      exact hfree (List.mem_append_left _ (heq ▸ by decide))

/-- The file of a layout, read line by line. -/
theorem statements_ofPlan (options : ServerOptions) (routerPrefix : String)
    (declarations : List Declaration) :
    (ofPlan options routerPrefix declarations plan).statements =
      (ofPlan options routerPrefix declarations plan).planned := by
  set file := ofPlan options routerPrefix declarations plan with hfile
  have hresolve : (resolve .firstSeen apiPrefix doc).outcome = .ok plan.topology := by
    rw [hplan]
    rfl
  have hgroups : ∀ r ∈ file.groups, Name.Legal Name.serverReserved r.name := by
    intro r hr
    have hname : r.name ∈ file.groups.map GroupRouter.name := List.mem_map_of_mem hr
    rw [names_groups] at hname
    exact legal_routerNames hresolve hname
  have hrouters : ∀ router ∈ file.routers, Name.isIdentifier router.toList := by
    intro router hrouter
    rcases List.mem_append.1 hrouter with hrouter | hrouter
    · rcases List.mem_append.1 hrouter with hgroup | hlegacy
      · obtain ⟨r, hr, rfl⟩ := List.mem_map.1 hgroup
        exact (hgroups r hr).1
      · cases htags : file.legacyTags with
        | none => simp [htags] at hlegacy
        | some tags =>
          obtain rfl : router = legacyVariable := by simpa [htags] using hlegacy
          decide
    · rw [List.mem_singleton.1 hrouter]
      decide
  refine statements_eq hgroups fun h hh => hrouters _ ?_
  have hrouter : h.router ∈ file.handlers.map Handler.router := List.mem_map_of_mem hh
  rw [routers_handlers] at hrouter
  obtain ⟨route, hroute, heq⟩ := List.mem_map.1 hrouter
  rw [← heq]
  exact (places_routerOf hplan options routerPrefix declarations hroute).2

end Layout

theorem registered_eq (h : file.statements = file.planned) :
    file.registered = file.handlers.map Handler.router := by
  rw [registered, h, planned]
  simp [List.filterMap_append, List.filterMap_map, Function.comp_def, RouterStatement.registered?]

theorem included_eq (h : file.statements = file.planned) :
    file.included = file.groups.map GroupRouter.name := by
  rw [included, h, planned]
  simp [List.filterMap_append, List.filterMap_map, Function.comp_def, RouterStatement.included?]

/-- A router is defined in the file if it is one of its routers. -/
theorem defines_mem_iff (h : file.statements = file.planned) :
    .defines router ∈ file.statements ↔ router ∈ file.routers := by
  rw [h, planned]
  simp

/-- **Every router is defined once, and before a handler is registered on it**, if the routers have
distinct names and handlers are registered on routers of the file. -/
theorem defined_before (h : file.statements = file.planned) (hnodup : file.routers.Nodup)
    (hrouters : ∀ router ∈ file.registered, router ∈ file.routers)
    {before after : List RouterStatement}
    (hsplit : file.statements = before ++ .registers router :: after) :
    before.count (.defines router) = 1 ∧ .defines router ∉ after := by
  -- what stands behind a handler defines nothing
  have hafter : .defines router ∉ after := by
    set behind : List RouterStatement := file.handlers.map (fun h => .registers h.router) ++
      file.groups.map fun r => .includes r.name with hbehind
    have hnone : .defines router ∉ behind := by
      rw [hbehind]
      simp
    have heq : file.routers.map .defines ++ behind = before ++ .registers router :: after := by
      rw [← hsplit, h, planned, List.append_assoc]
    rcases List.append_eq_append_iff.1 heq with ⟨middle, -, hmiddle⟩ | ⟨middle, hdefines, hmiddle⟩
    · rw [hmiddle] at hnone
      intro hmem
      exact hnone (List.mem_append_right _ (List.mem_cons_of_mem _ hmem))
    · cases middle with
      | nil =>
        intro hmem
        rw [List.nil_append] at hmiddle
        exact hnone (hmiddle ▸ List.mem_cons_of_mem _ hmem)
      | cons first middle =>
        obtain ⟨rfl, -⟩ := List.cons.inj hmiddle
        have hfirst : RouterStatement.registers router ∈ file.routers.map .defines := by
          rw [hdefines]
          exact List.mem_append_right _ List.mem_cons_self
        simp at hfirst
  have hrouter : router ∈ file.routers := by
    refine hrouters router (List.mem_filterMap.2 ⟨.registers router, ?_, rfl⟩)
    rw [hsplit]
    exact List.mem_append_right _ List.mem_cons_self
  have hall : file.statements.count (.defines router) = 1 := by
    have hinj : Function.Injective RouterStatement.defines := fun a b heq =>
      RouterStatement.defines.inj heq
    have hdefined : (file.routers.map RouterStatement.defines).count (.defines router) = 1 := by
      rw [List.count_map_of_injective _ _ hinj]
      exact List.count_eq_one_of_mem hnodup hrouter
    have hothers : RouterStatement.defines router ∉ file.handlers.map (fun h => .registers h.router) ++
        file.groups.map fun r => .includes r.name := by simp
    rw [h, planned, List.append_assoc, List.count_append, hdefined, List.count_eq_zero.2 hothers]
  rw [hsplit, List.count_append, List.count_cons_of_ne (by simp), List.count_eq_zero.2 hafter] at hall
  exact ⟨hall, hafter⟩

section Layout

variable (hplan : plan = .ofDocument doc (ofDocument apiPrefix doc) table)

include hplan

/-- A group that has a handler has members. -/
theorem members_of_hasHandler (hg : g ∈ plan.topology.groups) (h : plan.hasHandler g) :
    g.members ≠ [] := by
  subst hplan
  obtain ⟨route, hroute, htag⟩ := List.any_eq_true.1 h
  obtain ⟨tag, hmem, hslot⟩ := List.any_eq_true.1 htag
  obtain ⟨op, -, hplace⟩ := exists_operation hroute
  have hplaced := hplace.symm.trans (of_decide_eq_true hslot)
  have hne : (ofDocument apiPrefix doc).placement op.key ≠ .legacy := by simp [hplaced]
  obtain ⟨other, hother, -, hown⟩ := (placement_cases apiPrefix doc op.key).resolve_left hne
  obtain ⟨own, htags, -⟩ := of_mem_groups hg
  obtain rfl : tag = own := by simpa [htags] using hmem
  exact members_ne_nil hg htags hother (hown.trans hplaced)

/-- A group of a tag has a handler if an operation has its place there. -/
theorem hasHandler_iff (htags : g.tags = [tag]) : plan.hasHandler g ↔
    ∃ op ∈ doc.operations, (ofDocument apiPrefix doc).placement op.key = .group tag := by
  subst hplan
  simp only [RoutePlan.hasHandler, htags, List.any_cons, List.any_nil, Bool.or_false, List.any_eq_true,
    decide_eq_true_eq]
  constructor
  · rintro ⟨route, hroute, hslot⟩
    obtain ⟨op, hop, hplace⟩ := exists_operation hroute
    exact ⟨op, hop, hplace.symm.trans hslot⟩
  · rintro ⟨op, hop, hplaced⟩
    obtain ⟨route, hroute, hplace⟩ := exists_route apiPrefix hop table
    exact ⟨route, hroute, hplace.trans hplaced⟩

/-- Every group with members has a handler if every group that an operation asks for has one. -/
theorem forall_hasHandler_iff :
    (∀ g ∈ plan.topology.groups, g.members ≠ [] → plan.hasHandler g) ↔
      ∀ op ∈ doc.operations, ∀ tag, slotOf apiPrefix op = .group tag →
        ∃ other ∈ doc.operations, (ofDocument apiPrefix doc).placement other.key = .group tag := by
  have htopology : plan.topology = ofDocument apiPrefix doc := by
    rw [hplan]
    rfl
  constructor
  · intro hall op hop tag hslot
    obtain ⟨g, hg⟩ := exists_group hop hslot
    obtain ⟨hgroup, htags, -⟩ := of_groupOfTag? hg
    have hmembers := members_ne_nil hgroup htags hop hslot
    exact (hasHandler_iff hplan htags).1 (hall g (htopology ▸ hgroup) hmembers)
  · intro hall g hg hmembers
    obtain ⟨tag, htags, -, heq⟩ := of_mem_groups (htopology ▸ hg)
    rw [heq] at hmembers
    obtain ⟨key, hkey⟩ := List.exists_mem_of_ne_nil _ hmembers
    obtain ⟨op, hop, hslot⟩ := exists_of_mem_membersOf hkey
    exact (hasHandler_iff hplan htags).2 (hall op hop tag hslot)

/-- The groups that have members are included, in order. -/
theorem forall₂_included (options : ServerOptions) (routerPrefix : String)
    (declarations : List Declaration) :
    List.Forall₂ (ofPlan options routerPrefix declarations plan).Routes
      (plan.topology.groups.filter fun g => !g.members.isEmpty)
      (ofPlan options routerPrefix declarations plan).included := by
  set file := ofPlan options routerPrefix declarations plan
  have hgroups : (plan.topology.groups.filter fun g => !g.members.isEmpty) =
      file.groups.map GroupRouter.group := groups_groups.symm
  rw [hgroups, included_eq (statements_ofPlan hplan options routerPrefix declarations),
    List.forall₂_map_left_iff, List.forall₂_map_right_iff, List.forall₂_same]
  exact fun r hr => routes_of_mem hr

/-- **The file includes the groups that have handlers and nothing else** if and only if every group with
members has a handler. -/
theorem includesHandled_iff_forall (options : ServerOptions) (routerPrefix : String)
    (declarations : List Declaration) :
    (ofPlan options routerPrefix declarations plan).IncludesHandled plan ↔
      ∀ g ∈ plan.topology.groups, g.members ≠ [] → plan.hasHandler g := by
  have hincluded := forall₂_included hplan options routerPrefix declarations
  have hsub : ∀ g ∈ plan.topology.groups, plan.hasHandler g → (!g.members.isEmpty) = true := by
    intro g hg hhandler
    simpa using members_of_hasHandler hplan hg hhandler
  -- the groups with handlers are some of the groups with members
  have hfilter : plan.topology.groups.filter plan.hasHandler =
      (plan.topology.groups.filter fun g => !g.members.isEmpty).filter plan.hasHandler := by
    rw [List.filter_filter]
    refine List.filter_congr fun g hg => ?_
    cases hhandler : plan.hasHandler g with
    | false => rfl
    | true => simp [hsub g hg hhandler]
  constructor
  · intro hhandled g hg hmembers
    have hlength := hhandled.length_eq.trans hincluded.length_eq.symm
    rw [hfilter, List.length_filter_eq_length_iff] at hlength
    exact hlength g (List.mem_filter.2 ⟨hg, by simpa using hmembers⟩)
  · intro hall
    have heq : (plan.topology.groups.filter fun g => !g.members.isEmpty).filter plan.hasHandler =
        plan.topology.groups.filter fun g => !g.members.isEmpty := by
      refine List.filter_eq_self.2 fun g hg => ?_
      obtain ⟨hg, hmembers⟩ := List.mem_filter.1 hg
      exact hall g hg (by simpa using hmembers)
    rw [IncludesHandled, hfilter, heq]
    exact hincluded

/-- **Every file does with its routers what it has to do.** -/
theorem mounts_ofPlan (options : ServerOptions) (routerPrefix : String)
    (declarations : List Declaration) :
    (ofPlan options routerPrefix declarations plan).Mounts plan := by
  have hincluded := forall₂_included hplan options routerPrefix declarations
  have hlegacy := hasLegacyRoutes_iff hplan
  have hstatements := statements_ofPlan hplan options routerPrefix declarations
  have hregistered := registered_eq hstatements
  have hnames := included_eq hstatements
  have hplaces (route : Route) (hroute : route ∈ plan.routes) :=
    places_routerOf hplan options routerPrefix declarations hroute
  set file := ofPlan options routerPrefix declarations plan with hfile
  have hrouters : file.handlers.map Handler.router =
      plan.routes.map fun route => Handler.routerOf file.groups route.slot := routers_handlers
  rw [hrouters] at hregistered
  have hfree : ∀ router ∈ file.included, router ≠ legacyVariable ∧ router ≠ aggregateVariable := by
    intro router hrouter
    rw [hnames, hfile, names_groups] at hrouter
    exact routerName_ne hrouter
  refine {
    defined := ?defined
    registered := ?registered
    legacy_iff := ?legacy_iff
    included := hincluded
    once := ?once
    others := ⟨fun hmem => (hfree _ hmem).1 rfl, fun hmem => (hfree _ hmem).2 rfl⟩
    handled := ?handled }
  case defined =>
    intro before router after hsplit
    refine defined_before hstatements nodup_routers (fun router hrouter => ?_) hsplit
    rw [hregistered] at hrouter
    obtain ⟨route, hroute, rfl⟩ := List.mem_map.1 hrouter
    exact (hplaces route hroute).2
  case registered =>
    rw [hregistered, List.forall₂_map_right_iff, List.forall₂_same]
    exact fun route hroute => (hplaces route hroute).1
  case legacy_iff =>
    rw [defines_mem_iff hstatements, hregistered, hfile, legacyVariable_mem_routers, hlegacy, List.mem_map]
    constructor
    · rintro ⟨route, hroute, hslot⟩
      exact ⟨route, hroute, by rw [hslot]; rfl⟩
    · rintro ⟨route, hroute, hrouter⟩
      have hplace := (hplaces route hroute).1
      unfold Places at hplace
      split at hplace
      · rename_i hslot
        exact ⟨route, hroute, hslot⟩
      · exact absurd (hplace.symm.trans hrouter) (by decide)
      · exact absurd hrouter hplace.1
  case once =>
    rw [hnames, hfile, names_groups]
    exact Name.nodup_assign _ _
  case handled =>
    intro g hg hhandler
    have hactive : g ∈ plan.activeGroups :=
      List.mem_filter.2 ⟨hg, by simpa using members_of_hasHandler hplan hg hhandler⟩
    have hgroups : file.groups.map GroupRouter.group = plan.activeGroups := groups_groups
    rw [← hgroups] at hactive
    obtain ⟨r, hr, rfl⟩ := List.mem_map.1 hactive
    exact ⟨r.name, hnames ▸ List.mem_map_of_mem hr, routes_of_mem hr⟩

end Layout

/-- **Routers are defined, used and included together**, for every layout of a document.

* The file does with its routers what it has to do.
* The groups that it includes are those that have handlers, if and only if every group that an
  operation asks for has one.
* This is so if no path and verb have two operations. -/
theorem mounts (h : (resolve tieBreak apiPrefix doc).outcome = .ok topology) (options : ServerOptions)
    (routerPrefix : String) (declarations : List Declaration) (table : BindingTable) :
    let plan := RoutePlan.ofDocument doc topology table
    let file := ofPlan options routerPrefix declarations plan
    file.Mounts plan ∧
    (file.IncludesHandled plan ↔ ∀ op ∈ doc.operations, ∀ tag, slotOf apiPrefix op = .group tag →
      ∃ other ∈ doc.operations, topology.placement other.key = .group tag) ∧
    ((doc.operations.map Operation.key).Nodup → file.IncludesHandled plan) := by
  obtain rfl := resolve_ok h
  intro plan file
  have hplan : plan = .ofDocument doc (ofDocument apiPrefix doc) table := rfl
  have hiff := (includesHandled_iff_forall hplan options routerPrefix declarations).trans
    (forall_hasHandler_iff hplan)
  refine ⟨mounts_ofPlan hplan options routerPrefix declarations, hiff, fun hkeys => ?_⟩
  refine hiff.2 fun op hop tag hslot => ⟨op, hop, ?_⟩
  rw [placement_of_mem hkeys hop, hslot]


/-- The routes of a document, without bindings. -/
def unboundPlan (apiPrefix : String) (doc : Document) : RoutePlan :=
  .ofDocument doc (ofDocument apiPrefix doc) ⟨[], List.nodup_nil⟩

/-- Handlers on all kinds of routers. The group of the tag `b` has no members and gets no router. -/
theorem mounts_mixed :
    let plan := unboundPlan "/v" mixedDocument
    let file := ofPlan {} "/v" [] plan
    (resolve .firstSeen "/v" mixedDocument).outcome = .ok plan.topology ∧
    (mixedDocument.operations.map Operation.key).Nodup ∧
    file.statements = [.defines "a_router", .defines legacyVariable, .defines aggregateVariable,
      .registers "a_router", .registers aggregateVariable, .registers legacyVariable,
      .registers "a_router", .includes "a_router"] ∧
    file.Mounts plan ∧ file.IncludesHandled plan := by
  intro plan file
  have hresolve : (resolve .firstSeen "/v" mixedDocument).outcome = .ok plan.topology := by rfl
  have hkeys : (mixedDocument.operations.map Operation.key).Nodup := by decide
  obtain ⟨hmounts, -, hhandled⟩ := mounts hresolve {} "/v" [] ⟨[], List.nodup_nil⟩
  have hstatements : file.statements = file.planned := statements_ofPlan rfl {} "/v" []
  refine ⟨hresolve, hkeys, ?_, hmounts, hhandled hkeys⟩
  rw [hstatements]
  decide +kernel

/-- One path and verb with two operations that have different tags. -/
def retaggedDocument : Document where
  paths := [⟨"/v/x", [{ path := "/v/x", verb := .get, tags := ["a"] },
    { path := "/v/x", verb := .get, tags := ["b"] }]⟩]

/-- **A router without a handler is included**: both operations are placed by the second one, but each
is a member of its own group. -/
theorem not_includesHandled_retagged :
    let plan := unboundPlan "/v" retaggedDocument
    let file := ofPlan {} "/v" [] plan
    (resolve .reject "/v" retaggedDocument).outcome = .ok plan.topology ∧
    file.registered = ["b_router", "b_router"] ∧ file.included = ["a_router", "b_router"] ∧
    ¬ file.IncludesHandled plan := by
  intro plan file
  have hstatements : file.statements = file.planned := statements_ofPlan rfl {} "/v" []
  have hincluded : file.included = ["a_router", "b_router"] := by
    rw [included_eq hstatements]
    decide +kernel
  have hregistered : file.registered = ["b_router", "b_router"] := by
    rw [registered_eq hstatements]
    decide +kernel
  have hhandled : (plan.topology.groups.filter plan.hasHandler).length = 1 := by decide +kernel
  refine ⟨by rfl, hregistered, hincluded, fun hall => ?_⟩
  have hlength := hall.length_eq
  rw [hhandled, hincluded] at hlength
  exact absurd hlength (by decide)

end RouterFile

end Server

end ApiCodegen
