import ApiCodegen.Proofs.Plan.Tags

/-!
# The layout in one pass

A layout can be made from the operations one at a time: each is put into its group, on the
aggregate router or into the legacy group. The group of a tag is looked up, and there is no answer
for a tag that has none.

* `Registry.register`: one step of the pass.
* `Registry.register_eq`: **a step extends the layout of the operations before it**, or refuses a
  conflict; it finds every group that it looks up.
* `Registry.registerAll_eq`: **the pass leads to the layout of the document.**
-/

namespace ApiCodegen

open ApiCodegen.Topology

/-- What a pass has made of the operations so far. -/
structure Registry where
  groups : List Group
  legacy : Group
  slots : List (OperationKey × Slot)
  warnings : List Warning

/-- Why a pass stops. -/
inductive Halt where
  | unindexed (tag : String)
  | refused (failure : Failure)

/-- Adds a tag that is not there yet. -/
def addTag (tags : List String) (tag : Option String) : List String :=
  match tag with
  | some tag => if tags.contains tag then tags else tags ++ [tag]
  | none => tags

/-- A group with one more member. -/
def Group.add (g : Group) (key : OperationKey) : Group := { g with members := g.members ++ [key] }

namespace Registry

/-- The groups of all tags, before any operation is put into one. -/
def start (apiPrefix : String) (ops : List Operation) : Registry where
  groups := (tagBases apiPrefix [] ops).map fun t => ⟨groupName t.tag, [t.tag], t.base, []⟩
  legacy := ⟨"legacy-router", [], "", []⟩
  slots := []
  warnings := []

/-- Puts an operation into the group of a tag. -/
def addMember (r : Registry) (tag : String) (key : OperationKey) : Registry :=
  { r with
    groups := r.groups.map fun g => if g.tags = [tag] then g.add key else g
    slots := r.slots ++ [(key, .group tag)] }

/-- Registers one operation. -/
def register (tieBreak : TieBreak) (apiPrefix : String) (r : Registry) (op : Operation) :
    Except Halt Registry :=
  match derivedBase? apiPrefix op.path, op.tags.head? with
  | none, tag => .ok { r with
      legacy := { r.legacy.add op.key with tags := addTag r.legacy.tags tag }
      slots := r.slots ++ [(op.key, .legacy)] }
  | some _, none => .ok { r with slots := r.slots ++ [(op.key, .aggregate)] }
  | some base, some tag =>
    match r.groups.find? fun g => g.tags = [tag] with
    | none => .error (.unindexed tag)
    | some g =>
      if g.base = base then .ok (r.addMember tag op.key)
      else
        match tieBreak with
        | .reject => .error (.refused (.prefixConflict tag g.base base op.path))
        | .firstSeen => .ok { r.addMember tag op.key with
            warnings := r.warnings ++ [.prefixKept op.verb op.path base g.name g.base] }

/-- Registers all operations of a document, in order. -/
def registerAll (tieBreak : TieBreak) (apiPrefix : String) (doc : Document) : Except Halt Registry :=
  doc.operations.foldlM (register tieBreak apiPrefix) (start apiPrefix doc.operations)

/-- The registry of the operations before some point. -/
def upTo (apiPrefix : String) (ops done : List Operation) (warnings : List Warning) : Registry where
  groups := (tagBases apiPrefix [] ops).map fun t =>
    ⟨groupName t.tag, [t.tag], t.base, membersOf apiPrefix (.group t.tag) done⟩
  legacy := ⟨"legacy-router", legacyTags apiPrefix done, "", membersOf apiPrefix .legacy done⟩
  slots := done.map fun op => (op.key, slotOf apiPrefix op)
  warnings := warnings

variable {apiPrefix tag : String} {doc : Document} {ops done : List Operation} {op : Operation}
variable {warnings : List Warning} {slot : Slot} {t : TagBase}

/-! ## One step -/

theorem membersOf_append_self (h : slotOf apiPrefix op = slot) :
    membersOf apiPrefix slot (done ++ [op]) = membersOf apiPrefix slot done ++ [op.key] := by
  simp [membersOf, List.filter_append, h]

theorem membersOf_append_of_ne (h : slotOf apiPrefix op ≠ slot) :
    membersOf apiPrefix slot (done ++ [op]) = membersOf apiPrefix slot done := by
  simp [membersOf, List.filter_append, h]

theorem legacyTags_append_self (h : slotOf apiPrefix op = .legacy) :
    legacyTags apiPrefix (done ++ [op]) = addTag (legacyTags apiPrefix done) op.tags.head? := by
  have hlast : [op].filter (fun op => slotOf apiPrefix op = .legacy) = [op] :=
    List.filter_cons_of_pos (by simpa using h)
  rw [legacyTags, List.filter_append, hlast, List.filterMap_append, legacyTags]
  generalize (done.filter fun op => slotOf apiPrefix op = .legacy).filterMap
    (fun op => op.tags.head?) = tags
  cases hhead : op.tags.head? with
  | none => simp [addTag, hhead]
  | some tag =>
    have hone : [op].filterMap (fun op => op.tags.head?) = [tag] := by simp [hhead]
    rw [hone, addTag]
    by_cases hmem : tag ∈ tags
    · have hseen : tags.eraseDups.contains tag = true := by simp [hmem]
      rw [eraseDups_append_cons_of_mem hmem, List.append_nil, if_pos hseen]
    · have hnew : ¬ tags.eraseDups.contains tag = true := by simp [hmem]
      have hoff : [tag].removeAll tags = [tag] := by simp [List.removeAll, hmem]
      rw [List.eraseDups_append, hoff, if_neg hnew]
      rfl

theorem legacyTags_append_of_ne (h : slotOf apiPrefix op ≠ .legacy) :
    legacyTags apiPrefix (done ++ [op]) = legacyTags apiPrefix done := by
  simp [legacyTags, List.filter_append, h]

/-- An operation that is put elsewhere changes no group. -/
theorem groups_upTo_append_of_ne (ops done : List Operation) (warnings : List Warning)
    (h : ∀ tag, slotOf apiPrefix op ≠ .group tag) :
    (upTo apiPrefix ops (done ++ [op]) warnings).groups = (upTo apiPrefix ops done warnings).groups := by
  refine List.map_congr_left fun t _ => ?_
  rw [membersOf_append_of_ne (h t.tag)]

/-- An operation of a group is a new member of this group only. -/
theorem addMember_upTo (ops done : List Operation) (warnings : List Warning)
    (h : slotOf apiPrefix op = .group tag) :
    (upTo apiPrefix ops done warnings).addMember tag op.key =
      upTo apiPrefix ops (done ++ [op]) warnings := by
  have hlegacy : slotOf apiPrefix op ≠ .legacy := by simp [h]
  have hgroups : ((upTo apiPrefix ops done warnings).groups.map fun g =>
      if g.tags = [tag] then g.add op.key else g) =
        (upTo apiPrefix ops (done ++ [op]) warnings).groups := by
    rw [upTo, List.map_map]
    refine List.map_congr_left fun t _ => ?_
    by_cases ht : t.tag = tag
    · subst ht
      simp [Group.add, membersOf_append_self h]
    · have hne : slotOf apiPrefix op ≠ .group t.tag := by
        rw [h]
        exact fun heq => ht (Slot.group.inj heq).symm
      simp [ht, membersOf_append_of_ne hne]
  rw [addMember, hgroups]
  simp only [upTo, membersOf_append_of_ne hlegacy, legacyTags_append_of_ne hlegacy, List.map_append,
    List.map_cons, List.map_nil, h]

/-- The group of a tag, as the layout has it. -/
theorem find?_upTo (apiPrefix : String) (doc : Document) (done : List Operation)
    (warnings : List Warning) (tag : String) :
    ((upTo apiPrefix doc.operations done warnings).groups.find? fun g => g.tags = [tag]) =
      ((ofDocument apiPrefix doc).groupOfTag? tag).map fun g =>
        { g with members := membersOf apiPrefix (.group tag) done } := by
  rw [upTo, groupOfTag?, ofDocument, List.find?_map, List.find?_map, Option.map_map]
  have htest : ((fun g : Group => decide (g.tags = [tag])) ∘ fun t : TagBase =>
      ⟨groupName t.tag, [t.tag], t.base, membersOf apiPrefix (.group t.tag) done⟩) =
      ((fun g : Group => decide (g.tags = [tag])) ∘ fun t : TagBase =>
        ⟨groupName t.tag, [t.tag], t.base, membersOf apiPrefix (.group t.tag) doc.operations⟩) := rfl
  rw [htest]
  cases hfind : (tagBases apiPrefix [] doc.operations).find? ((fun g : Group => decide (g.tags = [tag])) ∘
      fun t : TagBase =>
        ⟨groupName t.tag, [t.tag], t.base, membersOf apiPrefix (.group t.tag) doc.operations⟩) with
  | none => rfl
  | some t =>
    have ht := List.find?_some hfind
    obtain rfl : t.tag = tag := by simpa using ht
    rfl

/-- What a step does with an operation that has a conflict, or none. -/
def settle (tieBreak : TieBreak) (conflict : Option Conflict) (r : Registry) : Except Halt Registry :=
  match conflict, tieBreak with
  | none, _ => .ok r
  | some c, .firstSeen => .ok { r with warnings := r.warnings ++ [c.warning] }
  | some c, .reject => .error (.refused c.failure)

theorem register_legacy (tieBreak : TieBreak) (done : List Operation) (warnings : List Warning)
    (h : slotOf apiPrefix op = .legacy) :
    register tieBreak apiPrefix (upTo apiPrefix ops done warnings) op =
      .ok (upTo apiPrefix ops (done ++ [op]) warnings) := by
  have hbase := slotOf_eq_legacy.1 h
  have hgroups := groups_upTo_append_of_ne ops done warnings fun tag => by
    rw [h]
    exact Slot.noConfusion
  simp only [register, hbase]
  congr 1
  rw [Registry.mk.injEq]
  refine ⟨hgroups.symm, ?_, ?_, rfl⟩
  · simp only [upTo, Group.add, membersOf_append_self h, legacyTags_append_self h]
  · simp only [upTo, List.map_append, List.map_cons, List.map_nil, h]

theorem register_aggregate (tieBreak : TieBreak) (done : List Operation) (warnings : List Warning)
    (h : slotOf apiPrefix op = .aggregate) :
    register tieBreak apiPrefix (upTo apiPrefix ops done warnings) op =
      .ok (upTo apiPrefix ops (done ++ [op]) warnings) := by
  obtain ⟨hsome, hhead⟩ := slotOf_eq_aggregate.1 h
  obtain ⟨base, hbase⟩ := Option.isSome_iff_exists.1 hsome
  have hlegacy : slotOf apiPrefix op ≠ .legacy := by simp [h]
  have hgroups := groups_upTo_append_of_ne ops done warnings fun tag => by
    rw [h]
    exact Slot.noConfusion
  simp only [register, hbase, hhead]
  congr 1
  rw [Registry.mk.injEq]
  refine ⟨hgroups.symm, ?_, ?_, rfl⟩
  · simp only [upTo, membersOf_append_of_ne hlegacy, legacyTags_append_of_ne hlegacy]
  · simp only [upTo, List.map_append, List.map_cons, List.map_nil, h]

theorem register_group (tieBreak : TieBreak) (done : List Operation) (warnings : List Warning)
    (hop : op ∈ doc.operations) (h : slotOf apiPrefix op = .group tag) :
    register tieBreak apiPrefix (upTo apiPrefix doc.operations done warnings) op =
      settle tieBreak ((ofDocument apiPrefix doc).conflict? op)
        (upTo apiPrefix doc.operations (done ++ [op]) warnings) := by
  obtain ⟨hsome, hhead⟩ := slotOf_eq_group.1 h
  obtain ⟨base, hbase⟩ := Option.isSome_iff_exists.1 hsome
  have hapi : (ofDocument apiPrefix doc).apiPrefix = apiPrefix := rfl
  -- the first pass has made a group for the tag
  obtain ⟨g, hg⟩ := exists_group hop h
  obtain ⟨-, -, hname⟩ := of_groupOfTag? hg
  have hfind := find?_upTo apiPrefix doc done warnings tag
  rw [hg, Option.map_some] at hfind
  have hconflict : (ofDocument apiPrefix doc).conflict? op =
      if g.base = base then none else some ⟨op, tag, base, g.base⟩ := by
    simp only [conflict?, hapi, hbase, hhead, hg, Option.bind_eq_bind, Option.bind_some]
  have hadd := addMember_upTo doc.operations done warnings h
  rw [hconflict]
  simp only [register, hbase, hhead, hfind, hadd]
  by_cases hsame : g.base = base
  · simp only [hsame, if_true, settle]
  · simp only [hsame, if_false]
    cases tieBreak with
    | reject => rfl
    | firstSeen =>
      simp only [settle, Conflict.warning, hname]
      rfl

/-- **A step extends the layout of the operations before it**, or refuses a conflict. -/
theorem register_eq (tieBreak : TieBreak) (done : List Operation) (warnings : List Warning)
    (hop : op ∈ doc.operations) :
    register tieBreak apiPrefix (upTo apiPrefix doc.operations done warnings) op =
      settle tieBreak ((ofDocument apiPrefix doc).conflict? op)
        (upTo apiPrefix doc.operations (done ++ [op]) warnings) := by
  have hapi : (ofDocument apiPrefix doc).apiPrefix = apiPrefix := rfl
  cases hslot : slotOf apiPrefix op with
  | legacy =>
    have hconflict : (ofDocument apiPrefix doc).conflict? op = none := by
      rw [conflict?, hapi, slotOf_eq_legacy.1 hslot]
      rfl
    rw [hconflict]
    exact register_legacy tieBreak done warnings hslot
  | aggregate =>
    have hconflict : (ofDocument apiPrefix doc).conflict? op = none := by
      obtain ⟨hsome, hhead⟩ := slotOf_eq_aggregate.1 hslot
      obtain ⟨base, hbase⟩ := Option.isSome_iff_exists.1 hsome
      rw [conflict?, hapi, hbase, hhead]
      rfl
    rw [hconflict]
    exact register_aggregate tieBreak done warnings hslot
  | group tag => exact register_group tieBreak done warnings hop hslot

/-! ## The pass -/

theorem foldlM_register (tieBreak : TieBreak) (apiPrefix : String) (done more : List Operation)
    (warnings : List Warning) (hmore : ∀ op ∈ more, op ∈ doc.operations) :
    more.foldlM (register tieBreak apiPrefix) (upTo apiPrefix doc.operations done warnings) =
      match tieBreak, more.filterMap (ofDocument apiPrefix doc).conflict? with
      | .reject, c :: _ => .error (.refused c.failure)
      | _, conflicts => .ok (upTo apiPrefix doc.operations (done ++ more)
          (warnings ++ conflicts.map Conflict.warning)) := by
  induction more generalizing done warnings with
  | nil =>
    rw [List.append_nil, List.filterMap_nil, List.foldlM_nil]
    cases tieBreak with
    | reject => simp only [List.map_nil, List.append_nil]; rfl
    | firstSeen => simp only [List.map_nil, List.append_nil]; rfl
  | cons op more ih =>
    rw [List.forall_mem_cons] at hmore
    rw [List.foldlM_cons, register_eq tieBreak done warnings hmore.1]
    cases hconflict : (ofDocument apiPrefix doc).conflict? op with
    | none =>
      rw [List.filterMap_cons_none hconflict]
      have hrest := ih (done ++ [op]) warnings hmore.2
      rw [List.append_assoc, List.singleton_append] at hrest
      exact hrest
    | some c =>
      rw [List.filterMap_cons_some hconflict]
      -- the pass stops here, or goes on with one more warning
      cases tieBreak with
      | reject => rfl
      | firstSeen =>
        have hrest := ih (done ++ [op]) (warnings ++ [c.warning]) hmore.2
        simp only [List.append_assoc, List.singleton_append] at hrest
        exact hrest

/-- **The pass leads to the layout of the document**, with the same warnings, or stops at the same
conflict. -/
theorem registerAll_eq (tieBreak : TieBreak) (apiPrefix : String) (doc : Document) :
    registerAll tieBreak apiPrefix doc =
      match (resolve tieBreak apiPrefix doc).outcome with
      | .ok topology => .ok ⟨topology.groups, topology.legacy, topology.slots,
          (resolve tieBreak apiPrefix doc).warnings⟩
      | .error failure => .error (.refused failure) := by
  have hstart : start apiPrefix doc.operations = upTo apiPrefix doc.operations [] [] := rfl
  have hrun := foldlM_register tieBreak apiPrefix [] doc.operations []
    fun op (hop : op ∈ doc.operations) => hop
  rw [registerAll, hstart, hrun]
  cases tieBreak with
  | firstSeen => rfl
  | reject =>
    simp only [resolve, conflicts]
    cases doc.operations.filterMap (ofDocument apiPrefix doc).conflict? with
    | nil => rfl
    | cons c _ => rfl

end Registry

end ApiCodegen
