import ApiCodegen.Proofs.Plan.Registration

/-!
# The layout is a partition

* `flatMap_filter_perm`: a list is the members of all its classes.
* `Topology.placement_of_mem`: **an operation is placed by its own path and first tag.**
* `Topology.LaysOut`: what a layout has to be: a group for every tag, and one place for every
  operation.
* `Topology.resolve_laysOut`: **every layout that is made is one**, and making it never misses a
  group.
-/

namespace ApiCodegen

/-- A list is the members of all its classes. -/
theorem flatMap_filter_perm {α β : Type} [DecidableEq β] (f : α → β) {bs : List β} (hb : bs.Nodup)
    (l : List α) (h : ∀ a ∈ l, f a ∈ bs) : (bs.flatMap fun b => l.filter fun a => f a = b).Perm l := by
  induction bs generalizing l with
  | nil =>
    have hnil : l = [] := List.eq_nil_iff_forall_not_mem.2 fun a ha => List.not_mem_nil (h a ha)
    rw [hnil]
    exact .refl _
  | cons b bs ih =>
    obtain ⟨hnew, hb⟩ := List.nodup_cons.1 hb
    have hothers : ∀ a ∈ l.filter (fun a => !decide (f a = b)), f a ∈ bs := by
      intro a ha
      obtain ⟨ha, hne⟩ := List.mem_filter.1 ha
      exact (List.mem_cons.1 (h a ha)).resolve_left (by simpa using hne)
    -- the other classes have nothing of the first
    have hsame : (bs.flatMap fun c => l.filter fun a => f a = c) =
        bs.flatMap fun c => (l.filter fun a => !decide (f a = b)).filter fun a => f a = c := by
      refine List.flatMap_congr fun c hc => ?_
      rw [List.filter_filter]
      refine List.filter_congr fun a _ => ?_
      by_cases hac : f a = c
      · have hne : ¬ c = b := by
          rintro rfl
          exact hnew hc
        simp [hac, hne]
      · simp [hac]
    rw [List.flatMap_cons, hsame]
    exact ((ih hb _ hothers).append_left _).trans (List.filter_append_perm _ l)

namespace Topology

variable {apiPrefix tag : String} {op : Operation} {doc : Document} {topology : Topology} {slot : Slot}

/-- **An operation is placed by its own path and first tag**, if no other has its key. -/
theorem placement_of_mem (hkeys : (doc.operations.map Operation.key).Nodup)
    (hop : op ∈ doc.operations) :
    (ofDocument apiPrefix doc).placement op.key = slotOf apiPrefix op := by
  obtain ⟨other, hother, hkey, hslot⟩ := exists_slotOf_eq_placement apiPrefix hop
  obtain rfl := List.inj_on_of_nodup_map hkeys hother hop hkey
  exact hslot.symm

/-- The keys of the operations that a layout has put in a place, in order. -/
def keysIn (topology : Topology) (slot : Slot) (ops : List Operation) : List OperationKey :=
  (ops.filter fun op => topology.placement op.key = slot).map Operation.key

/-- **A layout of a document**: a group for every tag, and one place for every operation. -/
structure LaysOut (topology : Topology) (apiPrefix : String) (doc : Document) : Prop where
  /-- One group for every tag of an operation under the API prefix, in first-seen order. -/
  tags : topology.groups.map Group.tags =
    ((versioned apiPrefix doc.operations).flatMap Operation.tags).eraseDups.map fun tag => [tag]
  /-- The prefix of a group is that of the first operation with its tag. -/
  base : ∀ g ∈ topology.groups, ∃ tag op, g.tags = [tag] ∧ g.name = groupName tag ∧
    ((versioned apiPrefix doc.operations).find? fun op => tag ∈ op.tags) = some op ∧
    derivedBase? apiPrefix op.path = some g.base
  legacy_iff : ∀ op ∈ doc.operations,
    topology.placement op.key = .legacy ↔ ¬ IsUnder apiPrefix op.path
  group_iff : ∀ op ∈ doc.operations, ∀ tag,
    topology.placement op.key = .group tag ↔ IsUnder apiPrefix op.path ∧ op.tags.head? = some tag
  aggregate_iff : ∀ op ∈ doc.operations,
    topology.placement op.key = .aggregate ↔ IsUnder apiPrefix op.path ∧ op.tags = []
  group_members : ∀ g ∈ topology.groups, ∀ tag, g.tags = [tag] →
    g.members = topology.keysIn (.group tag) doc.operations
  legacy_members : topology.legacy.members = topology.keysIn .legacy doc.operations
  /-- Every operation stands in one place, and once. -/
  once : (topology.groups.flatMap Group.members ++ topology.keysIn .aggregate doc.operations ++
    topology.legacy.members).Perm (doc.operations.map Operation.key)
  nodup : (topology.groups.flatMap Group.members ++ topology.keysIn .aggregate doc.operations ++
    topology.legacy.members).Nodup

theorem keysIn_eq (hkeys : (doc.operations.map Operation.key).Nodup) (slot : Slot) :
    (ofDocument apiPrefix doc).keysIn slot doc.operations =
      membersOf apiPrefix slot doc.operations := by
  unfold keysIn membersOf
  refine congrArg _ (List.filter_congr fun op hop => ?_)
  rw [placement_of_mem hkeys hop]

/-- The members of all places are the operations. -/
theorem members_perm (apiPrefix : String) (doc : Document) :
    ((ofDocument apiPrefix doc).groups.flatMap Group.members ++
      membersOf apiPrefix .aggregate doc.operations ++
      membersOf apiPrefix .legacy doc.operations).Perm (doc.operations.map Operation.key) := by
  let slots : List Slot := (tagBases apiPrefix [] doc.operations).map (fun t => .group t.tag) ++
    [.aggregate, .legacy]
  have hslots : slots.Nodup := by
    have hgroups : ((tagBases apiPrefix [] doc.operations).map fun t => Slot.group t.tag).Nodup := by
      have htags := nodup_tags_tagBases apiPrefix doc.operations
      have hinj : Function.Injective Slot.group := fun tag other heq => Slot.group.inj heq
      have hmap := htags.map hinj
      rwa [List.map_map] at hmap
    refine hgroups.append (by decide) fun slot hslot hother => ?_
    obtain ⟨t, -, rfl⟩ := List.mem_map.1 hslot
    simp at hother
  -- the class of a tag is that of a group, for every tag has one
  have hall : ∀ op ∈ doc.operations, slotOf apiPrefix op ∈ slots := by
    intro op hop
    cases hslot : slotOf apiPrefix op with
    | legacy => exact List.mem_append_right _ (by decide)
    | aggregate => exact List.mem_append_right _ (by decide)
    | group tag =>
      obtain ⟨g, hg⟩ := exists_group hop hslot
      obtain ⟨t, ht, rfl⟩ := List.mem_map.1 (of_groupOfTag? hg).1
      have htag := (of_groupOfTag? hg).2.1
      obtain rfl : t.tag = tag := by simpa using htag
      exact List.mem_append_left _ (List.mem_map_of_mem ht)
  have hperm := (flatMap_filter_perm (slotOf apiPrefix) hslots doc.operations hall).map Operation.key
  have hsplit : (slots.flatMap fun slot => doc.operations.filter fun op => slotOf apiPrefix op = slot).map
      Operation.key = (ofDocument apiPrefix doc).groups.flatMap Group.members ++
        membersOf apiPrefix .aggregate doc.operations ++ membersOf apiPrefix .legacy doc.operations := by
    simp only [slots, List.map_append, List.map_flatMap, List.flatMap_append, List.flatMap_map, List.flatMap_cons,
      List.flatMap_nil, List.append_nil, List.append_assoc, ofDocument, membersOf]
  rwa [hsplit] at hperm

theorem laysOut_ofDocument (hkeys : (doc.operations.map Operation.key).Nodup) (apiPrefix : String) :
    (ofDocument apiPrefix doc).LaysOut apiPrefix doc := by
  have hbase : ∀ g ∈ (ofDocument apiPrefix doc).groups, ∃ t ∈ tagBases apiPrefix [] doc.operations,
      g = ⟨groupName t.tag, [t.tag], t.base, membersOf apiPrefix (.group t.tag) doc.operations⟩ := by
    intro g hg
    obtain ⟨t, ht, rfl⟩ := List.mem_map.1 hg
    exact ⟨t, ht, rfl⟩
  have hmembers : (ofDocument apiPrefix doc).legacy.members =
      membersOf apiPrefix .legacy doc.operations := rfl
  have honce := members_perm apiPrefix doc
  rw [← keysIn_eq hkeys .aggregate, ← hmembers] at honce
  constructor
  case tags =>
    have hnil : (([] : List TagBase).map TagBase.tag).Nodup := List.nodup_nil
    have htags := tags_tagBases apiPrefix hnil doc.operations
    rw [List.map_nil, List.nil_append] at htags
    rw [← htags, ofDocument, List.map_map, List.map_map]
    rfl
  case base =>
    intro g hg
    obtain ⟨t, ht, rfl⟩ := hbase g hg
    obtain ⟨-, op, hfirst, hderived⟩ := (base_of_mem_tagBases ht).resolve_left List.not_mem_nil
    exact ⟨t.tag, op, rfl, rfl, hfirst, hderived⟩
  case legacy_iff =>
    intro op hop
    rw [placement_of_mem hkeys hop, slotOf_eq_legacy, ← derivedBase?_isSome, Option.not_isSome_iff_eq_none]
  case group_iff =>
    intro op hop tag
    rw [placement_of_mem hkeys hop, slotOf_eq_group, derivedBase?_isSome]
  case aggregate_iff =>
    intro op hop
    rw [placement_of_mem hkeys hop, slotOf_eq_aggregate, derivedBase?_isSome, List.head?_eq_none_iff]
  case group_members =>
    intro g hg tag htag
    obtain ⟨t, ht, rfl⟩ := hbase g hg
    obtain rfl : t.tag = tag := by simpa using htag
    exact (keysIn_eq hkeys _).symm
  case legacy_members => exact (keysIn_eq hkeys _).symm
  case once => exact honce
  case nodup => exact honce.nodup_iff.2 hkeys

/-- **Every layout that is made is a partition** of the operations, if no two have one key. Made one
operation at a time it is the same, and no group is ever missing. -/
theorem resolve_laysOut (hkeys : (doc.operations.map Operation.key).Nodup) (tieBreak : TieBreak)
    (apiPrefix : String) :
    (∀ tag, Registry.registerAll tieBreak apiPrefix doc ≠ .error (.unindexed tag)) ∧
    ∀ topology, (resolve tieBreak apiPrefix doc).outcome = .ok topology →
      topology.LaysOut apiPrefix doc ∧
      Registry.registerAll tieBreak apiPrefix doc = .ok ⟨topology.groups, topology.legacy,
        topology.slots, (resolve tieBreak apiPrefix doc).warnings⟩ := by
  have hpass := Registry.registerAll_eq tieBreak apiPrefix doc
  constructor
  · intro tag
    rw [hpass]
    cases (resolve tieBreak apiPrefix doc).outcome with
    | ok topology => simp
    | error failure => simp
  · intro topology htopology
    rw [htopology] at hpass
    obtain rfl := resolve_ok htopology
    exact ⟨laysOut_ofDocument hkeys apiPrefix, hpass⟩

/-- Operations of two groups, of which one has no members, and one operation in every other place.
The last operation asks for another prefix than its group has. -/
def mixedDocument : Document where
  paths := [⟨"/v/a/x", [{ path := "/v/a/x", verb := .get, tags := ["a", "b"] }]⟩,
    ⟨"/v", [{ path := "/v", verb := .post }]⟩,
    ⟨"/w", [{ path := "/w", verb := .get, tags := ["b"] }]⟩,
    ⟨"/v/b", [{ path := "/v/b", verb := .put, tags := ["a"] }]⟩]

/-- The layout of operations in all places. -/
theorem resolve_laysOut_mixed :
    let topology := ofDocument "/v" mixedDocument
    (mixedDocument.operations.map Operation.key).Nodup ∧
    (resolve .firstSeen "/v" mixedDocument).outcome = .ok topology ∧
    topology.groups.map Group.tags = [["a"], ["b"]] ∧
    topology.placement ⟨"/v/b", .put⟩ = .group "a" ∧ topology.placement ⟨"/v", .post⟩ = .aggregate ∧
    topology.placement ⟨"/w", .get⟩ = .legacy := by
  intro topology
  have hkeys : (mixedDocument.operations.map Operation.key).Nodup := by decide
  have hr : (resolve .firstSeen "/v" mixedDocument).outcome = .ok topology := by rfl
  obtain ⟨hlays, -⟩ := (resolve_laysOut hkeys .firstSeen "/v").2 topology hr
  have hput : ({ path := "/v/b", verb := .put, tags := ["a"] } : Operation) ∈ mixedDocument.operations := by
    simp [mixedDocument, Document.operations]
  have hpost : ({ path := "/v", verb := .post } : Operation) ∈ mixedDocument.operations := by
    simp [mixedDocument, Document.operations]
  have hget : ({ path := "/w", verb := .get, tags := ["b"] } : Operation) ∈ mixedDocument.operations := by
    simp [mixedDocument, Document.operations]
  refine ⟨hkeys, hr, ?_, ?_, ?_, ?_⟩
  · rw [hlays.tags]
    decide +kernel
  · exact (hlays.group_iff _ hput "a").2 ⟨by decide +kernel, rfl⟩
  · exact (hlays.aggregate_iff _ hpost).2 ⟨by decide +kernel, rfl⟩
  · exact (hlays.legacy_iff _ hget).2 (by decide +kernel)

end Topology

end ApiCodegen
