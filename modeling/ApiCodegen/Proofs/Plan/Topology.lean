import ApiCodegen.Proofs.Plan.Segment

/-!
# Where operations are served

An operation is served under the API prefix, the prefix of its group and its path on the router of
the group. This is to be the path of the description, which the client uses.

* `Topology.resolve_ok`: both tie-breaks lead to the same layout.
* `Topology.placement_cases`: an operation is placed by its own path, or is a legacy operation.
* `Topology.exists_slotOf_eq_placement`: an operation has the place of one with its path and verb.
* `exists_tagBase`, `Topology.exists_group`: **every tag of an operation under the API prefix has a
  group.**
* `Topology.group_served_iff`: **an operation of a group with its own prefix is served at its path
  unless an empty segment stands behind the API prefix.**
* `Topology.served_at_path`: the same for all three kinds of routers.
-/

namespace ApiCodegen

variable {apiPrefix tag : String} {op : Operation} {doc : Document} {topology : Topology}

/-! ## Groups and places -/

theorem exists_addTags (base : String) (known : List TagBase) (tags : List String)
    (h : (∃ t ∈ known, t.tag = tag) ∨ tag ∈ tags) : ∃ t ∈ addTags base known tags, t.tag = tag := by
  induction tags generalizing known with
  | nil => exact h.resolve_right List.not_mem_nil
  | cons first tags ih =>
    rw [addTags]
    refine ih _ ?_
    rcases h with ⟨t, ht, htag⟩ | h
    · left
      split
      · exact ⟨t, ht, htag⟩
      · exact ⟨t, List.mem_append_left _ ht, htag⟩
    · rcases List.mem_cons.1 h with rfl | h
      · left
        split
        · rename_i hany
          obtain ⟨t, ht, htag⟩ := List.any_eq_true.1 hany
          exact ⟨t, ht, of_decide_eq_true htag⟩
        · exact ⟨⟨tag, base⟩, List.mem_append_right _ List.mem_cons_self, rfl⟩
      · exact .inr h

/-- **Every tag of an operation under the API prefix has a group.** -/
theorem exists_tagBase (known : List TagBase) (ops : List Operation)
    (h : (∃ t ∈ known, t.tag = tag) ∨
      ∃ op ∈ ops, (derivedBase? apiPrefix op.path).isSome = true ∧ tag ∈ op.tags) :
    ∃ t ∈ tagBases apiPrefix known ops, t.tag = tag := by
  induction ops generalizing known with
  | nil => exact h.resolve_right fun ⟨op, hop, _⟩ => absurd hop List.not_mem_nil
  | cons first ops ih =>
    unfold tagBases
    split
    · rename_i base hbase
      refine ih _ ?_
      rcases h with h | ⟨op, hop, hs, htag⟩
      · exact .inl (exists_addTags base known first.tags (.inl h))
      · rcases List.mem_cons.1 hop with rfl | hop
        · exact .inl (exists_addTags base known op.tags (.inr htag))
        · exact .inr ⟨op, hop, hs, htag⟩
    · rename_i hnone
      refine ih _ ?_
      rcases h with h | ⟨op, hop, hs, htag⟩
      · exact .inl h
      · rcases List.mem_cons.1 hop with rfl | hop
        · rw [hnone] at hs
          cases hs
        · exact .inr ⟨op, hop, hs, htag⟩

namespace Topology

/-- Both tie-breaks lead to the same layout. -/
theorem resolve_ok {tieBreak : TieBreak}
    (h : (resolve tieBreak apiPrefix doc).outcome = .ok topology) :
    topology = ofDocument apiPrefix doc := by
  cases tieBreak with
  | firstSeen => exact (Except.ok.inj h).symm
  | reject =>
    simp only [resolve] at h
    split at h
    · exact (Except.ok.inj h).symm
    · cases h

/-- Whichever entry of a key decides, it is that of an operation. -/
theorem exists_of_lookup {key : OperationKey} {slot : Slot}
    (h : (ofDocument apiPrefix doc).slots.reverse.lookup key = some slot) :
    ∃ op ∈ doc.operations, op.key = key ∧ slotOf apiPrefix op = slot := by
  obtain ⟨l₁, l₂, heq, -⟩ := List.lookup_eq_some_iff.1 h
  have hmem : (key, slot) ∈ (ofDocument apiPrefix doc).slots := by
    rw [← List.mem_reverse, heq]
    exact List.mem_append_right _ List.mem_cons_self
  obtain ⟨op, hop, hpair⟩ := List.mem_map.1 hmem
  exact ⟨op, hop, congrArg Prod.fst hpair, congrArg Prod.snd hpair⟩

/-- An operation is placed by its own path and the first tag of an operation with its key, or is a
legacy operation. -/
theorem placement_cases (apiPrefix : String) (doc : Document) (key : OperationKey) :
    (ofDocument apiPrefix doc).placement key = .legacy ∨ ∃ op ∈ doc.operations, op.key = key ∧
      slotOf apiPrefix op = (ofDocument apiPrefix doc).placement key := by
  unfold placement
  cases hl : (ofDocument apiPrefix doc).slots.reverse.lookup key with
  | none => exact .inl rfl
  | some slot => exact .inr (exists_of_lookup hl)

/-- An operation has the place of one with its path and verb: that of the last of them. -/
theorem exists_slotOf_eq_placement (apiPrefix : String) (hop : op ∈ doc.operations) :
    ∃ other ∈ doc.operations, other.key = op.key ∧
      slotOf apiPrefix other = (ofDocument apiPrefix doc).placement op.key := by
  have hmem : (op.key, slotOf apiPrefix op) ∈ (ofDocument apiPrefix doc).slots.reverse :=
    List.mem_reverse.2 (List.mem_map_of_mem hop)
  unfold placement
  cases hl : (ofDocument apiPrefix doc).slots.reverse.lookup op.key with
  | none =>
    have hne := List.lookup_eq_none_iff.1 hl _ hmem
    simp at hne
  | some slot => exact exists_of_lookup hl

/-- An operation that is not a legacy operation has the API prefix, up to a segment. -/
theorem path_of_placement
    (h : (ofDocument apiPrefix doc).placement op.key ≠ .legacy) :
    ∃ rest, op.path.toList = apiPrefix.toList ++ rest ∧ atSegment rest := by
  obtain ⟨op', -, hkey, hslot⟩ := (placement_cases apiPrefix doc op.key).resolve_left h
  have hpath : op'.path = op.path := congrArg OperationKey.path hkey
  cases hd : derivedBase? apiPrefix op'.path with
  | none =>
    simp only [slotOf, hd] at hslot
    exact absurd hslot.symm h
  | some base =>
    obtain ⟨rest, hrest, hs, -⟩ := derivedBase?_eq_some.1 hd
    exact ⟨rest, hpath ▸ hrest, hs⟩

/-- **An operation that belongs to a group finds it.** -/
theorem exists_group (hop : op ∈ doc.operations) (h : slotOf apiPrefix op = .group tag) :
    ∃ g, (ofDocument apiPrefix doc).groupOfTag? tag = some g := by
  unfold slotOf at h
  split at h
  · cases h
  · rename_i base hbase
    split at h
    · rename_i first hfirst
      obtain rfl : first = tag := Slot.group.inj h
      have hs : (derivedBase? apiPrefix op.path).isSome = true := by simp [hbase]
      obtain ⟨t, ht, htag⟩ := exists_tagBase [] doc.operations
        (.inr ⟨op, hop, hs, List.mem_of_head? hfirst⟩)
      refine Option.isSome_iff_exists.1 (List.find?_isSome.2 ⟨_, List.mem_map_of_mem ht, ?_⟩)
      simp [htag]
    · cases h

theorem exists_groupOfTag (h : (ofDocument apiPrefix doc).placement op.key = .group tag) :
    ∃ g, (ofDocument apiPrefix doc).groupOfTag? tag = some g := by
  have hne : (ofDocument apiPrefix doc).placement op.key ≠ .legacy := by simp [h]
  obtain ⟨other, hother, -, hslot⟩ := (placement_cases apiPrefix doc op.key).resolve_left hne
  exact exists_group hother (hslot.trans h)

/-! ## Paths on routers -/

/-- Nothing left is a slash. -/
def orSlash (rest : List Char) : List Char :=
  match rest with
  | [] => ['/']
  | rest => rest

theorem orSlash_of_ne_nil {rest : List Char} (h : rest ≠ []) : orSlash rest = rest := by
  cases rest with
  | nil => exact absurd rfl h
  | cons c rest => rfl

theorem relativePath_legacy (h : topology.placement op.key = .legacy) :
    (topology.relativePath op).toList = orSlash op.path.toList := by
  rw [relativePath, relativeChars, String.toList_ofList, h]
  rfl

theorem relativePath_aggregate (h : topology.placement op.key = .aggregate) :
    (topology.relativePath op).toList =
      orSlash (stripSegments topology.apiPrefix.toList op.path.toList) := by
  rw [relativePath, relativeChars, String.toList_ofList, h]
  rfl

theorem relativePath_group {g : Group} (h : topology.placement op.key = .group tag)
    (hg : topology.groupOfTag? tag = some g) :
    (topology.relativePath op).toList = orSlash (stripSegments g.base.toList
      (stripSegments topology.apiPrefix.toList op.path.toList)) := by
  rw [relativePath, relativeChars, String.toList_ofList, h]
  simp only [hg]
  rfl

/-- A path with two slashes behind the API prefix. -/
theorem slashes_iff {path : String} {rest : List Char} (h : path.toList = apiPrefix.toList ++ rest) :
    (∃ more, path = apiPrefix ++ "//" ++ more) ↔ ['/', '/'] <+: rest := by
  constructor
  · rintro ⟨more, rfl⟩
    rw [String.toList_append, String.toList_append, List.append_assoc, List.append_cancel_left_eq] at h
    exact ⟨more.toList, h⟩
  · rintro ⟨more, rfl⟩
    refine ⟨String.ofList more, String.toList_inj.1 ?_⟩
    simp [h]

/-- **An operation of a group with its own prefix** is served at its path, or at its path with a
slash behind it, if and only if no empty segment stands between the API prefix and the group
prefix. -/
theorem group_served_iff {g : Group}
    (h : (ofDocument apiPrefix doc).placement op.key = .group tag)
    (hg : (ofDocument apiPrefix doc).groupOfTag? tag = some g)
    (hd : derivedBase? apiPrefix op.path = some g.base) :
    (apiPrefix ++ g.base ++ (ofDocument apiPrefix doc).relativePath op = op.path ∨
        op.path = apiPrefix ++ g.base ∧ (ofDocument apiPrefix doc).relativePath op = "/") ↔
      (g.base = "" ∨ ¬ ∃ more, op.path = apiPrefix ++ "//" ++ more) := by
  obtain ⟨rest, hpath, hs, hbase⟩ := derivedBase?_eq_some.1 hd
  have hrel := relativePath_group h hg
  have hapi : (ofDocument apiPrefix doc).apiPrefix = apiPrefix := rfl
  -- behind the API prefix, both sides are about the first segment of the rest
  rw [hapi, hpath, stripSegments_append _ hs, hbase] at hrel
  generalize (ofDocument apiPrefix doc).relativePath op = relative at hrel ⊢
  rw [slashes_iff hpath]
  simp only [← String.toList_inj, String.toList_append, hpath, hbase, hrel, List.append_assoc,
    List.append_cancel_left_eq, String.toList_empty]
  constructor
  · intro hserved
    by_contra hnot
    rw [not_or, not_not] at hnot
    obtain ⟨hne, hslashes⟩ := hnot
    -- nothing of the rest is taken off, so the group prefix stands there twice
    have hrest : rest ≠ [] := by
      rintro rfl
      simp at hslashes
    rw [stripSegments_firstSegment hne hslashes, orSlash_of_ne_nil hrest] at hserved
    rcases hserved with heq | ⟨-, heq⟩
    · have hlen := congrArg List.length heq
      rw [List.length_append] at hlen
      exact hne (List.length_eq_zero_iff.1 (by omega))
    · rw [heq] at hslashes
      revert hslashes
      decide
  · intro hone
    have heq := firstSegment_append_stripSegments hs hone
    by_cases hnil : stripSegments (firstSegment rest) rest = []
    · right
      rw [hnil, List.append_nil] at heq
      rw [hnil]
      exact ⟨heq.symm, rfl⟩
    · left
      rw [orSlash_of_ne_nil hnil]
      exact heq

/-- **Where operations are served**, on the router of a group, on the aggregate router and on the
legacy router. -/
theorem served_at_path {tieBreak : TieBreak}
    (h : (resolve tieBreak apiPrefix doc).outcome = .ok topology) (op : Operation) :
    (∀ tag, topology.placement op.key = .group tag → ∃ g, topology.groupOfTag? tag = some g ∧
      (derivedBase? apiPrefix op.path = some g.base →
        ((apiPrefix ++ g.base ++ topology.relativePath op = op.path ∨
            op.path = apiPrefix ++ g.base ∧ topology.relativePath op = "/") ↔
          (g.base = "" ∨ ¬ ∃ more, op.path = apiPrefix ++ "//" ++ more)))) ∧
    (topology.placement op.key = .aggregate →
      apiPrefix ++ topology.relativePath op = op.path ∨
        op.path = apiPrefix ∧ topology.relativePath op = "/") ∧
    (topology.placement op.key = .legacy → op.path ≠ "" → topology.relativePath op = op.path) := by
  obtain rfl := resolve_ok h
  refine ⟨fun tag hplace => ?_, fun hplace => ?_, fun hplace hne => ?_⟩
  · obtain ⟨g, hg⟩ := exists_groupOfTag hplace
    exact ⟨g, hg, group_served_iff hplace hg⟩
  · have hversioned : (ofDocument apiPrefix doc).placement op.key ≠ .legacy := by simp [hplace]
    obtain ⟨rest, hpath, hs⟩ := path_of_placement hversioned
    have hrel := relativePath_aggregate hplace
    have hapi : (ofDocument apiPrefix doc).apiPrefix = apiPrefix := rfl
    rw [hapi, hpath, stripSegments_append _ hs] at hrel
    simp only [← String.toList_inj, String.toList_append, hpath, hrel, List.append_cancel_left_eq]
    by_cases hnil : rest = []
    · right
      rw [hnil, List.append_nil]
      exact ⟨rfl, rfl⟩
    · exact .inl (orSlash_of_ne_nil hnil)
  · have hrel := relativePath_legacy hplace
    rw [orSlash_of_ne_nil (mt String.toList_eq_nil_iff.1 hne)] at hrel
    exact String.toList_inj.1 hrel

/-- An operation on a path, tagged `health`. -/
def healthOperation (path : String) : Operation := { path, verb := .get, tags := ["health"] }

/-- Two operations of one group, of which the second has an empty segment in its path. -/
def healthDocument : Document where
  paths := [⟨"/api/v1/health/x", [healthOperation "/api/v1/health/x"]⟩,
    ⟨"/api/v1//health/y", [healthOperation "/api/v1//health/y"]⟩]

/-- The first operation of the group is served at its path, and the second is not. -/
theorem served_at_path_health :
    let topology := ofDocument "/api/v1" healthDocument
    (resolve .reject "/api/v1" healthDocument).outcome = .ok topology ∧
    (∃ g, topology.groupOfTag? "health" = some g ∧ g.base = "/health") ∧
    "/api/v1" ++ "/health" ++ topology.relativePath (healthOperation "/api/v1/health/x") =
      "/api/v1/health/x" ∧
    "/api/v1" ++ "/health" ++ topology.relativePath (healthOperation "/api/v1//health/y") ≠
      "/api/v1//health/y" := by
  intro topology
  have hr : (resolve .reject "/api/v1" healthDocument).outcome = .ok topology := by rfl
  have hg : topology.groupOfTag? "health" = some ⟨"health-router", ["health"], "/health",
      [⟨"/api/v1/health/x", .get⟩, ⟨"/api/v1//health/y", .get⟩]⟩ := by decide +kernel
  have hplace (path : String) (hp : path = "/api/v1/health/x" ∨ path = "/api/v1//health/y") :
      topology.placement (healthOperation path).key = .group "health" ∧
        derivedBase? "/api/v1" path = some "/health" := by
    rcases hp with rfl | rfl <;> decide +kernel
  have hserved (path : String) (hp : path = "/api/v1/health/x" ∨ path = "/api/v1//health/y") :
      ("/api/v1" ++ "/health" ++ topology.relativePath (healthOperation path) = path ∨
        path = "/api/v1" ++ "/health" ∧ topology.relativePath (healthOperation path) = "/") ↔
      ("/health" = "" ∨ ¬ ∃ more, path = "/api/v1" ++ "//" ++ more) := by
    obtain ⟨g, hfound, hiff⟩ :=
      (served_at_path hr (healthOperation path)).1 "health" (hplace path hp).1
    obtain rfl := Option.some.inj (hg.symm.trans hfound)
    exact hiff (hplace path hp).2
  refine ⟨hr, ⟨_, hg, rfl⟩, ?_, ?_⟩
  · have hpath : "/api/v1/health/x".toList = "/api/v1".toList ++ "/health/x".toList := by decide
    have hone : ¬ ∃ more, "/api/v1/health/x" = "/api/v1" ++ "//" ++ more := by
      rw [slashes_iff hpath]
      decide
    have hx := (hserved _ (.inl rfl)).2 (.inr hone)
    exact hx.resolve_right (by decide +kernel)
  · intro hy
    have hone := (hserved _ (.inr rfl)).1 (.inl hy)
    exact hone.elim (by decide) fun hnot => hnot ⟨"health/y", by decide⟩

end Topology

end ApiCodegen
