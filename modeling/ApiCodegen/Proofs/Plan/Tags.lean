import ApiCodegen.Proofs.FirstSeen
import ApiCodegen.Proofs.Plan.Topology

/-!
# The tags of a layout

Only operations under the API prefix give rise to groups. All their tags count, also those behind
the first.

* `derivedBase?_isSome`: the paths under the API prefix are the prefix itself, and those that go on
  with a slash.
* `tags_tagBases`: **there is one entry for every tag, in first-seen order.**
* `base_of_mem_tagBases`: **its prefix is that of the first operation with the tag.**
* `slotOf_eq_legacy`, `slotOf_eq_aggregate`, `slotOf_eq_group`: where an operation belongs.
* `Topology.of_groupOfTag?`: a group that is found by a tag is the group of this tag.
-/

namespace ApiCodegen

variable {apiPrefix path tag : String} {ops : List Operation} {known : List TagBase} {t : TagBase}

/-- A path is under the API prefix if it is the prefix itself, or goes on with a slash. -/
def IsUnder (apiPrefix path : String) : Prop :=
  path = apiPrefix ∨ ∃ rest, path = apiPrefix ++ "/" ++ rest

theorem derivedBase?_isSome :
    (derivedBase? apiPrefix path).isSome = true ↔ IsUnder apiPrefix path := by
  have hsome : (derivedBase? apiPrefix path).isSome = true ↔
      ∃ rest, path.toList = apiPrefix.toList ++ rest ∧ atSegment rest := by
    rw [Option.isSome_iff_exists]
    constructor
    · rintro ⟨base, hbase⟩
      obtain ⟨rest, hrest, hs, -⟩ := derivedBase?_eq_some.1 hbase
      exact ⟨rest, hrest, hs⟩
    · rintro ⟨rest, hrest, hs⟩
      refine ⟨String.ofList (firstSegment rest), derivedBase?_eq_some.2 ⟨rest, hrest, hs, ?_⟩⟩
      exact String.toList_ofList
  rw [hsome]
  constructor
  · rintro ⟨rest, hrest, hs⟩
    match rest, hs with
    | [], _ =>
      left
      rw [List.append_nil] at hrest
      exact String.toList_inj.1 hrest
    | c :: rest, hs =>
      right
      obtain rfl : c = '/' := by simpa [atSegment] using hs
      refine ⟨String.ofList rest, String.toList_inj.1 ?_⟩
      rw [hrest]
      simp
  · rintro (rfl | ⟨rest, rfl⟩)
    · exact ⟨[], (List.append_nil _).symm, rfl⟩
    · refine ⟨'/' :: rest.toList, ?_, rfl⟩
      simp

instance (apiPrefix path : String) : Decidable (IsUnder apiPrefix path) :=
  decidable_of_iff _ derivedBase?_isSome

/-- The operations under the API prefix. -/
def versioned (apiPrefix : String) (ops : List Operation) : List Operation :=
  ops.filter fun op => IsUnder apiPrefix op.path

theorem versioned_cons_of_some {op : Operation} {base : String}
    (h : derivedBase? apiPrefix op.path = some base) (ops : List Operation) :
    versioned apiPrefix (op :: ops) = op :: versioned apiPrefix ops := by
  have hunder : IsUnder apiPrefix op.path := derivedBase?_isSome.1 (by rw [h]; rfl)
  exact List.filter_cons_of_pos (decide_eq_true hunder)

theorem versioned_cons_of_none {op : Operation} (h : derivedBase? apiPrefix op.path = none)
    (ops : List Operation) : versioned apiPrefix (op :: ops) = versioned apiPrefix ops := by
  have hnot : ¬ IsUnder apiPrefix op.path := by
    rw [← derivedBase?_isSome, h]
    exact Bool.false_ne_true
  exact List.filter_cons_of_neg (by simpa using hnot)

theorem tags_addTags (base : String) (h : (known.map TagBase.tag).Nodup) (tags : List String) :
    (addTags base known tags).map TagBase.tag = (known.map TagBase.tag ++ tags).eraseDups := by
  induction tags generalizing known with
  | nil => rw [addTags, List.append_nil, eraseDups_of_nodup h]
  | cons tag tags ih =>
    have hany : (known.any fun t => t.tag = tag) = true ↔ tag ∈ known.map TagBase.tag := by simp
    rw [addTags]
    by_cases hmem : tag ∈ known.map TagBase.tag
    · rw [if_pos (hany.2 hmem), ih h, eraseDups_append_cons_of_mem hmem]
    · have hnew : ((known ++ [(⟨tag, base⟩ : TagBase)]).map TagBase.tag).Nodup := by
        rw [List.map_append]
        exact h.append (List.nodup_singleton _) (List.disjoint_singleton.2 hmem)
      rw [if_neg (mt hany.1 hmem), ih hnew, List.map_append, List.append_assoc]
      rfl

/-- An entry that is added has one of the tags, and the prefix of the operation. -/
theorem mem_addTags {base : String} {tags : List String} (ht : t ∈ addTags base known tags) :
    t ∈ known ∨ (t.tag ∈ tags ∧ t.tag ∉ known.map TagBase.tag ∧ t.base = base) := by
  induction tags generalizing known with
  | nil => exact .inl ht
  | cons tag tags ih =>
    rw [addTags] at ht
    split at ht
    · rcases ih ht with ht | ⟨hmem, hnew, hbase⟩
      · exact .inl ht
      · exact .inr ⟨List.mem_cons_of_mem _ hmem, hnew, hbase⟩
    · rename_i hany
      have hnew : tag ∉ known.map TagBase.tag := by simpa using hany
      rcases ih ht with ht | ⟨hmem, hother, hbase⟩
      · rcases List.mem_append.1 ht with ht | ht
        · exact .inl ht
        · rw [List.mem_singleton.1 ht]
          exact .inr ⟨List.mem_cons_self, hnew, rfl⟩
      · rw [List.map_append, List.mem_append, not_or] at hother
        exact .inr ⟨List.mem_cons_of_mem _ hmem, hother.1, hbase⟩

/-- **There is one entry for every tag** of an operation under the API prefix, in first-seen
order. -/
theorem tags_tagBases (apiPrefix : String) (h : (known.map TagBase.tag).Nodup)
    (ops : List Operation) :
    (tagBases apiPrefix known ops).map TagBase.tag =
      (known.map TagBase.tag ++ (versioned apiPrefix ops).flatMap Operation.tags).eraseDups := by
  induction ops generalizing known with
  | nil => rw [tagBases, versioned, List.filter_nil, List.flatMap_nil, List.append_nil,
      eraseDups_of_nodup h]
  | cons op ops ih =>
    unfold tagBases
    split
    · rename_i base hbase
      have htags := tags_addTags base h op.tags
      have hknown : ((addTags base known op.tags).map TagBase.tag).Nodup := htags ▸ nodup_eraseDups _
      have hkept := versioned_cons_of_some hbase ops
      rw [ih hknown, htags, hkept, List.flatMap_cons, ← eraseDups_append_eraseDups,
        eraseDups_eraseDups, eraseDups_append_eraseDups, List.append_assoc]
    · rename_i hnone
      have hleft := versioned_cons_of_none hnone ops
      rw [ih h, hleft]

/-- **The prefix of a tag** is the one that the first operation with the tag asks for. -/
theorem base_of_mem_tagBases (ht : t ∈ tagBases apiPrefix known ops) : t ∈ known ∨
    (t.tag ∉ known.map TagBase.tag ∧ ∃ op,
      ((versioned apiPrefix ops).find? fun op => t.tag ∈ op.tags) = some op ∧
        derivedBase? apiPrefix op.path = some t.base) := by
  induction ops generalizing known with
  | nil => exact .inl ht
  | cons op ops ih =>
    unfold tagBases at ht
    split at ht
    · rename_i base hbase
      have hkept := versioned_cons_of_some hbase ops
      rcases ih ht with ht | ⟨hnew, first, hfirst, hderived⟩
      · rcases mem_addTags ht with ht | ⟨hmem, hnew, heq⟩
        · exact .inl ht
        · refine .inr ⟨hnew, op, ?_, heq ▸ hbase⟩
          rw [hkept, List.find?_cons_of_pos (by simpa using hmem)]
      · -- the tag is new after the tags of this operation, so it is none of them
        have hnone : t.tag ∉ known.map TagBase.tag ∧ t.tag ∉ op.tags := by
          by_contra hnot
          rw [not_and_or, not_not, not_not] at hnot
          obtain ⟨s, hs, htag⟩ := exists_addTags base known op.tags
            (hnot.imp_left fun hmem => List.mem_map.1 hmem)
          exact hnew (List.mem_map.2 ⟨s, hs, htag⟩)
        refine .inr ⟨hnone.1, first, ?_, hderived⟩
        rw [hkept, List.find?_cons_of_neg (by simpa using hnone.2)]
        exact hfirst
    · rename_i hnone
      have hleft := versioned_cons_of_none hnone ops
      rw [hleft]
      exact ih ht

theorem nodup_tags_tagBases (apiPrefix : String) (ops : List Operation) :
    ((tagBases apiPrefix [] ops).map TagBase.tag).Nodup := by
  have hnil : (([] : List TagBase).map TagBase.tag).Nodup := List.nodup_nil
  rw [tags_tagBases apiPrefix hnil]
  exact nodup_eraseDups _

/-! ## Places -/

variable {op : Operation} {doc : Document}

theorem slotOf_eq_legacy : slotOf apiPrefix op = .legacy ↔ derivedBase? apiPrefix op.path = none := by
  unfold slotOf
  cases derivedBase? apiPrefix op.path with
  | none => simp
  | some base => cases op.tags.head? <;> simp

theorem slotOf_eq_aggregate : slotOf apiPrefix op = .aggregate ↔
    (derivedBase? apiPrefix op.path).isSome = true ∧ op.tags.head? = none := by
  unfold slotOf
  cases derivedBase? apiPrefix op.path with
  | none => simp
  | some base => cases op.tags.head? <;> simp

theorem slotOf_eq_group : slotOf apiPrefix op = .group tag ↔
    (derivedBase? apiPrefix op.path).isSome = true ∧ op.tags.head? = some tag := by
  unfold slotOf
  cases derivedBase? apiPrefix op.path with
  | none => simp
  | some base => cases op.tags.head? <;> simp

namespace Topology

/-- A group that is found by a tag is the group of this tag. -/
theorem of_groupOfTag? {g : Group} (h : (ofDocument apiPrefix doc).groupOfTag? tag = some g) :
    g ∈ (ofDocument apiPrefix doc).groups ∧ g.tags = [tag] ∧ g.name = groupName tag := by
  have hmem := List.mem_of_find?_eq_some h
  have htags : g.tags = [tag] := by simpa using List.find?_some h
  obtain ⟨t, -, rfl⟩ := List.mem_map.1 hmem
  obtain ⟨htag, -⟩ := List.cons.inj htags
  exact ⟨hmem, htags, congrArg groupName htag⟩

end Topology

end ApiCodegen
