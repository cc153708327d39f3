import ApiCodegen.Proofs.Plan.Tags

/-!
# Which operations a tie-break refuses

* `keptBase?`: the prefix that the group of a tag keeps, by the operations alone.
* `Topology.base_groupOfTag?`: **this is the prefix that the layout gives to the group.**
* `FirstConflict`: the first operation that asks for another prefix than its group keeps.
* `Topology.resolve_ok_iff`, `Topology.resolve_error_iff`: **a tie-break that refuses conflicts
  reports the first, and no other layout fails.**
-/

namespace ApiCodegen

variable {apiPrefix tag kept derived : String} {ops : List Operation} {op : Operation} {doc : Document}

/-- The prefix that the group of a tag keeps: that of the first operation with the tag. -/
def keptBase? (apiPrefix : String) (ops : List Operation) (tag : String) : Option String :=
  ((versioned apiPrefix ops).find? fun op => tag ∈ op.tags).bind fun op =>
    derivedBase? apiPrefix op.path

/-- An operation under the API prefix **clashes** if it asks for another prefix than the group of its
first tag keeps. -/
structure Clashes (apiPrefix : String) (ops : List Operation) (op : Operation)
    (tag kept derived : String) : Prop where
  asks : derivedBase? apiPrefix op.path = some derived
  tagged : op.tags.head? = some tag
  keeps : keptBase? apiPrefix ops tag = some kept
  ne : kept ≠ derived

/-- **The first conflict** of a list of operations: one that clashes, while none before it does. -/
def FirstConflict (apiPrefix : String) (ops : List Operation) (op : Operation)
    (tag kept derived : String) : Prop :=
  ∃ before after, ops = before ++ op :: after ∧ Clashes apiPrefix ops op tag kept derived ∧
    ∀ other ∈ before, ∀ tag kept derived, ¬ Clashes apiPrefix ops other tag kept derived

namespace Topology

/-- **The layout gives the kept prefix to a group**, and there is a group for every kept prefix. -/
theorem base_groupOfTag? (apiPrefix : String) (doc : Document) (tag : String) :
    ((ofDocument apiPrefix doc).groupOfTag? tag).map Group.base =
      keptBase? apiPrefix doc.operations tag := by
  unfold keptBase?
  cases hg : (ofDocument apiPrefix doc).groupOfTag? tag with
  | some g =>
    obtain ⟨hmem, htags, -⟩ := of_groupOfTag? hg
    obtain ⟨t, ht, rfl⟩ := List.mem_map.1 hmem
    obtain rfl : t.tag = tag := (List.cons.inj htags).1
    obtain ht | ⟨-, first, hfirst, hbase⟩ := base_of_mem_tagBases ht
    · exact absurd ht List.not_mem_nil
    · rw [hfirst]
      exact hbase.symm
  | none =>
    -- an operation with the tag would have led to a group
    suffices hnone : (versioned apiPrefix doc.operations).find? (fun op => tag ∈ op.tags) = none by
      rw [hnone]
      rfl
    refine List.find?_eq_none.2 fun op hop htag => ?_
    obtain ⟨hop, hunder⟩ := List.mem_filter.1 hop
    have hsome : (derivedBase? apiPrefix op.path).isSome = true :=
      derivedBase?_isSome.2 (of_decide_eq_true hunder)
    obtain ⟨t, ht, rfl⟩ := exists_tagBase [] doc.operations
      (.inr ⟨op, hop, hsome, of_decide_eq_true htag⟩)
    refine absurd (List.find?_eq_none.1 hg _ (List.mem_map_of_mem ht)) ?_
    simp

/-- The conflicts of a layout are the operations that clash. -/
theorem conflict?_eq_some_iff {c : Conflict} : (ofDocument apiPrefix doc).conflict? op = some c ↔
    c.op = op ∧ Clashes apiPrefix doc.operations op c.tag c.kept c.derived := by
  have hbase (tag : String) := base_groupOfTag? apiPrefix doc tag
  have hapi : (ofDocument apiPrefix doc).apiPrefix = apiPrefix := rfl
  simp only [conflict?, hapi, Option.bind_eq_bind, Option.bind_eq_some_iff, Option.ite_none_left_eq_some,
    Option.some.injEq]
  constructor
  · rintro ⟨derived, hderived, tag, htag, g, hg, hne, rfl⟩
    exact ⟨rfl, hderived, htag, by rw [← hbase, hg]; rfl, hne⟩
  · rintro ⟨hop, h⟩
    obtain ⟨g, hg, hkept⟩ := Option.map_eq_some_iff.1 ((hbase c.tag).trans h.keeps)
    refine ⟨c.derived, h.asks, c.tag, h.tagged, g, hg, hkept ▸ h.ne, ?_⟩
    rw [hkept, ← hop]

theorem conflict?_eq_none_iff : (ofDocument apiPrefix doc).conflict? op = none ↔
    ∀ tag kept derived, ¬ Clashes apiPrefix doc.operations op tag kept derived := by
  rw [Option.eq_none_iff_forall_ne_some]
  constructor
  · intro h tag kept derived hclash
    exact h ⟨op, tag, derived, kept⟩ (conflict?_eq_some_iff.2 ⟨rfl, hclash⟩)
  · intro h c hc
    exact h _ _ _ (conflict?_eq_some_iff.1 hc).2

theorem conflicts_eq_nil_iff : (ofDocument apiPrefix doc).conflicts doc = [] ↔
    ∀ op ∈ doc.operations, ∀ tag kept derived, ¬ Clashes apiPrefix doc.operations op tag kept derived := by
  rw [conflicts, List.filterMap_eq_nil_iff]
  exact forall₂_congr fun op _ => conflict?_eq_none_iff

theorem conflicts_eq_cons {c : Conflict} {more : List Conflict}
    (h : (ofDocument apiPrefix doc).conflicts doc = c :: more) :
    FirstConflict apiPrefix doc.operations c.op c.tag c.kept c.derived := by
  obtain ⟨before, op, after, hsplit, hbefore, hop, -⟩ := List.filterMap_eq_cons_iff.1 h
  obtain ⟨rfl, hclash⟩ := conflict?_eq_some_iff.1 hop
  exact ⟨before, after, hsplit, hclash, fun other hother => conflict?_eq_none_iff.1 (hbefore other hother)⟩

theorem conflicts_of_firstConflict (h : FirstConflict apiPrefix doc.operations op tag kept derived) :
    ∃ more, (ofDocument apiPrefix doc).conflicts doc = ⟨op, tag, derived, kept⟩ :: more := by
  obtain ⟨before, after, hsplit, hclash, hbefore⟩ := h
  refine ⟨after.filterMap (ofDocument apiPrefix doc).conflict?, List.filterMap_eq_cons_iff.2
    ⟨before, op, after, hsplit, fun other hother => conflict?_eq_none_iff.2 (hbefore other hother),
      conflict?_eq_some_iff.2 ⟨rfl, hclash⟩, rfl⟩⟩

/-- There is a first conflict if an operation clashes. -/
theorem exists_firstConflict_iff :
    (∃ op tag kept derived, FirstConflict apiPrefix doc.operations op tag kept derived) ↔
      ¬ ∀ op ∈ doc.operations, ∀ tag kept derived,
        ¬ Clashes apiPrefix doc.operations op tag kept derived := by
  rw [← conflicts_eq_nil_iff]
  constructor
  · rintro ⟨op, tag, kept, derived, h⟩ hnil
    obtain ⟨more, hcons⟩ := conflicts_of_firstConflict h
    rw [hnil] at hcons
    cases hcons
  · intro h
    obtain ⟨c, more, hcons⟩ := List.exists_cons_of_ne_nil h
    exact ⟨c.op, c.tag, c.kept, c.derived, conflicts_eq_cons hcons⟩

/-- **A layout fails at the first conflict**, if the tie-break refuses conflicts. -/
theorem resolve_error_iff {tieBreak : TieBreak} {failure : Failure} :
    (resolve tieBreak apiPrefix doc).outcome = .error failure ↔ tieBreak = .reject ∧
      ∃ op tag kept derived, FirstConflict apiPrefix doc.operations op tag kept derived ∧
        failure = .prefixConflict tag kept derived op.path := by
  cases tieBreak with
  | firstSeen => simp [resolve]
  | reject =>
    rw [resolve]
    constructor
    · intro h
      cases hc : (ofDocument apiPrefix doc).conflicts doc with
      | nil => simp [hc] at h
      | cons c more =>
        simp only [hc, Reported.fail, Except.error.injEq] at h
        exact ⟨rfl, c.op, c.tag, c.kept, c.derived, conflicts_eq_cons hc, h.symm⟩
    · rintro ⟨-, op, tag, kept, derived, hfirst, rfl⟩
      obtain ⟨more, hc⟩ := conflicts_of_firstConflict hfirst
      simp only [hc]
      rfl

/-- **It is made in all other cases.** -/
theorem resolve_ok_iff {tieBreak : TieBreak} {topology : Topology} :
    (resolve tieBreak apiPrefix doc).outcome = .ok topology ↔ topology = ofDocument apiPrefix doc ∧
      (tieBreak = .reject → ∀ op ∈ doc.operations, ∀ tag kept derived,
        ¬ Clashes apiPrefix doc.operations op tag kept derived) := by
  cases tieBreak with
  | firstSeen => simp [resolve, eq_comm]
  | reject =>
    rw [← conflicts_eq_nil_iff, resolve]
    cases (ofDocument apiPrefix doc).conflicts doc with
    | nil => simp [eq_comm]
    | cons c more => simp [Reported.fail]

end Topology

end ApiCodegen
