import ApiCodegen.Proofs.Plan.Identifiers

/-!
# Declared identifiers may be given away

Operations are given their identifiers in order. One that repeats an identifier is given a number, and the
numbered identifier may be one that a later operation declares.

* `Document.operationId_eq_iff`: **an operation has what it asks for if none before it has.**
* `Document.IsNumbered`: an operation is given a number.
* `Document.operationId_or`: **an operation has what it asks for, or a number.**
* `Document.IsNumbered.operationId`: the number is the one that it has.
* `Document.notMem_take_iff`: **an identifier is free up to an operation** if none before it asks for it or is
  numbered to it.
* `Document.declared_kept`: **when an operation has the identifier that it alone declares.**
* `Document.not_kept_echo`: an operation that does not.
-/

namespace ApiCodegen.Document

variable {doc : Document} {i k : ℕ} {op : Operation} {s id : String}

/-- **An operation has the identifier that it asks for** if no operation before it has this. -/
theorem operationId_eq_iff (hop : doc.operations[i]? = some op) :
    doc.operationIds[i]? = some op.baseId ↔ op.baseId ∉ doc.operationIds.take i := by
  have hbase : doc.baseIds[i]? = some op.baseId := by rw [baseIds, List.getElem?_map, hop, Option.map_some]
  rw [operationIds, Name.getElem?_assign_eq_iff hbase]
  exact and_iff_right List.not_mem_nil

/-- An identifier has one place. -/
theorem eq_of_operationId {j : ℕ} (hj : doc.operationIds[j]? = some s) (hk : doc.operationIds[k]? = some s) :
    j = k :=
  (List.getElem?_inj (List.getElem?_eq_some_iff.1 hj).1 doc.nodup_operationIds).1 (hj.trans hk.symm)

/-- What an operation asks for is the identifier of this one or of an earlier one. -/
theorem exists_operationId_eq (hop : doc.operations[i]? = some op) :
    ∃ k ≤ i, doc.operationIds[k]? = some op.baseId := by
  by_cases hfree : op.baseId ∈ doc.operationIds.take i
  · obtain ⟨k, hk, hid⟩ := Name.mem_take_iff.1 hfree
    exact ⟨k, hk.le, hid⟩
  · exact ⟨i, le_rfl, (operationId_eq_iff hop).2 hfree⟩

/-- **An operation is given a number**, as an operation before it has what it asks for: the least number
that none of these has. -/
def IsNumbered (doc : Document) (k : ℕ) (id : String) : Prop :=
  ∃ op n, doc.operations[k]? = some op ∧ op.baseId ∈ doc.operationIds.take k ∧
    id = Name.numbered op.baseId (n + 1) ∧ id ∉ doc.operationIds.take k ∧
    ∀ m < n, Name.numbered op.baseId (m + 1) ∈ doc.operationIds.take k

/-- **An operation has what it asks for, or a number.** -/
theorem operationId_or (hop : doc.operations[i]? = some op) :
    (op.baseId ∉ doc.operationIds.take i ∧ doc.operationIds[i]? = some op.baseId) ∨
    op.baseId ∈ doc.operationIds.take i ∧ ∃ id, doc.operationIds[i]? = some id ∧ doc.IsNumbered i id := by
  by_cases hmem : op.baseId ∈ doc.operationIds.take i
  · right
    have hbase : doc.baseIds[i]? = some op.baseId := by rw [baseIds, List.getElem?_map, hop, Option.map_some]
    have hget := Name.getElem?_assign hbase []
    rw [List.append_nil] at hget
    obtain ⟨n, hn, hfree, hless⟩ := Name.fresh_eq_numbered (List.mem_reverse.2 hmem)
    rw [List.mem_reverse] at hfree
    have hid : doc.operationIds[i]? = some (Name.numbered op.baseId (n + 1)) :=
      hget.trans (congrArg some hn)
    exact ⟨hmem, _, hid, op, n, hop, hmem, rfl, hfree, fun m hm => List.mem_reverse.1 (hless m hm)⟩
  · exact .inl ⟨hmem, (operationId_eq_iff hop).2 hmem⟩

/-- The least free number is the one that the operation has. -/
theorem IsNumbered.operationId (h : doc.IsNumbered k id) : doc.operationIds[k]? = some id := by
  obtain ⟨op, n, hop, hmem, rfl, hfree, hless⟩ := h
  obtain ⟨hnot, -⟩ | ⟨-, id, hid, other, m, hother, -, rfl, hfree', hless'⟩ := operationId_or hop
  · exact absurd hmem hnot
  · obtain rfl := Option.some.inj (hop.symm.trans hother)
    have hle : n ≤ m := not_lt.1 fun hlt => hfree' (hless m hlt)
    have hge : m ≤ n := not_lt.1 fun hlt => hfree (hless' n hlt)
    rw [hid, le_antisymm hle hge]

/-- **An identifier is free up to an operation** if no operation before it asks for it or is numbered to
it. -/
theorem notMem_take_iff : s ∉ doc.operationIds.take i ↔ ∀ k < i,
    (∀ other, doc.operations[k]? = some other → other.baseId ≠ s) ∧ ¬ doc.IsNumbered k s := by
  constructor
  · intro hfree k hk
    refine ⟨?_, fun hnumbered => hfree (Name.mem_take_iff.2 ⟨k, hk, hnumbered.operationId⟩)⟩
    rintro other hother rfl
    obtain ⟨j, hj, hid⟩ := exists_operationId_eq hother
    exact hfree (Name.mem_take_iff.2 ⟨j, lt_of_le_of_lt hj hk, hid⟩)
  · intro h hmem
    obtain ⟨k, hk, hid⟩ := Name.mem_take_iff.1 hmem
    obtain ⟨other, hother⟩ := exists_operation hid
    obtain ⟨hasks, hnumbered⟩ := h k hk
    -- what an operation has it has asked for, or was numbered to
    obtain ⟨-, hown⟩ | ⟨-, id, hown, hnumber⟩ := operationId_or hother
    · exact hasks other hother (Option.some.inj (hown.symm.trans hid))
    · obtain rfl := Option.some.inj (hown.symm.trans hid)
      exact hnumbered hnumber

/-- **An operation has what none before it asks for**, unless one of these is numbered to it. -/
theorem kept_iff (hop : doc.operations[i]? = some op)
    (hothers : ∀ k < i, ∀ other, doc.operations[k]? = some other → other.baseId ≠ op.baseId) :
    doc.operationIds[i]? = some op.baseId ↔ ∀ k < i, ¬ doc.IsNumbered k op.baseId := by
  rw [operationId_eq_iff hop, notMem_take_iff]
  exact forall₂_congr fun k hk => and_iff_right (hothers k hk)

/-- **When an operation has the identifier that it alone declares.**

* It has it exactly if no operation before it is numbered to it.
* Otherwise it is given a number itself.
* It has it if it is not what an operation before it asks for, with a number. -/
theorem declared_kept (hop : doc.operations[i]? = some op) (hdeclared : op.operationId = some s)
    (hothers : ∀ k other, k ≠ i → doc.operations[k]? = some other → other.baseId ≠ Name.sanitize s) :
    (doc.operationIds[i]? = some (Name.sanitize s) ↔ ∀ k < i, ¬ doc.IsNumbered k (Name.sanitize s)) ∧
    ((∃ k < i, doc.IsNumbered k (Name.sanitize s)) →
      ∃ id, doc.operationIds[i]? = some id ∧ doc.IsNumbered i id) ∧
    ((∀ k < i, ∀ other, doc.operations[k]? = some other →
        ∀ n, Name.sanitize s ≠ Name.numbered other.baseId (n + 1)) →
      doc.operationIds[i]? = some (Name.sanitize s)) := by
  have hbase : op.baseId = Name.sanitize s := by rw [Operation.baseId, hdeclared]
  rw [← hbase] at hothers ⊢
  have hkept := kept_iff hop fun k hk other => hothers k other hk.ne
  refine ⟨hkept, ?_, ?_⟩
  · rintro ⟨k, hk, hnumbered⟩
    obtain ⟨-, hid⟩ | ⟨-, hnumber⟩ := operationId_or hop
    · exact absurd hnumbered (hkept.1 hid k hk)
    · exact hnumber
  · intro hother
    refine hkept.2 fun k hk hnumbered => ?_
    obtain ⟨other, n, hget, -, hid, -⟩ := hnumbered
    exact hother k hk other hget n hid

/-! ## Echoes -/

/-- Two operations that declare one identifier, and a third one. -/
def echoDocument (declared : String) : Document where
  paths := [⟨"/a", [{ path := "/a", verb := .get, operationId := some "echo" }]⟩,
    ⟨"/b", [{ path := "/b", verb := .get, operationId := some "echo" }]⟩,
    ⟨"/c", [{ path := "/c", verb := .get, operationId := some declared }]⟩]

/-- The third operation has what it declares, as the second one is numbered to something else. -/
theorem declared_kept_echo : (echoDocument "echo_2").operationIds[2]? = some "echo_2" ∧
    ∀ k < 2, ¬ (echoDocument "echo_2").IsNumbered k "echo_2" := by
  have hecho : Name.sanitize "echo" = "echo" := by decide +kernel
  have hident : Name.sanitize "echo_2" = "echo_2" := by decide +kernel
  have hop : (echoDocument "echo_2").operations[2]? =
      some { path := "/c", verb := .get, operationId := some "echo_2" } := rfl
  have hothers : ∀ k other, k ≠ 2 → (echoDocument "echo_2").operations[k]? = some other →
      other.baseId ≠ Name.sanitize "echo_2" := by
    have hne : Name.sanitize "echo" ≠ Name.sanitize "echo_2" := by
      rw [hecho, hident]
      decide
    intro k other hk hother
    match k with
    | 0 =>
      obtain rfl : ({ path := "/a", verb := .get, operationId := some "echo" } : Operation) = other :=
        Option.some.inj hother
      exact hne
    | 1 =>
      obtain rfl : ({ path := "/b", verb := .get, operationId := some "echo" } : Operation) = other :=
        Option.some.inj hother
      exact hne
    | 2 => exact absurd rfl hk
    | _ + 3 => cases hother
  obtain ⟨hkept, -⟩ := declared_kept hop rfl hothers
  rw [hident] at hkept
  have hid : (echoDocument "echo_2").operationIds[2]? = some "echo_2" := by decide +kernel
  exact ⟨hid, hkept.1 hid⟩

/-- The third operation alone declares its identifier, and another one has it. -/
theorem not_kept_echo : (echoDocument "echo_1").operations[2]? =
      some { path := "/c", verb := .get, operationId := some "echo_1" } ∧
    (echoDocument "echo_1").baseIds = ["echo", "echo", "echo_1"] ∧
    (echoDocument "echo_1").operationIds = ["echo", "echo_1", "echo_1_1"] := by
  refine ⟨rfl, ?_⟩
  decide +kernel

end ApiCodegen.Document
