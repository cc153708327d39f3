import Mathlib
import ApiCodegen.Plan.Binding

/-!
# What a validated table guarantees

* `BindingTable.get?_eq_some_iff`, `BindingTable.get?_eq_none_iff`: an operation has the entry for it,
  if there is one.
* `BindingTable.unmatchedBinding_mem_validate`: an entry that no operation has the identifier of is remarked on.
* `BindingTable.validate_error_iff`, `BindingTable.validate_ok_iff`: **only the strict policy refuses,
  and it names all unbound operations in order.**
-/

namespace ApiCodegen.BindingTable

variable {table : BindingTable} {policy : BindingPolicy} {ids : List String} {id : String}

theorem get?_eq_none_iff : table.get? id = none ↔ id ∉ table.entries.map Binding.operationId := by
  rw [get?, List.find?_eq_none, List.mem_map]
  constructor
  · rintro h ⟨b, hb, rfl⟩
    exact h b hb (decide_eq_true rfl)
  · intro h b hb heq
    exact h ⟨b, hb, of_decide_eq_true heq⟩

/-- The binding of an operation is the entry for it, of which there is no other. -/
theorem get?_eq_some_iff {b : Binding} :
    table.get? id = some b ↔ b ∈ table.entries ∧ b.operationId = id := by
  constructor
  · intro h
    exact ⟨List.mem_of_find?_eq_some h, by simpa using List.find?_some h⟩
  · rintro ⟨hb, rfl⟩
    cases h : table.get? b.operationId with
    | none => exact absurd (List.mem_map_of_mem hb) (get?_eq_none_iff.1 h)
    | some other =>
      have hid : other.operationId = b.operationId := by simpa using List.find?_some h
      rw [List.inj_on_of_nodup_map table.distinct (List.mem_of_find?_eq_some h) hb hid]

theorem unbound_eq : table.unbound ids =
    ids.filter fun id => id ∉ table.entries.map Binding.operationId := by
  refine List.filter_congr fun id _ => ?_
  rw [Bool.eq_iff_iff, Option.isNone_iff_eq_none, get?_eq_none_iff, decide_eq_true_iff]

/-- **An entry that no operation has the identifier of is remarked on**, whatever becomes of the check. -/
theorem unmatchedBinding_mem_validate {b : Binding} (hb : table.get? id = some b) (h : id ∉ ids)
    (policy : BindingPolicy) : .unmatchedBinding id ∈ (table.validate policy ids).warnings := by
  obtain ⟨hmem, rfl⟩ := get?_eq_some_iff.1 hb
  have hunmatched : b.operationId ∈ table.unmatched ids :=
    List.mem_filter.2 ⟨List.mem_map_of_mem hmem, decide_eq_true h⟩
  have hremark : Warning.unmatchedBinding b.operationId ∈
      (table.unmatched ids).map Warning.unmatchedBinding := List.mem_map_of_mem hunmatched
  unfold validate
  cases policy with
  | lenient => exact List.mem_append_left _ hremark
  | strict => cases table.unbound ids <;> exact hremark

/-- **The strict policy refuses unbound operations**, all of them in order; the other never does. -/
theorem validate_error_iff {failure : Failure} :
    (table.validate policy ids).outcome = .error failure ↔
      policy = .strict ∧ table.unbound ids ≠ [] ∧
        failure = .unboundOperations (table.unbound ids) := by
  unfold validate
  cases policy with
  | lenient => simp [Reported.warn]
  | strict =>
    cases table.unbound ids with
    | nil => simp [Reported.warn]
    | cons id more => simp [eq_comm]

theorem validate_ok_iff : (table.validate policy ids).outcome = .ok () ↔
    (policy = .strict → table.unbound ids = []) := by
  unfold validate
  cases policy with
  | lenient => simp [Reported.warn]
  | strict => cases table.unbound ids <;> simp [Reported.warn]

end ApiCodegen.BindingTable
