import ApiCodegen.Proofs.Plan.Conflict
import ApiCodegen.Proofs.Plan.Registration

/-!
# The two tie-breaks agree

A tie-break decides what becomes of an operation that asks for another prefix than its group keeps: one
goes on with a warning, the other one stops. They go together until then, and they never lead to
different layouts.

* `Topology.warnings_firstSeen`: every warning is that of an operation that clashes.
* `Registry.foldlM_of_not_clashes`: **the passes are in the same state** as long as no operation clashes.
* `Registry.register_of_clashes`: what each of them does with the first operation that does.
* `Topology.tieBreaks_agree`: **a layout is refused exactly if it would be remarked on**, with the first
  remark for a reason, and it is the same layout otherwise.
-/

namespace ApiCodegen

variable {apiPrefix tag kept derived : String} {doc : Document} {op : Operation} {w : Warning}

/-! ## One pass beside the other -/

namespace Registry

/-- **The passes are in the same state** as long as no operation clashes, whatever the tie-break. -/
theorem foldlM_of_not_clashes (tieBreak : TieBreak) {before after : List Operation}
    (hsplit : doc.operations = before ++ after)
    (hbefore : ∀ other ∈ before, ∀ tag kept derived,
      ¬ Clashes apiPrefix doc.operations other tag kept derived) :
    before.foldlM (register tieBreak apiPrefix) (start apiPrefix doc.operations) =
      .ok (upTo apiPrefix doc.operations before []) := by
  have hstart : start apiPrefix doc.operations = upTo apiPrefix doc.operations [] [] := rfl
  have hmem : ∀ other ∈ before, other ∈ doc.operations := by
    intro other hother
    rw [hsplit]
    exact List.mem_append_left _ hother
  have hnone : before.filterMap (Topology.ofDocument apiPrefix doc).conflict? = [] :=
    List.filterMap_eq_nil_iff.2 fun other hother =>
      Topology.conflict?_eq_none_iff.2 (hbefore other hother)
  have hrun := foldlM_register tieBreak apiPrefix [] before [] hmem
  rw [hstart, hrun, hnone]
  cases tieBreak with
  | reject => rfl
  | firstSeen => rfl

/-- An operation that clashes is refused, or let pass with a remark. -/
theorem register_of_clashes (tieBreak : TieBreak) (done : List Operation) (hop : op ∈ doc.operations)
    (hclash : Clashes apiPrefix doc.operations op tag kept derived) :
    register tieBreak apiPrefix (upTo apiPrefix doc.operations done []) op =
      match tieBreak with
      | .reject => .error (.refused (.prefixConflict tag kept derived op.path))
      | .firstSeen => .ok (upTo apiPrefix doc.operations (done ++ [op])
          [.prefixKept op.verb op.path derived (groupName tag) kept]) := by
  have hconflict : (Topology.ofDocument apiPrefix doc).conflict? op = some ⟨op, tag, derived, kept⟩ :=
    Topology.conflict?_eq_some_iff.2 ⟨rfl, hclash⟩
  rw [register_eq tieBreak done [] hop, hconflict]
  cases tieBreak with
  | reject => rfl
  | firstSeen => rfl

end Registry

/-! ## Layouts -/

namespace Topology

/-- Every warning is that of an operation that clashes. -/
theorem warnings_firstSeen (h : w ∈ (resolve .firstSeen apiPrefix doc).warnings) :
    ∃ op ∈ doc.operations, ∃ tag kept derived, Clashes apiPrefix doc.operations op tag kept derived ∧
      w = .prefixKept op.verb op.path derived (groupName tag) kept := by
  obtain ⟨c, hc, rfl⟩ := List.mem_map.1 h
  obtain ⟨op, hop, hconflict⟩ := List.mem_filterMap.1 hc
  obtain ⟨rfl, hclash⟩ := conflict?_eq_some_iff.1 hconflict
  exact ⟨c.op, hop, c.tag, c.kept, c.derived, hclash, rfl⟩

/-- **The two tie-breaks agree.**

* The one that goes on always leads to a layout; its warnings are about operations that clash.
* The other one fails exactly if there is a warning. If it does not fail, the layout is the same.
* If it fails, it does so for the first operation that clashes, which the first warning is about; both
  have come to the same state until then. -/
theorem tieBreaks_agree (apiPrefix : String) (doc : Document) :
    ∃ topology warnings, resolve .firstSeen apiPrefix doc = ⟨warnings, .ok topology⟩ ∧
      (∀ w ∈ warnings, ∃ op ∈ doc.operations, ∃ tag kept derived,
        Clashes apiPrefix doc.operations op tag kept derived ∧
          w = .prefixKept op.verb op.path derived (groupName tag) kept) ∧
      ((∃ failure, (resolve .reject apiPrefix doc).outcome = .error failure) ↔ warnings ≠ []) ∧
      (warnings = [] → resolve .reject apiPrefix doc = ⟨[], .ok topology⟩) ∧
      ∀ first more, warnings = first :: more →
        ∃ before op after tag kept derived, doc.operations = before ++ op :: after ∧
          Clashes apiPrefix doc.operations op tag kept derived ∧
          (∀ other ∈ before, ∀ tag kept derived,
            ¬ Clashes apiPrefix doc.operations other tag kept derived) ∧
          first = .prefixKept op.verb op.path derived (groupName tag) kept ∧
          resolve .reject apiPrefix doc = ⟨[], .error (.prefixConflict tag kept derived op.path)⟩ ∧
          ∃ r : Registry, r.warnings = [] ∧
            (∀ tieBreak, before.foldlM (Registry.register tieBreak apiPrefix)
              (Registry.start apiPrefix doc.operations) = .ok r) ∧
            Registry.register .reject apiPrefix r op =
              .error (.refused (.prefixConflict tag kept derived op.path)) := by
  have hfirstSeen : resolve .firstSeen apiPrefix doc =
      ⟨((ofDocument apiPrefix doc).conflicts doc).map Conflict.warning,
        .ok (ofDocument apiPrefix doc)⟩ := rfl
  have hnone (hconflicts : (ofDocument apiPrefix doc).conflicts doc = []) :
      resolve .reject apiPrefix doc = ⟨[], .ok (ofDocument apiPrefix doc)⟩ := by
    simp only [resolve, hconflicts]
    rfl
  have hrejected {c : Conflict} {rest : List Conflict}
      (hconflicts : (ofDocument apiPrefix doc).conflicts doc = c :: rest) :
      resolve .reject apiPrefix doc = ⟨[], .error c.failure⟩ := by
    simp only [resolve, hconflicts]
    rfl
  refine ⟨_, _, hfirstSeen, fun w hw => ?_, ?_, fun hnil => ?_, fun first more hcons => ?_⟩
  · exact warnings_firstSeen (hfirstSeen ▸ hw)
  · cases hconflicts : (ofDocument apiPrefix doc).conflicts doc with
    | nil => simp [hnone hconflicts]
    | cons c more => simp [hrejected hconflicts]
  · exact hnone (List.map_eq_nil_iff.1 hnil)
  · obtain ⟨c, rest, hconflicts, rfl, -⟩ := List.map_eq_cons_iff.1 hcons
    obtain ⟨before, after, hsplit, hclash, hbefore⟩ := conflicts_eq_cons hconflicts
    have hop : c.op ∈ doc.operations := by
      rw [hsplit]
      exact List.mem_append_right _ List.mem_cons_self
    have hrefused := Registry.register_of_clashes .reject before hop hclash
    refine ⟨before, c.op, after, c.tag, c.kept, c.derived, hsplit, hclash, hbefore, rfl, ?_,
      Registry.upTo apiPrefix doc.operations before [], rfl, fun tieBreak => ?_, hrefused⟩
    · exact hrejected hconflicts
    · exact Registry.foldlM_of_not_clashes tieBreak hsplit hbefore

/-- The group of the second tag of the first operation has the prefix of this operation. The second
operation clashes with it, and the third one with its own group. -/
def borrowedDocument : Document where
  paths := [⟨"/v/a/x", [{ path := "/v/a/x", verb := .get, tags := ["a", "b"] }]⟩,
    ⟨"/v/b/y", [{ path := "/v/b/y", verb := .post, tags := ["b"] }]⟩,
    ⟨"/v/c", [{ path := "/v/c", verb := .put, tags := ["a"] }]⟩]

/-- Two operations are remarked on, and the first of them is refused. -/
theorem tieBreaks_agree_borrowed :
    (resolve .firstSeen "/v" borrowedDocument).warnings =
      [.prefixKept .post "/v/b/y" "/b" "b-router" "/a", .prefixKept .put "/v/c" "/c" "a-router" "/a"] ∧
    (resolve .reject "/v" borrowedDocument).outcome = .error (.prefixConflict "b" "/a" "/b" "/v/b/y") := by
  obtain ⟨topology, warnings, hrun, -, -, -, hfirst⟩ := tieBreaks_agree "/v" borrowedDocument
  have hwarnings : (resolve .firstSeen "/v" borrowedDocument).warnings =
      [.prefixKept .post "/v/b/y" "/b" "b-router" "/a",
        .prefixKept .put "/v/c" "/c" "a-router" "/a"] := by decide +kernel
  have heq : warnings = (resolve .firstSeen "/v" borrowedDocument).warnings := by rw [hrun]
  obtain ⟨before, op, after, tag, kept, derived, -, -, -, hremark, hrefused, -⟩ :=
    hfirst _ _ (heq.trans hwarnings)
  -- the remark says which operation is refused, and the tag is that of the operation
  obtain ⟨-, hpath, hderived, hgroup, hkept⟩ := Warning.prefixKept.inj hremark
  obtain rfl : tag = "b" := by
    have hchars := congrArg String.toList hgroup
    rw [groupName, String.toList_append] at hchars
    exact (String.toList_inj.1 (List.append_cancel_right
      (hchars : "b".toList ++ "-router".toList = tag.toList ++ "-router".toList))).symm
  refine ⟨hwarnings, ?_⟩
  rw [hrefused, ← hpath, ← hderived, ← hkept]

end Topology

end ApiCodegen
