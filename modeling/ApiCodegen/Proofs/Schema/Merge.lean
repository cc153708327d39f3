import Mathlib
import ApiCodegen.Schema.Merge

/-!
# What a merge can bring in

* `addPath_cons_cases`: where a path item goes.
* `mem_addOperations`, `mem_addPath`, `mem_addPaths`: no step of a merge makes up an operation.
* `forall_mem_addPaths`: what holds of the path items on both sides and is kept when operations are
  added holds of the path items of the result.
* `Document.mem_operations_merge`: **every operation of a combined document comes from one of the
  two**, also when the merge was refused half-way.
-/

namespace ApiCodegen

variable {op : Operation} {known more : List Operation} {item : PathItem} {paths items : List PathItem}

/-- **Where a path item goes**: to the item of its path, or past an item of another path. -/
theorem addPath_cons_cases {first : PathItem} {after : List PathItem} {refused : Option Operation}
    (h : addPath item (first :: paths) = (after, refused)) :
    (first.path = item.path ∧
      ∃ operations, addOperations first.operations item.operations = (operations, refused) ∧
        after = ⟨first.path, operations⟩ :: paths) ∨
    (first.path ≠ item.path ∧ ∃ others, addPath item paths = (others, refused) ∧ after = first :: others) := by
  unfold addPath at h
  split at h
  · rename_i heq
    obtain ⟨rfl, rfl⟩ := Prod.mk.inj h
    exact .inl ⟨heq, _, rfl, rfl⟩
  · rename_i hne
    obtain ⟨rfl, rfl⟩ := Prod.mk.inj h
    exact .inr ⟨hne, _, rfl, rfl⟩

theorem mem_addOperations (h : op ∈ (addOperations known more).1) : op ∈ known ∨ op ∈ more := by
  induction more generalizing known with
  | nil => exact .inl h
  | cons new more ih =>
    unfold addOperations at h
    split at h
    · -- a verb that is there already stops the merge
      exact .inl h
    · rcases ih h with h | h
      · rcases List.mem_append.1 h with h | h
        · exact .inl h
        · exact .inr (List.mem_singleton.1 h ▸ List.mem_cons_self)
      · exact .inr (List.mem_cons_of_mem _ h)

theorem mem_addPath (h : op ∈ (addPath item paths).1.flatMap PathItem.operations) :
    op ∈ paths.flatMap PathItem.operations ∨ op ∈ item.operations := by
  induction paths with
  | nil =>
    right
    simpa [addPath] using h
  | cons known paths ih =>
    unfold addPath at h
    rw [List.flatMap_cons, List.mem_append]
    split at h
    · rcases List.mem_append.1 h with h | h
      · exact (mem_addOperations h).imp_left .inl
      · exact .inl (.inr h)
    · rcases List.mem_append.1 h with h | h
      · exact .inl (.inl h)
      · exact (ih h).imp_left .inr

theorem mem_addPaths (h : op ∈ (addPaths paths items).1.flatMap PathItem.operations) :
    op ∈ paths.flatMap PathItem.operations ∨ op ∈ items.flatMap PathItem.operations := by
  induction items generalizing paths with
  | nil => exact .inl h
  | cons item items ih =>
    rw [List.flatMap_cons, List.mem_append]
    have hitem : op ∈ (addPath item paths).1.flatMap PathItem.operations → _ := mem_addPath
    unfold addPaths at h
    split at h
    · -- the item went in, and the others follow
      rename_i known hk
      rw [hk] at hitem
      rcases ih h with h | h
      · exact (hitem h).imp_right .inl
      · exact .inr (.inr h)
    · -- what went in before the refusal stays
      rename_i known refused hk
      rw [hk] at hitem
      exact (hitem h).imp_right .inl

/-- What adding operations to a path keeps, all path items keep. -/
theorem forall_mem_addPath {P : PathItem → Prop} (hp : ∀ known ∈ paths, P known) (hi : P item)
    (hadd : ∀ known : PathItem, known.path = item.path → P known →
      P { known with operations := (addOperations known.operations item.operations).1 }) :
    ∀ after ∈ (addPath item paths).1, P after := by
  induction paths with
  | nil =>
    intro after hafter
    obtain rfl : after = item := by simpa [addPath] using hafter
    exact hi
  | cons first paths ih =>
    rw [List.forall_mem_cons] at hp
    unfold addPath
    split
    · rename_i heq
      exact List.forall_mem_cons.2 ⟨hadd first heq hp.1, hp.2⟩
    · exact List.forall_mem_cons.2 ⟨hp.1, ih hp.2⟩

/-- **What adding operations to a path keeps, a merge keeps**, wherever it stops. -/
theorem forall_mem_addPaths {P : PathItem → Prop} (hp : ∀ known ∈ paths, P known)
    (hi : ∀ item ∈ items, P item)
    (hadd : ∀ known item : PathItem, known.path = item.path → P known → P item →
      P { known with operations := (addOperations known.operations item.operations).1 }) :
    ∀ after ∈ (addPaths paths items).1, P after := by
  induction items generalizing paths with
  | nil => exact hp
  | cons item items ih =>
    rw [List.forall_mem_cons] at hi
    have hitem : ∀ after ∈ (addPath item paths).1, P after :=
      forall_mem_addPath hp hi.1 fun known heq hk => hadd known item heq hk hi.1
    unfold addPaths
    split
    · rename_i between hbetween
      rw [hbetween] at hitem
      exact ih hitem hi.2
    · rename_i between refused hbetween
      rw [hbetween] at hitem
      exact hitem

namespace Document

variable {doc other : Document}

theorem components_merge : (doc.merge other).1.components = doc.components ++ other.components :=
  rfl

/-- **Every operation of a combined document comes from one of the two.** -/
theorem mem_operations_merge (h : op ∈ (doc.merge other).1.operations) :
    op ∈ doc.operations ∨ op ∈ other.operations := mem_addPaths h

end Document

end ApiCodegen
