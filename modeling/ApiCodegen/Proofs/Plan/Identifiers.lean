import ApiCodegen.Proofs.Name.Operation
import ApiCodegen.Proofs.Plan.Route

/-!
# The identifiers of operations

* `Operation.isIdentifier_baseId`: an operation asks for an identifier, whatever it is named.
* `Document.nodup_operationIds`, `Document.isIdentifier_of_mem_operationIds`: **the identifiers of the
  operations are distinct identifiers.**
-/

namespace ApiCodegen

/-- **An operation asks for an identifier**: that of its own name, or that of its verb and path. -/
theorem Operation.isIdentifier_baseId (op : Operation) : Name.isIdentifier op.baseId.toList := by
  unfold baseId
  split
  · rename_i id hid
    exact Name.isIdentifier_sanitize id
  · exact Name.isIdentifier_operation op.verb op.path

namespace Document

variable {doc : Document} {id : String}

/-- **The identifiers of the operations are distinct.** -/
theorem nodup_operationIds (doc : Document) : doc.operationIds.Nodup := Name.nodup_assign [] _

/-- **They are identifiers.** -/
theorem isIdentifier_of_mem_operationIds (h : id ∈ doc.operationIds) :
    Name.isIdentifier id.toList := by
  refine Name.isIdentifier_of_mem_assign (fun base hbase => ?_) h
  obtain ⟨op, -, rfl⟩ := List.mem_map.1 hbase
  exact op.isIdentifier_baseId

end Document

end ApiCodegen
