import ApiCodegen.Failure
import ApiCodegen.Schema.Basic

/-!
# Several documents in one

Components are appended. A path of both documents gets the operations of both, and a verb that
the path has already is refused.

* `Document.merge`: the combined document, and what was refused. What was added before the
  refusal stays added.
-/

namespace ApiCodegen

/-- Adds operations to those of a path, up to the first whose verb is there already. -/
def addOperations (known : List Operation) : List Operation → List Operation × Option Operation
  | [] => (known, none)
  | op :: more =>
    if known.any fun other => other.verb = op.verb then (known, some op)
    else addOperations (known ++ [op]) more

/-- Adds a path item: to the item of the same path, or at the end. -/
def addPath (item : PathItem) : List PathItem → List PathItem × Option Operation
  | [] => ([item], none)
  | known :: more =>
    if known.path = item.path then
      let (operations, refused) := addOperations known.operations item.operations
      ({ known with operations } :: more, refused)
    else
      let (more, refused) := addPath item more
      (known :: more, refused)

/-- Adds path items in order, up to the first refused operation. -/
def addPaths (known : List PathItem) : List PathItem → List PathItem × Option Operation
  | [] => (known, none)
  | item :: more =>
    match addPath item known with
    | (known, none) => addPaths known more
    | (known, some op) => (known, some op)

/-- The combined document, and the operation that was refused, if any. -/
def Document.merge (doc other : Document) : Document × Option Operation :=
  let (paths, refused) := addPaths doc.paths other.paths
  (⟨doc.components ++ other.components, paths⟩, refused)

/-- The failure of a merge that refused an operation. -/
def refusal (op : Operation) : Failure := .malformed (.duplicateOperation op.verb op.path)

/-- The combined document, if nothing was refused. -/
def Document.merged (doc other : Document) : Except Failure Document :=
  match doc.merge other with
  | (doc, none) => .ok doc
  | (_, some op) => .error (refusal op)

end ApiCodegen
