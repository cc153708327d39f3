import ApiCodegen.Proofs.Client.Files
import ApiCodegen.Proofs.FirstSeen
import ApiCodegen.Proofs.Plan.Collision
import ApiCodegen.Proofs.Server.Evaluation

/-!
# Which names the files bind twice

That no two components have one declared name is checked once, for all files. Every file also binds
names of its own, and these are compared with nothing.

* `Server.ModelsFile.bound`, `Client.TypesFile.declared`, `Client.ClientFile.bound`: the names that the
  files import and declare.
* `Server.ModelsFile.declared_perm`: the models file declares the name of every declaration once.
* `Client.ClientFile.nodup_importsOf_iff`: the client file imports a name twice if it refers to a type that
  has the name of dates with times, and uses these.
* `bound_once_iff`: **no name is bound twice exactly if no declared type has a name that the file has
  otherwise.**
* `not_bound_once_stamped`: a document for which every file binds a name twice.
-/

namespace ApiCodegen

variable {doc : Document} {declarations : List Declaration} {name : String}

/-! ## The models file -/

namespace Server.ModelsFile

/-- The names that the file imports. -/
def importedNames : List String :=
  ["datetime", "Any", "Literal", "Optional", "BaseModel", "ConfigDict", "Field"]

/-- The names that the file imports, and those that it declares. -/
def bound (file : ModelsFile) : List String := importedNames ++ file.declared

/-- **The file declares the name of every declaration once**: those of objects first, and the others in
an order of their own. -/
theorem declared_perm (hn : (declarations.map Declaration.name).Nodup) :
    (ofDeclarations declarations).declared.Perm (declarations.map Declaration.name) := by
  have haliases : ((ofDeclarations declarations).aliases.map Alias.name).Perm
      ((declarations.filter fun d => !d.isObject).map Declaration.name) := by
    rw [← names_aliases]
    exact (aliasOrder_perm (nodup_names_aliases hn)).map Alias.name
  have hclasses : (ofDeclarations declarations).classes.map ModelClass.name =
      (declarations.filter Declaration.isObject).map Declaration.name := names_classes declarations
  rw [declared, hclasses]
  refine (haliases.append_left _).trans ?_
  rw [← List.map_append]
  refine List.Perm.map Declaration.name ?_
  simpa using List.filter_append_perm Declaration.isObject declarations

theorem nodup_bound_iff (hn : (declarations.map Declaration.name).Nodup) :
    (ofDeclarations declarations).bound.Nodup ↔
      ∀ name ∈ importedNames, name ∉ declarations.map Declaration.name := by
  have hperm := declared_perm hn
  have himported : importedNames.Nodup := by decide
  rw [bound, List.nodup_append', hperm.nodup_iff]
  simp only [himported, hn, true_and, List.Disjoint]
  exact forall₂_congr fun name _ => not_congr hperm.mem_iff

end Server.ModelsFile

/-! ## The client file -/

/-- The names that schemas refer to are collected once. -/
theorem nodup_referencedNames (schemas : List Schema) : (referencedNames schemas).Nodup :=
  nodup_eraseDups _

namespace Client.ClientFile

/-- The names that the file declares, whatever the description. -/
def ownNames : List String :=
  ["API_ENDPOINTS", "ApiEndpoint", "HttpMethod", "ApiClientConfig", "ApiError", "buildPath", "ApiClient",
    "createApiClient", "defaultBaseUrl", "apiMethods"]

/-- The names that the file imports, and those that it declares. -/
def bound (file : ClientFile) : List String := file.imports ++ ownNames

/-- **A name is imported twice** if dates with times are used and a type of their name is referred to, and
only then. -/
theorem nodup_importsOf_iff {routes : List Route} : (importsOf routes).Nodup ↔
    ¬ (dateTimeName ∈ referencedNames (routes.flatMap Route.schemas) ∧
      ∃ s ∈ routes.flatMap Route.schemas, s.usesDateTime = true) := by
  have hn := nodup_referencedNames (routes.flatMap Route.schemas)
  simp only [importsOf]
  split
  · rename_i hany
    rw [List.any_eq_true] at hany
    rw [(List.mergeSort_perm _ _).nodup_iff, ← List.concat_eq_append, List.nodup_concat]
    simp only [hn, hany, and_true]
  · rename_i hany
    rw [List.any_eq_true] at hany
    simp only [hn, hany, and_false, not_false_eq_true]

end Client.ClientFile

/-! ## All files -/

/-- Some operation refers to a type that is declared by a name. -/
def Document.OperationsReferTo (doc : Document) (name : String) : Prop :=
  ∃ op ∈ doc.operations, ∃ s ∈ op.schemas, name ∈ s.references.map Name.declaration

/-- Some operation has a request or a response that is made of dates with times. -/
def Document.OperationsUseDateTime (doc : Document) : Prop :=
  ∃ op ∈ doc.operations, ∃ s ∈ op.schemas, s.usesDateTime = true

instance (doc : Document) (name : String) : Decidable (doc.OperationsReferTo name) :=
  inferInstanceAs (Decidable (∃ op ∈ doc.operations, ∃ s ∈ op.schemas,
    name ∈ s.references.map Name.declaration))

instance (doc : Document) : Decidable doc.OperationsUseDateTime :=
  inferInstanceAs (Decidable (∃ op ∈ doc.operations, ∃ s ∈ op.schemas, s.usesDateTime = true))

variable {topology : Topology} {table : BindingTable} {options : ClientOptions}

/-- What the routes refer to and what they use is what the operations do. -/
theorem exists_routes_schema_iff {p : Schema → Prop} :
    (∃ s ∈ (RoutePlan.ofDocument doc topology table).routes.flatMap Route.schemas, p s) ↔
      ∃ op ∈ doc.operations, ∃ s ∈ op.schemas, p s := by
  simp only [RoutePlan.mem_schemas_iff]
  constructor
  · rintro ⟨s, ⟨op, hop, hs⟩, hp⟩
    exact ⟨op, hop, s, hs, hp⟩
  · rintro ⟨op, hop, s, hs, hp⟩
    exact ⟨s, ⟨op, hop, hs⟩, hp⟩

theorem mem_referencedNames_routes_iff : name ∈ referencedNames
    ((RoutePlan.ofDocument doc topology table).routes.flatMap Route.schemas) ↔
      doc.OperationsReferTo name := by
  rw [mem_referencedNames, exists_routes_schema_iff]
  rfl

namespace Client.ClientFile

theorem mem_imports_iff :
    name ∈ (ofPlan options (RoutePlan.ofDocument doc topology table)).imports ↔
      doc.OperationsReferTo name ∨ name = dateTimeName ∧ doc.OperationsUseDateTime := by
  rw [Document.OperationsUseDateTime, ← mem_referencedNames_routes_iff, ← exists_routes_schema_iff]
  exact mem_importsOf

theorem nodup_bound_iff :
    (ofPlan options (RoutePlan.ofDocument doc topology table)).bound.Nodup ↔
      ¬ (doc.OperationsReferTo dateTimeName ∧ doc.OperationsUseDateTime) ∧
        ∀ name ∈ ownNames, ¬ doc.OperationsReferTo name := by
  have hown : ownNames.Nodup := by decide
  have himports : (ofPlan options (RoutePlan.ofDocument doc topology table)).imports.Nodup ↔
      ¬ (doc.OperationsReferTo dateTimeName ∧ doc.OperationsUseDateTime) := by
    rw [Document.OperationsUseDateTime, ← mem_referencedNames_routes_iff, ← exists_routes_schema_iff]
    exact nodup_importsOf_iff
  rw [bound, List.nodup_append', himports]
  simp only [hown, true_and]
  refine and_congr_right fun _ => ⟨fun hapart name hname hrefers => ?_, fun hfree name hname hown => ?_⟩
  · exact hapart (mem_imports_iff.2 (.inl hrefers)) hname
  · rcases mem_imports_iff.1 hname with hrefers | ⟨rfl, -⟩
    · exact hfree name hown hrefers
    · -- the name of dates with times is none of the file
      revert hown
      decide

end Client.ClientFile

/-- **No name is bound twice in a generated file** exactly if the names of the file itself are left alone.

* In the models file, if no declared type has a name that the file imports.
* In the types file, if none has the name of dates with times.
* In the client file, if no operation refers to a type by this name while some operation uses dates with
  times, and none refers to a type by a name that the file declares. -/
theorem bound_once_iff (h : doc.declarations = .ok declarations) (topology : Topology)
    (table : BindingTable) (options : ClientOptions) :
    ((Server.ModelsFile.ofDeclarations declarations).bound.Nodup ↔
      ∀ name ∈ Server.ModelsFile.importedNames, name ∉ declarations.map Declaration.name) ∧
    ((Client.TypesFile.ofDeclarations declarations).declared.Nodup ↔
      Client.dateTimeName ∉ declarations.map Declaration.name) ∧
    ((Client.ClientFile.ofPlan options (RoutePlan.ofDocument doc topology table)).bound.Nodup ↔
      ¬ (doc.OperationsReferTo Client.dateTimeName ∧ doc.OperationsUseDateTime) ∧
        ∀ name ∈ Client.ClientFile.ownNames, ¬ doc.OperationsReferTo name) := by
  have hn := Document.nodup_names_declarations h
  refine ⟨Server.ModelsFile.nodup_bound_iff hn, ?_, Client.ClientFile.nodup_bound_iff⟩
  rw [Client.TypesFile.declared_ofDeclarations, List.nodup_cons]
  exact and_iff_left hn

/-! ## A type named like dates with times -/

/-- Two declared types, of which the first is that of a date with time, and two operations: one responds
with a date with time, and one with the first type. -/
def stampedDocument (stamp other : String) : Document where
  components := [⟨stamp, none, .primitive .string (some "date-time")⟩, ⟨other, none, .object [] []⟩]
  paths := [
    ⟨"/api/v1/now",
      [{ path := "/api/v1/now", verb := .get, response := .primitive .string (some "date-time") }]⟩,
    ⟨"/api/v1/last", [{ path := "/api/v1/last", verb := .get, response := .reference stamp }]⟩]

/-- The declarations of `stampedDocument`. -/
def stampedDeclarations (stamp other : String) : List Declaration :=
  (stampedDocument stamp other).components.map Declaration.ofComponent

/-- The client file of `stampedDocument`. -/
def stampedClient (stamp other : String) : Client.ClientFile :=
  .ofPlan {} (.ofDocument (stampedDocument stamp other)
    (.ofDocument "/api/v1" (stampedDocument stamp other)) .builtin)

/-- Types with names of their own. -/
theorem bound_once_iff_stamped :
    (stampedDocument "Stamp" "Book").declarations = .ok (stampedDeclarations "Stamp" "Book") ∧
    (Server.ModelsFile.ofDeclarations (stampedDeclarations "Stamp" "Book")).bound.Nodup ∧
    (Client.TypesFile.ofDeclarations (stampedDeclarations "Stamp" "Book")).declared.Nodup ∧
    (stampedClient "Stamp" "Book").bound.Nodup := by
  have h : (stampedDocument "Stamp" "Book").declarations = .ok (stampedDeclarations "Stamp" "Book") := by
    rfl
  obtain ⟨hmodels, htypes, hclient⟩ := bound_once_iff h
    (.ofDocument "/api/v1" (stampedDocument "Stamp" "Book")) .builtin {}
  refine ⟨h, hmodels.2 ?_, htypes.2 ?_, hclient.2 ⟨?_, ?_⟩⟩
  · decide +kernel
  · decide +kernel
  · decide +kernel
  · decide +kernel

/-- A type that has the name of dates with times, and one that has the name of a helper: every file binds
a name twice. -/
theorem not_bound_once_stamped :
    (stampedDocument "DateTimeString" "Field").declarations =
      .ok (stampedDeclarations "DateTimeString" "Field") ∧
    ¬ (Server.ModelsFile.ofDeclarations (stampedDeclarations "DateTimeString" "Field")).bound.Nodup ∧
    ¬ (Client.TypesFile.ofDeclarations (stampedDeclarations "DateTimeString" "Field")).declared.Nodup ∧
    ¬ (stampedClient "DateTimeString" "Field").bound.Nodup := by
  refine ⟨rfl, ?_, ?_, ?_⟩
  · decide +kernel
  · decide +kernel
  · -- the first type is imported once for its own sake, and once for that of dates with times
    have htwice : (stampedDocument "DateTimeString" "Field").OperationsReferTo Client.dateTimeName ∧
        (stampedDocument "DateTimeString" "Field").OperationsUseDateTime := by decide +kernel
    exact fun hn => (Client.ClientFile.nodup_bound_iff.1 hn).1 htwice

end ApiCodegen
