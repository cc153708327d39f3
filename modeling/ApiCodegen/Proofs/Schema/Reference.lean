import ApiCodegen.Proofs.Members
import ApiCodegen.Schema.Reference

/-!
# What a schema refers to

* `Schema.induct`: induction over schemas, with the properties of an object as members of a list.
* `Schema.dangling_references`, `Schema.generalize_references`: **the check finds the undeclared
  references and generalizing keeps the declared ones**, at every depth and in the same order.
* `Document.Closed`: everything a document refers to is one of its components.
* `Document.closed_of_check`: **both policies let only closed documents pass.**
-/

namespace ApiCodegen

namespace Schema

variable {known : List String} {location : String}

/-- Induction over schemas. The case of an object has a hypothesis for every property. -/
@[induction_eliminator]
theorem induct {P : Schema → Prop}
    (primitive : ∀ kind format, P (.primitive kind format))
    (reference : ∀ name, P (.reference name))
    (array : ∀ items, P items → P (.array items))
    (object : ∀ properties required, (∀ p ∈ properties, P p.schema) →
      P (.object properties required))
    (nullable : ∀ inner, P inner → P (.nullable inner))
    (enumeration : ∀ values, P (.enumeration values))
    (untyped : P .untyped) (s : Schema) : P s := by
  refine @Schema.rec P (fun properties => ∀ p ∈ properties, P p.schema) (fun p => P p.schema)
    primitive reference array object nullable enumeration untyped ?_ ?_ ?_ s
  · exact fun p hp => absurd hp List.not_mem_nil
  · intro p properties hp ih q hq
    rcases List.mem_cons.1 hq with rfl | hq
    · exact hp
    · exact ih q hq
  · exact fun _ _ _ _ _ h => h

theorem referencesAll_eq (properties : List (Property Schema)) :
    referencesAll properties = properties.flatMap fun p => p.schema.references :=
  eq_flatMap referencesAll rfl (fun _ _ => rfl) properties

theorem danglingAll_eq (properties : List (Property Schema)) :
    danglingAll known location properties =
      properties.flatMap fun p => p.schema.dangling known (propertyLocation location p.name) :=
  eq_flatMap (danglingAll known location) rfl (fun _ _ => rfl) properties

theorem generalizeAll_eq (properties : List (Property Schema)) :
    generalizeAll known properties =
      properties.map fun p => { p with schema := p.schema.generalize known } := by
  induction properties with
  | nil => rfl
  | cons p properties ih => rw [generalizeAll, ih, List.map_cons]

/-- **The check finds exactly the undeclared references**, each where it stands in the order. -/
theorem dangling_references (known : List String) (location : String) (s : Schema) :
    (s.dangling known location).map Dangling.reference =
      s.references.filter fun name => name ∉ known := by
  induction s generalizing location with
  | reference name => by_cases h : name ∈ known <;> simp [dangling, references, h]
  | array items ih => exact ih _
  | nullable inner ih => exact ih _
  | object properties required ih =>
    rw [dangling, references, danglingAll_eq, referencesAll_eq, List.map_flatMap, List.filter_flatMap]
    exact List.flatMap_congr fun p hp => ih p hp _
  | primitive | enumeration | untyped => rfl

/-- **Generalizing keeps the declared references** and has no others. -/
theorem generalize_references (known : List String) (s : Schema) :
    (s.generalize known).references = s.references.filter fun name => name ∈ known := by
  induction s with
  | reference name => by_cases h : name ∈ known <;> simp [generalize, references, h]
  | array items ih => exact ih
  | nullable inner ih => exact ih
  | object properties required ih =>
    rw [generalize, references, references, generalizeAll_eq, referencesAll_eq, referencesAll_eq,
      List.flatMap_map, List.filter_flatMap]
    exact List.flatMap_congr ih
  | primitive | enumeration | untyped => rfl

/-- Everything that a schema refers to is known. -/
def ClosedIn (known : List String) (s : Schema) : Prop := ∀ name ∈ s.references, name ∈ known

theorem closedIn_of_dangling {s : Schema} (h : s.dangling known location = []) :
    s.ClosedIn known := by
  have hf := s.dangling_references known location
  rw [h, List.map_nil, eq_comm, List.filter_eq_nil_iff] at hf
  intro name hname
  simpa using hf name hname

theorem closedIn_generalize (known : List String) (s : Schema) :
    (s.generalize known).ClosedIn known := by
  intro name hname
  rw [generalize_references] at hname
  simpa using (List.mem_filter.1 hname).2

theorem ClosedIn.mono {s : Schema} {more : List String} (h : s.ClosedIn known)
    (hsub : known ⊆ more) : s.ClosedIn more := fun name hname => hsub (h name hname)

/-! ## Bodies and optional values -/

/-- The schema that a request or a response is typed by: without type information it is an object. -/
def body : Schema → Schema
  | .untyped => .object [] []
  | schema => schema

end Schema

/-- The schemas of an operation: those of its request and its response. -/
def Operation.schemas (op : Operation) : List Schema := op.request.toList ++ [op.response]

namespace Document

variable {doc checked : Document} {policy : ReferencePolicy}

/-- The schemas of a document: those of its components and of its operations. -/
def schemas (doc : Document) : List Schema :=
  doc.components.map Component.schema ++ doc.operations.flatMap Operation.schemas

/-- **Everything that a document refers to is one of its components.** -/
def Closed (doc : Document) : Prop := ∀ s ∈ doc.schemas, s.ClosedIn doc.declared

theorem closed_iff : doc.Closed ↔ (∀ c ∈ doc.components, c.schema.ClosedIn doc.declared) ∧
    ∀ op ∈ doc.operations, ∀ s ∈ op.schemas, s.ClosedIn doc.declared := by
  unfold Closed schemas
  constructor
  · intro h
    refine ⟨fun c hc => ?_, fun op hop s hs => ?_⟩
    · exact h _ (List.mem_append_left _ (List.mem_map_of_mem hc))
    · exact h s (List.mem_append_right _ (List.mem_flatMap.2 ⟨op, hop, hs⟩))
  · rintro ⟨hc, hop⟩ s hs
    rcases List.mem_append.1 hs with hs | hs
    · obtain ⟨c, hmem, rfl⟩ := List.mem_map.1 hs
      exact hc c hmem
    · obtain ⟨op, hmem, hs⟩ := List.mem_flatMap.1 hs
      exact hop op hmem s hs

theorem closed_of_dangling (h : doc.dangling = []) : doc.Closed := by
  -- nothing dangles in the components, nor in the operations
  obtain ⟨hc, hop⟩ := List.append_eq_nil_iff.1 h
  refine closed_iff.2 ⟨fun c hmem => ?_, fun op hmem s hs => ?_⟩
  · exact Schema.closedIn_of_dangling (List.flatMap_eq_nil_iff.1 hc c hmem)
  · have hd := List.flatMap_eq_nil_iff.1 hop op hmem
    obtain ⟨hrequest, hresponse⟩ := List.append_eq_nil_iff.1 hd
    rcases List.mem_append.1 hs with hs | hs
    · rw [Option.mem_toList.1 hs] at hrequest
      exact Schema.closedIn_of_dangling hrequest
    · rw [List.mem_singleton.1 hs]
      exact Schema.closedIn_of_dangling hresponse

/-- Generalizing declares the same components. -/
theorem declared_generalize (doc : Document) : doc.generalize.declared = doc.declared := by
  simp [declared, generalize]

theorem closed_generalize (doc : Document) : doc.generalize.Closed := by
  rw [closed_iff, declared_generalize]
  refine ⟨fun c hc => ?_, fun op hop s hs => ?_⟩
  · obtain ⟨c, -, rfl⟩ := List.mem_map.1 hc
    exact Schema.closedIn_generalize _ _
  · have hop : op ∈ doc.operations.map (Operation.generalize doc.declared) := by
      simpa [operations, generalize, List.flatMap_map, List.map_flatMap] using hop
    obtain ⟨op, -, rfl⟩ := List.mem_map.1 hop
    rcases List.mem_append.1 hs with hs | hs
    · obtain ⟨request, -, rfl⟩ := Option.map_eq_some_iff.1 (Option.mem_toList.1 hs)
      exact Schema.closedIn_generalize _ _
    · rw [List.mem_singleton.1 hs]
      exact Schema.closedIn_generalize _ _

/-- **Both policies let only closed documents pass**: one refuses the others, one changes them. -/
theorem closed_of_check (h : (doc.check policy).outcome = .ok checked) : checked.Closed := by
  cases policy with
  | strict =>
    simp only [check] at h
    split at h
    · rename_i hd
      obtain rfl : doc = checked := by simpa using h
      exact closed_of_dangling hd
    · cases h
  | lenient =>
    obtain rfl : doc.generalize = checked := by simpa [check] using h
    exact closed_generalize doc

end Document

end ApiCodegen
