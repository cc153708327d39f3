import ApiCodegen.Proofs.Schema.Reference

/-!
# The nodes of a document, in order

The schemas of a document as one list: every schema before its parts, each node where it stands. All
that stands around the schemas is the frame of the document.

* `Schema.nodes`, `Document.nodes`: the nodes of a schema and of a document.
* `Document.frame`: a document with the generic type in place of every schema.
* `Document.dangling_eq`: **the undeclared references are found in the order of the nodes.**
* `Document.nodes_generalize`, `Document.frame_generalize`: **generalizing replaces their nodes, no
  others, and leaves the frame as it is.**
* `Document.eq_of_nodes`: **the frame and the nodes determine the document.**
-/

namespace ApiCodegen

/-- Lists are equal if their members can be read off one after the other: each from what stands around
it and the entries that are left. -/
theorem eq_of_flatMap_append {α β γ : Type} {around : α → β} {entries : α → List γ} {as bs : List α}
    {more rest : List γ}
    (h : ∀ a ∈ as, ∀ b more rest, around a = around b → entries a ++ more = entries b ++ rest →
      a = b ∧ more = rest)
    (haround : as.map around = bs.map around)
    (hentries : as.flatMap entries ++ more = bs.flatMap entries ++ rest) : as = bs ∧ more = rest := by
  induction as generalizing bs with
  | nil =>
    obtain rfl := List.map_eq_nil_iff.1 haround.symm
    exact ⟨rfl, hentries⟩
  | cons a as ih =>
    cases bs with
    | nil => cases haround
    | cons b bs =>
      rw [List.forall_mem_cons] at h
      rw [List.map_cons, List.map_cons, List.cons.injEq] at haround
      rw [List.flatMap_cons, List.flatMap_cons, List.append_assoc, List.append_assoc] at hentries
      obtain ⟨rfl, hleft⟩ := h.1 b _ _ haround.1 hentries
      obtain ⟨rfl, hmore⟩ := ih h.2 haround.2 hleft
      exact ⟨rfl, hmore⟩

/-- A schema without its parts. Of the properties of an object all is kept but their schemas. -/
inductive Node where
  | primitive (kind : Kind) (format : Option String)
  | reference (name : String)
  | array
  | object (properties : List (Property Unit)) (required : List String)
  | nullable
  | enumeration (values : List String)
  | untyped

/-- A node, and where it stands. -/
structure Placed where
  location : String
  node : Node

/-- A property without its schema. -/
def Property.bare (p : Property Schema) : Property Unit :=
  ⟨p.name, (), p.default?, p.description, p.constraints⟩

namespace Placed

/-- The undeclared reference that a node is. -/
def dangling? (known : List String) (p : Placed) : Option Dangling :=
  match p.node with
  | .reference name => if name ∈ known then none else some ⟨name, p.location⟩
  | _ => none

/-- A node, unless it is an undeclared reference; then the generic type. -/
def generalize (known : List String) (p : Placed) : Placed :=
  if (p.dangling? known).isSome then { p with node := .untyped } else p

end Placed

namespace Schema

variable {known : List String} {location : String}

mutual

/-- The nodes of a schema, each before those of its parts. -/
def nodes (location : String) : Schema → List Placed
  | .primitive kind format => [⟨location, .primitive kind format⟩]
  | .reference name => [⟨location, .reference name⟩]
  | .array items => ⟨location, .array⟩ :: nodes (itemsLocation location) items
  | .object properties required =>
    ⟨location, .object (properties.map Property.bare) required⟩ :: nodesAll location properties
  | .nullable inner => ⟨location, .nullable⟩ :: nodes location inner
  | .enumeration values => [⟨location, .enumeration values⟩]
  | .untyped => [⟨location, .untyped⟩]

/-- `nodes` for the properties of an object. -/
def nodesAll (location : String) : List (Property Schema) → List Placed
  | [] => []
  | ⟨name, schema, _, _, _⟩ :: more =>
    nodes (propertyLocation location name) schema ++ nodesAll location more

end

theorem nodesAll_eq (properties : List (Property Schema)) :
    nodesAll location properties =
      properties.flatMap fun p => p.schema.nodes (propertyLocation location p.name) :=
  eq_flatMap (nodesAll location) rfl (fun _ _ => rfl) properties

/-- **The undeclared references are found in the order of the nodes.** -/
theorem dangling_eq (known : List String) (location : String) (s : Schema) :
    s.dangling known location = (s.nodes location).filterMap (Placed.dangling? known) := by
  induction s generalizing location with
  | reference name => by_cases h : name ∈ known <;> simp [dangling, nodes, Placed.dangling?, h]
  | array items ih => exact ih _
  | nullable inner ih => exact ih _
  | object properties required ih =>
    have hobject : (⟨location, .object (properties.map Property.bare) required⟩ : Placed).dangling?
        known = none := rfl
    rw [dangling, nodes, danglingAll_eq, nodesAll_eq, List.filterMap_cons_none hobject,
      List.filterMap_flatMap]
    exact List.flatMap_congr fun p hp => ih p hp _
  | primitive | enumeration | untyped => rfl

/-- **Generalizing replaces the nodes of undeclared references**, and no others. -/
theorem nodes_generalize (known : List String) (location : String) (s : Schema) :
    (s.generalize known).nodes location = (s.nodes location).map (Placed.generalize known) := by
  induction s generalizing location with
  | reference name =>
    by_cases h : name ∈ known <;>
      simp [generalize, nodes, Placed.generalize, Placed.dangling?, h]
  | array items ih => exact congrArg _ (ih _)
  | nullable inner ih => exact congrArg _ (ih _)
  | object properties required ih =>
    have hbare : (generalizeAll known properties).map Property.bare =
        properties.map Property.bare := by
      rw [generalizeAll_eq, List.map_map]
      rfl
    rw [generalize, nodes, nodes, hbare, nodesAll_eq, nodesAll_eq, generalizeAll_eq, List.flatMap_map,
      List.map_cons, List.map_flatMap]
    exact congrArg _ (List.flatMap_congr fun p hp => ih p hp _)
  | primitive | enumeration | untyped => rfl

/-- **The nodes of a schema determine it, and where they end** in a longer list. -/
theorem eq_of_nodes_append (s : Schema) : ∀ (location : String) (t : Schema) (more rest : List Placed),
    s.nodes location ++ more = t.nodes location ++ rest → s = t ∧ more = rest := by
  induction s with
  | array items ih =>
    intro location t more rest h
    cases t <;> simp only [nodes, List.cons_append, List.cons.injEq, Placed.mk.injEq, reduceCtorEq,
      and_false, false_and] at h
    obtain ⟨hitems, hmore⟩ := ih _ _ _ _ h.2
    exact ⟨congrArg _ hitems, hmore⟩
  | nullable inner ih =>
    intro location t more rest h
    cases t <;> simp only [nodes, List.cons_append, List.cons.injEq, Placed.mk.injEq, reduceCtorEq,
      and_false, false_and] at h
    obtain ⟨hinner, hmore⟩ := ih _ _ _ _ h.2
    exact ⟨congrArg _ hinner, hmore⟩
  | object properties required ih =>
    intro location t more rest h
    cases t <;> simp only [nodes, List.cons_append, List.cons.injEq, Placed.mk.injEq, reduceCtorEq,
      and_false, false_and, Node.object.injEq, true_and] at h
    obtain ⟨⟨hbare, rfl⟩, h⟩ := h
    rw [nodesAll_eq, nodesAll_eq] at h
    -- the name is kept in the head, so two properties that agree there stand at one location
    have hproperty : ∀ p ∈ properties, ∀ q more rest, Property.bare p = Property.bare q →
        p.schema.nodes (propertyLocation location p.name) ++ more =
          q.schema.nodes (propertyLocation location q.name) ++ rest → p = q ∧ more = rest := by
      intro p hp q more rest hpq hnodes
      obtain ⟨name, schema, default?, description, constraints⟩ := p
      obtain ⟨name', schema', default', description', constraints'⟩ := q
      obtain ⟨rfl, -, rfl, rfl, rfl⟩ := Property.mk.inj hpq
      obtain ⟨rfl, hmore⟩ := ih _ hp _ _ _ _ hnodes
      exact ⟨rfl, hmore⟩
    obtain ⟨rfl, hmore⟩ := eq_of_flatMap_append hproperty hbare h
    exact ⟨rfl, hmore⟩
  | primitive | reference | enumeration | untyped =>
    intro location t more rest h
    cases t <;> simp_all [nodes]

end Schema

/-! ## Documents -/

namespace Operation

variable {known : List String}

/-- The nodes of an operation: those of its request, then those of its response. -/
def nodes (op : Operation) : List Placed :=
  let location := operationLocation op.path op.verb
  (match op.request with
    | some schema => schema.nodes (requestLocation location)
    | none => []) ++
  op.response.nodes (responseLocation location)

/-- An operation with the generic type for its schemas. -/
def frame (op : Operation) : Operation :=
  { op with request := op.request.map fun _ => .untyped, response := .untyped }

theorem dangling_eq (known : List String) (op : Operation) :
    op.dangling known = op.nodes.filterMap (Placed.dangling? known) := by
  cases hrequest : op.request with
  | none => simp only [dangling, nodes, hrequest, List.nil_append, Schema.dangling_eq]
  | some schema =>
    simp only [dangling, nodes, hrequest, Schema.dangling_eq, List.filterMap_append]

theorem nodes_generalize (known : List String) (op : Operation) :
    (op.generalize known).nodes = op.nodes.map (Placed.generalize known) := by
  cases hrequest : op.request with
  | none =>
    simp only [generalize, nodes, hrequest, Option.map_none, List.nil_append, Schema.nodes_generalize]
  | some schema =>
    simp only [generalize, nodes, hrequest, Option.map_some, Schema.nodes_generalize, List.map_append]

theorem frame_generalize (known : List String) (op : Operation) :
    (op.generalize known).frame = op.frame := by
  cases hrequest : op.request <;> simp [generalize, frame, hrequest]

theorem eq_of_nodes_append {op other : Operation} {more rest : List Placed}
    (hframe : op.frame = other.frame) (h : op.nodes ++ more = other.nodes ++ rest) :
    op = other ∧ more = rest := by
  obtain ⟨path, verb, operationId, tags, request, response, summary, description⟩ := op
  obtain ⟨path', verb', operationId', tags', request', response', summary', description'⟩ := other
  obtain ⟨rfl, rfl, rfl, rfl, hrequest, -, rfl, rfl⟩ := Operation.mk.inj hframe
  cases request with
  | none =>
    cases request' with
    | some schema => cases hrequest
    | none =>
      obtain ⟨rfl, hmore⟩ := Schema.eq_of_nodes_append _ _ _ _ _ h
      exact ⟨rfl, hmore⟩
  | some schema =>
    cases request' with
    | none => cases hrequest
    | some schema' =>
      simp only [nodes, List.append_assoc] at h
      obtain ⟨rfl, hresponse⟩ := Schema.eq_of_nodes_append _ _ _ _ _ h
      obtain ⟨rfl, hmore⟩ := Schema.eq_of_nodes_append _ _ _ _ _ hresponse
      exact ⟨rfl, hmore⟩

end Operation

/-- A component with the generic type for its schema. -/
def Component.frame (c : Component) : Component := { c with schema := .untyped }

/-- A path item with the generic type for its schemas. -/
def PathItem.frame (item : PathItem) : PathItem :=
  { item with operations := item.operations.map Operation.frame }

theorem Component.eq_of_nodes_append {c other : Component} {more rest : List Placed}
    (hframe : c.frame = other.frame)
    (h : c.schema.nodes (componentLocation c.name) ++ more =
      other.schema.nodes (componentLocation other.name) ++ rest) : c = other ∧ more = rest := by
  obtain ⟨name, description, schema⟩ := c
  obtain ⟨name', description', schema'⟩ := other
  obtain ⟨rfl, rfl, -⟩ := Component.mk.inj hframe
  obtain ⟨rfl, hmore⟩ := Schema.eq_of_nodes_append _ _ _ _ _ h
  exact ⟨rfl, hmore⟩

theorem PathItem.eq_of_nodes_append {item other : PathItem} {more rest : List Placed}
    (hframe : item.frame = other.frame)
    (h : item.operations.flatMap Operation.nodes ++ more =
      other.operations.flatMap Operation.nodes ++ rest) : item = other ∧ more = rest := by
  obtain ⟨path, operations⟩ := item
  obtain ⟨path', operations'⟩ := other
  obtain ⟨rfl, hframes⟩ := PathItem.mk.inj hframe
  obtain ⟨rfl, hmore⟩ := eq_of_flatMap_append
    (fun _ _ _ _ _ => Operation.eq_of_nodes_append) hframes h
  exact ⟨rfl, hmore⟩

namespace Document

variable {doc other : Document}

/-- The nodes of a document: those of its components, then those of its operations. -/
def nodes (doc : Document) : List Placed :=
  (doc.components.flatMap fun c => c.schema.nodes (componentLocation c.name)) ++
  doc.operations.flatMap Operation.nodes

/-- A document with the generic type for all its schemas. -/
def frame (doc : Document) : Document where
  components := doc.components.map Component.frame
  paths := doc.paths.map PathItem.frame

/-- Generalizing a document generalizes its operations. -/
theorem operations_generalize (doc : Document) :
    doc.generalize.operations = doc.operations.map (Operation.generalize doc.declared) := by
  rw [operations, operations, generalize, List.flatMap_map, List.map_flatMap]

/-- **The undeclared references are found in the order of the nodes.** -/
theorem dangling_eq (doc : Document) :
    doc.dangling = doc.nodes.filterMap (Placed.dangling? doc.declared) := by
  rw [dangling, nodes, List.filterMap_append, List.filterMap_flatMap, List.filterMap_flatMap]
  refine congrArg₂ _ ?_ ?_
  · exact List.flatMap_congr fun c _ => Schema.dangling_eq _ _ _
  · exact List.flatMap_congr fun op _ => Operation.dangling_eq _ _

/-- **Generalizing replaces the nodes of undeclared references**, and no others. -/
theorem nodes_generalize (doc : Document) :
    doc.generalize.nodes = doc.nodes.map (Placed.generalize doc.declared) := by
  rw [nodes, nodes, operations_generalize, generalize, List.flatMap_map, List.flatMap_map,
    List.map_append, List.map_flatMap, List.map_flatMap]
  refine congrArg₂ _ ?_ ?_
  · exact List.flatMap_congr fun c _ => Schema.nodes_generalize _ _ _
  · exact List.flatMap_congr fun op _ => Operation.nodes_generalize _ _

/-- **Generalizing leaves the frame as it is.** -/
theorem frame_generalize (doc : Document) : doc.generalize.frame = doc.frame := by
  simp only [frame, generalize, List.map_map]
  refine congrArg (Document.mk _) (List.map_congr_left fun item _ => ?_)
  simp only [Function.comp_apply, PathItem.frame, List.map_map]
  refine congrArg (PathItem.mk _) (List.map_congr_left fun op _ => ?_)
  exact Operation.frame_generalize _ _

/-- **The frame and the nodes determine the document.** -/
theorem eq_of_nodes (hframe : doc.frame = other.frame) (hnodes : doc.nodes = other.nodes) :
    doc = other := by
  obtain ⟨components, paths⟩ := doc
  obtain ⟨components', paths'⟩ := other
  obtain ⟨hcomponents, hpaths⟩ := Document.mk.inj hframe
  obtain ⟨rfl, hoperations⟩ := eq_of_flatMap_append
    (fun _ _ _ _ _ => Component.eq_of_nodes_append) hcomponents hnodes
  rw [operations, operations, List.flatMap_assoc, List.flatMap_assoc,
    ← List.append_nil (List.flatMap _ paths), ← List.append_nil (List.flatMap _ paths')] at hoperations
  obtain ⟨rfl, -⟩ := eq_of_flatMap_append
    (fun _ _ _ _ _ => PathItem.eq_of_nodes_append) hpaths hoperations
  rfl

/-- Where nothing dangles, there is nothing to generalize. -/
theorem generalize_of_dangling (h : doc.dangling = []) : doc.generalize = doc := by
  rw [dangling_eq, List.filterMap_eq_nil_iff] at h
  have hkept : doc.nodes.map (Placed.generalize doc.declared) = doc.nodes := by
    rw [List.map_congr_left fun p hp => ?_, List.map_id]
    rw [Placed.generalize, h p hp]
    rfl
  exact eq_of_nodes (frame_generalize doc) ((nodes_generalize doc).trans hkept)

end Document

end ApiCodegen
