import ApiCodegen.Proofs.Schema.Listing

/-!
# The check of references in one pass

References can be checked in one pass that rewrites the document node by node. At an undeclared
reference a strict pass stops, and a lenient one remarks on it, puts the generic type in its place
and goes on.

* `Schema.resolve`, `Document.resolve`: the pass.
* `answer`: what a pass comes to, from the undeclared references that it meets.
* `answer_bind`: **two parts of a pass meet the references of both, in order.**
* `Document.resolve_eq`: **a pass meets the undeclared references of the document**, under either
  policy, and ends with the generalized document.
* `Document.check_eq_resolve`: so the check of a document is this pass.
-/

namespace ApiCodegen

/-- The remark on an undeclared reference that is let pass. -/
def Dangling.warning (d : Dangling) : Warning := .unresolvedReference d.reference d.location

/-- The failure for an undeclared reference that is refused. -/
def Dangling.failure (d : Dangling) : Failure := .unresolvedReference d.reference d.location

/-! ## The pass -/

/-- Rewrites the members of a list, one after the other. -/
def inOrder {α β : Type} (rewrite : α → Reported β) : List α → Reported (List β)
  | [] => pure []
  | a :: more => do
    let b ← rewrite a
    let bs ← inOrder rewrite more
    pure (b :: bs)

/-- Rewrites an undeclared reference, or stops at it. -/
def Dangling.resolve (policy : ReferencePolicy) (d : Dangling) : Reported Schema :=
  match policy with
  | .strict => .fail d.failure
  | .lenient => ⟨[d.warning], .ok .untyped⟩

namespace Schema

mutual

/-- Rewrites the undeclared references of a schema. -/
def resolve (policy : ReferencePolicy) (known : List String) (location : String) :
    Schema → Reported Schema
  | .reference name =>
    if name ∈ known then pure (.reference name) else Dangling.resolve policy ⟨name, location⟩
  | .array items => do
    let items ← resolve policy known (itemsLocation location) items
    pure (.array items)
  | .nullable inner => do
    let inner ← resolve policy known location inner
    pure (.nullable inner)
  | .object properties required => do
    let properties ← resolveAll policy known location properties
    pure (.object properties required)
  | .primitive kind format => pure (.primitive kind format)
  | .enumeration values => pure (.enumeration values)
  | .untyped => pure .untyped

/-- `resolve` for the properties of an object. -/
def resolveAll (policy : ReferencePolicy) (known : List String) (location : String) :
    List (Property Schema) → Reported (List (Property Schema))
  | [] => pure []
  | ⟨name, schema, default?, description, constraints⟩ :: more => do
    let schema ← resolve policy known (propertyLocation location name) schema
    let more ← resolveAll policy known location more
    pure (⟨name, schema, default?, description, constraints⟩ :: more)

end

end Schema

/-- Rewrites the schema of a component. -/
def Component.resolve (policy : ReferencePolicy) (known : List String) (c : Component) :
    Reported Component := do
  let schema ← c.schema.resolve policy known (componentLocation c.name)
  pure { c with schema }

/-- Rewrites the schemas of an operation: that of its request, then that of its response. -/
def Operation.resolve (policy : ReferencePolicy) (known : List String) (op : Operation) :
    Reported Operation := do
  let location := operationLocation op.path op.verb
  match op.request with
  | some request =>
    let request ← request.resolve policy known (requestLocation location)
    let response ← op.response.resolve policy known (responseLocation location)
    pure { op with request := some request, response }
  | none =>
    let response ← op.response.resolve policy known (responseLocation location)
    pure { op with response }

/-- Rewrites the operations of a path item. -/
def PathItem.resolve (policy : ReferencePolicy) (known : List String) (item : PathItem) :
    Reported PathItem := do
  let operations ← inOrder (Operation.resolve policy known) item.operations
  pure { item with operations }

/-- Rewrites a document: its components, then its operations. -/
def Document.resolve (policy : ReferencePolicy) (doc : Document) : Reported Document := do
  let components ← inOrder (Component.resolve policy doc.declared) doc.components
  let paths ← inOrder (PathItem.resolve policy doc.declared) doc.paths
  pure { components, paths }

/-! ## What it comes to -/

variable {α β : Type} {policy : ReferencePolicy} {known : List String} {location : String}

/-- What a pass comes to that meets some undeclared references and ends with `a`: a strict one stops
at the first of them, and a lenient one remarks on each. -/
def answer (policy : ReferencePolicy) (met : List Dangling) (a : α) : Reported α :=
  match policy, met with
  | .strict, [] => pure a
  | .strict, d :: _ => .fail d.failure
  | .lenient, met => ⟨met.map Dangling.warning, .ok a⟩

theorem answer_nil (policy : ReferencePolicy) (a : α) : answer policy [] a = pure a := by
  cases policy <;> rfl

/-- **Two parts of a pass meet the references of both**, in order. -/
theorem answer_bind (policy : ReferencePolicy) (met more : List Dangling) (a : α) {b : β}
    {next : α → Reported β} (h : next a = answer policy more b) :
    answer policy met a >>= next = answer policy (met ++ more) b := by
  cases policy with
  | strict =>
    cases met with
    | nil =>
      have hpure : answer .strict [] a >>= next = next a := rfl
      rw [hpure, h, List.nil_append]
    | cons d met => rfl
  | lenient =>
    simp only [answer, Reported.ok_bind, h, List.map_append]

/-- A part that is put in its place at the end of a pass. -/
theorem answer_map (policy : ReferencePolicy) (met : List Dangling) (a : α) (place : α → β) :
    (answer policy met a >>= fun a => pure (place a)) = answer policy met (place a) := by
  have h : (answer policy met a >>= fun a => pure (place a)) =
      answer policy (met ++ []) (place a) :=
    answer_bind policy met [] a (answer_nil policy (place a)).symm
  rwa [List.append_nil] at h

/-- A strict pass succeeds if it meets nothing. -/
theorem answer_strict_ok_iff {met : List Dangling} {a b : α} :
    (answer .strict met a).outcome = .ok b ↔ met = [] ∧ a = b := by
  cases met with
  | nil => simp [answer]
  | cons d met => simp [answer, Reported.fail]

/-- A strict pass stops at the first reference that it meets. -/
theorem answer_strict_error_iff {met : List Dangling} {a : α} {failure : Failure} :
    (answer .strict met a).outcome = .error failure ↔
      ∃ d more, met = d :: more ∧ failure = d.failure := by
  cases met with
  | nil => simp [answer]
  | cons d met => simp [answer, Reported.fail, eq_comm]

theorem inOrder_eq {rewrite : α → Reported β} {met : α → List Dangling} {place : α → β} {as : List α}
    (h : ∀ a ∈ as, rewrite a = answer policy (met a) (place a)) :
    inOrder rewrite as = answer policy (as.flatMap met) (as.map place) := by
  induction as with
  | nil => exact (answer_nil policy []).symm
  | cons a as ih =>
    rw [List.forall_mem_cons] at h
    rw [inOrder, h.1, List.flatMap_cons, List.map_cons]
    refine answer_bind _ _ _ _ ?_
    rw [ih h.2]
    exact answer_map _ _ _ _

namespace Schema

theorem resolveAll_eq {properties : List (Property Schema)}
    (h : ∀ p ∈ properties, ∀ location, p.schema.resolve policy known location =
      answer policy (p.schema.dangling known location) (p.schema.generalize known)) :
    resolveAll policy known location properties =
      answer policy (danglingAll known location properties) (generalizeAll known properties) := by
  induction properties with
  | nil => exact (answer_nil policy []).symm
  | cons p properties ih =>
    rw [List.forall_mem_cons] at h
    rw [resolveAll, h.1, danglingAll, generalizeAll]
    refine answer_bind _ _ _ _ ?_
    rw [ih h.2]
    exact answer_map _ _ _ _

/-- **A pass meets the undeclared references of a schema**, and generalizes them. -/
theorem resolve_eq (policy : ReferencePolicy) (known : List String) (location : String) (s : Schema) :
    s.resolve policy known location =
      answer policy (s.dangling known location) (s.generalize known) := by
  induction s generalizing location with
  | reference name =>
    by_cases h : name ∈ known
    · simp only [resolve, dangling, generalize, h, if_true, answer_nil]
    · simp only [resolve, dangling, generalize, h, if_false]
      cases policy <;> rfl
  | array items ih =>
    rw [resolve, ih]
    exact answer_map _ _ _ _
  | nullable inner ih =>
    rw [resolve, ih]
    exact answer_map _ _ _ _
  | object properties required ih =>
    rw [resolve, resolveAll_eq ih]
    exact answer_map _ _ _ _
  | primitive | enumeration | untyped => exact (answer_nil policy _).symm

end Schema

theorem Component.resolve_eq (policy : ReferencePolicy) (known : List String) (c : Component) :
    c.resolve policy known = answer policy (c.schema.dangling known (componentLocation c.name))
      { c with schema := c.schema.generalize known } := by
  rw [Component.resolve, Schema.resolve_eq]
  exact answer_map _ _ _ _

theorem Operation.resolve_eq (policy : ReferencePolicy) (known : List String) (op : Operation) :
    op.resolve policy known = answer policy (op.dangling known) (op.generalize known) := by
  obtain ⟨path, verb, operationId, tags, request, response, summary, description⟩ := op
  cases request with
  | none =>
    simp only [Operation.resolve, Schema.resolve_eq]
    exact answer_map _ _ _ _
  | some request =>
    simp only [Operation.resolve, Schema.resolve_eq]
    exact answer_bind _ _ _ _ (answer_map _ _ _ _)

theorem PathItem.resolve_eq (policy : ReferencePolicy) (known : List String) (item : PathItem) :
    item.resolve policy known = answer policy (item.operations.flatMap (Operation.dangling known))
      { item with operations := item.operations.map (Operation.generalize known) } := by
  rw [PathItem.resolve, inOrder_eq fun op _ => Operation.resolve_eq policy known op]
  exact answer_map _ _ _ _

namespace Document

/-- **A pass meets the undeclared references of a document** and ends with the generalized document. -/
theorem resolve_eq (policy : ReferencePolicy) (doc : Document) :
    doc.resolve policy = answer policy doc.dangling doc.generalize := by
  rw [resolve, inOrder_eq fun c _ => Component.resolve_eq policy doc.declared c,
    inOrder_eq fun item _ => PathItem.resolve_eq policy doc.declared item, dangling, operations,
    List.flatMap_assoc]
  exact answer_bind _ _ _ _ (answer_map _ _ _ _)

/-- **The check of a document is the pass.** -/
theorem check_eq_resolve (policy : ReferencePolicy) (doc : Document) :
    check policy doc = doc.resolve policy := by
  rw [resolve_eq]
  cases policy with
  | lenient => rfl
  | strict =>
    unfold check
    cases hmet : doc.dangling with
    | nil => rw [answer_nil, generalize_of_dangling hmet]
    | cons d met => rfl

end Document

end ApiCodegen
