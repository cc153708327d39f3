import ApiCodegen.Warning
import ApiCodegen.Schema.Parse

/-!
# References to components

* `Document.dangling`: the references to undeclared components, in the order of the document,
  each with its location.
* `Document.generalize`: the document with those references replaced by the generic type.
* `Document.check`: what a policy makes of them.
-/

namespace ApiCodegen

/-- A reference that names no component, and where it stands. -/
structure Dangling where
  reference : String
  location : String
  deriving DecidableEq

namespace Schema

mutual

/-- The references of a schema that name none of the known components. -/
def dangling (known : List String) (location : String) : Schema → List Dangling
  | .reference name => if name ∈ known then [] else [⟨name, location⟩]
  | .array items => dangling known (itemsLocation location) items
  | .nullable inner => dangling known location inner
  | .object properties _ => danglingAll known location properties
  | .primitive _ _ => []
  | .enumeration _ => []
  | .untyped => []

/-- `dangling` for the properties of an object. -/
def danglingAll (known : List String) (location : String) : List (Property Schema) → List Dangling
  | [] => []
  | ⟨name, schema, _, _, _⟩ :: more =>
    dangling known (propertyLocation location name) schema ++ danglingAll known location more

end

mutual

/-- The schema with the references that name none of the known components replaced by the
generic type. -/
def generalize (known : List String) : Schema → Schema
  | .reference name => if name ∈ known then .reference name else .untyped
  | .array items => .array (generalize known items)
  | .nullable inner => .nullable (generalize known inner)
  | .object properties required => .object (generalizeAll known properties) required
  | .primitive kind format => .primitive kind format
  | .enumeration values => .enumeration values
  | .untyped => .untyped

/-- `generalize` for the properties of an object. -/
def generalizeAll (known : List String) : List (Property Schema) → List (Property Schema)
  | [] => []
  | ⟨name, schema, default?, description, constraints⟩ :: more =>
    ⟨name, generalize known schema, default?, description, constraints⟩ ::
      generalizeAll known more

end

end Schema

/-- Where a component stands. -/
def componentLocation (name : String) : String := "components.schemas." ++ name

/-- Where an operation stands. -/
def operationLocation (path : String) (verb : Verb) : String :=
  "paths." ++ path ++ "." ++ verb.lower

/-- Where the request of an operation stands. -/
def requestLocation (location : String) : String := location ++ ".requestBody"

/-- Where the response of an operation stands. -/
def responseLocation (location : String) : String := location ++ ".responses.200"

/-- The references of an operation that name no known component. -/
def Operation.dangling (known : List String) (op : Operation) : List Dangling :=
  let location := operationLocation op.path op.verb
  (match op.request with
    | some schema => schema.dangling known (requestLocation location)
    | none => []) ++
  op.response.dangling known (responseLocation location)

/-- An operation with its undeclared references replaced. -/
def Operation.generalize (known : List String) (op : Operation) : Operation :=
  { op with
    request := op.request.map (Schema.generalize known)
    response := op.response.generalize known }

namespace Document

/-- The names of the declared components. -/
def declared (doc : Document) : List String := doc.components.map Component.name

/-- The references to undeclared components: those of the components, then those of the
operations, each in order. -/
def dangling (doc : Document) : List Dangling :=
  (doc.components.flatMap fun c => c.schema.dangling doc.declared (componentLocation c.name)) ++
  (doc.operations.flatMap (Operation.dangling doc.declared))

/-- The document with the references to undeclared components replaced by the generic type. -/
def generalize (doc : Document) : Document where
  components := doc.components.map fun c => { c with schema := c.schema.generalize doc.declared }
  paths := doc.paths.map fun item =>
    { item with operations := item.operations.map (Operation.generalize doc.declared) }

/-- A strict policy fails at the first reference to an undeclared component; a lenient one
remarks on each and replaces it. -/
def check (policy : ReferencePolicy) (doc : Document) : Reported Document :=
  match policy with
  | .strict =>
    match doc.dangling with
    | [] => pure doc
    | ⟨reference, location⟩ :: _ => .fail (.unresolvedReference reference location)
  | .lenient =>
    ⟨doc.dangling.map fun d => .unresolvedReference d.reference d.location, .ok doc.generalize⟩

end Document

end ApiCodegen
