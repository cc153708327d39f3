import ApiCodegen.Schema.Verb
import ApiCodegen.Markup.Value

/-!
# Schemas and documents

* `Schema`: the type of a value in a request, a response or a component.
* `Document`: named components, and operations by path and verb. The order is that of the text.
* `Schema.references`: the component names that a schema refers to, in order.
-/

namespace ApiCodegen

open Markup Numeric

/-- The kind of a primitive. -/
inductive Kind where
  | string
  | integer
  | number
  | boolean
  deriving DecidableEq

/-- Bounds of a property. They do not change its type. -/
structure Constraints where
  minimum : Option Binary64 := none
  maximum : Option Binary64 := none
  minLength : Option Nat := none
  maxLength : Option Nat := none
  deriving DecidableEq

/-- A property of an object, over schemas of type `σ`. -/
structure Property (σ : Type) where
  name : String
  schema : σ
  default? : Option Value
  description : Option String
  constraints : Constraints

/-- The type of a value. -/
inductive Schema where
  | primitive (kind : Kind) (format : Option String)
  | reference (name : String)
  | array (items : Schema)
  | object (properties : List (Property Schema)) (required : List String)
  | nullable (inner : Schema)
  | enumeration (values : List String)
  | untyped

instance : Inhabited Schema := ⟨.untyped⟩

namespace Schema

mutual

/-- The component names that a schema refers to, in order. -/
def references : Schema → List String
  | .reference name => [name]
  | .array items => references items
  | .nullable inner => references inner
  | .object properties _ => referencesAll properties
  | .primitive _ _ => []
  | .enumeration _ => []
  | .untyped => []

/-- `references` for properties. -/
def referencesAll : List (Property Schema) → List String
  | [] => []
  | ⟨_, schema, _, _, _⟩ :: more => references schema ++ referencesAll more

end

/-- Whether a schema is an object. -/
def isObject : Schema → Bool
  | .object _ _ => true
  | _ => false

/-- Whether a schema admits null. -/
def isNullable : Schema → Bool
  | .nullable _ => true
  | _ => false

end Schema

/-- A named type. -/
structure Component where
  name : String
  description : Option String
  schema : Schema

/-- An operation: a verb on a path. All that is said besides of it can be left out. -/
structure Operation where
  path : String
  verb : Verb
  operationId : Option String := none
  /-- The first tag decides the router group. -/
  tags : List String := []
  request : Option Schema := none
  response : Schema := .untyped
  summary : Option String := none
  description : Option String := none

/-- The key of an operation. -/
structure OperationKey where
  path : String
  verb : Verb
  deriving DecidableEq

/-- The key of an operation. -/
def Operation.key (op : Operation) : OperationKey := ⟨op.path, op.verb⟩

/-- The operations of a path. -/
structure PathItem where
  path : String
  operations : List Operation

/-- A description of an API. -/
structure Document where
  components : List Component := []
  paths : List PathItem := []

/-- All operations, by path and then by verb. -/
def Document.operations (doc : Document) : List Operation := doc.paths.flatMap PathItem.operations

end ApiCodegen
