import ApiCodegen.Failure
import ApiCodegen.Name.Case
import ApiCodegen.Schema.Basic

/-!
# Declarations

Which types are declared, shared by all targets: one for each component, in order.

* `Declaration.ofComponent`: the declaration of a component.
* `collision?`: the first component whose declared name is taken already.
* `Document.declarations`: all declarations, if no two have one name.
-/

namespace ApiCodegen

open Markup

/-- How a field behaves when its value is absent. -/
inductive Presence where
  | required
  | defaulted (value : Value)
  | absent

/-- A field of a declared object. -/
structure Field where
  /-- The property name, as written. -/
  name : String
  schema : Schema
  presence : Presence
  description : Option String
  constraints : Constraints

/-- What a declaration declares: an object, or another name for a type. -/
inductive Shape where
  | object (fields : List Field)
  | alias (schema : Schema)

/-- A declared type. -/
structure Declaration where
  name : String
  /-- The component name, as written. -/
  component : String
  description : Option String
  shape : Shape

/-- The presence of a property. -/
def Property.presence (required : List String) (property : Property Schema) : Presence :=
  if property.name ∈ required then .required
  else match property.default? with
    | some value => .defaulted value
    | none => .absent

/-- The field of a property. -/
def Field.ofProperty (required : List String) (property : Property Schema) : Field where
  name := property.name
  schema := property.schema
  presence := property.presence required
  description := property.description
  constraints := property.constraints

/-- What a component's schema declares. -/
def Shape.ofSchema : Schema → Shape
  | .object properties required => .object (properties.map (Field.ofProperty required))
  | schema => .alias schema

namespace Declaration

/-- The declaration of a component. -/
def ofComponent (c : Component) : Declaration where
  name := Name.declaration c.name
  component := c.name
  description := c.description
  shape := .ofSchema c.schema

/-- The fields of a declared object. -/
def fields (d : Declaration) : List Field :=
  match d.shape with
  | .object fields => fields
  | .alias _ => []

/-- Whether an object is declared. -/
def isObject (d : Declaration) : Bool :=
  match d.shape with
  | .object _ => true
  | .alias _ => false

end Declaration

/-- Two components with one declared name. -/
structure Collision where
  name : String
  first : String
  second : String
  deriving DecidableEq

/-- The first component whose declared name is taken by an earlier one. -/
def collision? (earlier : List Component) : List Component → Option Collision
  | [] => none
  | c :: more =>
    match earlier.find? fun d => Name.declaration d.name = Name.declaration c.name with
    | some d => some ⟨Name.declaration c.name, d.name, c.name⟩
    | none => collision? (earlier ++ [c]) more

/-- The failure for a collision. -/
def Collision.failure (c : Collision) : Failure := .nameCollision c.name c.first c.second

/-- All declarations of a document. -/
def Document.declarations (doc : Document) : Except Failure (List Declaration) :=
  match collision? [] doc.components with
  | some collision => .error collision.failure
  | none => .ok (doc.components.map Declaration.ofComponent)

end ApiCodegen
