import ApiCodegen.Client.Block
import ApiCodegen.Client.Comment
import ApiCodegen.Client.Literal
import ApiCodegen.Client.TypeExpr
import ApiCodegen.Plan.Declaration

/-!
# The types file of the client

Objects become interfaces, with a constant for their defaults; other types become aliases. The
order is that of the declarations.

* `Member`, `TypeDeclaration`, `TypesFile`: what the file declares.
* `TypesFile.ofDeclarations`: the file of declarations.
* `TypesFile.render`: its text.
-/

namespace ApiCodegen.Client

open Markup Numeric

/-- A member of an interface. -/
structure Member where
  /-- The property that the member holds. -/
  property : String
  isOptional : Bool
  type : TypeExpr
  default? : Option Value
  description : Option String
  constraints : Constraints

/-- What is declared under a name. -/
inductive TypeBody where
  | interface (members : List Member)
  | alias (type : TypeExpr)

/-- A declared type. -/
structure TypeDeclaration where
  name : String
  description : Option String
  body : TypeBody

/-- What the types file declares, in order. -/
structure TypesFile where
  declarations : List TypeDeclaration

namespace Member

/-- The member of a field. -/
def ofField (field : Field) : Member where
  property := field.name
  isOptional := match field.presence with
    | .required => false
    | _ => true
  type := .ofSchema field.schema
  default? := match field.presence with
    | .defaulted value => some value
    | _ => none
  description := field.description
  constraints := field.constraints

/-- The lines of a member. -/
def lines (m : Member) : List String :=
  comment m.description m.constraints ++
    [propertyKey m.property ++ (if m.isOptional then "?" else "") ++ ": " ++ m.type.render ++ ";"]

/-- The entry of a member among the defaults. -/
def defaultLine? (m : Member) : Option String :=
  m.default?.map fun value => propertyKey m.property ++ ": " ++ literal value ++ ","

end Member

namespace TypeDeclaration

/-- The declared type of a declaration. -/
def ofDeclaration (d : Declaration) : TypeDeclaration where
  name := d.name
  description := d.description
  body := match d.shape with
    | .object fields => .interface (fields.map Member.ofField)
    | .alias schema => .alias (.ofSchema schema)

/-- The lines of an interface. -/
def interfaceLines (name : String) (members : List Member) : List String :=
  match members with
  | [] => ["export interface " ++ name ++ " \x7b\x7d"]
  | members => Client.body ("export interface " ++ name) (members.flatMap Member.lines)

/-- The constant of the defaults, if there are any. -/
def defaultsLines (name : String) (members : List Member) : List String :=
  match members.filterMap Member.defaultLine? with
  | [] => []
  | entries =>
    "" :: block ("export const " ++ name ++ "Defaults: Partial<" ++ name ++ "> = ") entries ";"

/-- The lines of a declared type. -/
def lines (d : TypeDeclaration) : List String :=
  comment d.description {} ++
    match d.body with
    | .alias type => ["export type " ++ d.name ++ " = " ++ type.render ++ ";"]
    | .interface members => interfaceLines d.name members ++ defaultsLines d.name members

end TypeDeclaration

/-- The first lines of a file. -/
def header : List String := [
  "// Generated from the OpenAPI schema.",
  "// Do not edit by hand; edit the schema and rerun the generator."]

namespace TypesFile

/-- The types file of declarations. -/
def ofDeclarations (declarations : List Declaration) : TypesFile :=
  ⟨declarations.map TypeDeclaration.ofDeclaration⟩

/-- The lines of the file. -/
def lines (file : TypesFile) : List String :=
  header ++ ["", "/** ISO 8601 date-time string */", "export type " ++ dateTimeName ++ " = string;"] ++
    file.declarations.flatMap fun d => "" :: d.lines

/-- The text of the file. -/
def render (file : TypesFile) : String := Text.ofLines file.lines

end TypesFile

end ApiCodegen.Client
