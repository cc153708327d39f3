import ApiCodegen.Name.Fresh
import ApiCodegen.Name.Identifier
import ApiCodegen.Plan.Declaration
import ApiCodegen.Server.Docstring
import ApiCodegen.Server.Literal
import ApiCodegen.Server.TypeExpr

/-!
# The models file of the server

Objects become classes; other types become aliases behind them.

* `Attribute`, `ModelClass`, `Alias`, `ModelsFile`: what the file declares.
* `aliasOrder`: aliases such that each follows those that it refers to, where no cycle forbids it.
* `ModelsFile.ofDeclarations`: the file of declarations.
* `ModelsFile.render`: its text.
-/

namespace ApiCodegen.Server

open Markup Numeric

/-- The identifier that a property asks for. A leading `_` would make it private. -/
def attributeBase (name : String) : String :=
  let ident := Name.server name
  if ident.toList.head? = some '_' then "field" ++ ident else ident

/-- An attribute of a class. -/
structure Attribute where
  name : String
  /-- The property that the attribute holds. -/
  property : String
  annotation : TypeExpr
  /-- The value of an absent property; a required property has none. -/
  default? : Option Value
  description : Option String
  constraints : Constraints

namespace Attribute

/-- The annotation of a field. -/
def annotationOf (field : Field) : TypeExpr :=
  match field.presence with
  | .required => .ofSchema field.schema
  | .absent => .optional field.schema
  | .defaulted .null => .optional field.schema
  | .defaulted _ => .ofSchema field.schema

/-- The default of a field. An absent value is null. -/
def defaultOf (field : Field) : Option Value :=
  match field.presence with
  | .required => none
  | .absent => some .null
  | .defaulted value => some value

/-- The attribute of a field, with its name. -/
def ofField (field : Field) (name : String) : Attribute where
  name := name
  property := field.name
  annotation := annotationOf field
  default? := defaultOf field
  description := field.description
  constraints := field.constraints

/-- The alias of an attribute: its property, if that has another name. -/
def alias? (a : Attribute) : Option String := if a.name = a.property then none else some a.property

/-- An argument, if there is a value for it. -/
def argument {α : Type} (keyword : String) (text : α → String) (value : Option α) : List String :=
  (value.map fun v => keyword ++ "=" ++ text v).toList

/-- What is said of an attribute beside its default. -/
def arguments (a : Attribute) : List String :=
  argument "alias" Text.quote a.alias? ++
  argument "description" (fun d => Text.quote (Text.trimmed d)) a.description ++
  argument "ge" bound a.constraints.minimum ++
  argument "le" bound a.constraints.maximum ++
  argument "min_length" toString a.constraints.minLength ++
  argument "max_length" toString a.constraints.maxLength

/-- The value of an attribute in its class. -/
def value? (a : Attribute) : Option String :=
  let field (first : String) : String :=
    "Field(" ++ String.intercalate ", " (first :: a.arguments) ++ ")"
  match a.default?, a.arguments with
  | none, [] => none
  | none, _ => some (field "...")
  | some v, [] => some (literal v)
  | some v, _ => some (field ("default=" ++ literal v))

/-- The line of an attribute. -/
def line (a : Attribute) : String :=
  let declared := "    " ++ a.name ++ ": " ++ a.annotation.render
  match a.value? with
  | none => declared
  | some value => declared ++ " = " ++ value

end Attribute

/-- A class. -/
structure ModelClass where
  name : String
  description : Option String
  attributes : List Attribute

namespace ModelClass

/-- The class of a declared object. -/
def ofFields (name : String) (description : Option String) (fields : List Field) : ModelClass where
  name := name
  description := description
  attributes := List.zipWith Attribute.ofField fields
    (Name.assign [] (fields.map fun f => attributeBase f.name))

/-- Whether an attribute has an alias. -/
def hasAliases (c : ModelClass) : Bool := c.attributes.any fun a => a.alias?.isSome

/-- The line that admits attribute names beside aliases. -/
def configLines (c : ModelClass) : List String :=
  if c.hasAliases then
    (if c.description.isSome then [""] else []) ++
      ["    model_config = ConfigDict(populate_by_name=True)"]
  else []

/-- The attributes, apart from what stands in front of them. -/
def attributeLines (c : ModelClass) : List String :=
  match c.attributes with
  | [] => if c.description.isNone then ["    pass"] else []
  | attributes =>
    (if c.hasAliases || c.description.isSome then [""] else []) ++ attributes.map Attribute.line

/-- The lines of a class. -/
def lines (c : ModelClass) : List String :=
  ("class " ++ c.name ++ "(BaseModel):") ::
    ((c.description.map (docstring "    ")).getD [] ++ c.configLines ++ c.attributeLines)

end ModelClass

/-- Another name for a type. -/
structure Alias where
  name : String
  description : Option String
  schema : Schema

namespace Alias

/-- The lines of an alias: its description as a comment, and the definition. -/
def lines (a : Alias) : List String :=
  let comment := match a.description with
    | some d => (Text.lines (Text.trim d.toList)).map fun line =>
        "# " ++ String.ofList (Text.trimEnd line)
    | none => []
  comment ++ [a.name ++ " = " ++ (TypeExpr.ofSchema a.schema).render]

/-- The aliases that an alias refers to, in order. -/
def dependencies (all : List Alias) (a : Alias) : List Alias :=
  a.schema.references.filterMap fun r => all.find? fun b => b.name = Name.declaration r

end Alias

/-- A walk through aliases: the names that were met, and the aliases that are finished. -/
structure Walk where
  met : List String := []
  finished : List Alias := []

/-- Finishes what an alias refers to and then the alias itself. A path without repetition is no
longer than the number of aliases, which bounds the fuel. -/
def Walk.visit (all : List Alias) : Nat → Walk → Alias → Walk
  | 0, walk, _ => walk
  | fuel + 1, walk, a =>
    if a.name ∈ walk.met then walk
    else
      let inner := (a.dependencies all).foldl (Walk.visit all fuel)
        ⟨a.name :: walk.met, walk.finished⟩
      ⟨inner.met, inner.finished ++ [a]⟩

/-- The aliases in an order of definition. -/
def aliasOrder (all : List Alias) : List Alias :=
  (all.foldl (Walk.visit all (all.length + 1)) {}).finished

/-- The first lines of a file. -/
def header (title : String) : List String := [
  "\"\"\"" ++ title,
  "",
  "Do not edit by hand; edit the schema and rerun the generator.",
  "\"\"\"",
  "",
  "# ruff: noqa: F401",
  "",
  "from __future__ import annotations",
  "",
  "from datetime import datetime",
  "from typing import Any, Literal, Optional",
  ""]

/-- What the models file declares, in order. -/
structure ModelsFile where
  classes : List ModelClass
  aliases : List Alias

namespace ModelsFile

/-- The class of a declaration, if it declares an object. -/
def classOf? (d : Declaration) : Option ModelClass :=
  match d.shape with
  | .object fields => some (.ofFields d.name d.description fields)
  | .alias _ => none

/-- The alias of a declaration, if it declares no object. -/
def aliasOf? (d : Declaration) : Option Alias :=
  match d.shape with
  | .object _ => none
  | .alias schema => some ⟨d.name, d.description, schema⟩

/-- The models file of declarations. -/
def ofDeclarations (declarations : List Declaration) : ModelsFile where
  classes := declarations.filterMap classOf?
  aliases := aliasOrder (declarations.filterMap aliasOf?)

/-- Lines with two empty ones in front. -/
def apart (lines : List String) : List String :=
  match lines with
  | [] => []
  | lines => "" :: "" :: lines

/-- The lines of the file. Classes are completed last, when all names are defined. -/
def lines (file : ModelsFile) : List String :=
  header "Pydantic models generated from the OpenAPI schema." ++
  ["from pydantic import BaseModel, ConfigDict, Field"] ++
  file.classes.flatMap (fun c => apart c.lines) ++
  apart (file.aliases.flatMap Alias.lines) ++
  apart (file.classes.map fun c => c.name ++ ".model_rebuild()")

/-- The text of the file. -/
def render (file : ModelsFile) : String := Text.ofLines file.lines

end ModelsFile

end ApiCodegen.Server
