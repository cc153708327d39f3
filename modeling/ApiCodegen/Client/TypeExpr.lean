import ApiCodegen.Name.Case
import ApiCodegen.Schema.Basic
import ApiCodegen.Text.Quoted

/-!
# Type expressions of the client

* `TypeExpr.ofSchema`: the type of a schema; enumerations and nullable types are unions.
* `TypeExpr.ofBody`: the type of a request or response; without type information it is an open
  record.
* `TypeExpr.render`: the text of a type. The brackets of an array bind tighter than the bars of
  a union.
-/

namespace ApiCodegen.Client

/-- A type. -/
inductive TypeExpr where
  | name (name : String)
  | text (value : String)
  /-- An open record. -/
  | record
  | array (items : TypeExpr)
  | union (members : List TypeExpr)

/-- The declared name of dates with times. -/
def dateTimeName : String := "DateTimeString"

namespace TypeExpr

/-- A value that may be `null`. -/
def orNull (t : TypeExpr) : TypeExpr := .union [t, .name "null"]

/-- The type of a primitive. -/
def ofKind (kind : Kind) (format : Option String) : TypeExpr :=
  match kind with
  | .string => if format = some "date-time" then .name dateTimeName else .name "string"
  | .integer => .name "number"
  | .number => .name "number"
  | .boolean => .name "boolean"

/-- The type of a schema. -/
def ofSchema : Schema → TypeExpr
  | .primitive kind format => ofKind kind format
  | .enumeration values => if values.isEmpty then .name "string" else .union (values.map .text)
  | .array items => .array (ofSchema items)
  | .object _ _ => .record
  | .reference component => .name (Name.declaration component)
  | .nullable inner => orNull (ofSchema inner)
  | .untyped => .name "any"

/-- The type of a request or a response. -/
def ofBody : Schema → TypeExpr
  | .untyped => .record
  | schema => ofSchema schema

/-- The type of a value that may be absent; null is admitted once. -/
def optional (schema : Schema) : TypeExpr :=
  if schema.isNullable then ofSchema schema else orNull (ofSchema schema)

/-- Whether a bar with spaces around it occurs. -/
def hasBar : List Char → Bool
  | ' ' :: '|' :: ' ' :: _ => true
  | _ :: rest => hasBar rest
  | [] => false

mutual

/-- The characters of a type. The items of an array stand in parentheses when a bar occurs in
them. -/
def chars : TypeExpr → List Char
  | .name n => n.toList
  | .text value => Text.quoteChars value.toList
  | .record => "Record<string, any>".toList
  | .array items =>
    let inner := chars items
    if hasBar inner then '(' :: (inner ++ [')', '[', ']']) else inner ++ ['[', ']']
  | .union members => charsAll members

/-- The characters of the members of a union, with bars between them. -/
def charsAll : List TypeExpr → List Char
  | [] => []
  | [t] => chars t
  | t :: more => chars t ++ ' ' :: '|' :: ' ' :: charsAll more

end

/-- The text of a type. -/
def render (t : TypeExpr) : String := String.ofList t.chars

end TypeExpr

end ApiCodegen.Client
