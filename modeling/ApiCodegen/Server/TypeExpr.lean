import ApiCodegen.Name.Case
import ApiCodegen.Schema.Basic
import ApiCodegen.Text.Quoted

/-!
# Type expressions of the server

A type annotation is a name, a string literal, or a name applied to arguments in brackets.

* `TypeExpr.ofSchema`: the annotation of a schema.
* `TypeExpr.ofBody`: the annotation of a request or response; without type information it is an
  open mapping.
* `TypeExpr.optional`: the annotation of a value that may be absent.
* `TypeExpr.render`: the text of an annotation.
-/

namespace ApiCodegen.Server

/-- A type annotation. -/
inductive TypeExpr where
  | name (name : String)
  | text (value : String)
  | apply (head : String) (args : List TypeExpr)

namespace TypeExpr

/-- An open mapping. -/
def mapping : TypeExpr := .apply "dict" [.name "str", .name "Any"]

/-- A value that may be `None`. -/
def orNone (t : TypeExpr) : TypeExpr := .apply "Optional" [t]

/-- The annotation of a primitive. -/
def ofKind (kind : Kind) (format : Option String) : TypeExpr :=
  match kind with
  | .string => if format = some "date-time" then .name "datetime" else .name "str"
  | .integer => .name "int"
  | .number => .name "float"
  | .boolean => .name "bool"

/-- The annotation of a schema. -/
def ofSchema : Schema → TypeExpr
  | .primitive kind format => ofKind kind format
  | .enumeration values =>
    if values.isEmpty then .name "str" else .apply "Literal" (values.map .text)
  | .array items => .apply "list" [ofSchema items]
  | .object _ _ => mapping
  | .reference component => .name (Name.declaration component)
  | .nullable inner => orNone (ofSchema inner)
  | .untyped => .name "Any"

/-- The annotation of a request or a response. -/
def ofBody : Schema → TypeExpr
  | .untyped => mapping
  | schema => ofSchema schema

/-- The annotation of a value that may be absent; null is admitted once. -/
def optional (schema : Schema) : TypeExpr :=
  if schema.isNullable then ofSchema schema else orNone (ofSchema schema)

mutual

/-- The characters of an annotation. -/
def chars : TypeExpr → List Char
  | .name n => n.toList
  | .text value => Text.quoteChars value.toList
  | .apply head args => head.toList ++ '[' :: (charsAll args ++ [']'])

/-- The characters of arguments, with commas between them. -/
def charsAll : List TypeExpr → List Char
  | [] => []
  | [t] => chars t
  | t :: more => chars t ++ ',' :: ' ' :: charsAll more

end

/-- The text of an annotation. -/
def render (t : TypeExpr) : String := String.ofList t.chars

end TypeExpr

end ApiCodegen.Server
