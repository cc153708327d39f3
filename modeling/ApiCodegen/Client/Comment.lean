import ApiCodegen.Schema.Basic
import ApiCodegen.Text.Blank

/-!
# Comments of the client

* `comment`: a documentation comment of a description and of constraints; nothing if there are
  neither.
-/

namespace ApiCodegen.Client

open Numeric

/-- What would end a comment is broken by a backslash. -/
def escapeComment : List Char → List Char
  | [] => []
  | '*' :: '/' :: rest => '*' :: '\\' :: '/' :: escapeComment rest
  | c :: rest => c :: escapeComment rest

/-- The lines of a description. -/
def descriptionLines (description : String) : List String :=
  (Text.lines (escapeComment (Text.trim description.toList))).map fun line =>
    String.ofList (Text.trimEnd line)

/-- A line for a bound, if there is one. -/
def boundLine {α : Type} (tag : String) (text : α → String) (value : Option α) : List String :=
  (value.map fun v => tag ++ " " ++ text v).toList

/-- The lines of constraints. -/
def constraintLines (c : Constraints) : List String :=
  boundLine "@minimum" bound c.minimum ++
  boundLine "@maximum" bound c.maximum ++
  boundLine "@minLength" toString c.minLength ++
  boundLine "@maxLength" toString c.maxLength

/-- Lines as a comment. A single line stands on the line of the marks. -/
def commentOf (lines : List String) : List String :=
  match lines with
  | [] => []
  | [line] => ["/** " ++ line ++ " */"]
  | lines =>
    "/**" :: (lines.map fun line => if line.isEmpty then " *" else " * " ++ line) ++ [" */"]

/-- The comment of a description and constraints. -/
def comment (description : Option String) (constraints : Constraints) : List String :=
  commentOf ((description.map descriptionLines).getD [] ++ constraintLines constraints)

end ApiCodegen.Client
