import ApiCodegen.Text.Blank

/-!
# Documentation strings of the server

A description becomes a string in triple quotes.

* `escapeDoc`: a text in which no quotes end the string.
* `docstring`: the lines of the string at an indentation.
-/

namespace ApiCodegen.Server

/-- Backslashes and three quotes in a row are escaped. -/
def escapeDoc : List Char → List Char
  | [] => []
  | '"' :: '"' :: '"' :: rest => '\\' :: '"' :: '\\' :: '"' :: '\\' :: '"' :: escapeDoc rest
  | '\\' :: rest => '\\' :: '\\' :: escapeDoc rest
  | c :: rest => c :: escapeDoc rest

/-- A blank keeps a quote at the end apart from the closing quotes. -/
def guardEnd (cs : List Char) : List Char := if cs.getLast? = some '"' then cs ++ [' '] else cs

/-- The lines between the quotes. -/
def docLines (description : String) : List (List Char) :=
  Text.lines (guardEnd (escapeDoc (Text.trim description.toList)))

/-- A later line: without blanks at its end, and indented unless nothing is left. -/
def docLine (indent : String) (line : List Char) : String :=
  match Text.trimEnd line with
  | [] => ""
  | line => indent ++ String.ofList line

/-- The lines of a documentation string. -/
def docstring (indent description : String) : List String :=
  match docLines description with
  | [] => [indent ++ "\"\"\"\"\"\""]
  | [line] => [indent ++ "\"\"\"" ++ String.ofList line ++ "\"\"\""]
  | first :: rest =>
    (indent ++ "\"\"\"" ++ String.ofList first) ::
      (rest.map (docLine indent) ++ [indent ++ "\"\"\""])

end ApiCodegen.Server
