/-!
# Blocks of lines

* `block`: lines in braces, one step further to the right than what surrounds them.
-/

namespace ApiCodegen.Client

/-- A line one step further to the right. An empty line stays empty. -/
def indented (line : String) : String := if line.isEmpty then line else "  " ++ line

/-- Lines in braces, between a head and a tail. -/
def block (head : String) (lines : List String) (tail : String) : List String :=
  (head ++ "\x7b") :: (lines.map indented ++ ["\x7d" ++ tail])

/-- Lines in braces behind a head and a space. -/
def body (head : String) (lines : List String) : List String := block (head ++ " ") lines ""

end ApiCodegen.Client
