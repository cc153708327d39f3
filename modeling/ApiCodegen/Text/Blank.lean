/-!
# Blanks and lines

Texts are worked on as lists of characters.

* `isBlank`: the Unicode property `White_Space`.
* `trim`, `trimEnd`: a text without its outer blanks.
* `lines`: the lines of a text; a line ends at a line feed, and a carriage
  return right before it belongs to the line end.
* `ofLines`: the text of lines, each with a line feed at its end.
-/

namespace ApiCodegen.Text

/-- The Unicode property `White_Space`. -/
def isBlank (c : Char) : Bool :=
  let n := c.toNat
  (9 ≤ n && n ≤ 13) || n == 0x20 || n == 0x85 || n == 0xA0 || n == 0x1680 ||
    (0x2000 ≤ n && n ≤ 0x200A) || n == 0x2028 || n == 0x2029 || n == 0x202F || n == 0x205F ||
    n == 0x3000

/-- A text without the blanks at its start. -/
def trimStart (cs : List Char) : List Char := cs.dropWhile isBlank

/-- A text without the blanks at its end. -/
def trimEnd (cs : List Char) : List Char := (cs.reverse.dropWhile isBlank).reverse

/-- A text without its outer blanks. -/
def trim (cs : List Char) : List Char := trimEnd (trimStart cs)

/-- The lines of a text, without their ends. A text that ends in a line end has no
further, empty line. -/
def lines : List Char → List (List Char)
  | [] => []
  | '\n' :: rest => [] :: lines rest
  | '\r' :: '\n' :: rest => [] :: lines rest
  | c :: rest =>
    match lines rest with
    | [] => [[c]]
    | line :: more => (c :: line) :: more

/-- A string without its outer blanks. -/
def trimmed (s : String) : String := String.ofList (trim s.toList)

/-- The text of lines, each with a line feed at its end. -/
def ofLines (lines : List String) : String := String.join (lines.map (· ++ "\n"))

end ApiCodegen.Text
