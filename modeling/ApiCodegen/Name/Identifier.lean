/-!
# Identifiers

Names of a description are free text; the generated files need identifiers.

* `isIdentifier`: a letter or `_`, then letters, digits and `_`, all of ASCII.
* `sanitize`: every other character becomes `_`, and a leading digit gets a `_` in front.
* `server`, `client`: identifiers of the two generated languages; a reserved word gets a
  trailing `_`.
* `isPropertyKey`: names that can stand as an object key without quotes.
-/

namespace ApiCodegen.Name

/-- ASCII letters, digits and `_`. -/
def isWordChar (c : Char) : Bool := c.isAlphanum || c == '_'

/-- The form of an identifier. -/
def isIdentifier : List Char → Bool
  | [] => false
  | c :: rest => !c.isDigit && (c :: rest).all isWordChar

/-- A character that an identifier admits, or `_`. -/
def wordChar (c : Char) : Char := if isWordChar c then c else '_'

/-- A text that cannot start an identifier gets a `_` in front. -/
def guardStart : List Char → List Char
  | [] => ['_']
  | c :: rest => if c.isDigit then '_' :: c :: rest else c :: rest

/-- The identifier of a text: every character that is no letter, digit or `_` becomes `_`. -/
def sanitizeChars (cs : List Char) : List Char := guardStart (cs.map wordChar)

/-- The identifier of a name. -/
def sanitize (name : String) : String := String.ofList (sanitizeChars name.toList)

/-- Keywords of the server files. -/
def serverReserved : List String := [
  "False", "None", "True", "and", "as", "assert", "async", "await", "break", "class",
  "continue", "def", "del", "elif", "else", "except", "finally", "for", "from", "global", "if",
  "import", "in", "is", "lambda", "nonlocal", "not", "or", "pass", "raise", "return", "try",
  "while", "with", "yield"]

/-- Reserved words of the client files. -/
def clientReserved : List String := [
  "break", "case", "catch", "class", "const", "continue", "debugger", "default", "delete", "do",
  "else", "enum", "export", "extends", "false", "finally", "for", "function", "if", "import",
  "in", "instanceof", "new", "null", "return", "super", "switch", "this", "throw", "true",
  "try", "typeof", "var", "void", "while", "with"]

/-- A reserved word gets a trailing `_`. -/
def avoid (reserved : List String) (name : String) : String :=
  if name ∈ reserved then name ++ "_" else name

/-- The identifier of a field, parameter or handler in the server files. -/
def server (name : String) : String := avoid serverReserved (sanitize name)

/-- The identifier of a parameter or helper in the client files. -/
def client (name : String) : String := avoid clientReserved (sanitize name)

/-- Whether a name can stand as an object key without quotes. -/
def isPropertyKey (name : String) : Bool :=
  match name.toList with
  | [] => false
  | c :: rest => !c.isDigit && (c :: rest).all fun d => isWordChar d || d == '$'

end ApiCodegen.Name
