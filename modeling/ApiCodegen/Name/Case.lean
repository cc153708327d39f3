import ApiCodegen.Text.Capital
import ApiCodegen.Name.Identifier

/-!
# Letter case and word boundaries

* `declaration`: the name of a declared type (`user-profile` becomes `UserProfile`); an
  identifier is kept as it is.
* `camel`: `get_random_quote` becomes `getRandomQuote`.
* `upperSnake`: `getRandomQuote` becomes `GET_RANDOM_QUOTE`.
* `operation`: the identifier of an operation that has none of its own, from its verb and path.
-/

namespace ApiCodegen.Name

open Text

/-- The maximal runs of characters that satisfy `p`, in order. -/
def runs (p : Char → Bool) : List Char → List (List Char)
  | [] => []
  | c :: rest =>
    if p c then
      match rest with
      | [] => [[c]]
      | d :: _ =>
        if p d then
          match runs p rest with
          | [] => [[c]]
          | run :: more => (c :: run) :: more
        else [c] :: runs p rest
    else runs p rest

/-- The name of the type declared for a component. -/
def declarationChars (cs : List Char) : List Char :=
  if isIdentifier cs then cs
  else sanitizeChars ((runs Char.isAlphanum cs).flatMap capitalize)

/-- The name of the type declared for a component. -/
def declaration (name : String) : String := String.ofList (declarationChars name.toList)

/-- The words between underscores, the first as it is and the others capitalized. -/
def camelChars (cs : List Char) : List Char :=
  match runs (· != '_') cs with
  | [] => []
  | first :: more => first ++ more.flatMap capitalize

/-- Camel case of a name in snake case. -/
def camel (name : String) : String := String.ofList (camelChars name.toList)

/-- Upper snake case; `afterLow` says whether a lower-case letter or a digit came before. -/
def upperSnakeChars (afterLow : Bool) : List Char → List Char
  | [] => []
  | c :: rest =>
    let tail := c.toUpper :: upperSnakeChars (c.isLower || c.isDigit) rest
    if c.isUpper && afterLow then '_' :: tail else tail

/-- Upper snake case of a name in snake case or camel case. -/
def upperSnake (name : String) : String := String.ofList (upperSnakeChars false name.toList)

/-- The text of a path without its braces. -/
def unbraced (path : List Char) : List Char := path.filter fun c => c != '\x7b' && c != '\x7d'

/-- A text, latest character first, with one more: a letter or digit in lower case, or `_` for every other
character, unless a `_` was written last. -/
def writeChar (written : List Char) (c : Char) : List Char :=
  let d := if c.isAlphanum then c.toLower else '_'
  if d = '_' ∧ written.head? = some '_' then written else d :: written

/-- A text without the underscores at its ends. -/
def trimUnderscores (cs : List Char) : List Char :=
  ((cs.dropWhile (· == '_')).reverse.dropWhile (· == '_')).reverse

/-- A verb and a path, in lower case and with single underscores for what is no letter or digit. -/
def operationChars (verb path : List Char) : List Char :=
  trimUnderscores ((verb ++ '_' :: unbraced path).foldl writeChar []).reverse

/-- The identifier of an operation without one of its own. -/
def operation (verb path : String) : String :=
  String.ofList (operationChars verb.toList path.toList)

end ApiCodegen.Name
