import ApiCodegen.Markup.Value
import ApiCodegen.Name.Identifier
import ApiCodegen.Text.Quoted

/-!
# Literals of the client

A default value is written as an expression. Tags of a value are looked through.

* `propertyKey`: a name as the key of an object, in quotes where it needs them.
* `literal`: the expression of a value.
-/

namespace ApiCodegen.Client

open Markup Numeric

/-- A name as the key of an object. -/
def propertyKey (name : String) : String :=
  if Name.isPropertyKey name then name else Text.quote name

/-- The expression of a number. What has no literal of its own is a named constant. -/
def numberLiteral (n : Number) : String :=
  match n with
  | .real .nan => "Number.NaN"
  | .real (.infinity false) => "Number.POSITIVE_INFINITY"
  | .real (.infinity true) => "Number.NEGATIVE_INFINITY"
  | n => n.text

mutual

/-- The characters of the expression of a value. -/
def literalChars : Value → List Char
  | .null => "null".toList
  | .bool true => "true".toList
  | .bool false => "false".toList
  | .number n => (numberLiteral n).toList
  | .string s => Text.quoteChars s.toList
  | .sequence items => '[' :: (itemChars items ++ [']'])
  | .mapping [] => ['\x7b', '\x7d']
  | .mapping entries => '\x7b' :: ' ' :: (entryChars entries ++ [' ', '\x7d'])
  | .tagged _ inner => literalChars inner

/-- The characters of items, with commas between them. -/
def itemChars : List Value → List Char
  | [] => []
  | [v] => literalChars v
  | v :: more => literalChars v ++ ',' :: ' ' :: itemChars more

/-- The characters of a key. What is no string is the text of its expression. -/
def keyChars : Value → List Char
  | .string s => (propertyKey s).toList
  | v => Text.quoteChars (literalChars v)

/-- The characters of entries, with commas between them. -/
def entryChars : List (Value × Value) → List Char
  | [] => []
  | [(k, v)] => keyChars k ++ ':' :: ' ' :: literalChars v
  | (k, v) :: more => keyChars k ++ ':' :: ' ' :: literalChars v ++ ',' :: ' ' :: entryChars more

end

/-- The expression of a value. -/
def literal (v : Value) : String := String.ofList (literalChars v)

end ApiCodegen.Client
