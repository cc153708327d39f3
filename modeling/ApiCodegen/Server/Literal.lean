import ApiCodegen.Markup.Value
import ApiCodegen.Text.Quoted

/-!
# Literals of the server

A default value is written as an expression. Tags of a value are looked through.

* `literal`: the expression of a value.
-/

namespace ApiCodegen.Server

open Markup Numeric

/-- The expression of a number. What has no literal of its own is a call. -/
def numberLiteral (n : Number) : String :=
  match n with
  | .real .nan => "float(\"nan\")"
  | .real (.infinity false) => "float(\"inf\")"
  | .real (.infinity true) => "float(\"-inf\")"
  | n => n.text

mutual

/-- The characters of the expression of a value. -/
def literalChars : Value → List Char
  | .null => "None".toList
  | .bool true => "True".toList
  | .bool false => "False".toList
  | .number n => (numberLiteral n).toList
  | .string s => Text.quoteChars s.toList
  | .sequence items => '[' :: (itemChars items ++ [']'])
  | .mapping entries => '\x7b' :: (entryChars entries ++ ['\x7d'])
  | .tagged _ inner => literalChars inner

/-- The characters of items, with commas between them. -/
def itemChars : List Value → List Char
  | [] => []
  | [v] => literalChars v
  | v :: more => literalChars v ++ ',' :: ' ' :: itemChars more

/-- The characters of entries, with commas between them. -/
def entryChars : List (Value × Value) → List Char
  | [] => []
  | [(k, v)] => literalChars k ++ ':' :: ' ' :: literalChars v
  | (k, v) :: more => literalChars k ++ ':' :: ' ' :: literalChars v ++ ',' :: ' ' :: entryChars more

end

/-- The expression of a value. -/
def literal (v : Value) : String := String.ofList (literalChars v)

end ApiCodegen.Server
