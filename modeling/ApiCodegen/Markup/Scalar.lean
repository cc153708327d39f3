import ApiCodegen.Markup.Value
import ApiCodegen.Markup.Token.Scalars

/-!
# The meaning of unquoted words

* `wholeOf?`: whole numbers in decimal, hexadecimal, octal or binary.
* `realOf?`: decimals, with an exponent or not, infinities and not-a-number.
* `plainValue?`: the value of an unquoted word.
-/

namespace ApiCodegen.Markup

open Numeric

/-- A text without a leading sign `c`. -/
def withoutSign (c : Char) : List Char → List Char
  | [] => []
  | d :: rest => if d = c then rest else d :: rest

/-- Whether a text starts with a sign. -/
def isSigned : List Char → Bool
  | c :: _ => c == '+' || c == '-'
  | [] => false

/-- A leading zero and more digits, perhaps after a sign: no number, such as `007`. -/
def isPadded (cs : List Char) : Bool :=
  let unsigned := if isSigned cs then cs.drop 1 else cs
  match unsigned with
  | '0' :: d :: rest => (d :: rest).all Char.isDigit
  | _ => false

/-- The value of digits in a base, if there are any and nothing else. -/
def digitsOf? (base : Nat) (cs : List Char) : Option Nat :=
  if cs.isEmpty then none
  else cs.foldl (fun acc c => do
    let n ← acc
    let d ← hexValue c
    if d < base then some (n * base + d) else none) (some 0)

/-- The value of an unsigned number with a base mark. -/
def markedOf? : List Char → Option Nat
  | '0' :: 'x' :: rest => digitsOf? 16 rest
  | '0' :: 'o' :: rest => digitsOf? 8 rest
  | '0' :: 'b' :: rest => digitsOf? 2 rest
  | _ => none

/-- The value of a whole number. -/
def wholeOf? (cs : List Char) : Option Int :=
  match markedOf? (withoutSign '+' cs) with
  | some n => some n
  | none =>
    match cs with
    | '-' :: rest =>
      match markedOf? rest with
      | some n => some (-(n : Int))
      | none => if isPadded cs then none else (digitsOf? 10 rest).map fun n => -(n : Int)
    | cs => if isPadded cs then none else (digitsOf? 10 (withoutSign '+' cs)).map Int.ofNat

/-- The exponent of a decimal, behind its digits; no exponent is zero. -/
def exponentOf? : List Char → Option Int
  | [] => some 0
  | e :: rest =>
    if e = 'e' ∨ e = 'E' then
      match rest with
      | '-' :: digits => (digitsOf? 10 digits).map fun n => -(n : Int)
      | '+' :: digits => (digitsOf? 10 digits).map Int.ofNat
      | digits => (digitsOf? 10 digits).map Int.ofNat
    else none

/-- The value of an unsigned decimal: digits, a point somewhere, and an exponent. -/
def decimalOf? (negative : Bool) (cs : List Char) : Option Binary64 := do
  let front := cs.takeWhile Char.isDigit
  let rest := cs.dropWhile Char.isDigit
  let (back, rest) := match rest with
    | '.' :: rest => (rest.takeWhile Char.isDigit, rest.dropWhile Char.isDigit)
    | rest => ([], rest)
  let digits ← digitsOf? 10 (front ++ back)
  let exponent ← exponentOf? rest
  some (.ofDecimal negative digits (exponent - back.length))

/-- The value of a floating-point number. A decimal beyond the largest number is none. -/
def realOf? (cs : List Char) : Option Binary64 :=
  let unsigned := withoutSign '+' cs
  if cs != unsigned && isSigned unsigned then none
  else if [".inf", ".Inf", ".INF"].contains (String.ofList unsigned) then some (.infinity false)
  else if ["-.inf", "-.Inf", "-.INF"].contains (String.ofList cs) then some (.infinity true)
  else if [".nan", ".NaN", ".NAN"].contains (String.ofList cs) then some .nan
  else
    let number := match unsigned with
      | '-' :: rest => decimalOf? true rest
      | rest => decimalOf? false rest
    match number with
    | some (.finite negative v) => some (.finite negative v)
    | _ => none

/-- The words for null. -/
def isNullWord (s : String) : Bool := ["null", "Null", "NULL", "~"].contains s

/-- The truth value of a word. -/
def boolOf? (s : String) : Option Bool :=
  if ["true", "True", "TRUE"].contains s then some true
  else if ["false", "False", "FALSE"].contains s then some false
  else none

/-- What a whole number stands for: one of 64 bits is a value, one of at most 128 bits is
refused, and a larger one is no whole number. -/
inductive Whole where
  | value (n : Int)
  | refused
  | none

/-- Whether a number is at least `-low` and less than `high`. -/
def isBetween (low high : Nat) (n : Int) : Bool := -(low : Int) ≤ n && n < (high : Int)

/-- The reading of a text as a whole number. -/
def readWhole (cs : List Char) : Whole :=
  match wholeOf? cs with
  | some n =>
    if isBetween (Nat.pow 2 63) (Nat.pow 2 64) n then .value n
    else if isBetween (Nat.pow 2 127) (Nat.pow 2 128) n then .refused
    else .none
  | Option.none => .none

/-- The value of an unquoted word. It is none for a whole number that is too large. -/
def plainValue? (s : String) : Option Value :=
  if s = "" ∨ isNullWord s then some .null
  else match boolOf? s with
    | some b => some (.bool b)
    | none =>
      match readWhole s.toList with
      | .value n => some (.number (.whole n))
      | .refused => none
      | .none =>
        if isPadded s.toList then some (.string s)
        else match realOf? s.toList with
          | some x => some (.number (.real x))
          | none => some (.string s)

/-- The value that a standard tag forces on a text. Other tags make it a string. -/
def taggedValue? (tag s : String) : Option Value :=
  if tag = "tag:yaml.org,2002:bool" then (boolOf? s).map .bool
  else if tag = "tag:yaml.org,2002:int" then
    match readWhole s.toList with
    | .value n => some (.number (.whole n))
    | _ => none
  else if tag = "tag:yaml.org,2002:float" then (realOf? s.toList).map fun x => .number (.real x)
  else if tag = "tag:yaml.org,2002:null" then if isNullWord s then some .null else none
  else some (.string s)

/-- A text without a leading exclamation mark, unless it is nothing else. -/
def unmarked : List Char → List Char
  | '!' :: c :: rest => c :: rest
  | cs => cs

/-- The name of an application's own tag: one that starts with an exclamation mark. -/
def ownTag? (tag : String) : Option String :=
  match tag.toList with
  | '!' :: rest => some (String.ofList (unmarked ('!' :: rest)))
  | _ => none

end ApiCodegen.Markup
