import ApiCodegen.Numeric.Shortest

/-!
# Texts of numbers

The digits of a number are laid out around a decimal point, or with an exponent.

* `Layout`: the choices of a number format.
* `Layout.text`: the text of a number in a layout.
* `document`, `plain`: the layout of descriptions and the layout without exponents.
* `bound`: the text of a numeric bound, whole numbers without a point.
-/

namespace ApiCodegen.Numeric

/-- The choices of a number format. The position of the decimal point counts the digits in
front of it. -/
structure Layout where
  tie : Tie
  /-- The least and the largest position of the decimal point that need no exponent. -/
  window : Option (Int × Int)
  /-- Whole numbers end in `.0`. -/
  pointZero : Bool
  infinity : String
  negativeInfinity : String
  nan : String

/-- The layout of numbers in descriptions: an exponent from `1e16` up and below `1e-5`. -/
def document : Layout := ⟨.toEven, some (-4, 16), true, ".inf", "-.inf", ".nan"⟩

/-- The layout without exponents. -/
def plain : Layout := ⟨.up, none, false, "inf", "-inf", "NaN"⟩

namespace Layout

/-- Digits with the decimal point after the first `point` of them. -/
def positional (layout : Layout) (digits : List Char) (point : Int) : List Char :=
  if point ≤ 0 then '0' :: '.' :: (List.replicate (-point).toNat '0' ++ digits)
  else
    let n := point.toNat
    if digits.length ≤ n then
      digits ++ List.replicate (n - digits.length) '0' ++ (if layout.pointZero then ['.', '0'] else [])
    else digits.take n ++ '.' :: digits.drop n

/-- Digits with the decimal point after the first of them, and an exponent. -/
def scientific (digits : List Char) (point : Int) : List Char :=
  let mantissa := match digits with
    | [] => []
    | [d] => [d]
    | d :: rest => d :: '.' :: rest
  mantissa ++ 'e' :: (toString (point - 1)).toList

/-- The text of a magnitude. -/
def magnitude (layout : Layout) (v : Magnitude) : List Char :=
  if v.mantissa = 0 then if layout.pointZero then ['0', '.', '0'] else ['0']
  else
    let (d, j) := v.shortest layout.tie
    let digits := Nat.toDigits 10 d
    let point := (digits.length : Int) + j
    match layout.window with
    | some (least, most) =>
      if least ≤ point ∧ point ≤ most then layout.positional digits point
      else scientific digits point
    | none => layout.positional digits point

/-- The text of a number. -/
def text (layout : Layout) : Binary64 → String
  | .nan => layout.nan
  | .infinity false => layout.infinity
  | .infinity true => layout.negativeInfinity
  | .finite negative v =>
    String.ofList (if negative then '-' :: layout.magnitude v else layout.magnitude v)

end Layout

/-- The whole number that a magnitude below `10 ^ 15` is, if it is one. -/
def Magnitude.whole? (v : Magnitude) : Option Nat :=
  if 0 ≤ v.exponent then
    let n := v.mantissa * Nat.pow 2 v.exponent.toNat
    if n < Nat.pow 10 15 then some n else none
  else
    let unit := Nat.pow 2 (-v.exponent).toNat
    if v.mantissa % unit = 0 ∧ v.mantissa / unit < Nat.pow 10 15 then some (v.mantissa / unit) else none

/-- The text of a numeric bound: a whole number below `10 ^ 15` is written as an integer, and
every other number without an exponent. -/
def bound : Binary64 → String
  | .finite negative v =>
    match v.whole? with
    | some n => toString (if negative then -(n : Int) else (n : Int))
    | none => plain.text (.finite negative v)
  | x => plain.text x

end ApiCodegen.Numeric
