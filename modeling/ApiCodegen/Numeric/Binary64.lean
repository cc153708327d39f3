/-!
# Binary floating-point numbers

Numbers of 64 bits, held exactly: no machine arithmetic is involved.

* `Magnitude`: the value `mantissa · 2 ^ exponent` in its only normal form.
* `Binary64`: a signed magnitude, an infinity or not a number.
* `Binary64.ofDecimal`: the number nearest to a decimal, ties to the even mantissa.
-/

namespace ApiCodegen.Numeric

/-- An absolute value `mantissa · 2 ^ exponent` in normal form: the mantissa has 53 bits, or
fewer at the least exponent. -/
structure Magnitude where
  mantissa : Nat
  exponent : Int
  mantissa_lt : mantissa < Nat.pow 2 53
  exponent_ge : -1074 ≤ exponent
  exponent_le : exponent ≤ 971
  normal : exponent = -1074 ∨ Nat.pow 2 52 ≤ mantissa
  deriving DecidableEq

/-- The magnitude with these parts, if they are in normal form. -/
def Magnitude.ofParts? (mantissa : Nat) (exponent : Int) : Option Magnitude :=
  if h : mantissa < Nat.pow 2 53 ∧ -1074 ≤ exponent ∧ exponent ≤ 971 ∧
      (exponent = -1074 ∨ Nat.pow 2 52 ≤ mantissa) then
    some ⟨mantissa, exponent, h.1, h.2.1, h.2.2.1, h.2.2.2⟩
  else none

/-- The magnitude zero. -/
def Magnitude.zero : Magnitude := ⟨0, -1074, by decide, by decide, by decide, by decide⟩

/-- A binary floating-point number of 64 bits. -/
inductive Binary64 where
  | nan
  | infinity (negative : Bool)
  | finite (negative : Bool) (magnitude : Magnitude)
  deriving DecidableEq

/-- A quotient rounded to the nearest whole number, a half to the even neighbour. -/
def roundHalfEven (num den : Nat) : Nat :=
  let low := num / den
  let rest := num % den
  if 2 * rest < den then low
  else if den < 2 * rest then low + 1
  else if low % 2 = 0 then low
  else low + 1

/-- `num / den · 2 ^ (-q)` as a quotient of natural numbers. -/
def scaleDown (num den : Nat) (q : Int) : Nat × Nat :=
  if 0 ≤ q then (num, den * Nat.pow 2 q.toNat) else (num * Nat.pow 2 (-q).toNat, den)

/-- The exponent at which the integral part of `num / den · 2 ^ (-q)` has 53 bits, or the
least exponent if that is larger. -/
def exponentFor (num den : Nat) : Int :=
  let k : Int := (Nat.log2 num : Int) - (Nat.log2 den : Int)
  let (n, d) := scaleDown num den (k - 53)
  max (-1074) (if n / d < Nat.pow 2 53 then k - 53 else k - 52)

namespace Binary64

/-- The number nearest to `± num / den`. A value beyond the largest number is infinite. -/
def ofRatio (negative : Bool) (num den : Nat) : Binary64 :=
  if num = 0 then .finite negative .zero
  else
    let q := exponentFor num den
    let (n, d) := scaleDown num den q
    let m := roundHalfEven n d
    let (m, q) := if m = Nat.pow 2 53 then (Nat.pow 2 52, q + 1) else (m, q)
    match Magnitude.ofParts? m q with
    | some magnitude => .finite negative magnitude
    | none => .infinity negative

/-- The number of decimal digits. -/
def digitCount (n : Nat) : Nat := (Nat.toDigits 10 n).length

/-- The number nearest to `± digits · 10 ^ exponent`. An exponent far outside the range of
the numbers decides the result by itself. -/
def ofDecimal (negative : Bool) (digits : Nat) (exponent : Int) : Binary64 :=
  let order := (digitCount digits : Int) + exponent
  if digits = 0 then .finite negative .zero
  else if 310 < order then .infinity negative
  else if order < -330 then .finite negative .zero
  else if 0 ≤ exponent then ofRatio negative (digits * Nat.pow 10 exponent.toNat) 1
  else ofRatio negative digits (Nat.pow 10 (-exponent).toNat)

/-- The number nearest to a whole number. -/
def ofInt (n : Int) : Binary64 := ofRatio (n < 0) n.natAbs 1

/-- Equality of numbers as keys: zeros of both signs are one, and so is what is not a number. -/
def sameKey (x y : Binary64) : Bool :=
  match x, y with
  | .finite s a, .finite t b => (s == t && a == b) || (a.mantissa == 0 && b.mantissa == 0)
  | x, y => x == y

end Binary64

end ApiCodegen.Numeric
