import ApiCodegen.Numeric.Binary64

/-!
# The fewest digits that read back

A number is written with the fewest decimal digits that still lie nearer to it than to any
other number. The grids of decimals `d · 10 ^ j` are tried from coarse to fine; on each, the
two neighbours of the number are the only candidates. The first grid with a hit wins, and of
two hits the nearer.

* `Magnitude.holds`: the decimals that read back as a magnitude.
* `Magnitude.shortest`: the digits and the decimal exponent to write.
-/

namespace ApiCodegen.Numeric

/-- Which of two equally near decimals is taken. -/
inductive Tie where
  | toEven
  | up
  deriving DecidableEq

namespace Magnitude

/-- The unit `10 ^ j` measured in quarters of the last binary place, as a quotient. -/
def unit (v : Magnitude) (j : Int) : Nat × Nat :=
  (Nat.pow 10 j.toNat * Nat.pow 2 (2 - v.exponent).toNat,
    Nat.pow 10 (-j).toNat * Nat.pow 2 (v.exponent - 2).toNat)

/-- The lower end of the values that round to `v`, in quarters of the last place. Below a
power of two the numbers lie twice as dense. -/
def low (v : Magnitude) : Nat :=
  if v.mantissa = Nat.pow 2 52 ∧ -1074 < v.exponent then 4 * v.mantissa - 1 else 4 * v.mantissa - 2

/-- The upper end of the values that round to `v`, in quarters of the last place. -/
def high (v : Magnitude) : Nat := 4 * v.mantissa + 2

/-- Whether `d · 10 ^ j` rounds to `v`. The ends belong to an even mantissa. -/
def holds (v : Magnitude) (j : Int) (d : Nat) : Bool :=
  let (a, b) := v.unit j
  if v.mantissa % 2 = 0 then v.low * b ≤ d * a && d * a ≤ v.high * b
  else v.low * b < d * a && d * a < v.high * b

/-- The better neighbour of `v` on the grid `10 ^ j`, if one of the two rounds to `v`. -/
def onGrid (tie : Tie) (v : Magnitude) (j : Int) : Option Nat :=
  let (a, b) := v.unit j
  let value := 4 * v.mantissa * b
  let d := value / a
  let below := value - d * a
  let above := (d + 1) * a - value
  match v.holds j d, v.holds j (d + 1) with
  | true, true =>
    if below < above then some d
    else if above < below then some (d + 1)
    else match tie with
      | .toEven => some (if d % 2 = 0 then d else d + 1)
      | .up => some (d + 1)
  | true, false => some d
  | false, true => some (d + 1)
  | false, false => none

/-- A decimal exponent whose unit is at least `v`. -/
def coarsest (v : Magnitude) : Int :=
  let e : Int := (Nat.log2 v.mantissa : Int) + 1 + v.exponent
  if 0 ≤ e then e / 3 + 1 else -((-e) * 3 / 10)

/-- All digits of `v`. -/
def exactly (v : Magnitude) : Nat × Int :=
  if 0 ≤ v.exponent then (v.mantissa * Nat.pow 2 v.exponent.toNat, 0)
  else (v.mantissa * Nat.pow 5 (-v.exponent).toNat, v.exponent)

/-- The first hit on the next grids, from `10 ^ j` downwards; all digits if there is none. -/
def search (tie : Tie) (v : Magnitude) : Nat → Int → Nat × Int
  | 0, _ => v.exactly
  | steps + 1, j =>
    match onGrid tie v j with
    | some d => (d, j)
    | none => search tie v steps (j - 1)

/-- The fewest digits that read back as `v`, with their decimal exponent. Seventeen digits
always suffice; the other steps pass over the grids that are too coarse. -/
def shortest (tie : Tie) (v : Magnitude) : Nat × Int :=
  if v.mantissa = 0 then (0, 0) else search tie v 64 v.coarsest

end Magnitude

end ApiCodegen.Numeric
