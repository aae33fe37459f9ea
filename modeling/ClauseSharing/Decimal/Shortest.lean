import ClauseSharing.Decimal.Binary64
import ClauseSharing.Decimal.Layout

/-!
The decimal text of a double with the fewest digits that read back to it.

The reals that round to a double form an interval around it, closed if its mantissa is even. On
each decimal grid, from coarse to fine, only the two neighbours of the double can be the best
point of the interval, so the search tests these two and stops at the first grid that has one
inside. Seventeen digits always suffice.
-/

namespace ClauseSharing.Decimal

/-- The reals that round to a double, in units of `2 ^ exponent`. -/
structure RoundingInterval where
  value : Nat
  /-- The midpoint to the double below. -/
  low : Nat
  /-- The midpoint to the double above. -/
  high : Nat
  /-- Whether the midpoints belong to the interval: ties go to the even mantissa. -/
  closed : Bool
  /-- The power of two that all three count. -/
  exponent : Int

/-- The interval of `mantissa * 2 ^ exponent`. Below the least mantissa of its exponent doubles lie
twice as close, except under the least normal number. -/
def RoundingInterval.of (mantissa : Nat) (exponent : Int) : RoundingInterval where
  value := 4 * mantissa
  low :=
    if mantissa = leastNormalMantissa ∧ exponent ≠ -1074 then 4 * mantissa - 1
    else 4 * mantissa - 2
  high := 4 * mantissa + 2
  closed := mantissa % 2 == 0
  exponent := exponent - 2

namespace RoundingInterval

/-- The power of two as a numerator over `10 ^ power`. -/
def numerator (i : RoundingInterval) (power : Int) : Nat :=
  Nat.pow 2 i.exponent.toNat * Nat.pow 10 (-power).toNat

/-- The denominator that goes with `numerator`. -/
def denominator (i : RoundingInterval) (power : Int) : Nat :=
  Nat.pow 2 (-i.exponent).toNat * Nat.pow 10 power.toNat

/-- Whether `digits * 10 ^ power` rounds to the double. -/
def contains (i : RoundingInterval) (digits : Nat) (power : Int) : Bool :=
  let point := digits * i.denominator power
  let low := i.low * i.numerator power
  let high := i.high * i.numerator power
  if i.closed then low ≤ point && point ≤ high else low < point && point < high

/-- The point of the grid of `10 ^ power` that rounds to the double and is nearest to it; of two
equally near points the upper one. -/
def nearestOn (i : RoundingInterval) (power : Int) : Option Nat :=
  let value := i.value * i.numerator power
  let step := i.denominator power
  let below := value / step
  match i.contains below power, i.contains (below + 1) power with
  | true, true => if 2 * (value % step) < step then some below else some (below + 1)
  | true, false => some below
  | false, true => some (below + 1)
  | false, false => none

/-- A power of ten above the interval: twice over, so that rounding up is seen as well. -/
def coarsest (i : RoundingInterval) : Int :=
  ((i.value.log2 + 1 : Nat) + i.exponent) * 30103 / 100000 + 2

/-- The fewest digits that round to the double, with the power of ten of the last one. -/
def shortest (i : RoundingInterval) : Nat × Int :=
  ((List.range 24).findSome? fun n : Nat =>
    let power : Int := i.coarsest - n
    (i.nearestOn power).map (·, power)).getD (0, 0)

end RoundingInterval

/-- The decimal text of a double with the fewest digits that read back to it. -/
def shortest (x : Float) : String :=
  match Binary64.ofFloat x with
  | .nan => nanText
  | .infinite negative => signed negative infinityText
  | .finite negative 0 _ => signed negative "0"
  | .finite negative mantissa exponent =>
    let (digits, power) := (RoundingInterval.of mantissa exponent).shortest
    signed negative (positional digits power)

end ClauseSharing.Decimal
