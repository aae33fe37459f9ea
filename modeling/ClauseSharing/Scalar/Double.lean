import ClauseSharing.Scalar
import ClauseSharing.Decimal.Shortest

/-!
Doubles as scalars: the arithmetic in which the library runs.
-/

namespace ClauseSharing

/-- The place of a double in the total order of all doubles: negative before positive, zeros told
apart, and what is no number above infinity. -/
def doubleRank (x : Float) : Int :=
  let bits := x.toBits.toNat
  if bits < 0x8000000000000000 then bits else 0x7fffffffffffffff - bits

instance : Scalar Float where
  ofInt n := Float.ofInt n
  emptySum := -0.0
  eq x y := x == y
  lt x y := x < y
  le x y := x ≤ y
  order x y := compare (doubleRank x) (doubleRank y)
  isFinite x := x.isFinite
  belowInfinity x := x < 1.0 / 0.0
  abs x := x.abs
  pow x n := Float.pow x (Float.ofInt n)
  text x := Decimal.shortest x

end ClauseSharing
