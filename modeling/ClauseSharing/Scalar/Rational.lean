import ClauseSharing.Scalar

/-!
Exact fractions as scalars: the reading in which the laws of the estimators hold exactly.
-/

namespace ClauseSharing

instance : Scalar Rat where
  ofInt n := n
  emptySum := 0
  eq x y := x = y
  lt x y := x < y
  le x y := x ≤ y
  order x y := if x < y then .lt else if x = y then .eq else .gt
  isFinite _ := true
  belowInfinity _ := true
  abs x := if x < 0 then -x else x
  pow x n := x.zpow n
  text x := toString x.num ++ "/" ++ toString x.den

end ClauseSharing
