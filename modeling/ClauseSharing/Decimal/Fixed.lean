import ClauseSharing.Decimal.Binary64
import ClauseSharing.Decimal.Layout

/-!
The decimal text of a double with a set number of places.

The exact value of the double is rounded, and a tie goes to the even neighbour.
-/

namespace ClauseSharing.Decimal

/-- The quotient rounded to the nearest whole number, a tie to the even one. -/
def roundDiv (num den : Nat) : Nat :=
  let below := num / den
  let rest := num % den
  if 2 * rest < den then below
  else if den < 2 * rest then below + 1
  else if below % 2 = 0 then below else below + 1

/-- The decimal text of a double with the given positive number of places. -/
def fixed (places : Nat) (x : Float) : String :=
  match Binary64.ofFloat x with
  | .nan => nanText
  | .infinite negative => signed negative infinityText
  | .finite negative mantissa exponent =>
    signed negative <| withPlaces places <|
      roundDiv (mantissa * Nat.pow 10 places * Nat.pow 2 exponent.toNat)
        (Nat.pow 2 (-exponent).toNat)

end ClauseSharing.Decimal
